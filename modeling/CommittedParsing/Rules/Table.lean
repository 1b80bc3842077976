import CommittedParsing.Rules.Store

/-!
# Tables of handles

Handles are held under names, one handle under each name.

Main statements:
* `Table.find?_insert_self`, `Table.mem_of_find?` — what is found under a name;
* `Table.mem_kept_iff`, `Table.mem_kept_insert`, `Table.mem_kept_erase` — what is kept alive, before
  and after a change.
-/

namespace CommittedParsing

/-- Handles under names. -/
structure Table where
  entries : List (String × Handle)

namespace Table

/-- No handles. -/
def empty : Table := ⟨[]⟩

/-- The handle under a name. -/
def find? (t : Table) (name : String) : Option Handle :=
  (t.entries.find? fun entry => entry.1 == name).map Prod.snd

/-- Take the handle under a name away. -/
def erase (t : Table) (name : String) : Table :=
  ⟨t.entries.filter fun entry => !(entry.1 == name)⟩

/-- Put a handle under a name, in place of the one that was there. -/
def insert (t : Table) (name : String) (h : Handle) : Table :=
  ⟨(name, h) :: (t.erase name).entries⟩

/-- The rules that the handles of a table keep alive. -/
def kept (t : Table) : List Nat := t.entries.filterMap fun (_, h) => h.kept?

/-- A grammar as a definition, with the handles for the names it refers to. -/
def close (t : Table) (body : Grammar) : Definition :=
  ⟨body, t.entries.filter fun entry => body.freeNames.contains entry.1⟩

/-- The latest entry of a name is the one that is found. -/
theorem find?_insert_self (t : Table) (name : String) (h : Handle) :
    (t.insert name h).find? name = some h := by
  simp [find?, insert]

theorem mem_of_find? {t : Table} {name : String} {h : Handle} (hfind : t.find? name = some h) :
    (name, h) ∈ t.entries := by
  rcases Option.map_eq_some_iff.1 hfind with ⟨⟨name', h'⟩, hentry, heq⟩
  have hname : name' = name := by simpa using List.find?_some hentry
  have hmem := List.mem_of_find?_eq_some hentry
  rw [hname] at hmem
  cases heq
  exact hmem

/-! ## What is kept alive -/

theorem mem_kept_iff {t : Table} {rule : Nat} :
    rule ∈ t.kept ↔ ∃ name, (name, Handle.strong rule) ∈ t.entries := by
  simp only [kept, List.mem_filterMap]
  constructor
  · rintro ⟨⟨name, h⟩, hmem, hkept⟩
    exact ⟨name, Handle.kept?_eq_some_iff.1 hkept ▸ hmem⟩
  · rintro ⟨name, hmem⟩
    exact ⟨_, hmem, rfl⟩

/-- A new entry adds no rule but its own to those that are kept. -/
theorem mem_kept_insert {t : Table} {name : String} {h : Handle} {rule : Nat}
    (hmem : rule ∈ (t.insert name h).kept) : h.kept? = some rule ∨ rule ∈ t.kept := by
  rcases mem_kept_iff.1 hmem with ⟨name', hentry⟩
  rcases List.mem_cons.1 hentry with heq | hentry
  · cases heq
    exact .inl rfl
  · exact .inr (mem_kept_iff.2 ⟨name', (List.mem_filter.1 hentry).1⟩)

theorem mem_kept_erase {t : Table} {name : String} {rule : Nat}
    (hmem : rule ∈ (t.erase name).kept) : rule ∈ t.kept := by
  rcases mem_kept_iff.1 hmem with ⟨name', hentry⟩
  exact mem_kept_iff.2 ⟨name', (List.mem_filter.1 hentry).1⟩

end Table

end CommittedParsing
