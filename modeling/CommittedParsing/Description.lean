import CommittedParsing.Text.Quoted

/-!
# Descriptions of parsers

A parser cannot be looked into, so its description names the kind of parser and shows a
placeholder for what is inside. A description is written on one line or over several.
-/

namespace CommittedParsing

open Text

/-- The kind of a thing, and its fields with their values as texts. -/
structure Description where
  kind : String
  fields : List (String × String)

namespace Description

/-- A text value of a field. -/
def textField (value : String) : String := String.ofList (quoted value.toList)

/-- A parser whose type is hidden. -/
def boxed : Description := ⟨"BoxedParser", [("parser", textField "<parser>")]⟩

/-- A parser under a label. -/
def labelled (expected : String) : Description :=
  ⟨"Label", [("parser", textField "<parser>"), ("expected", textField expected)]⟩

/-- Everything on one line. -/
def compact (d : Description) : String :=
  d.kind ++ " \x7b " ++ ", ".intercalate (d.fields.map fun (name, value) => name ++ ": " ++ value) ++
    " \x7d"

/-- One field on each line. -/
def expanded (d : Description) : String :=
  d.kind ++ " \x7b\n" ++
    String.join (d.fields.map fun (name, value) => "    " ++ name ++ ": " ++ value ++ ",\n") ++ "\x7d"

end Description

end CommittedParsing
