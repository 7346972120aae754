/-!
One-line texts of records and of their parts, as they stand in summaries and in the fields of
events.

A record is written as its name followed by its fields in braces. An open record ends in two dots
and so says that it has parts it does not show.
-/

namespace TileAtlas.Text

def fields (parts : List (String × String)) : String :=
  String.intercalate ", " (parts.map fun part => part.1 ++ ": " ++ part.2)

/-- A record that shows all of its fields. -/
def record (name : String) (parts : List (String × String)) : String :=
  name ++ " \x7b " ++ fields parts ++ " \x7d"

/-- A record that shows some of its fields. -/
def openRecord (name : String) (parts : List (String × String)) : String :=
  name ++ " \x7b " ++ fields parts ++ ", .. \x7d"

def wrapped (name value : String) : String := name ++ "(" ++ value ++ ")"

def optional : Option String → String
  | none => "None"
  | some value => wrapped "Some" value

def pair (first second : String) : String := "(" ++ first ++ ", " ++ second ++ ")"

/-- A number in base sixteen, in lower case and after its mark. -/
def hex (n : Nat) : String := "0x" ++ String.ofList (Nat.toDigits 16 n)

example : record "Point" [("x", "1"), ("y", "2")] = "Point \x7b x: 1, y: 2 \x7d" := by decide

end TileAtlas.Text
