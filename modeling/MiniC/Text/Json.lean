import MiniC.Text.Quoted

/-!
# JSON

Values with members in a fixed order, and their text: two blanks to a level, a blank after a colon, and
nothing between the brackets of an empty array or object. Strings escape the quote, the backslash and
the control characters below the blank, and nothing else.
-/

namespace MiniC.Text

/-- The values that are written. -/
inductive Json where
  | string (value : String)
  | number (value : Int)
  | array (items : List Json)
  | object (members : List (String × Json))

namespace Json

/-- One character of a string. -/
def escapedChar (c : Char) : String :=
  match c with
  | '"' => "\\\""
  | '\\' => "\\\\"
  | '\n' => "\\n"
  | '\r' => "\\r"
  | '\t' => "\\t"
  | '\x08' => "\\b"
  | '\x0c' => "\\f"
  | c =>
    if c.toNat < 0x10 then "\\u000" ++ hexadecimal c.toNat
    else if c.toNat < 0x20 then "\\u00" ++ hexadecimal c.toNat
    else c.toString

/-- A string with its quotes. -/
def stringText (s : String) : String :=
  "\"" ++ String.join (s.toList.map escapedChar) ++ "\""

/-- The start of a line at a level. -/
def newLine (level : Nat) : String :=
  "\n" ++ String.ofList (List.replicate (2 * level) ' ')

mutual

/-- The text of a value whose first line stands at a level. -/
def textAt (level : Nat) : Json → String
  | .string value => stringText value
  | .number value => toString value
  | .array [] => "[]"
  | .array (item :: items) =>
    "[" ++ newLine (level + 1) ++ item.textAt (level + 1) ++ itemsText (level + 1) items ++
      newLine level ++ "]"
  | .object [] => "\x7b\x7d"
  | .object (member :: members) =>
    "\x7b" ++ newLine (level + 1) ++ memberText (level + 1) member ++ membersText (level + 1) members ++
      newLine level ++ "\x7d"

/-- The items after the first. -/
def itemsText (level : Nat) : List Json → String
  | [] => ""
  | item :: items => "," ++ newLine level ++ item.textAt level ++ itemsText level items

/-- A member: its name and its value. -/
def memberText (level : Nat) : String × Json → String
  | (name, value) => stringText name ++ ": " ++ value.textAt level

/-- The members after the first. -/
def membersText (level : Nat) : List (String × Json) → String
  | [] => ""
  | member :: members =>
    "," ++ newLine level ++ memberText level member ++ membersText level members

end

/-- The text of a value. -/
def text (j : Json) : String :=
  j.textAt 0

end Json

end MiniC.Text
