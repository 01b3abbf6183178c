import CanonicalLR.Text

/-!
Outlines: trees of records, variants and collections, which show a value field by
field. The text of an outline is one line.
-/
namespace CanonicalLR

inductive Outline where
  /-- A number or a bare word. -/
  | atom (text : String)
  | quoted (text : String)
  /-- A constructor with its arguments. -/
  | variant (name : String) (arguments : List Outline)
  | record (name : String) (fields : List (String × Outline))
  | sequence (items : List Outline)
  | set (items : List Outline)
  | map (entries : List (Outline × Outline))

namespace Outline

def hexDigits (n : Nat) : String := String.ofList (Nat.toDigits 16 n)

/-- A character inside quotes: quotes and backslashes have a backslash before them, and control
characters are written by name or by number. -/
def escapeChar (c : Char) : String :=
  if c = '"' then "\\\""
  else if c = '\\' then "\\\\"
  else if c = '\n' then "\\n"
  else if c = '\r' then "\\r"
  else if c = '\t' then "\\t"
  else if c = '\x00' then "\\0"
  else if c.toNat < 0x20 || c.toNat = 0x7F then "\\u\x7b" ++ hexDigits c.toNat ++ "\x7d"
  else c.toString

def quote (text : String) : String :=
  "\"" ++ String.join (text.toList.map escapeChar) ++ "\""

mutual

def text : Outline → String
  | .atom s => s
  | .quoted s => quote s
  | .variant name arguments => name ++ "(" ++ joined ", " (texts arguments) ++ ")"
  | .record name fields => name ++ " \x7b " ++ joined ", " (fieldTexts fields) ++ " \x7d"
  | .sequence items => "[" ++ joined ", " (texts items) ++ "]"
  | .set items => "\x7b" ++ joined ", " (texts items) ++ "\x7d"
  | .map entries => "\x7b" ++ joined ", " (entryTexts entries) ++ "\x7d"

def texts : List Outline → List String
  | [] => []
  | o :: rest => text o :: texts rest

def fieldTexts : List (String × Outline) → List String
  | [] => []
  | (name, o) :: rest => (name ++ ": " ++ text o) :: fieldTexts rest

def entryTexts : List (Outline × Outline) → List String
  | [] => []
  | (key, o) :: rest => (text key ++ ": " ++ text o) :: entryTexts rest

end

def ofNat (n : Nat) : Outline := .atom (toString n)

def ofInt (n : Int) : Outline := .atom (toString n)

def ofBool (b : Bool) : Outline := .atom (if b then "true" else "false")

def ofOption {α : Type} (f : α → Outline) : Option α → Outline
  | none => .atom "None"
  | some a => .variant "Some" [f a]

end Outline

end CanonicalLR
