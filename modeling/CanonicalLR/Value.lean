import CanonicalLR.SemanticValue
import CanonicalLR.Text

/-!
A ready-made type of semantic values, with handlers for rules that only rearrange
what they get.
-/
namespace CanonicalLR

inductive Value where
  | none
  | leaf (text : String)
  | list (values : List Value)
  | vec (values : List Value)
  deriving Repr, Inhabited

namespace Value

mutual

def decEq : (a b : Value) → Decidable (a = b)
  | .none, .none => isTrue rfl
  | .leaf s, .leaf t => decidable_of_iff (s = t) (by simp)
  | .list l, .list m =>
    match decEqList l m with
    | isTrue h => isTrue (by rw [h])
    | isFalse h => isFalse (by simpa using h)
  | .vec l, .vec m =>
    match decEqList l m with
    | isTrue h => isTrue (by rw [h])
    | isFalse h => isFalse (by simpa using h)
  | .none, .leaf _ | .none, .list _ | .none, .vec _ => isFalse (by simp)
  | .leaf _, .none | .leaf _, .list _ | .leaf _, .vec _ => isFalse (by simp)
  | .list _, .none | .list _, .leaf _ | .list _, .vec _ => isFalse (by simp)
  | .vec _, .none | .vec _, .leaf _ | .vec _, .list _ => isFalse (by simp)

def decEqList : (l m : List Value) → Decidable (l = m)
  | [], [] => isTrue rfl
  | [], _ :: _ => isFalse (by simp)
  | _ :: _, [] => isFalse (by simp)
  | a :: l, b :: m =>
    match decEq a b, decEqList l m with
    | isTrue h, isTrue h' => isTrue (by rw [h, h'])
    | isFalse h, _ => isFalse (by simp [h])
    | _, isFalse h => isFalse (by simp [h])

end

instance : DecidableEq Value := decEq

instance : SemanticValue Value where
  none := .none
  list := .list
  asList
    | .list values => some values
    | _ => Option.none
  vec := .vec

instance : LawfulSemanticValue Value where
  asList_list _ := rfl

mutual

/-- The value as one text: absence is `_`, lists are in braces and sequences in brackets. -/
def text : Value → String
  | .none => "_"
  | .leaf text => text
  | .list values => "\x7b" ++ joined " " (texts values) ++ "\x7d"
  | .vec values => "[" ++ joined " " (texts values) ++ "]"

def texts : List Value → List String
  | [] => []
  | value :: rest => text value :: texts rest

end

end Value

/-- A handler that rearranges the values of a body. -/
inductive Rearrangement where
  /-- The value at this place, or none. -/
  | pick (place : Nat)
  /-- The tag as a leaf, and then the values. -/
  | node (tag : String)
  /-- A leaf with the texts of the values in parentheses. -/
  | paren
  | list
  /-- A leaf with the number of values. -/
  | count
  | none
  deriving DecidableEq, Repr

def Rearrangement.apply : Rearrangement → List Value → Value
  | .pick place, values => (values[place]?).getD .none
  | .node tag, values => .vec (.leaf tag :: values)
  | .paren, values => .leaf ("(" ++ String.join (Value.texts values) ++ ")")
  | .list, values => .list values
  | .count, values => .leaf (toString values.length)
  | .none, _ => .none

end CanonicalLR
