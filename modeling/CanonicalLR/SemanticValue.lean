/-!
What the rules of the combinators need of the values they build.
-/
namespace CanonicalLR

/-- Values that can be absent, that can hold a list which may be taken out again, and that
can hold a sequence. -/
class SemanticValue (V : Type) where
  none : V
  list : List V → V
  asList : V → Option (List V)
  vec : List V → V

/-- A value made from a list gives that list back. -/
class LawfulSemanticValue (V : Type) [SemanticValue V] : Prop where
  asList_list (l : List V) : SemanticValue.asList (SemanticValue.list l) = some l

attribute [simp] LawfulSemanticValue.asList_list

end CanonicalLR
