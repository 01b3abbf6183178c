import CanonicalLR.Symbol

/-!
Rules of a grammar, with what their author attached to them: a priority and an
associativity, which settle conflicts between actions, and a handler, which makes
the value of the head out of the values of the body.
-/
namespace CanonicalLR

/-- The number of a rule in its grammar. -/
abbrev RuleId := Nat

/-- How rules of equal priority group when they compete. -/
inductive Associativity where
  | left
  | right
  deriving DecidableEq, Repr

/-- What an author may attach to a rule. -/
structure Decoration (V : Type) where
  priority : Option Int := none
  associativity : Option Associativity := none
  handler : Option (List V → V) := none

/-- The rule that replaces `head` by `body`. -/
structure Rule (V : Type) extends Decoration V where
  id : RuleId
  head : NonTerminal
  body : List Symbol

namespace Rule

variable {V : Type} (rule : Rule V)

def length : Nat := rule.body.length

/-- The value of the head, if the rule has a handler. -/
def reduce? (values : List V) : Option V :=
  rule.handler.map fun h => h values

end Rule

end CanonicalLR
