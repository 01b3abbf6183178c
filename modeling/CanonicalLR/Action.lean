import CanonicalLR.Item

/-!
What a state can do with the next terminal, and the items that propose it.
-/
namespace CanonicalLR

/-- The number of a state. -/
abbrev StateId := Nat

inductive Action where
  | shift (target : StateId)
  | reduce (rule : RuleId)
  | accept
  | error
  deriving DecidableEq, Repr

/-- An item asks for an action under a terminal. -/
structure Proposal where
  terminal : Terminal
  item : Item
  action : Action
  deriving DecidableEq, Repr

/-- An action with the first item that asks for it and the others that do. -/
structure Candidate where
  item : Item
  action : Action
  duplicates : List Item
  deriving DecidableEq, Repr

namespace Candidate

/-- Count the proposal among the candidates: with the one of the same action, else at the end. -/
def add : List Candidate → Proposal → List Candidate
  | [], p => [⟨p.item, p.action, []⟩]
  | c :: rest, p =>
    if c.action = p.action then { c with duplicates := c.duplicates ++ [p.item] } :: rest
    else c :: add rest p

/-- One candidate for each action proposed, in the order in which the actions first appear. -/
def ofProposals (ps : List Proposal) : List Candidate := ps.foldl add []

end Candidate

end CanonicalLR
