import CanonicalLR.Collection

/-!
Settling a conflict. Of several candidate actions those of the highest priority
remain, provided that every candidate's rule has one; among equals of one
associativity the dot decides, furthest for left and nearest for right. Whatever is
not settled so is an ambiguity.
-/
namespace CanonicalLR

namespace Candidate

variable {V : Type} (g : Grammar V)

def priority? (c : Candidate) : Option Int := g.priority? c.item.rule

def associativity? (c : Candidate) : Option Associativity := g.associativity? c.item.rule

/-- The candidates of the highest priority, or all of them if one has no priority. -/
def highest (cs : List Candidate) : List Candidate :=
  if cs.all fun c => (c.priority? g).isSome then
    cs.filter fun c => cs.all fun d => (d.priority? g).getD 0 ≤ (c.priority? g).getD 0
  else cs

/-- No candidate's dot is beyond this one's, on the side that the associativity prefers. -/
def isExtreme (cs : List Candidate) (c : Candidate) : Associativity → Bool
  | .left => cs.all fun d => d.item.position ≤ c.item.position
  | .right => cs.all fun d => c.item.position ≤ d.item.position

/-- The candidate that associativity prefers: all must agree in priority and associativity, and
one dot must be beyond all others. -/
def breakTie (cs : List Candidate) : Option Candidate := do
  let first ← cs.head?
  let priority ← first.priority? g
  let associativity ← first.associativity? g
  if cs.all fun c => c.priority? g = some priority ∧ c.associativity? g = some associativity then
    match cs.filter fun c => isExtreme cs c associativity with
    | [winner] => some winner
    | _ => none
  else none

end Candidate

/-- How the action under a terminal was found. -/
inductive Verdict where
  /-- Nothing is proposed. -/
  | nothing
  | unopposed (c : Candidate)
  | byPriority (c : Candidate)
  | byAssociativity (c : Candidate)
  deriving DecidableEq, Repr

def Verdict.action : Verdict → Action
  | .nothing => .error
  | .unopposed c | .byPriority c | .byAssociativity c => c.action

/-- Settle which of the candidates is to be done, or give those between which it is open. -/
def Candidate.settle {V : Type} (g : Grammar V) (cs : List Candidate) :
    Except (List Candidate) Verdict :=
  match cs with
  | [] => .ok .nothing
  | [c] => .ok (.unopposed c)
  | cs =>
    match highest g cs with
    | [c] => .ok (.byPriority c)
    | equals =>
      match breakTie g equals with
      | some c => .ok (.byAssociativity c)
      | none => .error equals

/-- A terminal on which a state has several actions and no way to choose. -/
structure Ambiguity where
  state : StateId
  terminal : Terminal
  candidates : List Candidate
  deriving DecidableEq, Repr

/-- Settle the action of a state under a terminal; what stays open is reported under the number. -/
def State.settle {V : Type} (g : Grammar V) (state : State) (id : StateId) (t : Terminal) :
    Except Ambiguity Verdict :=
  (Candidate.settle g (state.candidates t)).mapError fun cs => ⟨id, t, cs⟩

end CanonicalLR
