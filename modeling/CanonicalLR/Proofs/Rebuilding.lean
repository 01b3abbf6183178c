import CanonicalLR.Proofs.Ambiguities

/-!
Building a collection again. All states that are reached have been found by then, so
only the initial state is visited again, and finds its successors where they are. It
writes down the same proposals once more; as those are counted with the candidates that
are there already, nothing else comes of it.
-/
namespace CanonicalLR

variable {V : Type} {g : Grammar V}

/-! ### Candidates of proposals that are made again -/

namespace Candidate

variable {cs : List Candidate} {p : Proposal} {ps qs : List Proposal}

/-- The candidate if all its proposals are made so many times more. -/
def again (more : Nat) (c : Candidate) : Candidate :=
  { c with duplicates := c.duplicates ++ (List.replicate more c.items).flatten }

end Candidate

/-! ### What is settled on -/

/-- The verdict with another candidate in the place of its own. -/
def Verdict.map (f : Candidate → Candidate) : Verdict → Verdict
  | .nothing => .nothing
  | .unopposed c => .unopposed (f c)
  | .byPriority c => .byPriority (f c)
  | .byAssociativity c => .byAssociativity (f c)

namespace Candidate

variable {f : Candidate → Candidate} (same : ∀ c, (f c).item = c.item) (cs : List Candidate)
include same

end Candidate

/-- The actions between which an ambiguity leaves open what to do, with their items, and where. -/
def Ambiguity.contest (e : Ambiguity) : StateId × Terminal × List (Item × Action) :=
  (e.state, e.terminal, e.candidates.map fun d => (d.item, d.action))

namespace State

variable {state : State} {t : Terminal}

/-- The state if all is proposed so many times more. -/
def again (more : Nat) (state : State) : State :=
  { state with proposals := (List.replicate (more + 1) state.proposals).flatten }

end State

/-! ### Collections that are built again -/

namespace Collection

variable {c : Collection} {rule : Rule V}

/-- The collection if all that the initial state proposes is proposed so many times more. -/
def again (more : Nat) (c : Collection) : Collection :=
  { c with states := c.states.modify 0 (State.again more) }

theorem itemSets_again (more : Nat) (c : Collection) : (c.again more).itemSets = c.itemSets := by
  refine map_modify_of_eq ?_ c.states 0
  exact fun _ => rfl

theorem Indexed.again (indexed : c.Indexed) (more : Nat) : (c.again more).Indexed := by
  refine indexed.of_states (map_modify_of_eq ?_ c.states 0) (itemSets_again more c) rfl
  exact fun _ => rfl

end Collection

/-! ### Tables -/

namespace Table

end Table

/-! ### What building again comes to -/

/-- How many items ask for the action. -/
def ItemSet.askers (g : Grammar V) (c : Collection) (items : ItemSet) (t : Terminal) (a : Action) :
    Nat :=
  items.toList.countP fun i => i.Asks g c items t a

/-- The state has the items and the transitions of the other one, something to do under the same
terminals, and does the same, or leaves the same open. -/
structure State.Agrees (g : Grammar V) (id : StateId) (state state' : State) : Prop where
  items : state'.items = state.items
  transitions : state'.transitions = state.transitions
  terminals : state'.terminals = state.terminals
  conflicts : state'.hasConflicts = state.hasConflicts
  settles : ∀ t, ((state'.settle g id t).map Verdict.action).mapError Ambiguity.contest =
    ((state.settle g id t).map Verdict.action).mapError Ambiguity.contest

/-- The second collection is the first with all that the initial state proposes so many times over,
and that shows nowhere but in the numbers of duplicates of this state. -/
structure Collection.Repeats (g : Grammar V) (times : Nat) (once many : Collection) : Prop where
  size : many.size = once.size
  agrees : ∀ id state, once.state? id = some state →
    ∃ state', many.state? id = some state' ∧ state.Agrees g id state'
  others : ∀ id, id ≠ 0 → many.state? id = once.state? id
  candidates : ∀ state state', once.state? 0 = some state → many.state? 0 = some state' → ∀ t,
    (state'.candidates t).map (fun d => (d.item, d.action)) =
        (state.candidates t).map (fun d => (d.item, d.action)) ∧
      ∀ d ∈ state'.candidates t,
        d.duplicates.length + 1 = times * state.items.askers g once t d.action
  table : (Table.ofCollection g many).mapError Ambiguity.contest =
    (Table.ofCollection g once).mapError Ambiguity.contest

end CanonicalLR
