import CanonicalLR.Action
import CanonicalLR.ItemSet

/-!
The canonical collection of item sets. A state is known by its item set, and an index
has the number of the state for each set; states are found breadth first from the
closure of the first start rule, and the successors of a state are taken in symbol
order.
-/
namespace CanonicalLR

structure State where
  /-- The number of the state, under which it is reported. -/
  id : StateId
  items : ItemSet
  /-- The states reached over the symbols after the dots, in symbol order. -/
  transitions : List (Symbol × StateId)
  /-- What the items propose, in item order; again as often as the state is visited. -/
  proposals : List Proposal
  deriving DecidableEq

namespace State

variable {V : Type}

def ofItems (id : StateId) (items : ItemSet) : State := ⟨id, items, [], []⟩

/-- The state reached over the symbol. -/
def target? (state : State) (s : Symbol) : Option StateId := state.transitions.lookup s

/-- The states reached over non-terminals. -/
def gotos (state : State) : List (NonTerminal × StateId) :=
  state.transitions.filterMap fun (s, target) => s.nonTerminal?.map fun n => (n, target)

/-- What one item proposes: to shift the terminal after the dot, or at the end of its rule to
reduce under its lookahead, which for a start rule before the end of input is to accept. -/
def proposal? (g : Grammar V) (transitions : List (Symbol × StateId)) (i : Item) :
    Option Proposal :=
  match i.symbol? g with
  | some (.terminal t) =>
    (transitions.lookup (.terminal t)).map fun target => ⟨t, i, .shift target⟩
  | some (.nonTerminal _) => none
  | none =>
    if (g.rule? i.rule).map Rule.head = some g.start ∧ i.lookahead = g.eos then
      some ⟨g.eos, i, .accept⟩
    else some ⟨i.lookahead, i, .reduce i.rule⟩

def proposalsOf (g : Grammar V) (items : ItemSet) (transitions : List (Symbol × StateId)) :
    List Proposal :=
  items.toList.filterMap (proposal? g transitions)

/-- The terminals under which something is proposed. -/
def terminals (state : State) : OrderedSet Terminal :=
  .ofList (state.proposals.map Proposal.terminal)

/-- The different actions proposed under the terminal. -/
def candidates (state : State) (t : Terminal) : List Candidate :=
  Candidate.ofProposals (state.proposals.filter fun p => p.terminal = t)

/-- More than one action is proposed under some terminal. -/
def hasConflicts (state : State) : Bool :=
  state.terminals.toList.any fun t => 1 < (state.candidates t).length

end State

/-- The states found so far, by number, and the index from item sets to these numbers. -/
structure Collection where
  states : List State
  /-- The entries, the last one made in front. -/
  index : List (ItemSet × StateId)
  deriving DecidableEq

namespace Collection

variable {V : Type} (g : Grammar V)

def empty : Collection := ⟨[], []⟩

def size (c : Collection) : Nat := c.states.length

def state? (c : Collection) (id : StateId) : Option State := c.states[id]?

/-- The number that the index has for these items. -/
def find? (c : Collection) (items : ItemSet) : Option StateId := c.index.lookup items

/-- The number of the state with these items, which is added and indexed if it is new. -/
def intern (c : Collection) (items : ItemSet) : StateId × Collection :=
  match c.find? items with
  | some id => (id, c)
  | none => (c.size, ⟨c.states ++ [.ofItems c.size items], (items, c.size) :: c.index⟩)

/-- Intern the sets reached over the symbols, one after the other. -/
def internAll (items : ItemSet) :
    List Symbol → Collection → List (Symbol × StateId) × Collection
  | [], c => ([], c)
  | s :: rest, c =>
    let (target, c) := c.intern (items.goto g s)
    let (edges, c) := internAll items rest c
    ((s, target) :: edges, c)

/-- Find the successors of a state and write down what its items propose. -/
def visit (c : Collection) (id : StateId) : Collection :=
  match c.state? id with
  | none => c
  | some state =>
    let (transitions, c) := internAll g state.items (state.items.nextSymbols g).toList c
    let proposals := State.proposalsOf g state.items transitions
    let states := c.states.modify id fun s =>
      { s with transitions := transitions, proposals := s.proposals ++ proposals }
    { c with states := states }

/-- Visit the states from this number on, and those found on the way. -/
def visitFrom : Nat → StateId → Collection → Collection
  | 0, _, c => c
  | fuel + 1, next, c =>
    if next < c.size then visitFrom fuel (next + 1) (c.visit g next) else c

/-- The number of items that the states can hold: a rule, a place in its body, and a lookahead. -/
def itemCount : Nat :=
  (Analysis.occurrences g.rules + g.rules.length) *
    (g.analysis.first.size + Analysis.occurrences g.rules + 1)

/-- Visit the initial state, and then every state that is new by that. -/
def build (c : Collection) : Collection :=
  visitFrom g (Nat.pow 2 (itemCount g)) c.size (c.visit g 0)

/-- Build that many times over. -/
def rebuild : Nat → Collection → Collection
  | 0, c => c
  | times + 1, c => rebuild times (c.build g)

/-- The collection with only the closure of the first item of this rule. -/
def initial (rule : Rule V) : Collection :=
  (empty.intern (ItemSet.close g (.ofList [⟨rule.id, 0, g.eos⟩]))).2

end Collection

/-- What is wrong with the start rule of a grammar. -/
inductive StartFault where
  | noRule
  | manyRules (count : Nat)
  /-- The body of the rule is not a single non-terminal. -/
  | badBody (rule : RuleId)
  /-- There is no rule to start the collection from. -/
  | missing
  deriving DecidableEq, Repr

namespace Grammar

variable {V : Type} (g : Grammar V)

/-- The start symbol must have one rule, and that a single non-terminal for its body. -/
def checkStart : Except StartFault (Rule V) :=
  match g.rulesOf g.start with
  | [] => .error .noRule
  | [rule] =>
    match rule.body with
    | [.nonTerminal _] => .ok rule
    | _ => .error (.badBody rule.id)
  | rules => .error (.manyRules rules.length)

/-- The initial state for the first start rule, whatever its form. -/
def initialCollection? : Except StartFault Collection :=
  match g.rulesOf g.start with
  | [] => .error .missing
  | rule :: _ => .ok (.initial g rule)

/-- The canonical collection of a grammar with a proper start rule. -/
def collection? : Except StartFault Collection := do
  let rule ← g.checkStart
  return (Collection.initial g rule).build g

end Grammar

end CanonicalLR
