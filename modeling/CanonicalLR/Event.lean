import CanonicalLR.Text

/-!
What there is to report of the work on a grammar, in the order in which it happens.
Events are read off the results, so reporting cannot change them.
-/
namespace CanonicalLR

inductive Level where
  | debug
  | trace
  deriving DecidableEq, Repr

def Level.text : Level → String
  | .debug => "DEBUG"
  | .trace => "TRACE"

inductive Event where
  | analysed (rules : Nat) (nullable : List NonTerminal)
  | stateFound (id : StateId) (items : ItemSet)
  | collectionBuilt (states : Nat)
  | wonByPriority (state : StateId) (terminal : Terminal) (winner : Candidate)
  | wonByAssociativity (state : StateId) (terminal : Terminal) (winner : Candidate)
  | tableGenerated (states : Nat)
  | decided (state : StateId) (terminal : Terminal) (action : Action)

namespace Event

variable {V : Type} (g : Grammar V)

def level : Event → Level
  | .analysed .. | .collectionBuilt _ | .tableGenerated _ => .debug
  | .stateFound .. | .wonByPriority .. | .wonByAssociativity .. | .decided .. => .trace

/-- The state and the terminal that an event is about. -/
def placeText? (state : StateId) (terminal : Terminal) : Option String := do
  let name ← g.symbols.name? (.terminal terminal)
  return "state #" ++ toString state ++ ", " ++ name ++ ": "

def message? : Event → Option String
  | .analysed rules nullable => do
    let names ← g.symbols.names? (nullable.map Symbol.nonTerminal)
    return "grammar analysis done: " ++ toString rules ++ " rules, nullable = \x7b" ++
      joined ", " names ++ "\x7d"
  | .stateFound id items => do
    return "state #" ++ toString id ++ ": " ++ (← ItemSet.text? g items)
  | .collectionBuilt states =>
    some ("canonical collection built: " ++ toString states ++ " states")
  | .wonByPriority state terminal winner => do
    return (← placeText? g state terminal) ++ (← winner.text? g) ++ " wins by priority"
  | .wonByAssociativity state terminal winner => do
    return (← placeText? g state terminal) ++ (← winner.text? g) ++ " wins by associativity"
  | .tableGenerated states => some ("LR(1) table generated: " ++ toString states ++ " states")
  | .decided state terminal action => do
    return (← placeText? g state terminal) ++ action.text

def line? (e : Event) : Option String := do
  return e.level.text ++ " " ++ (← e.message? g)

end Event

/-- The event of finishing a grammar. -/
def Grammar.events {V : Type} (g : Grammar V) : List Event :=
  [.analysed g.rules.length g.analysis.nullable.toList]

/-- The states that a collection has beyond the first so many. -/
def Collection.foundEvents (c : Collection) (known : Nat) : List Event :=
  (c.states.drop known).map fun state => .stateFound state.id state.items

/-- The events of building a collection that had so many states before. -/
def Collection.buildEvents (c : Collection) (known : Nat) : List Event :=
  c.foundEvents known ++ [.collectionBuilt c.size]

/-- The events of building that many times over. -/
def Collection.rebuildEvents {V : Type} (g : Grammar V) : Nat → Collection → List Event
  | 0, _ => []
  | times + 1, c => (c.build g).buildEvents c.size ++ rebuildEvents g times (c.build g)

/-- The event of settling an action, if there was a choice to make. -/
def Verdict.event? (state : StateId) (terminal : Terminal) : Verdict → Option Event
  | .nothing | .unopposed _ => none
  | .byPriority c => some (.wonByPriority state terminal c)
  | .byAssociativity c => some (.wonByAssociativity state terminal c)

namespace State

variable {V : Type} (g : Grammar V)

/-- The outcome for each terminal under which the state has a proposal. -/
def settleAll (state : State) (id : StateId) :
    List (StateId × Terminal × Except Ambiguity Verdict) :=
  state.terminals.toList.map fun t => (id, t, state.settle g id t)

/-- The events of settling each terminal of the state. -/
def settleEvents (state : State) (id : StateId) : List Event :=
  (state.settleAll g id).filterMap fun (s, t, outcome) =>
    match outcome with
    | .ok verdict => verdict.event? s t
    | .error _ => none

end State

/-- The events of settling all cells of a table, up to the first ambiguity. -/
def Collection.settleEvents {V : Type} (g : Grammar V) (c : Collection) : List Event :=
  let outcomes := c.states.flatMap fun state => state.settleAll g state.id
  (outcomes.takeWhile fun (_, _, outcome) => outcome.isOk).filterMap fun (s, t, outcome) =>
    match outcome with
    | .ok verdict => verdict.event? s t
    | .error _ => none

end CanonicalLR
