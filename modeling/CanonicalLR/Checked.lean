import CanonicalLR.Loop
import CanonicalLR.Text

/-!
The generation of a table with every look-up that it makes: the entries that the
analysis keeps for the non-terminals of the grammar, the rules and the states by their
numbers, and the names of symbols for messages and for a log that writes everything. A
look-up that finds nothing leaves nothing of the whole, and so does a loop that goes
on for ever.
-/
namespace CanonicalLR

namespace Checked

/-- A round that looks things up gives the next state, or none after the last one. -/
abbrev Round (σ : Type) := σ → Option (Option σ)

/-- Go round until there is no next round. -/
def Round.run {σ : Type} (round : Round σ) (s : σ) : Option σ := do
  match ← round s with
  | none => return s
  | some s' => round |>.run s'
partial_fixpoint

variable {V : Type}

/-! ### The analysis -/

section

variable {α : Type} [Ord α] [Std.TransOrd α] [Std.LawfulEqOrd α]

def grow (state : OrderedSet α × Bool) (step : OrderedSet α → Option (List α)) :
    Option (OrderedSet α × Bool) := do
  let found ← step state.1
  return Loop.grow state fun _ => found

/-- A pass that ends in nothing as soon as one of its steps does. -/
def growing (steps : List (OrderedSet α → Option (List α))) :
    OrderedSet α × Bool → Option (Option (OrderedSet α × Bool))
  | (_, false) => some none
  | (s, true) => do return some (← steps.foldlM grow (s, false))

end

section

variable (table : SymbolTable) (nullable : OrderedSet NonTerminal) (first : OrderedSet Fact)

/-- The entry of a non-terminal; the non-terminals of the table have one each. -/
def entry (facts : OrderedSet Fact) (n : NonTerminal) : Option (OrderedSet Terminal) :=
  if table.owns (.nonTerminal n) then some (Fact.about facts n) else none

/-- What can start the string, with the entries of its non-terminals up to the first that is not
nullable. -/
def firstOfString : List Symbol → Option (OrderedSet Terminal)
  | [] => some ∅
  | .terminal t :: _ => some (.ofList [t])
  | .nonTerminal n :: rest => do
    let starts ← entry table first n
    if n ∈ nullable then return starts ∪ (← firstOfString rest) else return starts

def firstSteps (rules : List (Rule V)) : List (OrderedSet Fact → Option (List Fact)) :=
  rules.map fun r first => do
    let starts ← firstOfString table nullable first r.body
    return starts.toList.map fun t => (r.head, t)

/-- The entry of the head is looked up only where what stands behind is nullable. -/
def followStepsOfBody (head : NonTerminal) :
    List Symbol → List (OrderedSet Fact → Option (List Fact))
  | [] => []
  | .terminal _ :: rest => followStepsOfBody head rest
  | .nonTerminal n :: rest =>
    (fun follow => do
      let next ← firstOfString table nullable first rest
      if Analysis.nullableString nullable rest then
        return (next ∪ (← entry table follow head)).toList.map fun t => (n, t)
      else return next.toList.map fun t => (n, t)) :: followStepsOfBody head rest

def followSteps (rules : List (Rule V)) : List (OrderedSet Fact → Option (List Fact)) :=
  rules.flatMap fun r => followStepsOfBody table nullable first r.head r.body

end

/-- Finish a grammar; the names of its nullable non-terminals are written to the log. -/
def build (b : Builder V) : Option (Grammar V) := do
  let (nullable, _) ← Round.run (fun s => some (Loop.growing (Loop.nullableSteps b.rules) s)) (∅, true)
  let (first, _) ← Round.run (growing (firstSteps b.symbols nullable b.rules)) (∅, true)
  let (follow, _) ← Round.run (growing (followSteps b.symbols nullable first b.rules))
    (.ofList [(b.start, b.eos)], true)
  let _ ← b.symbols.names? (nullable.toList.map .nonTerminal)
  return ⟨b.symbols, b.rules, ⟨nullable, first, follow⟩⟩

/-! ### The collection -/

variable (g : Grammar V)

/-- The rules of the non-terminal, by the numbers that are kept for it. -/
def rulesOf (n : NonTerminal) : Option (List (Rule V)) :=
  ((g.rulesOf n).map Rule.id).mapM g.rule?

def expansion (i : Item) : Option (List Item) := do
  let rule ← g.rule? i.rule
  match rule.body[i.position]? with
  | some (.nonTerminal n) =>
    let lookaheads ← (g.firstWith? (rule.body.drop (i.position + 1)) i.lookahead).toOption
    let rules ← rulesOf g n
    return rules.flatMap fun r => lookaheads.toList.map fun a => ⟨r.id, 0, a⟩
  | _ => return []

def closing : ItemSet × List Item → Option (Option (ItemSet × List Item))
  | (_, []) => some none
  | (s, i :: stack) => do return some ((← expansion g i).foldl Loop.push (s, stack))

def close (s : ItemSet) : Option ItemSet := do
  let (closed, _) ← Round.run (closing g) (s, s.toList.reverse)
  return closed

def goto (s : ItemSet) (symbol : Symbol) : Option ItemSet :=
  close g (.ofList (s.toList.filterMap fun i => i.advance? g symbol))

/-- The sets that are reached over the symbols after the dots. -/
def reached (s : ItemSet) : Option (List (Symbol × ItemSet)) :=
  (s.nextSymbols g).toList.mapM fun x => do return (x, ← goto g s x)

/-- A new state is written to the log with all its items. -/
def intern (c : Collection) (items : ItemSet) : Option (StateId × Collection) := do
  if (c.find? items).isNone then
    let _ ← items.text? g
  return c.intern items

/-- Intern the sets that are reached from a state, and enter each at that state. -/
def internAll (source : StateId) :
    List (Symbol × ItemSet) → Collection → Option (List (Symbol × StateId) × Collection)
  | [], c => some ([], c)
  | (s, items) :: rest, c => do
    let (target, c) ← intern g c items
    let _ ← c.state? source
    let (edges, c) ← internAll source rest c
    return ((s, target) :: edges, c)

/-- All sets that are reached are computed before the first of them is interned. -/
def visit (c : Collection) (id : StateId) : Option Collection := do
  let state ← c.state? id
  let (transitions, c) ← internAll g id (← reached g state.items) c
  let state ← c.state? id
  let proposals := State.proposalsOf g state.items transitions
  let state :=
    { state with transitions := transitions, proposals := state.proposals ++ proposals }
  return { c with states := c.states.set id state }

def exploring : Collection × List StateId → Option (Option (Collection × List StateId))
  | (_, []) => some none
  | (c, id :: queue) => do
    let c' ← visit g c id
    return some (c', queue ++ List.range' c.size (c'.size - c.size))

def explore (c : Collection) : Option Collection := do
  let (explored, _) ← Round.run (exploring g) (c, [0])
  return explored

/-- The name of the start symbol is looked up first, and the rule is written out if its body is at
fault. -/
def checkStart : ExceptT StartFault Option (Rule V) := do
  let _ ← g.symbols.name? (.nonTerminal g.start)
  match ← rulesOf g g.start with
  | [] => throw .noRule
  | [rule] =>
    match rule.body with
    | [.nonTerminal _] => return rule
    | _ =>
      let _ ← rule.text? g.symbols
      throw (.badBody rule.id)
  | rules => throw (.manyRules rules.length)

def initialCollection : ExceptT StartFault Option Collection := do
  match ← rulesOf g g.start with
  | [] => throw .missing
  | rule :: _ =>
    let items ← close g (.ofList [⟨rule.id, 0, g.eos⟩])
    let (_, c) ← intern g .empty items
    return c

def collection : ExceptT StartFault Option Collection := do
  let _ ← checkStart g
  let initial ← initialCollection g
  explore g initial

/-! ### The table -/

/-- What is written when a conflict is settled, to the log, or when it stays open, as the message. -/
def report (t : Terminal) : Except Ambiguity Verdict → Option String
  | .ok .nothing | .ok (.unopposed _) => some ""
  | .ok (.byPriority c) | .ok (.byAssociativity c) => do
    return (← g.symbols.name? (.terminal t)) ++ ": " ++ (← c.text? g)
  | .error ambiguity => ambiguity.message? g

def settle (state : State) (t : Terminal) : ExceptT Ambiguity Option Verdict :=
  .mk do
    let answer := state.settle g state.id t
    let _ ← report g t answer
    return answer

def rowOf (state : State) : ExceptT Ambiguity Option Row := do
  let actions ← state.terminals.toList.mapM fun t => do
    return (t, (← settle g state t).action)
  return ⟨actions.filter fun (_, a) => a ≠ .error, state.gotos⟩

def named {α : Type} (wrap : α → Symbol) (columns : List α) : Option (List (α × String)) :=
  columns.mapM fun a => do return (a, ← g.symbols.name? (wrap a))

def ofCollection (c : Collection) : ExceptT Ambiguity Option Table := do
  let rows ← c.states.mapM (rowOf g)
  let startShows := rows.any fun row => (row.goto? g.start).isSome
  let terminals ← named g .terminal g.symbols.terminals
  let nonTerminals ← named g .nonTerminal
    (g.symbols.nonTerminals.filter fun n => n ≠ g.start ∨ startShows)
  return ⟨0, rows, terminals, nonTerminals⟩

def table : ExceptT GenerationError Option Table := do
  let c ← (collection g).adapt .malformed
  (ofCollection g c).adapt .ambiguous

end Checked

end CanonicalLR
