import CanonicalLR.Collection

/-!
The loops step by step, with nothing that bounds their rounds: a free name is looked for
under one number after the other, the analysis passes over the rules as long as a pass
finds something new, a closure takes items from a stack, and the collection takes states
from a queue.
-/
namespace CanonicalLR

namespace Loop

/-- From the first state a loop ends in the second, after just so many rounds. -/
inductive Ends {σ : Type} (round : σ → Option σ) : Nat → σ → σ → Prop where
  | stop {s : σ} (last : round s = none) : Ends round 0 s s
  | go {n : Nat} {s s' t : σ} (next : round s = some s') (rest : Ends round n s' t) :
    Ends round (n + 1) s t

/-! ### Numbers of a stem -/

/-- As long as a symbol has the stem with this number for its name, the next number is tried. -/
def numbering (table : SymbolTable) (stem : String) (n : Nat) : Option Nat :=
  if table.containsName (Builder.numbered stem n) then some (n + 1) else none

/-! ### Passes over the rules -/

section

variable {α : Type} [Ord α] [Std.TransOrd α] [Std.LawfulEqOrd α]

/-- Add what a step gives for the set as it is now, and note whether there was something new. -/
def grow (state : OrderedSet α × Bool) (step : OrderedSet α → List α) : OrderedSet α × Bool :=
  let grown := state.1.insertMany (step state.1)
  (grown, state.2 || grown.size != state.1.size)

/-- If the last pass found something new there is another one, with one step after the other. -/
def growing (steps : List (OrderedSet α → List α)) :
    OrderedSet α × Bool → Option (OrderedSet α × Bool)
  | (_, false) => none
  | (s, true) => some (steps.foldl grow (s, false))

end

section

variable {V : Type}

/-- A rule gives its head if its body is nullable by now. -/
def nullableSteps (rules : List (Rule V)) :
    List (OrderedSet NonTerminal → List NonTerminal) :=
  rules.map fun r => Analysis.nullableHeads [r]

/-- A rule gives its head what starts its body by now. -/
def firstSteps (rules : List (Rule V)) (nullable : OrderedSet NonTerminal) :
    List (OrderedSet Fact → List Fact) :=
  rules.map fun r => Analysis.firstFacts [r] nullable

/-- Each non-terminal of a body is given what starts the rest behind it, and if the rest is nullable
what follows the head by now. -/
def followStepsOfBody (nullable : OrderedSet NonTerminal) (first : OrderedSet Fact)
    (head : NonTerminal) : List Symbol → List (OrderedSet Fact → List Fact)
  | [] => []
  | .terminal _ :: rest => followStepsOfBody nullable first head rest
  | .nonTerminal n :: rest =>
    (fun follow =>
      let next := Analysis.firstOfString nullable first rest
      let all :=
        if Analysis.nullableString nullable rest then next ∪ Fact.about follow head else next
      all.toList.map fun t => (n, t)) :: followStepsOfBody nullable first head rest

def followSteps (rules : List (Rule V)) (nullable : OrderedSet NonTerminal)
    (first : OrderedSet Fact) : List (OrderedSet Fact → List Fact) :=
  rules.flatMap fun r => followStepsOfBody nullable first r.head r.body

end

/-! ### Stack and queue -/

/-- Add the item to the set, and if it is new put it on the stack. -/
def push (state : ItemSet × List Item) (i : Item) : ItemSet × List Item :=
  if i ∈ state.1 then state else (state.1.insert i, i :: state.2)

/-- Take an item from the stack and push what it calls for. -/
def closing {V : Type} (g : Grammar V) : ItemSet × List Item → Option (ItemSet × List Item)
  | (_, []) => none
  | (s, i :: stack) => some ((i.expansion g).foldl push (s, stack))

/-- Visit the state in front of the queue; the states that are new by that go to its end. -/
def exploring {V : Type} (g : Grammar V) :
    Collection × List StateId → Option (Collection × List StateId)
  | (_, []) => none
  | (c, id :: queue) =>
    let c' := c.visit g id
    some (c', queue ++ List.range' c.size (c'.size - c.size))

end Loop

end CanonicalLR
