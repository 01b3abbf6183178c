import CanonicalLR.Grammar

/-!
LR(1) items: a rule of a grammar with a place in its body, shown by a dot, and a
terminal that may follow the whole. Items are ordered by rule, place and lookahead.
-/
namespace CanonicalLR

structure Item where
  rule : RuleId
  /-- How many symbols of the body stand before the dot. -/
  position : Nat
  lookahead : Terminal
  deriving DecidableEq, Repr

namespace Item

instance : Ord Item :=
  ⟨compareLex (compareOn rule) (compareLex (compareOn position) (compareOn lookahead))⟩

instance : Std.TransOrd Item :=
  inferInstanceAs (Std.TransCmp
    (compareLex (compareOn rule) (compareLex (compareOn position) (compareOn lookahead))))

instance : Std.LawfulEqOrd Item where
  eq_of_compare {a b} h := by
    obtain ⟨h₁, h⟩ := compareLex_eq_eq.mp h
    obtain ⟨h₂, h₃⟩ := compareLex_eq_eq.mp h
    cases a; cases b
    cases eq_of_compareOn h₁
    cases eq_of_compareOn h₂
    cases eq_of_compareOn h₃
    rfl

variable {V : Type} (g : Grammar V) (i : Item)

def isInitial : Bool := i.position == 0

/-- The dot is at the end of the body. -/
def isExhausted : Bool := (g.body i.rule).length ≤ i.position

/-- The symbol after the dot. -/
def symbol? : Option Symbol := (g.body i.rule)[i.position]?

/-- The symbols behind the one after the dot. -/
def remainder : List Symbol := (g.body i.rule).drop (i.position + 1)

/-- The item with its dot one symbol further. -/
def next? : Option Item :=
  if i.isExhausted g then none else some { i with position := i.position + 1 }

theorem symbol?_eq_none_iff : i.symbol? g = none ↔ i.isExhausted g = true := by
  simp [symbol?, isExhausted]

/-- The item with its dot behind this symbol, if that is the next one. -/
def advance? (s : Symbol) : Option Item :=
  if i.symbol? g = some s then i.next? g else none

/-- The items that the symbol after the dot calls for: the rules of that non-terminal, each with
every lookahead that can follow it here. -/
def expansion : List Item :=
  match i.symbol? g with
  | some (.nonTerminal n) =>
    let lookaheads := (g.firstWith (i.remainder g) i.lookahead).toList
    (g.rulesOf n).flatMap fun r => lookaheads.map fun a => ⟨r.id, 0, a⟩
  | _ => []

theorem mem_expansion {j : Item} :
    j ∈ i.expansion g ↔ ∃ n, i.symbol? g = some (.nonTerminal n) ∧
      ∃ r ∈ g.rulesOf n, ∃ a ∈ g.firstWith (i.remainder g) i.lookahead, j = ⟨r.id, 0, a⟩ := by
  unfold expansion
  split
  · rename_i n hn
    simp only [List.mem_flatMap, List.mem_map, hn, Option.some.injEq, Symbol.nonTerminal.injEq,
      exists_eq_left', OrderedSet.mem_def, eq_comm]
  · rename_i hn
    constructor
    · simp
    · rintro ⟨n, h, _⟩
      exact absurd h (hn n)

end Item

/-- The item of this rule with its dot at this place, if the body is long enough. -/
def Grammar.item? {V : Type} (g : Grammar V) (rule : RuleId) (position : Nat)
    (lookahead : Terminal) : Option Item :=
  if position ≤ (g.body rule).length then some ⟨rule, position, lookahead⟩ else none

end CanonicalLR
