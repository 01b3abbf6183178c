import CanonicalLR.Collection
import CanonicalLR.Derivation

/-!
A canonical collection as an automaton over strings of symbols, the item sets that
its states are to be, and the items that a string is to lead to.
-/
namespace CanonicalLR

variable {V : Type}

namespace Collection

/-- The state reached from a state over a symbol. -/
def target? (c : Collection) (id : StateId) (s : Symbol) : Option StateId :=
  (c.state? id).bind fun state => state.target? s

/-- The state reached from a state over a string. -/
def walk? (c : Collection) : StateId → List Symbol → Option StateId
  | id, [] => (c.state? id).map fun _ => id
  | id, s :: rest => (c.target? id s).bind fun target => c.walk? target rest

/-- The targets of all transitions, by state and symbol. -/
def targets (c : Collection) : List StateId :=
  c.states.flatMap fun state => state.transitions.map Prod.snd

/-- The state that the string leads to has the item. -/
def Reaches (c : Collection) (string : List Symbol) (i : Item) : Prop :=
  ∃ id state, c.walk? 0 string = some id ∧ c.state? id = some state ∧ i ∈ state.items

instance (c : Collection) (string : List Symbol) (i : Item) : Decidable (c.Reaches string i) :=
  decidable_of_iff (((c.walk? 0 string).bind c.state?).any fun state => i ∈ state.items) <| by
    cases h : c.walk? 0 string <;> simp [Reaches, h, Option.any_eq_true]

end Collection

/-- The item sets reached from the closure of the first start rule by moving over symbols. -/
inductive ItemSet.Canonical (g : Grammar V) : ItemSet → Prop where
  | initial (rule : Rule V) (first : (g.rulesOf g.start).head? = some rule) :
    Canonical g (ItemSet.close g (.ofList [⟨rule.id, 0, g.eos⟩]))
  | goto {s : ItemSet} (h : Canonical g s) (symbol : Symbol) (i : Item)
    (nonempty : i ∈ ItemSet.goto g s symbol) : Canonical g (ItemSet.goto g s symbol)

/-- The item is valid for the string: a derivation that always replaces the last non-terminal uses
the rule of the item, the string ends with what stands before the dot, and the lookahead is the
next terminal after the body. -/
def Item.Valid (g : Grammar V) (string : List Symbol) (i : Item) : Prop :=
  ∃ (rule : Rule V) (left : List Symbol) (right : List Terminal),
    g.rule? i.rule = some rule ∧ i.position ≤ rule.body.length ∧
    DerivesLast g.rules [.nonTerminal g.start]
      (left ++ .nonTerminal rule.head :: terminalString right) ∧
    string = left ++ rule.body.take i.position ∧
    i.lookahead = right.headD g.eos

/-- The string does not go beyond the body by which the last non-terminal has just been replaced. -/
def Grammar.ViablePrefix (g : Grammar V) (string : List Symbol) : Prop :=
  ∃ (rule : Rule V) (left : List Symbol) (right : List Terminal), rule ∈ g.rules ∧
    DerivesLast g.rules [.nonTerminal g.start]
      (left ++ .nonTerminal rule.head :: terminalString right) ∧
    string <+: left ++ rule.body

end CanonicalLR
