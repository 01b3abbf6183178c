import CanonicalLR.Command
import CanonicalLR.DerivationTree
import CanonicalLR.Grammar
import Mathlib.Logic.Function.Basic

/-!
What the derivation trees of a repetition, of a separated and of a terminated series
are to be. They correspond one to one to what they are made of, and the correspondence
tells the tokens that a tree covers and the value that it has.
-/
namespace CanonicalLR

variable {V : Type} {rules : List (Rule V)} {x item separator : Symbol}

/-! ### What a call establishes -/

/-- The non-terminals that the second builder has and the first one has not have no other rules in
the later builder than they have in the second. -/
def Builder.KeepsNew (b b' later : Builder V) : Prop :=
  ∀ n, b'.symbols.owns (.nonTerminal n) = true → b.symbols.owns (.nonTerminal n) = false →
    later.build.rulesOf n = b'.build.rulesOf n

/-- A rule for a non-terminal that was there before does no harm. -/
theorem Builder.KeepsNew.of_concat {b b' later : Builder V} {rule : Rule V}
    (rules : later.rules = b'.rules ++ [rule])
    (old : b.symbols.owns (.nonTerminal rule.head) = true) : b.KeepsNew b' later := by
  intro n _ new
  have other : rule.head ≠ n := by
    intro same
    rw [same, new] at old
    cases old
  simp [Grammar.rulesOf, build, rules, other]

/-- The call succeeds, and its non-terminal has the property in every grammar that is finished after
any further commands, as long as the non-terminals that the call declared get no further rules. -/
def Authoring.Establishes [SemanticValue V] (call : Authoring V NonTerminal) (b : Builder V)
    (P : Grammar V → NonTerminal → Prop) : Prop :=
  ∃ n b', call.apply b = (.ok n, b') ∧
    ∀ commands, b.KeepsNew b' (Command.runAll commands b') →
      P (Command.runAll commands b').build n

/-! ### Repetitions -/

/-- The trees of the non-terminal are the sequences of at least so many trees of the symbol. A tree
covers what its members cover, one after the other, and its value is the list of their values. -/
def Grammar.Repeats [SemanticValue V] (g : Grammar V) (n : NonTerminal) (x : Symbol)
    (least : Nat) : Prop :=
  ∃ tree : {members : List (Tree g.rules x) // least ≤ members.length} →
      Tree g.rules (.nonTerminal n),
    Function.Bijective tree ∧ ∀ members,
      (tree members).tokens = members.1.flatMap Tree.tokens ∧
      (tree members).value = SemanticValue.list (members.1.map Tree.value)

/-! ### Separated and terminated series -/

/-- Trees of an item, at least one, with a tree of a separator before each but the first. -/
structure Series (rules : List (Rule V)) (item separator : Symbol) where
  first : Tree rules item
  later : List (Tree rules separator × Tree rules item)

namespace Series

/-- The items in their order. -/
def items (s : Series rules item separator) : List (Tree rules item) :=
  s.first :: s.later.map Prod.snd

/-- The tokens of the items and the separators in their order. -/
def tokens (s : Series rules item separator) : List (Token V) :=
  s.first.tokens ++ s.later.flatMap fun next => next.1.tokens ++ next.2.tokens

end Series

/-- A series, or nothing where no item is needed. -/
inductive Separation (rules : List (Rule V)) (item separator : Symbol) (atLeastOne : Bool) where
  | nonempty (series : Series rules item separator)
  | empty (allowed : atLeastOne = false)

namespace Separation

variable {atLeastOne : Bool}

def items : Separation rules item separator atLeastOne → List (Tree rules item)
  | nonempty series => series.items
  | empty _ => []

def tokens : Separation rules item separator atLeastOne → List (Token V)
  | nonempty series => series.tokens
  | empty _ => []

end Separation

/-- The trees of the non-terminal are the separated series. A tree covers what its parts cover, one
after the other, and its value is the sequence of the values of its items. -/
def Grammar.Separates [SemanticValue V] (g : Grammar V) (n : NonTerminal) (item separator : Symbol)
    (atLeastOne : Bool) : Prop :=
  ∃ tree : Separation g.rules item separator atLeastOne → Tree g.rules (.nonTerminal n),
    Function.Bijective tree ∧ ∀ separation,
      (tree separation).tokens = separation.tokens ∧
      (tree separation).value = SemanticValue.vec (separation.items.map Tree.value)

/-- A series with a terminator behind it, or without one where the terminator is optional; where no
item is needed, also a terminator alone, or nothing at all if that is optional too. -/
inductive Ending (rules : List (Rule V)) (item separator terminator : Symbol)
    (terminatorOptional allowEmpty : Bool) where
  | terminated (series : Series rules item separator) (last : Tree rules terminator)
  | unterminated (series : Series rules item separator) (omissible : terminatorOptional = true)
  | terminatorOnly (last : Tree rules terminator) (allowed : allowEmpty = true)
  | empty (omissible : terminatorOptional = true) (allowed : allowEmpty = true)

namespace Ending

variable {terminator : Symbol} {terminatorOptional allowEmpty : Bool}

def items : Ending rules item separator terminator terminatorOptional allowEmpty →
    List (Tree rules item)
  | terminated series _ => series.items
  | unterminated series _ => series.items
  | terminatorOnly _ _ => []
  | empty _ _ => []

def tokens : Ending rules item separator terminator terminatorOptional allowEmpty →
    List (Token V)
  | terminated series last => series.tokens ++ last.tokens
  | unterminated series _ => series.tokens
  | terminatorOnly last _ => last.tokens
  | empty _ _ => []

end Ending

/-- The trees of the non-terminal are the terminated series. A tree covers what its parts cover, one
after the other, and its value is the sequence of the values of its items. -/
def Grammar.Terminates [SemanticValue V] (g : Grammar V) (n : NonTerminal)
    (item separator terminator : Symbol) (terminatorOptional allowEmpty : Bool) : Prop :=
  ∃ tree : Ending g.rules item separator terminator terminatorOptional allowEmpty →
      Tree g.rules (.nonTerminal n),
    Function.Bijective tree ∧ ∀ ending,
      (tree ending).tokens = ending.tokens ∧
      (tree ending).value = SemanticValue.vec (ending.items.map Tree.value)

end CanonicalLR
