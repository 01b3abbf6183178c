import CanonicalLR.OrderedSet

/-!
Handles of grammar symbols. A handle names its grammar besides its place in the
order of declaration, so handles of different grammars never coincide. Symbols are
ordered terminals first, then by grammar, then by place.
-/
namespace CanonicalLR

/-- The identity of a grammar. -/
structure GrammarId where
  number : Nat
  deriving DecidableEq, Repr

/-- A kind of input token. -/
structure Terminal where
  grammar : GrammarId
  index : Nat
  deriving DecidableEq, Repr

/-- A syntactic category, produced by rules. -/
structure NonTerminal where
  grammar : GrammarId
  index : Nat
  deriving DecidableEq, Repr

inductive Symbol where
  | terminal (t : Terminal)
  | nonTerminal (n : NonTerminal)
  deriving DecidableEq, Repr

namespace Symbol

def grammar : Symbol → GrammarId
  | .terminal t => t.grammar
  | .nonTerminal n => n.grammar

/-- The place of the symbol among the declarations of its grammar. -/
def index : Symbol → Nat
  | .terminal t => t.index
  | .nonTerminal n => n.index

def terminal? : Symbol → Option Terminal
  | .terminal t => some t
  | .nonTerminal _ => none

def nonTerminal? : Symbol → Option NonTerminal
  | .terminal _ => none
  | .nonTerminal n => some n

@[simp] theorem terminal?_eq_some {s : Symbol} {t : Terminal} :
    s.terminal? = some t ↔ s = .terminal t := by
  cases s <;> simp [terminal?]

@[simp] theorem nonTerminal?_eq_some {s : Symbol} {n : NonTerminal} :
    s.nonTerminal? = some n ↔ s = .nonTerminal n := by
  cases s <;> simp [nonTerminal?]

end Symbol

/-! ### Order -/

/-- Pairs are ordered by their first components, and by the second ones where these agree. -/
instance pairOrd {α β : Type} [Ord α] [Ord β] : Ord (α × β) := lexOrd

instance pairTransOrd {α β : Type} [Ord α] [Ord β] [Std.TransOrd α] [Std.TransOrd β] :
    Std.TransOrd (α × β) :=
  inferInstanceAs (@Std.TransOrd (α × β) lexOrd)

instance pairLawfulEqOrd {α β : Type} [Ord α] [Ord β] [Std.LawfulEqOrd α] [Std.LawfulEqOrd β] :
    Std.LawfulEqOrd (α × β) :=
  inferInstanceAs (@Std.LawfulEqOrd (α × β) lexOrd)

/-- Two values that compare equal by a key have the same key. -/
theorem eq_of_compareOn {α κ : Type} [Ord κ] [Std.LawfulEqOrd κ] {key : α → κ} {a b : α}
    (h : compareOn key a b = .eq) : key a = key b :=
  Std.LawfulEqCmp.eq_of_compare h

namespace GrammarId

instance : Ord GrammarId := ⟨compareOn number⟩

instance : Std.TransOrd GrammarId := inferInstanceAs (Std.TransCmp (compareOn number))

instance : Std.LawfulEqOrd GrammarId where
  eq_of_compare {a b} h := by
    cases a; cases b
    exact congrArg _ (eq_of_compareOn h)

end GrammarId

namespace Terminal

instance : Ord Terminal := ⟨compareLex (compareOn grammar) (compareOn index)⟩

instance : Std.TransOrd Terminal :=
  inferInstanceAs (Std.TransCmp (compareLex (compareOn grammar) (compareOn index)))

instance : Std.LawfulEqOrd Terminal where
  eq_of_compare {a b} h := by
    obtain ⟨h₁, h₂⟩ := compareLex_eq_eq.mp h
    cases a; cases b
    cases eq_of_compareOn h₁
    cases eq_of_compareOn h₂
    rfl

end Terminal

namespace NonTerminal

instance : Ord NonTerminal := ⟨compareLex (compareOn grammar) (compareOn index)⟩

instance : Std.TransOrd NonTerminal :=
  inferInstanceAs (Std.TransCmp (compareLex (compareOn grammar) (compareOn index)))

instance : Std.LawfulEqOrd NonTerminal where
  eq_of_compare {a b} h := by
    obtain ⟨h₁, h₂⟩ := compareLex_eq_eq.mp h
    cases a; cases b
    cases eq_of_compareOn h₁
    cases eq_of_compareOn h₂
    rfl

end NonTerminal

namespace Symbol

/-- Terminals come before non-terminals. -/
def rank : Symbol → Nat
  | .terminal _ => 0
  | .nonTerminal _ => 1

instance : Ord Symbol :=
  ⟨compareLex (compareOn rank) (compareLex (compareOn grammar) (compareOn index))⟩

instance : Std.TransOrd Symbol :=
  inferInstanceAs (Std.TransCmp
    (compareLex (compareOn rank) (compareLex (compareOn grammar) (compareOn index))))

theorem eq_of_rank_eq {a b : Symbol} (h : a.rank = b.rank) (hg : a.grammar = b.grammar)
    (hi : a.index = b.index) : a = b := by
  match a, b with
  | .terminal ⟨_, _⟩, .terminal ⟨_, _⟩ => cases hg; cases hi; rfl
  | .nonTerminal ⟨_, _⟩, .nonTerminal ⟨_, _⟩ => cases hg; cases hi; rfl
  | .terminal _, .nonTerminal _ => cases h
  | .nonTerminal _, .terminal _ => cases h

instance : Std.LawfulEqOrd Symbol where
  eq_of_compare h :=
    have ⟨h₁, h'⟩ := compareLex_eq_eq.mp h
    have ⟨h₂, h₃⟩ := compareLex_eq_eq.mp h'
    eq_of_rank_eq (eq_of_compareOn h₁) (eq_of_compareOn h₂) (eq_of_compareOn h₃)

end Symbol

end CanonicalLR
