import CanonicalLR.Grammar
import Mathlib.Logic.Relation

/-!
Derivations: what strings of symbols the rules turn a string into, in any order and
always at the last non-terminal. Here is what the analysis and the automaton are about.
-/
namespace CanonicalLR

variable {V : Type}

/-- A string of terminals as a string of symbols. -/
def terminalString (ts : List Terminal) : List Symbol := ts.map Symbol.terminal

@[simp] theorem terminalString_nil : terminalString [] = [] := rfl

@[simp] theorem terminalString_cons (t : Terminal) (ts : List Terminal) :
    terminalString (t :: ts) = .terminal t :: terminalString ts := rfl

@[simp] theorem terminalString_append (ts us : List Terminal) :
    terminalString (ts ++ us) = terminalString ts ++ terminalString us :=
  List.map_append

/-- One non-terminal is replaced by the body of one of its rules. -/
inductive Produces (rules : List (Rule V)) : List Symbol → List Symbol → Prop where
  | step (rule : Rule V) (mem : rule ∈ rules) (left right : List Symbol) :
    Produces rules (left ++ .nonTerminal rule.head :: right) (left ++ rule.body ++ right)

/-- The last non-terminal is replaced by the body of one of its rules. -/
inductive ProducesLast (rules : List (Rule V)) : List Symbol → List Symbol → Prop where
  | step (rule : Rule V) (mem : rule ∈ rules) (left : List Symbol) (right : List Terminal) :
    ProducesLast rules (left ++ .nonTerminal rule.head :: terminalString right)
      (left ++ rule.body ++ terminalString right)

/-- Any number of replacements lead from the one string to the other. -/
def Derives (rules : List (Rule V)) : List Symbol → List Symbol → Prop :=
  Relation.ReflTransGen (Produces rules)

/-- Any number of replacements, each of the last non-terminal, lead from the one string to the
other. -/
def DerivesLast (rules : List (Rule V)) : List Symbol → List Symbol → Prop :=
  Relation.ReflTransGen (ProducesLast rules)

theorem ProducesLast.produces {rules : List (Rule V)} {s t : List Symbol}
    (h : ProducesLast rules s t) : Produces rules s t := by
  cases h with
  | step rule mem left right => exact .step rule mem left (terminalString right)

theorem DerivesLast.derives {rules : List (Rule V)} {s t : List Symbol}
    (h : DerivesLast rules s t) : Derives rules s t := by
  induction h with
  | refl => exact .refl
  | tail _ step ih => exact ih.tail step.produces

theorem Produces.append {rules : List (Rule V)} {s t : List Symbol} (h : Produces rules s t)
    (left right : List Symbol) : Produces rules (left ++ s ++ right) (left ++ t ++ right) := by
  cases h with
  | step rule mem l r =>
    simpa [List.append_assoc] using Produces.step rule mem (left ++ l) (r ++ right)

theorem Derives.append {rules : List (Rule V)} {s t : List Symbol} (h : Derives rules s t)
    (left right : List Symbol) : Derives rules (left ++ s ++ right) (left ++ t ++ right) := by
  induction h with
  | refl => exact .refl
  | tail _ step ih => exact ih.tail (step.append left right)

namespace Grammar

variable (g : Grammar V)

/-- The terminals of the string are derived from the start symbol. -/
def Sentence (w : List Terminal) : Prop :=
  Derives g.rules [.nonTerminal g.start] (terminalString w)

/-- The string begins some sentence. -/
def SentenceStart (w : List Terminal) : Prop := ∃ rest, g.Sentence (w ++ rest)

/-- Every non-terminal derives some string of terminals. -/
def Productive : Prop :=
  ∀ n, g.symbols.owns (.nonTerminal n) →
    ∃ w, Derives g.rules [.nonTerminal n] (terminalString w)

/-- No rule body holds the start symbol. -/
def StartOnlyAtTop : Prop := ∀ rule ∈ g.rules, Symbol.nonTerminal g.start ∉ rule.body

end Grammar

end CanonicalLR
