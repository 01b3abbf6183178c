import CanonicalLR.Rule
import CanonicalLR.Saturation

/-!
Which non-terminals derive the empty string, which terminals can start a string
derived from a non-terminal, and which can come right after it. Each is the least
set of facts closed under what the rules say of it, found by saturation.
-/
namespace CanonicalLR

/-- A non-terminal together with a terminal that can start it, or that can follow it. -/
abbrev Fact := NonTerminal × Terminal

namespace Fact

/-- The terminals of the facts about the non-terminal. -/
def about (facts : OrderedSet Fact) (n : NonTerminal) : OrderedSet Terminal :=
  .ofList (facts.toList.filterMap fun f => if f.1 = n then some f.2 else none)

@[simp] theorem mem_about {facts : OrderedSet Fact} {n : NonTerminal} {t : Terminal} :
    t ∈ about facts n ↔ (n, t) ∈ facts := by
  rw [about, OrderedSet.mem_ofList, List.mem_filterMap]
  constructor
  · rintro ⟨f, hf, h⟩
    split at h
    · rename_i hn
      cases h
      cases hn
      exact hf
    · cases h
  · intro h
    exact ⟨(n, t), h, by simp⟩

end Fact

structure Analysis where
  nullable : OrderedSet NonTerminal
  first : OrderedSet Fact
  follow : OrderedSet Fact
  deriving DecidableEq

namespace Analysis

variable {V : Type}

/-! ### Strings of symbols -/

def nullableSymbol (nullable : OrderedSet NonTerminal) : Symbol → Bool
  | .terminal _ => false
  | .nonTerminal n => n ∈ nullable

def nullableString (nullable : OrderedSet NonTerminal) (string : List Symbol) : Bool :=
  string.all (nullableSymbol nullable)

/-- The terminals that can start the string: those of a symbol count while all symbols before it
derive the empty string. -/
def firstOfString (nullable : OrderedSet NonTerminal) (first : OrderedSet Fact) :
    List Symbol → OrderedSet Terminal
  | [] => ∅
  | .terminal t :: _ => .ofList [t]
  | .nonTerminal n :: rest =>
    if n ∈ nullable then Fact.about first n ∪ firstOfString nullable first rest
    else Fact.about first n

/-! ### Consequences of the rules -/

/-- The heads of the rules whose bodies are nullable by what is known. -/
def nullableHeads (rules : List (Rule V)) (nullable : OrderedSet NonTerminal) :
    List NonTerminal :=
  (rules.filter fun r => nullableString nullable r.body).map Rule.head

/-- What starts a body starts its head. -/
def firstFacts (rules : List (Rule V)) (nullable : OrderedSet NonTerminal)
    (first : OrderedSet Fact) : List Fact :=
  rules.flatMap fun r => (firstOfString nullable first r.body).toList.map fun t => (r.head, t)

/-- What starts the rest of the body follows a non-terminal in it, and so does what follows the
head if the rest is nullable. -/
def followFactsOfBody (nullable : OrderedSet NonTerminal) (first follow : OrderedSet Fact)
    (head : NonTerminal) : List Symbol → List Fact
  | [] => []
  | .terminal _ :: rest => followFactsOfBody nullable first follow head rest
  | .nonTerminal n :: rest =>
    let next := firstOfString nullable first rest
    let all := if nullableString nullable rest then next ∪ Fact.about follow head else next
    (all.toList.map fun t => (n, t)) ++ followFactsOfBody nullable first follow head rest

def followFacts (rules : List (Rule V)) (nullable : OrderedSet NonTerminal)
    (first follow : OrderedSet Fact) : List Fact :=
  rules.flatMap fun r => followFactsOfBody nullable first follow r.head r.body

/-! ### The analysis -/

/-- The number of places for symbols in the bodies. -/
def occurrences (rules : List (Rule V)) : Nat := rules.foldr (fun r n => r.length + n) 0

/-- Every nullable non-terminal is the head of a rule. -/
def nullableOf (rules : List (Rule V)) : OrderedSet NonTerminal :=
  .saturate (nullableHeads rules) (rules.length + 1) ∅

/-- A fact pairs the head of a rule with a terminal of some body. -/
def firstOf (rules : List (Rule V)) : OrderedSet Fact :=
  .saturate (firstFacts rules (nullableOf rules)) (rules.length * occurrences rules + 1) ∅

/-- A fact pairs the start symbol or a non-terminal of some body with the end of input or a
terminal of some body. -/
def followOf (rules : List (Rule V)) (start : NonTerminal) (eos : Terminal) : OrderedSet Fact :=
  .saturate (followFacts rules (nullableOf rules) (firstOf rules))
    ((occurrences rules + 1) * (occurrences rules + 1)) (.ofList [(start, eos)])

end Analysis

/-- The analysis of the rules, where `eos` ends what `start` derives. -/
def Analysis.ofRules {V : Type} (rules : List (Rule V)) (start : NonTerminal) (eos : Terminal) :
    Analysis where
  nullable := nullableOf rules
  first := firstOf rules
  follow := followOf rules start eos

end CanonicalLR
