import CanonicalLR.Analysis
import CanonicalLR.Builder

/-!
A finished grammar: its symbols, its rules and their analysis, with the look-ups
that the construction of tables and the user of the grammar make.
-/
namespace CanonicalLR

structure Grammar (V : Type) where
  symbols : SymbolTable
  rules : List (Rule V)
  analysis : Analysis

/-- Finish a grammar: compute its analysis. -/
def Builder.build {V : Type} (b : Builder V) : Grammar V where
  symbols := b.symbols
  rules := b.rules
  analysis := .ofRules b.rules b.start b.eos

/-- Why a symbol or a rule that someone asks for is not there. -/
inductive LookupError where
  | absent (name : String)
  | notATerminal (name : String)
  | notANonTerminal (name : String)
  /-- The analysis has no entry for a non-terminal of another grammar. -/
  | notAnalysed (n : NonTerminal)
  /-- A symbol of another grammar has no name in this one. -/
  | unnamed (s : Symbol)
  | noSuchRule (id : RuleId)
  deriving DecidableEq, Repr

/-- The text of the errors that have one. -/
def LookupError.message? : LookupError → Option String
  | .absent name => some ("the grammar does not include symbol " ++ name)
  | .notATerminal name => some ("symbol " ++ name ++ " is not a terminal")
  | .notANonTerminal name => some ("symbol " ++ name ++ " is not a non-terminal")
  | .notAnalysed n =>
    some ("non-terminal #" ++ toString n.index ++ " is not part of the grammar")
  | .unnamed _ => none
  | .noSuchRule _ => none

namespace Grammar

variable {V : Type} (g : Grammar V)

def id : GrammarId := g.symbols.grammar

def start : NonTerminal := ⟨g.id, 0⟩

def eos : Terminal := ⟨g.id, 1⟩

/-! ### Rules -/

def rule? (id : RuleId) : Option (Rule V) := g.rules[id]?

/-- The rules whose head is the non-terminal, in the order they were added. -/
def rulesOf (n : NonTerminal) : List (Rule V) := g.rules.filter fun r => r.head = n

@[simp] theorem mem_rulesOf {n : NonTerminal} {r : Rule V} :
    r ∈ g.rulesOf n ↔ r ∈ g.rules ∧ r.head = n := by
  simp [rulesOf]

/-- The body of a rule; a number that no rule has stands for an empty one. -/
def body (id : RuleId) : List Symbol := ((g.rule? id).map Rule.body).getD []

theorem exists_rule_of_mem_body {id : RuleId} {s : Symbol} (h : s ∈ g.body id) :
    ∃ r ∈ g.rules, s ∈ r.body := by
  unfold body rule? at h
  cases hr : g.rules[id]? with
  | none => simp [hr] at h
  | some r =>
    refine ⟨r, List.mem_of_getElem? hr, ?_⟩
    simpa [hr] using h

def priority? (id : RuleId) : Option Int := (g.rule? id).bind fun r => r.priority

def associativity? (id : RuleId) : Option Associativity :=
  (g.rule? id).bind fun r => r.associativity

/-! ### Analysis -/

def isNullable (n : NonTerminal) : Bool := n ∈ g.analysis.nullable

/-- The terminals that can start what is derived from the non-terminal. -/
def first (n : NonTerminal) : OrderedSet Terminal := Fact.about g.analysis.first n

/-- The terminals that can come right after the non-terminal. -/
def follow (n : NonTerminal) : OrderedSet Terminal := Fact.about g.analysis.follow n

def nullableString (string : List Symbol) : Bool :=
  Analysis.nullableString g.analysis.nullable string

/-- The terminals that can start what is derived from the string. -/
def firstOfString (string : List Symbol) : OrderedSet Terminal :=
  Analysis.firstOfString g.analysis.nullable g.analysis.first string

/-- The terminals that can start what is derived from the string with the lookahead after it. -/
def firstWith (string : List Symbol) (lookahead : Terminal) : OrderedSet Terminal :=
  if g.nullableString string then (g.firstOfString string).insert lookahead
  else g.firstOfString string

theorem mem_firstWith {string : List Symbol} {lookahead t : Terminal} :
    t ∈ g.firstWith string lookahead ↔
      t ∈ g.firstOfString string ∨ g.nullableString string = true ∧ t = lookahead := by
  unfold firstWith
  split
  · rename_i h
    rw [OrderedSet.mem_insert, or_comm]
    simp [h]
  · rename_i h
    simp [h]

@[simp] theorem mem_firstWith_nil {lookahead t : Terminal} :
    t ∈ g.firstWith [] lookahead ↔ t = lookahead := by
  simp [mem_firstWith, firstOfString, nullableString, Analysis.firstOfString,
    Analysis.nullableString]

@[simp] theorem mem_firstWith_terminal {u : Terminal} {rest : List Symbol}
    {lookahead t : Terminal} : t ∈ g.firstWith (.terminal u :: rest) lookahead ↔ t = u := by
  simp [mem_firstWith, firstOfString, nullableString, Analysis.firstOfString,
    Analysis.nullableString, Analysis.nullableSymbol]

/-! ### Checked look-ups -/

def sym? (name : String) : Except LookupError Symbol :=
  match g.symbols.find? name with
  | some s => .ok s
  | none => .error (.absent name)

def term? (name : String) : Except LookupError Terminal := do
  match ← g.sym? name with
  | .terminal t => return t
  | .nonTerminal _ => throw (.notATerminal name)

def nterm? (name : String) : Except LookupError NonTerminal := do
  match ← g.sym? name with
  | .nonTerminal n => return n
  | .terminal _ => throw (.notANonTerminal name)

def nameOf (s : Symbol) : Except LookupError String :=
  match g.symbols.name? s with
  | some name => .ok name
  | none => .error (.unnamed s)

def ruleOf (id : RuleId) : Except LookupError (Rule V) :=
  match g.rule? id with
  | some r => .ok r
  | none => .error (.noSuchRule id)

/-- The non-terminal, if the analysis covers it. -/
def analysed (n : NonTerminal) : Except LookupError NonTerminal :=
  if g.symbols.owns (.nonTerminal n) then .ok n else .error (.notAnalysed n)

/-- `firstOfString` of a string that may hold symbols of other grammars: it fails at the first
non-terminal that it comes to and that is not of this grammar. -/
def firstOfString? : List Symbol → Except LookupError (OrderedSet Terminal)
  | [] => .ok ∅
  | .terminal t :: _ => .ok (.ofList [t])
  | .nonTerminal n :: rest => do
    let n ← g.analysed n
    if g.isNullable n then return g.first n ∪ (← firstOfString? rest)
    else return g.first n

/-- `firstWith` of a string that may hold symbols of other grammars. -/
def firstWith? (string : List Symbol) (lookahead : Terminal) :
    Except LookupError (OrderedSet Terminal) := do
  let first ← g.firstOfString? string
  if g.nullableString string then return first.insert lookahead
  else return first

end Grammar

end CanonicalLR
