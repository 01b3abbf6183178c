import CanonicalLR.Rule
import CanonicalLR.SymbolTable

/-!
A grammar being written. The start symbol and the end-of-input terminal are
declared with the builder, first and second; every later symbol and rule is added at
the end. A call that fails at its first check leaves the builder as it was.
-/
namespace CanonicalLR

structure Builder (V : Type) where
  symbols : SymbolTable
  rules : List (Rule V)

/-- A call that writes a grammar. What it wrote before it failed stays written. -/
abbrev Authoring (V : Type) := ExceptT AuthoringError (StateM (Builder V))

namespace Authoring

variable {V α β : Type}

/-- The answer of a call on a builder, and the builder it leaves. -/
def apply (call : Authoring V α) (b : Builder V) : Except AuthoringError α × Builder V :=
  (ExceptT.run call).run b

@[simp] theorem apply_pure (a : α) (b : Builder V) :
    (pure a : Authoring V α).apply b = (.ok a, b) := rfl

@[simp] theorem apply_throw (e : AuthoringError) (b : Builder V) :
    (throw e : Authoring V α).apply b = (.error e, b) := rfl

@[simp] theorem apply_get (b : Builder V) :
    (get : Authoring V (Builder V)).apply b = (.ok b, b) := rfl

@[simp] theorem apply_set (b b' : Builder V) :
    (set b' : Authoring V PUnit).apply b = (.ok ⟨⟩, b') := rfl

@[simp] theorem apply_lift (answer : Except AuthoringError α) (b : Builder V) :
    (liftM answer : Authoring V α).apply b = (answer, b) := rfl

/-- A call goes on where the one before it left the builder, unless that one failed. -/
theorem apply_bind (call : Authoring V α) (next : α → Authoring V β) (b : Builder V) :
    (call >>= next).apply b =
      match call.apply b with
      | (.ok a, b') => (next a).apply b'
      | (.error e, b') => (.error e, b') := by
  simp only [apply, ExceptT.run_bind, StateT.run_bind]
  rcases h : (ExceptT.run call).run b with ⟨answer, b'⟩
  cases answer <;> rfl

@[simp] theorem apply_map (f : α → β) (call : Authoring V α) (b : Builder V) :
    (f <$> call).apply b = ((call.apply b).1.map f, (call.apply b).2) := by
  rw [map_eq_pure_bind, apply_bind]
  rcases call.apply b with ⟨_ | _, _⟩ <;> rfl

end Authoring

namespace Builder

variable {V : Type}

def defaultStart : String := "<start>"

def defaultEos : String := "<eos>"

/-- A builder without rules, whose start symbol and end-of-input terminal have these names. -/
def new (id : GrammarId) (startName eosName : String) : Except AuthoringError (Builder V) := do
  let (_, symbols) ← SymbolTable.declare ⟨id, []⟩ startName .start
  let (_, symbols) ← symbols.declare eosName .eos
  return ⟨symbols, []⟩

section Queries

variable (b : Builder V)

def start : NonTerminal := ⟨b.symbols.grammar, 0⟩

def eos : Terminal := ⟨b.symbols.grammar, 1⟩

/-- The stem with a number behind it. -/
def numbered (stem : String) (n : Nat) : String := stem ++ "#" ++ toString n

/-- The stem if no symbol has that name, else the first numbered form that is free. Of as many
numbered forms as there are symbols one is free, since the stem itself is taken. -/
def uniqueName (stem : String) : String :=
  if b.symbols.containsName stem then
    match (List.range b.symbols.size).find?
        fun n => !b.symbols.containsName (numbered stem (n + 1)) with
    | some n => numbered stem (n + 1)
    | none => stem
  else stem

/-- Head and body of a rule to be added: the head is looked at first, then the body from left to
right, then whether the body holds the end-of-input symbol. -/
def checkRule (head : SymbolRef) (body : List SymbolRef) :
    Except AuthoringError (NonTerminal × List Symbol) := do
  let head ← b.symbols.resolveNonTerminal head
  let body ← b.symbols.resolveAll body
  if Symbol.terminal b.eos ∈ body then
    throw (.eosInRule ((b.symbols.name? (.terminal b.eos)).getD ""))
  return (head, body)

end Queries

def declare (name : String) (kind : SymbolKind) : Authoring V Symbol := do
  let b ← get
  let (symbol, symbols) ← b.symbols.declare name kind
  set { b with symbols := symbols }
  return symbol

theorem apply_declare (name : String) (kind : SymbolKind) (b : Builder V) :
    (declare name kind).apply b =
      match b.symbols.declare name kind with
      | .ok (symbol, symbols) => (.ok symbol, { b with symbols := symbols })
      | .error e => (.error e, b) := by
  unfold declare
  rw [Authoring.apply_bind, Authoring.apply_get]
  cases h : b.symbols.declare name kind <;> simp [Authoring.apply_bind, h, Except.map]

def terminal (name : String) : Authoring V Terminal := do
  let b ← get
  let _ ← declare name .terminal
  return ⟨b.symbols.grammar, b.symbols.size⟩

def nonTerminal (name : String) : Authoring V NonTerminal := do
  let b ← get
  let _ ← declare name .nonTerminal
  return ⟨b.symbols.grammar, b.symbols.size⟩

def addRule (head : SymbolRef) (body : List SymbolRef) (decoration : Decoration V) :
    Authoring V RuleId := do
  let b ← get
  let (head, body) ← b.checkRule head body
  let rule : Rule V := ⟨decoration, b.rules.length, head, body⟩
  set { b with rules := b.rules ++ [rule] }
  return rule.id

theorem apply_addRule (head : SymbolRef) (body : List SymbolRef) (decoration : Decoration V)
    (b : Builder V) :
    (addRule head body decoration).apply b =
      match b.checkRule head body with
      | .ok (head, body) =>
        (.ok b.rules.length,
          { b with rules := b.rules ++ [⟨decoration, b.rules.length, head, body⟩] })
      | .error e => (.error e, b) := by
  unfold addRule
  rw [Authoring.apply_bind, Authoring.apply_get]
  cases h : b.checkRule head body <;> simp [Authoring.apply_bind, h, Except.map]

/-- Add the rule by which the start symbol becomes this non-terminal. -/
def setStart (symbol : SymbolRef) (decoration : Decoration V) : Authoring V RuleId := do
  let b ← get
  let symbol ← b.symbols.resolveNonTerminal symbol
  addRule b.start [symbol] decoration

end Builder

end CanonicalLR
