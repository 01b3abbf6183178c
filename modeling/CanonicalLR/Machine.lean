import CanonicalLR.SemanticValue
import CanonicalLR.Table

/-!
The shift/reduce machine. It reads tokens under the control of a table, with a
stack of states and a stack of values, the top of each in front. The end of input is
implied by the end of the tokens, and may also be given as a token.
-/
namespace CanonicalLR

/-- A terminal with the value it stands for. -/
abbrev Token (V : Type) := Terminal × V

/-- Why a sequence of tokens is not parsed. -/
inductive ParseError where
  | unexpectedSymbol (state : StateId) (got : Terminal) (expecting : List Terminal)
  | unexpectedEnd
  | missingGoto (state : StateId) (symbol : NonTerminal)
  /-- There is a token after the one that ends the input. -/
  | trailingSymbol (got : Terminal)
  /-- The table reduces by a rule that the grammar does not have. -/
  | unknownRule (id : RuleId)
  deriving DecidableEq, Repr

/-- The machine between two steps. -/
structure Configuration (V : Type) where
  states : List StateId
  values : List V
  input : List (Token V)
  /-- The rules whose handlers ran, the latest in front. -/
  handled : List RuleId

namespace Configuration

variable {V : Type}

def start (table : Tabular) (input : List (Token V)) : Configuration V :=
  ⟨[table.initial], [], input, []⟩

/-- The next terminal. -/
def lookahead (g : Grammar V) (c : Configuration V) : Terminal :=
  match c.input with
  | [] => g.eos
  | (t, _) :: _ => t

/-- The rules whose handlers ran, in the order in which they did. -/
def calls (c : Configuration V) : List RuleId := c.handled.reverse

/-- What the table says to do next, in the state on top and with the terminal that comes next;
none for a terminal of another grammar. -/
def decision? (g : Grammar V) (table : Tabular) (c : Configuration V) :
    Option (StateId × Terminal × Action) :=
  match c.states with
  | [] => none
  | state :: _ =>
    let t := c.lookahead g
    if g.symbols.owns (.terminal t) then some (state, t, table.action state t) else none

end Configuration

/-- What a step leads to. -/
inductive Step (V : Type) where
  | continue (c : Configuration V)
  | halt (result : Except ParseError V) (calls : List RuleId)

namespace Machine

variable {V : Type} [SemanticValue V] (g : Grammar V) (table : Tabular)

/-- Push the value of the next token, and go to the state. -/
def shift (c : Configuration V) (target : StateId) : Except ParseError (Configuration V) :=
  match c.input with
  | [] => .error .unexpectedEnd
  | (_, v) :: rest => .ok ⟨target :: c.states, v :: c.values, rest, c.handled⟩

/-- Replace the values of the body by the value of the head, and go on from the state below. -/
def reduce (c : Configuration V) (id : RuleId) : Except ParseError (Configuration V) :=
  match g.rule? id with
  | none => .error (.unknownRule id)
  | some rule =>
    if c.values.length < rule.length then .error .unexpectedEnd
    else
      match c.states.drop rule.length with
      | [] => .error .unexpectedEnd
      | state :: below =>
        match table.goto state rule.head with
        | none => .error (.missingGoto state rule.head)
        | some target =>
          let states := target :: state :: below
          let arguments := (c.values.take rule.length).reverse
          let values := c.values.drop rule.length
          match rule.reduce? arguments with
          | some v => .ok ⟨states, v :: values, c.input, id :: c.handled⟩
          | none => .ok ⟨states, SemanticValue.vec arguments :: values, c.input, c.handled⟩

/-- The value on top, if the input ends here. -/
def accept (c : Configuration V) : Except ParseError V :=
  match c.input with
  | _ :: (t, _) :: _ => .error (.trailingSymbol t)
  | _ =>
    match c.values with
    | [] => .error .unexpectedEnd
    | v :: _ => .ok v

def step (c : Configuration V) : Step V :=
  let next : Except ParseError (Configuration V) → Step V
    | .ok c' => .continue c'
    | .error e => .halt (.error e) c.calls
  match c.states with
  | [] => .halt (.error .unexpectedEnd) c.calls
  | state :: _ =>
    let t := c.lookahead g
    let unexpected := ParseError.unexpectedSymbol state t (table.expected state)
    if g.symbols.owns (.terminal t) then
      match table.action state t with
      | .shift target => next (shift c target)
      | .reduce id => next (reduce g table c id)
      | .accept => .halt (accept c) c.calls
      | .error => .halt (.error (if t = g.eos then .unexpectedEnd else unexpected)) c.calls
    else .halt (.error unexpected) c.calls

/-- Take at most so many steps. -/
def run : Nat → Configuration V → Step V
  | 0, c => .continue c
  | fuel + 1, c =>
    match step g table c with
    | .continue c' => run fuel c'
    | .halt result calls => .halt result calls

variable {g table}

/-- A run of two parts goes on from where the first part stops. -/
theorem run_add (m n : Nat) (c : Configuration V) :
    run g table (m + n) c =
      match run g table m c with
      | .continue c' => run g table n c'
      | .halt result calls => .halt result calls := by
  induction m generalizing c with
  | zero => rw [Nat.zero_add, run]
  | succ m ih =>
    rw [Nat.succ_add, run, run]
    split
    · exact ih _
    · rfl

/-- More steps change nothing after a halt. -/
theorem run_of_le {m n : Nat} (h : m ≤ n) {c : Configuration V} {result : Except ParseError V}
    {calls : List RuleId} (halted : run g table m c = .halt result calls) :
    run g table n c = .halt result calls := by
  obtain ⟨k, rfl⟩ := Nat.le.dest h
  rw [run_add, halted]

variable (g table)

/-- Parsing the tokens ends with this result, after these handler calls. -/
def Parses (input : List (Token V)) (result : Except ParseError V) (calls : List RuleId) : Prop :=
  ∃ fuel, run g table fuel (.start table input) = .halt result calls

variable {g table}

/-- Parsing has at most one result. -/
theorem Parses.unique {input : List (Token V)} {r₁ r₂ : Except ParseError V}
    {calls₁ calls₂ : List RuleId} (h₁ : Parses g table input r₁ calls₁)
    (h₂ : Parses g table input r₂ calls₂) : r₁ = r₂ ∧ calls₁ = calls₂ := by
  obtain ⟨m, hm⟩ := h₁
  obtain ⟨n, hn⟩ := h₂
  have h := (run_of_le (Nat.le_max_left m n) hm).symm.trans (run_of_le (Nat.le_max_right m n) hn)
  cases h
  exact ⟨rfl, rfl⟩

end Machine

end CanonicalLR
