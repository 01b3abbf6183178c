import CanonicalLR.DerivationTree

/-!
What a single step of the machine can do, and runs as sequences of moves. Every proof
about parsing goes through the inversions `step_eq_continue`, `step_eq_ok` and
`halts_of_step`, and none has to open the step function again.
-/
namespace CanonicalLR

variable {V : Type} [SemanticValue V]

/-- The terminal that the input begins with, or the end of input. -/
def Grammar.nextOf (g : Grammar V) : List (Token V) → Terminal
  | [] => g.eos
  | token :: _ => token.1

omit [SemanticValue V] in
theorem Configuration.lookahead_eq (g : Grammar V) (m : Configuration V) :
    m.lookahead g = g.nextOf m.input := by
  unfold lookahead Grammar.nextOf
  cases m.input <;> rfl

omit [SemanticValue V] in
theorem Configuration.decision?_eq_some {g : Grammar V} {table : Tabular}
    {m : Configuration V} {id : StateId} {t : Terminal} {a : Action} :
    m.decision? g table = some (id, t, a) ↔
      (∃ below, m.states = id :: below) ∧ g.symbols.owns (.terminal t) = true ∧
        t = g.nextOf m.input ∧ a = table.action id t := by
  unfold decision?
  cases m.states with
  | nil => simp
  | cons id' below =>
    rw [m.lookahead_eq g]
    by_cases owned : g.symbols.owns (.terminal (g.nextOf m.input)) = true
    · simp only [owned, if_true, Option.some.injEq, Prod.mk.injEq, List.cons.injEq]
      grind
    · grind

omit [SemanticValue V] in
theorem Configuration.decision?_of_action {g : Grammar V} {table : Tabular} {m : Configuration V}
    {id : StateId} {below : List StateId} {a : Action} (top : m.states = id :: below)
    (owned : g.symbols.owns (.terminal (g.nextOf m.input)) = true)
    (act : table.action id (g.nextOf m.input) = a) :
    m.decision? g table = some (id, g.nextOf m.input, a) :=
  decision?_eq_some.mpr ⟨⟨below, top⟩, owned, rfl, act.symm⟩

/-- The configuration after a reduction, with these states. -/
def Configuration.reduced (m : Configuration V) (id : RuleId) (rule : Rule V)
    (states : List StateId) : Configuration V :=
  ⟨states, rule.valueOf (m.values.take rule.length).reverse :: m.values.drop rule.length, m.input,
    if rule.handler.isSome then id :: m.handled else m.handled⟩

namespace Machine

variable {g : Grammar V} {table : Tabular}

/-- What the machine does between two configurations. -/
inductive Move (V : Type) where
  | shift (token : Token V)
  | reduce (rule : Rule V)

/-- The machine makes this move from the one configuration to the other. -/
inductive Does (g : Grammar V) (table : Tabular) :
    Move V → Configuration V → Configuration V → Prop where
  | shift {m : Configuration V} {state target : StateId} {below : List StateId} {token : Token V}
    {rest : List (Token V)} (top : m.states = state :: below) (input : m.input = token :: rest)
    (owned : g.symbols.owns (.terminal token.1) = true)
    (act : table.action state token.1 = .shift target) :
    Does g table (.shift token) m
      ⟨target :: m.states, token.2 :: m.values, rest, m.handled⟩
  | reduce {m : Configuration V} {state base target : StateId} {below under : List StateId}
    {id : RuleId} {rule : Rule V} (top : m.states = state :: below)
    (owned : g.symbols.owns (.terminal (g.nextOf m.input)) = true)
    (act : table.action state (g.nextOf m.input) = .reduce id) (found : g.rule? id = some rule)
    (enough : rule.length ≤ m.values.length)
    (uncovered : m.states.drop rule.length = base :: under)
    (goto : table.goto base rule.head = some target) :
    Does g table (.reduce rule) m (m.reduced id rule (target :: base :: under))

/-- The table accepts. -/
structure Accepts (g : Grammar V) (table : Tabular) (m : Configuration V) : Prop where
  act : ∃ state below, m.states = state :: below ∧
    g.symbols.owns (.terminal (g.nextOf m.input)) = true ∧
    table.action state (g.nextOf m.input) = .accept

theorem reduce_of_goto {m : Configuration V} {id : RuleId} {rule : Rule V}
    {base target : StateId} {under : List StateId} (found : g.rule? id = some rule)
    (enough : rule.length ≤ m.values.length)
    (uncovered : m.states.drop rule.length = base :: under)
    (goto : table.goto base rule.head = some target) :
    reduce g table m id = .ok (m.reduced id rule (target :: base :: under)) := by
  have few : ¬m.values.length < rule.length := by omega
  cases hv : rule.handler <;>
    simp [reduce, found, few, uncovered, goto, Configuration.reduced, Rule.valueOf, Rule.reduce?,
      hv]

theorem reduce_eq_ok {m m' : Configuration V} {id : RuleId} :
    reduce g table m id = .ok m' ↔
      ∃ rule base under target, g.rule? id = some rule ∧ rule.length ≤ m.values.length ∧
        m.states.drop rule.length = base :: under ∧ table.goto base rule.head = some target ∧
        m' = m.reduced id rule (target :: base :: under) := by
  constructor
  · intro h
    cases found : g.rule? id with
    | none => simp [reduce, found] at h
    | some rule =>
      by_cases few : m.values.length < rule.length
      · simp [reduce, found, few] at h
      · have enough : rule.length ≤ m.values.length := by omega
        cases uncovered : m.states.drop rule.length with
        | nil => simp [reduce, found, few, uncovered] at h
        | cons base under =>
          cases goto : table.goto base rule.head with
          | none => simp [reduce, found, few, uncovered, goto] at h
          | some target =>
            rw [reduce_of_goto found enough uncovered goto] at h
            exact ⟨rule, base, under, target, rfl, enough, uncovered, goto, (Except.ok.inj h).symm⟩
  · rintro ⟨rule, base, under, target, found, enough, uncovered, goto, rfl⟩
    exact reduce_of_goto found enough uncovered goto

/-- An attempt to go on leads to the next configuration or to an error. -/
def attempt (m : Configuration V) : Except ParseError (Configuration V) → Step V
  | .ok m' => .continue m'
  | .error e => .halt (.error e) m.calls

omit [SemanticValue V] in
@[simp] theorem attempt_eq_continue {m m' : Configuration V}
    {next : Except ParseError (Configuration V)} :
    attempt m next = .continue m' ↔ next = .ok m' := by
  cases next <;> simp [attempt]

omit [SemanticValue V] in
@[simp] theorem attempt_ne_ok {m : Configuration V} {next : Except ParseError (Configuration V)}
    {v : V} {calls : List RuleId} : attempt m next ≠ .halt (.ok v) calls := by
  cases next <;> simp [attempt]

/-- What a step does in the state on top, with the terminal that comes next. -/
theorem step_eq {m : Configuration V} {state : StateId} {below : List StateId}
    (top : m.states = state :: below)
    (owned : g.symbols.owns (.terminal (g.nextOf m.input)) = true) :
    step g table m =
      match table.action state (g.nextOf m.input) with
      | .shift target => attempt m (shift m target)
      | .reduce id => attempt m (reduce g table m id)
      | .accept => .halt (accept m) m.calls
      | .error => .halt (.error (if g.nextOf m.input = g.eos then .unexpectedEnd
          else .unexpectedSymbol state (g.nextOf m.input) (table.expected state))) m.calls := by
  cases act : table.action state (g.nextOf m.input) with
  | shift target =>
    simp only [step, top, m.lookahead_eq g, owned, act, if_true]
    cases shift m target <;> rfl
  | reduce id =>
    simp only [step, top, m.lookahead_eq g, owned, act, if_true]
    cases reduce g table m id <;> rfl
  | accept => simp only [step, top, m.lookahead_eq g, owned, act, if_true]
  | error => simp only [step, top, m.lookahead_eq g, owned, act, if_true]

/-- Before a terminal of another grammar the machine stops. -/
theorem step_of_foreign {m : Configuration V} {state : StateId} {below : List StateId}
    (top : m.states = state :: below)
    (foreign : ¬g.symbols.owns (.terminal (g.nextOf m.input)) = true) :
    step g table m = .halt (.error (.unexpectedSymbol state (g.nextOf m.input)
      (table.expected state))) m.calls := by
  simp only [step, top, m.lookahead_eq g, foreign]
  rfl

theorem Does.step_eq {move : Move V} {m m' : Configuration V} (h : Does g table move m m') :
    step g table m = .continue m' := by
  cases h with
  | shift top input owned act =>
    rename_i token rest
    have next : g.nextOf m.input = token.1 := by rw [input]; rfl
    rw [Machine.step_eq top (next ▸ owned), next, act]
    simp only [attempt_eq_continue, Machine.shift, input]
  | reduce top owned act found enough uncovered goto =>
    rw [Machine.step_eq top owned, act]
    simp only [attempt_eq_continue]
    exact reduce_of_goto found enough uncovered goto

/-- The machine goes on just by its moves. -/
theorem step_eq_continue {m m' : Configuration V} :
    step g table m = .continue m' ↔ ∃ move, Does g table move m m' := by
  constructor
  · intro h
    cases top : m.states with
    | nil => simp [step, top] at h
    | cons state below =>
      by_cases owned : g.symbols.owns (.terminal (g.nextOf m.input)) = true
      · rw [Machine.step_eq top owned] at h
        cases act : table.action state (g.nextOf m.input) with
        | shift target =>
          simp only [act, attempt_eq_continue] at h
          cases input : m.input with
          | nil => simp [shift, input] at h
          | cons token rest =>
            simp only [shift, input, Except.ok.injEq] at h
            rw [input] at owned act
            exact ⟨.shift token, h ▸ .shift top input owned act⟩
        | reduce id =>
          simp only [act, attempt_eq_continue] at h
          obtain ⟨rule, base, under, target, found, enough, uncovered, goto, rfl⟩ :=
            reduce_eq_ok.mp h
          exact ⟨.reduce rule, .reduce top owned act found enough uncovered goto⟩
        | accept => simp [act] at h
        | error => simp [act] at h
      · rw [step_of_foreign top owned] at h
        cases h
  · rintro ⟨move, h⟩
    exact h.step_eq

/-- The machine succeeds just where the table accepts and the input ends, with the value on top. -/
theorem step_eq_ok {m : Configuration V} {v : V} {calls : List RuleId} :
    step g table m = .halt (.ok v) calls ↔
      Accepts g table m ∧ m.input.length ≤ 1 ∧ m.values.head? = some v ∧ calls = m.calls := by
  have accept_eq : accept m = .ok v ↔ m.input.length ≤ 1 ∧ m.values.head? = some v := by
    unfold accept
    rcases m.input with _ | ⟨_, _ | _⟩ <;> cases m.values <;> simp
  constructor
  · intro h
    cases top : m.states with
    | nil => simp [step, top] at h
    | cons state below =>
      by_cases owned : g.symbols.owns (.terminal (g.nextOf m.input)) = true
      · rw [Machine.step_eq top owned] at h
        cases act : table.action state (g.nextOf m.input) with
        | shift target => simp [act] at h
        | reduce id => simp [act] at h
        | accept =>
          simp only [act, Step.halt.injEq] at h
          obtain ⟨short, value⟩ := accept_eq.mp h.1
          exact ⟨⟨state, below, top, owned, act⟩, short, value, h.2.symm⟩
        | error => simp [act] at h
      · rw [step_of_foreign top owned] at h
        cases h
  · rintro ⟨⟨state, below, top, owned, act⟩, short, value, rfl⟩
    rw [Machine.step_eq top owned, act, accept_eq.mpr ⟨short, value⟩]

/-- The configuration decides on the move and on what it leads to. -/
theorem Does.unique {move move' : Move V} {m m₁ m₂ : Configuration V}
    (h : Does g table move m m₁) (h' : Does g table move' m m₂) : move = move' ∧ m₁ = m₂ := by
  have same : m₁ = m₂ := by
    have := h.step_eq.symm.trans h'.step_eq
    exact Step.continue.inj this
  refine ⟨?_, same⟩
  cases h with
  | shift top input owned act =>
    cases h' with
    | shift _ input' _ _ =>
      cases input.symm.trans input'
      rfl
    | reduce top' _ act' _ _ _ _ =>
      cases top.symm.trans top'
      rw [input] at act'
      cases act.symm.trans act'
  | reduce top _ act found _ _ _ =>
    cases h' with
    | shift top' input' _ act' =>
      cases top.symm.trans top'
      rw [input'] at act
      cases act.symm.trans act'
    | reduce top' _ act' found' _ _ _ =>
      cases top.symm.trans top'
      cases act.symm.trans act'
      cases found.symm.trans found'
      rfl

theorem Does.exists_act {move : Move V} {m m' : Configuration V} (h : Does g table move m m') :
    ∃ state below, m.states = state :: below ∧ table.action state (g.nextOf m.input) ≠ .error := by
  cases h with
  | shift top input owned act =>
    refine ⟨_, _, top, ?_⟩
    rw [input]
    exact fun err => by cases act.symm.trans err
  | reduce top owned act => exact ⟨_, _, top, fun err => by cases act.symm.trans err⟩

/-- Where the table has no action the machine stops with an error. -/
theorem step_of_error {m : Configuration V} {state : StateId} {below : List StateId}
    (top : m.states = state :: below)
    (owned : g.symbols.owns (.terminal (g.nextOf m.input)) = true)
    (act : table.action state (g.nextOf m.input) = .error) :
    step g table m = .halt (.error (if g.nextOf m.input = g.eos then .unexpectedEnd
      else .unexpectedSymbol state (g.nextOf m.input) (table.expected state))) m.calls := by
  rw [step_eq top owned, act]

/-- All that can end a run, each with what it comes from. -/
inductive Halts (g : Grammar V) (table : Tabular) (m : Configuration V) :
    Except ParseError V → Prop where
  | bottom (none : m.states = []) : Halts g table m (.error .unexpectedEnd)
  | foreign {state : StateId} {below : List StateId} (top : m.states = state :: below)
    (foreign : ¬g.symbols.owns (.terminal (g.nextOf m.input)) = true) :
    Halts g table m (.error (.unexpectedSymbol state (g.nextOf m.input) (table.expected state)))
  | shift {id target : StateId} {t : Terminal} {e : ParseError}
    (decides : m.decision? g table = some (id, t, .shift target))
    (fails : shift m target = .error e) : Halts g table m (.error e)
  | reduce {id : StateId} {t : Terminal} {r : RuleId} {e : ParseError}
    (decides : m.decision? g table = some (id, t, .reduce r))
    (fails : reduce g table m r = .error e) : Halts g table m (.error e)
  | accept {id : StateId} {t : Terminal} (decides : m.decision? g table = some (id, t, .accept)) :
    Halts g table m (accept m)
  | ended {id : StateId} (decides : m.decision? g table = some (id, g.eos, .error)) :
    Halts g table m (.error .unexpectedEnd)
  | unexpected {id : StateId} {t : Terminal} (decides : m.decision? g table = some (id, t, .error))
    (more : t ≠ g.eos) : Halts g table m (.error (.unexpectedSymbol id t (table.expected id)))

/-- A step that ends a run comes from one of these, and no handler runs in it. -/
theorem halts_of_step {m : Configuration V} {result : Except ParseError V} {calls : List RuleId}
    (halt : step g table m = .halt result calls) : Halts g table m result ∧ calls = m.calls := by
  cases top : m.states with
  | nil =>
    simp only [step, top, Step.halt.injEq] at halt
    obtain ⟨rfl, rfl⟩ := halt
    exact ⟨.bottom top, rfl⟩
  | cons state below =>
    by_cases owned : g.symbols.owns (.terminal (g.nextOf m.input)) = true
    · rw [step_eq top owned] at halt
      cases act : table.action state (g.nextOf m.input) with
      | shift target =>
        have decides := Configuration.decision?_of_action top owned act
        rw [act] at halt
        cases shifted : shift m target with
        | ok m' => simp [shifted, attempt] at halt
        | error e =>
          simp only [shifted, attempt, Step.halt.injEq] at halt
          obtain ⟨rfl, rfl⟩ := halt
          exact ⟨.shift decides shifted, rfl⟩
      | reduce id =>
        have decides := Configuration.decision?_of_action top owned act
        rw [act] at halt
        cases reduced : reduce g table m id with
        | ok m' => simp [reduced, attempt] at halt
        | error e =>
          simp only [reduced, attempt, Step.halt.injEq] at halt
          obtain ⟨rfl, rfl⟩ := halt
          exact ⟨.reduce decides reduced, rfl⟩
      | accept =>
        simp only [act, Step.halt.injEq] at halt
        obtain ⟨rfl, rfl⟩ := halt
        exact ⟨.accept (Configuration.decision?_of_action top owned act), rfl⟩
      | error =>
        have decides := Configuration.decision?_of_action top owned act
        simp only [act, Step.halt.injEq] at halt
        obtain ⟨rfl, rfl⟩ := halt
        by_cases last : g.nextOf m.input = g.eos
        · rw [if_pos last]
          exact ⟨.ended (last ▸ decides), rfl⟩
        · rw [if_neg last]
          exact ⟨.unexpected decides last, rfl⟩
    · rw [step_of_foreign top owned] at halt
      obtain ⟨rfl, rfl⟩ := Step.halt.inj halt
      exact ⟨.foreign top owned, rfl⟩

/-! ### Runs -/

/-- The machine makes these moves one after the other. -/
inductive Runs (g : Grammar V) (table : Tabular) :
    List (Move V) → Configuration V → Configuration V → Prop where
  | nil (m : Configuration V) : Runs g table [] m m
  | cons {move : Move V} {moves : List (Move V)} {m m₁ m₂ : Configuration V}
    (first : Does g table move m m₁) (rest : Runs g table moves m₁ m₂) :
    Runs g table (move :: moves) m m₂

namespace Runs

variable {moves moves' : List (Move V)} {m m₁ m₂ : Configuration V}

theorem single {move : Move V} (h : Does g table move m m₁) : Runs g table [move] m m₁ :=
  .cons h (.nil m₁)

theorem append (h : Runs g table moves m m₁) (h' : Runs g table moves' m₁ m₂) :
    Runs g table (moves ++ moves') m m₂ := by
  induction h with
  | nil => exact h'
  | cons first _ ih => exact .cons first (ih h')

/-- What every move preserves, every run does. -/
theorem preserves {P : Configuration V → Prop} (h : Runs g table moves m m₁)
    (step : ∀ move m m', P m → Does g table move m m' → P m') (start : P m) : P m₁ := by
  induction h with
  | nil => exact start
  | cons first _ ih => exact ih (step _ _ _ start first)

theorem run_eq (h : Runs g table moves m m₁) (fuel : Nat) :
    run g table (moves.length + fuel) m = run g table fuel m₁ := by
  induction h with
  | nil => rw [List.length_nil, Nat.zero_add]
  | cons first _ ih =>
    rw [List.length_cons, Nat.add_right_comm, run, first.step_eq]
    exact ih

theorem of_run {fuel : Nat} {result : Except ParseError V} {calls : List RuleId}
    (h : run g table fuel m = .halt result calls) :
    ∃ moves m₁, Runs g table moves m m₁ ∧ step g table m₁ = .halt result calls := by
  induction fuel generalizing m with
  | zero => simp [run] at h
  | succ fuel ih =>
    rw [run] at h
    cases hs : step g table m with
    | «continue» m' =>
      rw [hs] at h
      obtain ⟨moves, m₁, rest, last⟩ := ih h
      obtain ⟨move, first⟩ := step_eq_continue.mp hs
      exact ⟨move :: moves, m₁, .cons first rest, last⟩
    | halt r cs =>
      rw [hs] at h
      cases h
      exact ⟨[], m, .nil m, hs⟩

/-- The machine that has not stopped after so many steps has made as many moves. -/
theorem of_run_continue {fuel : Nat} (h : run g table fuel m = .continue m₁) :
    ∃ moves, moves.length = fuel ∧ Runs g table moves m m₁ := by
  induction fuel generalizing m with
  | zero =>
    cases h
    exact ⟨[], rfl, .nil _⟩
  | succ fuel ih =>
    rw [run] at h
    cases hs : step g table m with
    | «continue» m' =>
      rw [hs] at h
      obtain ⟨moves, size, rest⟩ := ih h
      obtain ⟨move, first⟩ := step_eq_continue.mp hs
      exact ⟨move :: moves, by rw [List.length_cons, size], .cons first rest⟩
    | halt result calls =>
      rw [hs] at h
      cases h

/-- Two runs from one configuration agree as long as both go on. -/
theorem prefix_or_prefix (h : Runs g table moves m m₁) (h' : Runs g table moves' m m₂) :
    (∃ more, moves' = moves ++ more ∧ Runs g table more m₁ m₂) ∨
      ∃ more, moves = moves' ++ more ∧ Runs g table more m₂ m₁ := by
  induction h generalizing moves' with
  | nil => exact .inl ⟨moves', rfl, h'⟩
  | cons first rest ih =>
    cases h' with
    | nil => exact .inr ⟨_, rfl, .cons first rest⟩
    | cons first' rest' =>
      obtain ⟨rfl, rfl⟩ := first.unique first'
      rcases ih rest' with ⟨more, rfl, back⟩ | ⟨more, rfl, back⟩
      · exact .inl ⟨more, rfl, back⟩
      · exact .inr ⟨more, rfl, back⟩

end Runs

/-! ### Changing what is not read yet -/

/-- As long as there is something left in front of it, the rest of the input does not matter. -/
theorem Does.change_rest {move : Move V} {m m₁ : Configuration V} {front rest : List (Token V)}
    (h : Does g table move m m₁) (input : m.input = front ++ rest) (more : front ≠ []) :
    ∃ front', m₁.input = front' ++ rest ∧
      ∀ rest', Does g table move { m with input := front ++ rest' }
        { m₁ with input := front' ++ rest' } := by
  obtain ⟨token, front, rfl⟩ := List.exists_cons_of_ne_nil more
  cases h with
  | shift top read owned act =>
    cases read.symm.trans input
    exact ⟨front, rfl, fun rest' => .shift top rfl owned act⟩
  | reduce top owned act found enough uncovered goto =>
    rw [input] at owned act
    exact ⟨token :: front, input, fun rest' => .reduce top owned act found enough uncovered goto⟩

/-- A run that reads some of its input does the same before any other rest. -/
theorem Runs.change_rest {moves : List (Move V)} {m m₂ : Configuration V}
    {front rest : List (Token V)} (h : Runs g table moves m m₂) (input : m.input = front ++ rest)
    (read : m₂.input.length ≤ rest.length) :
    ∃ moves₁ moves₂ m₁, Runs g table moves₂ m₁ m₂ ∧ m₁.input = rest ∧
      ∀ rest', Runs g table moves₁ { m with input := front ++ rest' }
        { m₁ with input := rest' } := by
  induction h generalizing front with
  | nil m =>
    have none : front = [] := by
      rw [input, List.length_append] at read
      exact List.eq_nil_of_length_eq_zero (by omega)
    subst none
    exact ⟨[], [], m, .nil m, input, fun rest' => .nil _⟩
  | cons first later ih =>
    by_cases none : front = []
    · subst none
      exact ⟨[], _, _, .cons first later, input, fun rest' => .nil _⟩
    · obtain ⟨front', input', same⟩ := first.change_rest input none
      obtain ⟨moves₁, moves₂, m₁, back, at_, ahead⟩ := ih input' read
      exact ⟨_, moves₂, m₁, back, at_, fun rest' => .cons (same rest') (ahead rest')⟩

/-! ### Where runs end -/

/-- Where the table accepts the machine goes no further. -/
theorem Accepts.not_does {m m' : Configuration V} {move : Move V} (h : Accepts g table m) :
    ¬Does g table move m m' := by
  intro does
  obtain ⟨state, below, top, owned, act⟩ := h
  have next := does.step_eq
  rw [step_eq top owned, act] at next
  cases next

theorem not_does_of_halt {m m' : Configuration V} {move : Move V} {result : Except ParseError V}
    {calls : List RuleId} (h : step g table m = .halt result calls) : ¬Does g table move m m' := by
  intro does
  rw [does.step_eq] at h
  cases h

/-- From one configuration there is only one way to where the machine goes no further. -/
theorem Runs.unique {m m₁ m₂ : Configuration V} {moves moves' : List (Move V)}
    (runs : Runs g table moves m m₁) (runs' : Runs g table moves' m m₂)
    (last : ∀ move m', ¬Does g table move m₁ m') (last' : ∀ move m', ¬Does g table move m₂ m') :
    moves = moves' ∧ m₁ = m₂ := by
  rcases runs.prefix_or_prefix runs' with ⟨more, rfl, rest⟩ | ⟨more, rfl, rest⟩
  · cases rest with
    | nil => exact ⟨(List.append_nil _).symm, rfl⟩
    | cons first _ => exact absurd first (last _ _)
  · cases rest with
    | nil => exact ⟨List.append_nil _, rfl⟩
    | cons first _ => exact absurd first (last' _ _)

/-- Parsing ends with a result just if some run from the start comes to where the next step
gives it. -/
theorem parses_iff {input : List (Token V)} {result : Except ParseError V}
    {calls : List RuleId} :
    Parses g table input result calls ↔
      ∃ moves m, Runs g table moves (.start table input) m ∧
        step g table m = .halt result calls := by
  constructor
  · rintro ⟨fuel, h⟩
    exact Runs.of_run h
  · rintro ⟨moves, m, h, last⟩
    refine ⟨moves.length + 1, ?_⟩
    rw [h.run_eq, run, last]

end Machine

end CanonicalLR
