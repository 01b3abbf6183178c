import CanonicalLR.Event
import CanonicalLR.Proofs.ErrorDetection
import CanonicalLR.Proofs.Texts

/-!
The stacks under any table, also one that was written by hand and is wrong. Whatever the
table answers, and even if it answers the same question in two ways, the two stacks grow
and shrink together, so a handler gets just as many values as the body of its rule has
symbols. Where the values are too few nothing is taken from them, and parsing ends with
an error.
-/
namespace CanonicalLR

variable {V : Type}

/-- The table reduces by rules of the grammar, and expects terminals of the grammar. -/
structure Tabular.Fits (table : Tabular) (g : Grammar V) : Prop where
  reduces : ∀ id t r, table.action id t = .reduce r → r < g.rules.length
  expects : ∀ id, ∀ t ∈ table.expected id, g.symbols.owns (.terminal t) = true

/-- Rows fit if their entries do. -/
theorem Tabular.fits_ofRows {g : Grammar V} {initial : StateId} {rows : List Row}
    (reduces : ∀ row ∈ rows, ∀ entry ∈ row.actions, ∀ r, entry.2 = .reduce r → r < g.rules.length)
    (owned : ∀ row ∈ rows, ∀ entry ∈ row.actions, g.symbols.owns (.terminal entry.1) = true) :
    (Tabular.ofRows initial rows).Fits g where
  reduces id t r answer := by
    simp only [Tabular.ofRows, Row.action] at answer
    cases here : rows[id]? with
    | none => simp [here] at answer
    | some row =>
      cases found : row.actions.lookup t with
      | none => simp [here, found] at answer
      | some a =>
        simp only [here, found, Option.map_some, Option.getD_some] at answer
        obtain ⟨before, after, split, _⟩ := List.lookup_eq_some_iff.mp found
        exact reduces row (List.mem_of_getElem? here) (t, a) (by simp [split]) r answer
  expects id t mem := by
    simp only [Tabular.ofRows] at mem
    cases here : rows[id]? with
    | none => simp [here] at mem
    | some row =>
      simp only [here, Option.map_some, Option.getD_some] at mem
      obtain ⟨entry, listed, rfl⟩ := List.mem_map.mp mem
      exact owned row (List.mem_of_getElem? here) entry (List.mem_filter.mp listed).1

namespace Machine

variable [SemanticValue V] {g : Grammar V} {table : Tabular} {m m' : Configuration V}
  {tokens : List (Token V)}

/-- Parsing the tokens comes to the configuration, where any table may answer at each step. -/
inductive Reached (g : Grammar V) (tokens : List (Token V)) : Configuration V → Prop where
  | start (table : Tabular) : Reached g tokens (.start table tokens)
  | step {m m' : Configuration V} (table : Tabular) (reached : Reached g tokens m)
    (next : step g table m = .continue m') : Reached g tokens m'

/-- The step runs the handler of the rule on these values and leaves the rest of the stack. -/
structure Calls (m m' : Configuration V) (rule : Rule V) (arguments : List V) : Prop where
  latest : ∃ below handler, rule.handler = some handler ∧
    m.values = arguments.reverse ++ below ∧ m'.values = handler arguments :: below
  recorded : m'.handled = rule.id :: m.handled

/-- The stacks are aligned, and the next step keeps to that. -/
structure Disciplined (g : Grammar V) (table : Tabular) (m : Configuration V) : Prop where
  aligned : m.states.length = m.values.length + 1
  nonempty : m.states ≠ []
  /-- A step runs no handler, or one, on as many values as the body of its rule has symbols, those
  that were pushed last, in the order in which they were. -/
  calls : ∀ m', step g table m = .continue m' → m'.handled = m.handled ∨
    ∃ rule ∈ g.rules, ∃ arguments, arguments.length = rule.body.length ∧ Calls m m' rule arguments
  /-- The step that ends parsing runs none. -/
  last : ∀ result calls, step g table m = .halt result calls → calls = m.calls
  /-- It ends parsing if the body of the rule is longer than the stack. -/
  short : ∀ id t r rule, m.decision? g table = some (id, t, .reduce r) → g.rule? r = some rule →
    m.values.length < rule.body.length → step g table m = .halt (.error .unexpectedEnd) m.calls
  /-- What is written of the decision and of an error has a text. -/
  logged : ∀ id t a, m.decision? g table = some (id, t, a) →
    ((Event.decided id t a).message? g).isSome
  reported : ∀ e calls, step g table m = .halt (.error e) calls → (e.message? g).isSome

/-! ### One step -/

/-- A move leaves the stacks aligned. -/
theorem Does.aligned {move : Move V} (h : Does g table move m m')
    (aligned : m.states.length = m.values.length + 1) :
    m'.states.length = m'.values.length + 1 := by
  cases h with
  | shift top input owned act =>
    simp only [List.length_cons]
    omega
  | reduce top owned act found enough uncovered goto =>
    -- both stacks lose as many as the rule is long, and then get one more
    have left := congrArg List.length uncovered
    simp only [List.length_drop, List.length_cons] at left
    simp only [Configuration.reduced, List.length_cons, List.length_drop]
    omega

/-- A move runs no handler, or it is a reduction and runs the handler of its rule. -/
theorem Does.calls {move : Move V} (h : Does g table move m m') (wf : g.WellFormed) :
    m'.handled = m.handled ∨
      ∃ rule ∈ g.rules, ∃ arguments, arguments.length = rule.body.length ∧
        Calls m m' rule arguments := by
  cases h with
  | shift top input owned act => exact .inl rfl
  | reduce top owned act found enough uncovered goto =>
    rename_i id rule
    cases handled : rule.handler with
    | none => exact .inl (by simp [Configuration.reduced, handled])
    | some handler =>
      obtain ⟨mem, same⟩ := wf.mem_of_rule? found
      refine .inr ⟨rule, mem, (m.values.take rule.length).reverse, ?_,
        ⟨⟨m.values.drop rule.length, handler, handled, ?_, ?_⟩, ?_⟩⟩
      · rw [List.length_reverse, List.length_take]
        exact Nat.min_eq_left enough
      · rw [List.reverse_reverse, List.take_append_drop]
      · simp [Configuration.reduced, Rule.valueOf, handled]
      · simp [Configuration.reduced, handled, same]

/-- A reduction fails where the values are too few or there is no state to go to. -/
theorem reduce_eq_error {id : RuleId} {e : ParseError} {rule : Rule V}
    (found : g.rule? id = some rule) (fails : reduce g table m id = .error e) :
    e = .unexpectedEnd ∨ ∃ base, e = .missingGoto base rule.head := by
  by_cases few : m.values.length < rule.length
  · simp only [reduce, found, few, if_true, Except.error.injEq] at fails
    exact .inl fails.symm
  · cases uncovered : m.states.drop rule.length with
    | nil =>
      simp only [reduce, found, few, uncovered, if_false, Except.error.injEq] at fails
      exact .inl fails.symm
    | cons base under =>
      cases goto : table.goto base rule.head with
      | none =>
        simp only [reduce, found, few, uncovered, goto, if_false, Except.error.injEq] at fails
        exact .inr ⟨base, fails.symm⟩
      | some target =>
        rw [reduce_of_goto found (Nat.not_lt.mp few) uncovered goto] at fails
        cases fails

/-- The errors that a table can cause which reduces by rules of the grammar. -/
inductive Fails (g : Grammar V) (table : Tabular) : ParseError → Prop where
  | unexpected (id : StateId) (got : Terminal) :
    Fails g table (.unexpectedSymbol id got (table.expected id))
  | ended : Fails g table .unexpectedEnd
  | stuck (base : StateId) {rule : Rule V} (mem : rule ∈ g.rules) :
    Fails g table (.missingGoto base rule.head)
  | trailing (got : Terminal) : Fails g table (.trailingSymbol got)

omit [SemanticValue V] in
theorem fails_of_accept {e : ParseError} (refused : accept m = .error e) : Fails g table e := by
  unfold accept at refused
  split at refused
  · cases refused
    exact .trailing _
  · split at refused
    · cases refused
      exact .ended
    · cases refused

theorem fails_of_step (fits : table.Fits g) {e : ParseError} {calls : List RuleId}
    (halt : step g table m = .halt (.error e) calls) : Fails g table e := by
  generalize failure : (Except.error e : Except ParseError V) = result at halt
  cases (halts_of_step halt).1 with
  | bottom none =>
    cases failure
    exact .ended
  | foreign top foreign =>
    cases failure
    exact .unexpected _ _
  | shift decides fails =>
    cases failure
    unfold shift at fails
    split at fails
    · cases fails
      exact .ended
    · cases fails
  | reduce decides fails =>
    cases failure
    obtain ⟨_, _, _, act⟩ := Configuration.decision?_eq_some.mp decides
    have found := List.getElem?_eq_getElem (fits.reduces _ _ _ act.symm)
    rcases reduce_eq_error found fails with rfl | ⟨base, rfl⟩
    · exact .ended
    · exact .stuck base (List.getElem_mem _)
  | accept decides => exact fails_of_accept failure.symm
  | ended decides =>
    cases failure
    exact .ended
  | unexpected decides more =>
    cases failure
    exact .unexpected _ _

omit [SemanticValue V] in
theorem Fails.isSome_message? (fits : table.Fits g)
    (heads : ∀ rule ∈ g.rules, g.symbols.owns (.nonTerminal rule.head) = true) {e : ParseError}
    (h : Fails g table e) : (e.message? g).isSome := by
  cases h with
  | unexpected id got =>
    simp [ParseError.message?, g.terminalNames?_of_owns (fits.expects id)]
  | ended => rfl
  | stuck base mem =>
    obtain ⟨name, named⟩ := SymbolTable.exists_name? (heads _ mem)
    simp [ParseError.message?, named]
  | trailing got => rfl

/-- A body that is longer than the stack ends parsing. -/
theorem step_of_short {id : StateId} {t : Terminal} {r : RuleId} {rule : Rule V}
    (decides : m.decision? g table = some (id, t, .reduce r)) (found : g.rule? r = some rule)
    (few : m.values.length < rule.length) :
    step g table m = .halt (.error .unexpectedEnd) m.calls := by
  obtain ⟨⟨below, top⟩, owned, rfl, act⟩ := Configuration.decision?_eq_some.mp decides
  rw [step_eq top owned, ← act]
  simp only [reduce, found, few, if_true, attempt]

/-! ### Any number of steps -/

theorem Reached.aligned (h : Reached g tokens m) : m.states.length = m.values.length + 1 := by
  induction h with
  | start table => rfl
  | step table _ next ih =>
    obtain ⟨move, does⟩ := step_eq_continue.mp next
    exact does.aligned ih

theorem Reached.of_run {fuel : Nat} (ran : run g table fuel (.start table tokens) = .continue m) :
    Reached g tokens m := by
  obtain ⟨moves, _, runs⟩ := Runs.of_run_continue ran
  exact runs.preserves (fun _ _ _ reached does => .step table reached does.step_eq) (.start table)

theorem Reached.disciplined (reached : Reached g tokens m) (wf : g.WellFormed)
    (heads : ∀ rule ∈ g.rules, g.symbols.owns (.nonTerminal rule.head) = true)
    (fits : table.Fits g) : Disciplined g table m where
  aligned := reached.aligned
  nonempty none := by
    have size := reached.aligned
    simp [none] at size
  calls m' next := by
    obtain ⟨move, does⟩ := step_eq_continue.mp next
    exact does.calls wf
  last result calls halt := (halts_of_step halt).2
  short id t r rule decides found few := step_of_short decides found few
  logged id t a decides := by
    obtain ⟨_, owned, _, _⟩ := Configuration.decision?_eq_some.mp decides
    simp [Event.message?, Event.placeText?, g.name?_of_owns owned]
  reported e calls halt := (fails_of_step fits halt).isSome_message? fits heads

/-- Whatever the tokens, parsing keeps the two stacks aligned at every step, no matter what tables
answer at the steps before and which table that fits the grammar answers now. With one table for all
steps this is how parsing goes, up to the step that ends it. -/
theorem stacks_disciplined {b : Builder V} (authored : b.Authored) (tokens : List (Token V)) :
    (∀ m, Reached b.build tokens m → ∀ table : Tabular, table.Fits b.build →
      Disciplined b.build table m) ∧
    ∀ table : Tabular,
      (∀ fuel m, run b.build table fuel (.start table tokens) = .continue m →
        Reached b.build tokens m) ∧
      ∀ result calls, Parses b.build table tokens result calls →
        ∃ m, Reached b.build tokens m ∧ step b.build table m = .halt result calls := by
  refine ⟨fun m reached table fits => ?_, fun table => ⟨fun fuel m ran => .of_run ran, ?_⟩⟩
  · exact reached.disciplined authored.wellFormed.build authored.wellFormed.head_owned fits
  · intro result calls parsed
    obtain ⟨moves, m, runs, halt⟩ := parses_iff.mp parsed
    exact ⟨m, .of_run (runs.run_eq 0), halt⟩

end Machine

namespace Subtraction

/-- One state for everything: it pushes numbers, and at the end of input takes what there is for
differences, over and over. -/
def careless : Tabular :=
  .ofRows 0 [⟨[(builder.build.eos, .reduce 1), (number.1, .shift 0)], [(⟨⟨0⟩, 4⟩, 0)]⟩]

theorem careless_fits : careless.Fits builder.build :=
  Tabular.fits_ofRows
    (by
      simp only [List.forall_mem_cons]
      exact ⟨⟨fun r same => Action.reduce.inj same ▸ by decide, nofun, nofun⟩, nofun⟩)
    (by decide)

/-- Three numbers are taken for a difference, and nothing is left for the next one. -/
theorem careless_stops :
    careless.Fits builder.build ∧ ∃ m, Machine.Reached builder.build [number, number, number] m ∧
      Machine.Disciplined builder.build careless m ∧
      Machine.step builder.build careless m = .halt (.error .unexpectedEnd) [1] := by
  have parsed : Machine.Parses builder.build careless [number, number, number]
      (.error .unexpectedEnd) [1] := ⟨5, rfl⟩
  obtain ⟨disciplined, ends⟩ := Machine.stacks_disciplined authored [number, number, number]
  obtain ⟨m, reached, halt⟩ := (ends careless).2 _ _ parsed
  exact ⟨careless_fits, m, reached, disciplined m reached careless careless_fits, halt⟩

end Subtraction

end CanonicalLR
