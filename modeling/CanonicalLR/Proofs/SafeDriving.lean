import CanonicalLR.Event
import CanonicalLR.Proofs.ErrorDetection
import CanonicalLR.Proofs.OpenRules

/-!
Nothing that a table says can fail to be done. Conflicts or not, and whatever tokens
come: the states are those of a path, a reduction finds the body of its rule at the end
of the path and a state to go to below, and a shift finds a token. So the only errors
are a token that is not expected, one that comes after the end, and an end of input
under which the state on top has no action.
-/
namespace CanonicalLR

open Machine

variable {V : Type} {g : Grammar V} {c : Collection} {T : Table} {rule : Rule V}

/-! ### One step -/

/-- What the table decides can be done: a reduction has the body of its rule on top of the path and
a state to go to from below, a shift has a token, and whoever accepts has a value. -/
structure Machine.SafeAt (g : Grammar V) (c : Collection) (T : Table) (m : Configuration V) :
    Prop where
  path : ∃ string, c.Path m.states string ∧ m.values.length = string.length ∧
    ∀ id t r, m.decision? g T.tabular = some (id, t, .reduce r) →
      ∃ rule base below target, g.rule? r = some rule ∧
        string.take rule.length = rule.body.reverse ∧
        m.states.drop rule.length = base :: below ∧ T.goto? base rule.head = some target
  token : ∀ id t target, m.decision? g T.tabular = some (id, t, .shift target) → m.input ≠ []
  value : ∀ id t, m.decision? g T.tabular = some (id, t, .accept) → m.values ≠ []
  message : ∀ id t a, m.decision? g T.tabular = some (id, t, a) →
    ((Event.decided id t a).message? g).isSome

/-- A terminal under which a state has an action is one of the grammar. -/
theorem Collection.Path.owns_of_action (made : T.Made g rule c) {id : StateId}
    {below : List StateId} {string : List Symbol} (path : c.Path (id :: below) string)
    {t : Terminal} (act : T.action id t ≠ .error) : g.symbols.owns (.terminal t) = true := by
  generalize entry : T.action id t = a at act
  obtain ⟨state, hs, i, hi, proposes⟩ := made.follows.exists_proposal made.built entry act
  have lookahead : g.symbols.owns (.terminal i.lookahead) = true := by
    obtain ⟨_, left, right, _, _, _, derives, follows⟩ :=
      path.fits made.wf made.start_mem made.built rfl hs i hi
    cases right with
    | nil =>
      have last : g.eos = i.lookahead := by simpa using follows
      exact last ▸ made.wf.eos_owned
    | cons x right =>
      have first : x = .terminal i.lookahead := by simpa using follows
      exact made.wf.owns_of_derives derives _ (by simp [first])
  rcases State.proposal?_eq_some.mp proposes with
    ⟨u, _, next, _, same⟩ | ⟨_, _, same⟩ | ⟨_, _, same⟩
  · cases same
    obtain ⟨r, mem, inside⟩ := g.exists_rule_of_mem_body (List.mem_of_getElem? next)
    exact made.wf.body_owned r mem _ inside
  · cases same
    exact lookahead
  · cases same
    exact lookahead

/-- Where the table reduces by a rule, that rule's body ends the string, and it is not the start
rule before the end of input. -/
theorem Collection.Path.opens_of_reduce (made : T.Made g rule c) {id : StateId}
    {below : List StateId} {string : List Symbol} (path : c.Path (id :: below) string.reverse)
    {t : Terminal} {r : RuleId} (act : T.action id t = .reduce r) :
    ∃ reduced left, g.rule? r = some reduced ∧ string = left ++ reduced.body ∧
      g.Opens left reduced t ∧ ¬(reduced.head = g.start ∧ t = g.eos) := by
  obtain ⟨state, hs, i, hi, proposes⟩ := made.follows.exists_proposal made.built act nofun
  obtain ⟨reduced, left, front, back, found, body, size, split, opens⟩ :=
    (path.open made.wf made.start_mem made.built rfl hs i hi).begins
  rcases State.proposal?_eq_some.mp proposes with
    ⟨_, _, _, _, same⟩ | ⟨_, _, same⟩ | ⟨final, other, same⟩
  · cases same
  · cases same
  · cases same
    have whole : front = reduced.body := by
      have taken := Item.take_body_of_final found final
      rwa [body, ← size, List.take_left, ← body] at taken
    rw [List.reverse_reverse, whole] at split
    exact ⟨reduced, left, found, split, opens, by simpa [found] using other⟩

/-- Where the table reduces, what it asks for is there. -/
theorem Collection.Path.reduces (made : T.Made g rule c) {id : StateId} {below : List StateId}
    {string : List Symbol} (path : c.Path (id :: below) string) {t : Terminal} {r : RuleId}
    (act : T.action id t = .reduce r) :
    ∃ reduced base under target, g.rule? r = some reduced ∧
      string.take reduced.length = reduced.body.reverse ∧
      (id :: below).drop reduced.length = base :: under ∧
      T.goto? base reduced.head = some target := by
  rw [← string.reverse_reverse] at path ⊢
  obtain ⟨reduced, left, found, split, opens, inner⟩ := path.opens_of_reduce made act
  rw [split] at path ⊢
  have lower := path.drop_append
  obtain ⟨i, here, next, _⟩ := At.exists_caller made.collection opens inner lower
  obtain ⟨base, under, target, top, edge, _⟩ := here.push made.collection next
  refine ⟨reduced, base, under, target, found, ?_, top, ?_⟩
  · rw [List.reverse_append]
    exact List.take_left' List.length_reverse
  · rw [made.follows.goto, edge]

section

variable [SemanticValue V] {m : Configuration V} {string : List Symbol} {id : StateId}
  {below : List StateId}

/-- A shift is done, and the path goes over the terminal. -/
theorem Collection.Path.does_shift (made : T.Made g rule c) (path : c.Path m.states string)
    (top : m.states = id :: below) {token : Token V} {rest : List (Token V)}
    (input : m.input = token :: rest) {target : StateId}
    (act : T.action id token.1 = .shift target) :
    Does g T.tabular (.shift token) m
        ⟨target :: m.states, token.2 :: m.values, rest, m.handled⟩ ∧
      c.Path (target :: m.states) (.terminal token.1 :: string) := by
  have edge := made.follows.of_shift made.built act
  rw [top] at path
  have owned := path.owns_of_action made (act ▸ nofun : T.action id token.1 ≠ .error)
  exact ⟨.shift top input owned act, top ▸ path.push edge⟩

/-- A reduction is done, and the path goes over the head of the rule instead of the body. -/
theorem Collection.Path.does_reduce (made : T.Made g rule c) {r : Rule V} (mem : r ∈ g.rules)
    (string : List Symbol) (path : c.Path m.states (r.body.reverse ++ string))
    (enough : r.length ≤ m.values.length)
    (top : m.states = id :: below) (act : T.action id (g.nextOf m.input) = .reduce r.id) :
    ∃ states, Does g T.tabular (.reduce r) m (m.reduced r.id r states) ∧
      c.Path states (.nonTerminal r.head :: string) := by
  have lower := path.drop (n := r.length) (by simp [Rule.length])
  rw [List.drop_left' (by simp [Rule.length])] at lower
  rw [top] at path lower
  have owned := path.owns_of_action made
    (act ▸ nofun : T.action id (g.nextOf m.input) ≠ .error)
  obtain ⟨reduced, base, under, target, found, _, uncovered, goto⟩ := path.reduces made act
  cases found.symm.trans (made.wf.rule?_of_mem mem)
  rw [uncovered] at lower
  exact ⟨target :: base :: under, .reduce top owned act found enough (top ▸ uncovered) goto,
    lower.push ((made.follows.goto base r.head).symm.trans goto)⟩

end

namespace Machine

variable [SemanticValue V]

/-- At the end of every run what the table decides can be done. -/
theorem Runs.safeAt (made : T.Made g rule c) {tokens : List (Token V)} {moves : List (Move V)}
    {m : Configuration V} (runs : Runs g T.tabular moves (.start T.tabular tokens) m) :
    SafeAt g c T m := by
  have parsed := runs.parsed made
  obtain ⟨string, forest, path, values, _⟩ := parsed.trees
  refine ⟨⟨string.reverse, path, ?_, fun id t r decides => ?_⟩, fun id t target decides => ?_,
    fun id t decides => ?_, fun id t a decides => ?_⟩
  · simp [values]
  · obtain ⟨⟨below, top⟩, _, rfl, act⟩ := Configuration.decision?_eq_some.mp decides
    rw [top] at path ⊢
    exact path.reduces made act.symm
  · obtain ⟨_, _, rfl, act⟩ := Configuration.decision?_eq_some.mp decides
    intro none
    -- the end of input stands in no body, so no state goes on over it
    have edge := made.follows.of_shift made.built act.symm
    rw [none] at edge
    obtain ⟨r, mem, inside⟩ := made.built.mem_body_of_target? edge
    exact made.wf.eos_not_mem_body r mem inside
  · obtain ⟨⟨below, top⟩, owned, rfl, act⟩ := Configuration.decision?_eq_some.mp decides
    obtain ⟨left, forest, _, values, _⟩ :=
      parsed.of_accepts made ⟨id, below, top, owned, act.symm⟩
    obtain ⟨n, body⟩ := made.body
    intro none
    have size := congrArg List.length (values.symm.trans none)
    simp [body] at size
  · obtain ⟨_, owned, _, _⟩ := Configuration.decision?_eq_some.mp decides
    simp [Event.message?, Event.placeText?, g.name?_of_owns owned]

/-- The errors that remain: a token that is not expected, a token after the end of input, and the
end of input in a state without an action for it. -/
inductive Reports (g : Grammar V) (T : Table) (m : Configuration V) : ParseError → Prop where
  | unexpected {id : StateId} {below : List StateId} (top : m.states = id :: below)
    (none : g.symbols.owns (.terminal (g.nextOf m.input)) = true →
      T.action id (g.nextOf m.input) = .error) :
    Reports g T m (.unexpectedSymbol id (g.nextOf m.input) (T.expected id))
  | trailing (got : Terminal) : Reports g T m (.trailingSymbol got)
  | ended {id : StateId} (decides : m.decision? g T.tabular = some (id, g.eos, .error)) :
    Reports g T m .unexpectedEnd

/-- Where what the table decides can be done, a step leads on or to one of these errors. -/
theorem SafeAt.reports {m : Configuration V} (safe : SafeAt g c T m) {e : ParseError}
    {calls : List RuleId} (halt : step g T.tabular m = .halt (.error e) calls) :
    Reports g T m e := by
  obtain ⟨string, path, size, reduces⟩ := safe.path
  generalize failure : (Except.error e : Except ParseError V) = result at halt
  cases (halts_of_step halt).1 with
  | bottom none =>
    obtain ⟨id, below, top⟩ := path.exists_top
    cases top.symm.trans none
  | foreign top foreign =>
    cases failure
    exact .unexpected top fun owned => absurd owned foreign
  | shift decides fails =>
    obtain ⟨token, rest, input⟩ := List.exists_cons_of_ne_nil (safe.token _ _ _ decides)
    simp [shift, input] at fails
  | reduce decides fails =>
    obtain ⟨reduced, base, under, target, found, taken, uncovered, goto⟩ := reduces _ _ _ decides
    have enough : reduced.length ≤ m.values.length := by
      have h := congrArg List.length taken
      simp only [List.length_take, List.length_reverse] at h
      rw [size, Rule.length, ← h]
      exact Nat.min_le_right _ _
    cases (reduce_of_goto found enough uncovered goto).symm.trans fails
  | accept decides =>
    obtain ⟨v, values, hv⟩ := List.exists_cons_of_ne_nil (safe.value _ _ decides)
    unfold accept at failure
    split at failure
    · cases failure
      exact .trailing _
    · rw [hv] at failure
      cases failure
  | ended decides =>
    cases failure
    exact .ended decides
  | unexpected decides more =>
    cases failure
    obtain ⟨⟨below, top⟩, _, rfl, act⟩ := Configuration.decision?_eq_some.mp decides
    exact .unexpected top fun _ => act.symm

omit [SemanticValue V] in
/-- The errors that remain have a text. -/
theorem Reports.isSome_message? (made : T.Made g rule c) {m : Configuration V} {e : ParseError}
    (h : Reports g T m e) {string : List Symbol} (path : c.Path m.states string) :
    (e.message? g).isSome := by
  cases h with
  | @unexpected id below top _ =>
    rw [top] at path
    have owned : ∀ t ∈ T.expected id, g.symbols.owns (.terminal t) = true := fun t mem =>
      path.owns_of_action made ((made.follows.expected id t).mp mem)
    have names := g.terminalNames?_of_owns owned
    simp [ParseError.message?, names]
  | trailing got => rfl
  | ended _ => rfl

/-- Whatever the tokens, every step of parsing does what the table decides. If parsing ends with an
error, the error has a text and is not that there is no state to go to; that the input ended too
early is only said in a state without an action under the end of input. -/
theorem driving_safe {b : Builder V} (authored : b.Authored) {T : Table}
    (table : b.build.table? = .ok T) :
    ∃ c, b.build.collection? = .ok c ∧ ∀ tokens : List (Token V),
      (∀ fuel m, run b.build T.tabular fuel (.start T.tabular tokens) = .continue m →
        SafeAt b.build c T m) ∧
      ∀ e calls, Parses b.build T.tabular tokens (.error e) calls →
        (e.message? b.build).isSome ∧ (∀ id n, e ≠ .missingGoto id n) ∧
        (e = .unexpectedEnd → ∃ fuel m id,
          run b.build T.tabular fuel (.start T.tabular tokens) = .continue m ∧
          step b.build T.tabular m = .halt (.error e) calls ∧
          m.decision? b.build T.tabular = some (id, b.build.eos, .error)) := by
  obtain ⟨c, rule, found, made⟩ := Grammar.of_table? authored.wellFormed.build table
  refine ⟨c, found, fun tokens => ⟨fun fuel m ran => ?_, fun e calls parsed => ?_⟩⟩
  · obtain ⟨moves, _, runs⟩ := Runs.of_run_continue ran
    exact runs.safeAt made
  · obtain ⟨moves, m, runs, halt⟩ := parses_iff.mp parsed
    have safe := runs.safeAt made
    have reports := safe.reports halt
    obtain ⟨string, path, _⟩ := safe.path
    refine ⟨reports.isSome_message? made path, ?_, ?_⟩
    · rintro id n rfl
      cases reports
    · rintro rfl
      cases reports with
      | @ended id decides => exact ⟨moves.length, m, id, runs.run_eq 0, halt, decides⟩

end Machine

/-- Differences are driven safely, also where associativity settles what to do. -/
theorem Subtraction.differences_safe :
    ∃ c, builder.build.collection? = .ok c ∧ ∀ tokens : List (Token Value),
      (∀ fuel m, run builder.build table.tabular fuel (.start table.tabular tokens) = .continue m →
        SafeAt builder.build c table m) ∧
      ∀ e calls, Parses builder.build table.tabular tokens (.error e) calls →
        (e.message? builder.build).isSome ∧ (∀ id n, e ≠ .missingGoto id n) ∧
        (e = .unexpectedEnd → ∃ fuel m id,
          run builder.build table.tabular fuel (.start table.tabular tokens) = .continue m ∧
          step builder.build table.tabular m = .halt (.error e) calls ∧
          m.decision? builder.build table.tabular = some (id, builder.build.eos, .error)) :=
  Machine.driving_safe authored rfl

end CanonicalLR
