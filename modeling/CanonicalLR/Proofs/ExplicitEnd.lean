import CanonicalLR.Proofs.SafeDriving

/-!
The end of input may be implied or given as a token, and parsing is the same step by
step. A generated table does not go on over the end of input and accepts under nothing
else, so its token is looked at as long as the input lasts and is never taken from it.
What stands behind it is not looked at before the table accepts; then the first of
these tokens is an error.
-/
namespace CanonicalLR

open Machine

variable {V : Type} {g : Grammar V} {c : Collection} {T : Table} {rule : Rule V}

/-! ### More input -/

/-- The configuration with more input behind what is left of it. -/
def Configuration.before (m : Configuration V) (more : List (Token V)) : Configuration V :=
  { m with input := m.input ++ more }

/-- What a result becomes if these tokens are left over behind the end of input. -/
def ParseError.unlessTrailing (rest : List (Token V)) (result : Except ParseError V) :
    Except ParseError V :=
  match rest, result with
  | (t, _) :: _, .ok _ => .error (.trailingSymbol t)
  | _, result => result

/-- The same step if the input goes on with a token that ends it and with others behind that. -/
def Step.beforeEnd (last : Token V) (rest : List (Token V)) : Step V → Step V
  | .continue m => .continue (m.before (last :: rest))
  | .halt result calls => .halt (ParseError.unlessTrailing rest result) calls

/-- No token of the input ends it. -/
def Grammar.Endless (g : Grammar V) (input : List (Token V)) : Prop :=
  ∀ token ∈ input, token.1 ≠ g.eos

theorem Grammar.nextOf_before_end (input rest : List (Token V)) (x : V) :
    g.nextOf (input ++ (g.eos, x) :: rest) = g.nextOf input := by
  cases input <;> rfl

namespace Machine

variable [SemanticValue V] {m m' : Configuration V} {tokens rest : List (Token V)} {x : V}

theorem Does.endless {move : Move V} (h : Does g T.tabular move m m')
    (endless : g.Endless m.input) : g.Endless m'.input := by
  cases h with
  | shift _ input _ _ =>
    rw [input] at endless
    exact (List.forall_mem_cons.mp endless).2
  | reduce _ _ _ _ _ _ _ => exact endless

/-- A reduction leaves the input alone. -/
theorem reduce_before (table : Tabular) (m : Configuration V) (id : RuleId)
    (more : List (Token V)) :
    reduce g table (m.before more) id =
      (reduce g table m id).map fun m' => m'.before more := by
  have states : (m.before more).states = m.states := rfl
  have values : (m.before more).values = m.values := rfl
  cases found : g.rule? id with
  | none => simp [reduce, found, Except.map]
  | some r =>
    by_cases few : m.values.length < r.length
    · simp [reduce, found, values, few, Except.map]
    · cases uncovered : m.states.drop r.length with
      | nil => simp [reduce, found, states, values, few, uncovered, Except.map]
      | cons base under =>
        cases goto : table.goto base r.head with
        | none => simp [reduce, found, states, values, few, uncovered, goto, Except.map]
        | some target =>
          rw [reduce_of_goto found (Nat.not_lt.mp few) uncovered goto]
          exact reduce_of_goto (m := m.before more) found (Nat.not_lt.mp few) uncovered goto

/-- Where what the table decides can be done, a step is the same with an explicit end. -/
theorem SafeAt.step_before_end (made : T.Made g rule c) (safe : SafeAt g c T m)
    (endless : g.Endless m.input) (x : V) (rest : List (Token V)) :
    step g T.tabular (m.before ((g.eos, x) :: rest)) =
      (step g T.tabular m).beforeEnd (g.eos, x) rest := by
  obtain ⟨string, path, _⟩ := safe.path
  obtain ⟨id, below, top⟩ := path.exists_top
  have top' : (m.before ((g.eos, x) :: rest)).states = id :: below := top
  have next : g.nextOf (m.before ((g.eos, x) :: rest)).input = g.nextOf m.input :=
    Grammar.nextOf_before_end m.input rest x
  by_cases owned : g.symbols.owns (.terminal (g.nextOf m.input)) = true
  · rw [step_eq top owned, step_eq top' (next ▸ owned), next]
    cases act : T.tabular.action id (g.nextOf m.input) with
    | shift target =>
      have decides := Configuration.decision?_of_action top owned act
      obtain ⟨token, later, input⟩ := List.exists_cons_of_ne_nil (safe.token _ _ _ decides)
      simp [Configuration.before, shift, input, attempt, Step.beforeEnd]
    | reduce r =>
      dsimp only
      rw [reduce_before]
      cases reduce g T.tabular m r <;> cases rest <;> rfl
    | accept =>
      have decides := Configuration.decision?_of_action top owned act
      obtain ⟨v, values, hv⟩ := List.exists_cons_of_ne_nil (safe.value _ _ decides)
      -- a generated table accepts under nothing but the end of input
      have last := (made.follows.of_accept made.built act).1
      have done : m.input = [] := by
        cases input : m.input with
        | nil => rfl
        | cons token later =>
          rw [input] at last endless
          exact absurd last (endless token List.mem_cons_self)
      cases rest <;>
        simp [Configuration.before, accept, done, hv, Step.beforeEnd, ParseError.unlessTrailing,
          Configuration.calls]
    | error =>
      cases rest <;> rfl
  · rw [step_of_foreign top owned, step_of_foreign top' (next ▸ owned), next]
    cases rest <;> rfl

/-- All steps are the same with an explicit end. -/
theorem run_before_end (made : T.Made g rule c) (endless : g.Endless tokens) (x : V)
    (rest : List (Token V)) (fuel : Nat) :
    run g T.tabular fuel (.start T.tabular (tokens ++ (g.eos, x) :: rest)) =
      (run g T.tabular fuel (.start T.tabular tokens)).beforeEnd (g.eos, x) rest := by
  induction fuel with
  | zero => rfl
  | succ fuel ih =>
    rw [run_add, run_add, ih]
    cases ran : run g T.tabular fuel (.start T.tabular tokens) with
    | «continue» m =>
      obtain ⟨moves, _, runs⟩ := Runs.of_run_continue ran
      have left : g.Endless m.input :=
        runs.preserves (fun _ _ _ endless does => does.endless endless) endless
      have step_eq := (runs.safeAt made).step_before_end made left x rest
      simp only [Step.beforeEnd, run, step_eq]
      cases step g T.tabular m <;> rfl
    | halt result calls => rfl

/-- Parsing ends with an explicit end just as without, but for what is left over behind it. -/
theorem parses_before_end_iff (made : T.Made g rule c) (endless : g.Endless tokens) (x : V)
    (rest : List (Token V)) (result : Except ParseError V) (calls : List RuleId) :
    Parses g T.tabular (tokens ++ (g.eos, x) :: rest) result calls ↔
      ∃ r, Parses g T.tabular tokens r calls ∧ ParseError.unlessTrailing rest r = result := by
  constructor
  · rintro ⟨fuel, halted⟩
    rw [run_before_end made endless] at halted
    cases ran : run g T.tabular fuel (.start T.tabular tokens) with
    | «continue» m =>
      rw [ran] at halted
      cases halted
    | halt r calls' =>
      rw [ran] at halted
      cases halted
      exact ⟨r, ⟨fuel, ran⟩, rfl⟩
  · rintro ⟨r, ⟨fuel, ran⟩, rfl⟩
    refine ⟨fuel, ?_⟩
    rw [run_before_end made endless, ran]
    rfl

omit [SemanticValue V] in
/-- A token is named as the grammar names it, or by its number if it is of another grammar. -/
theorem tokenName_cases (g : Grammar V) (t : Terminal) :
    g.symbols.name? (.terminal t) = some (g.tokenName t) ∨
      g.symbols.owns (.terminal t) = false ∧ g.tokenName t = "#" ++ toString t.index := by
  have known := g.symbols.isSome_name? (.terminal t)
  cases named : g.symbols.name? (.terminal t) with
  | some name =>
    left
    rw [Grammar.tokenName, named]
    rfl
  | none =>
    right
    rw [named] at known
    refine ⟨known.symm, ?_⟩
    rw [Grammar.tokenName, named]
    rfl

/-- Where the end of input is given as a token, with any value, parsing is step by step the same as
where it is implied, and so are its result and the calls of handlers. If other tokens stand behind
it all is still the same, but instead of a value the result is that the first of them is too much,
which the error names, by its number if it is foreign. -/
theorem explicit_end_agrees {b : Builder V} (authored : b.Authored) {T : Table}
    (table : b.build.table? = .ok T) {tokens : List (Token V)} (endless : b.build.Endless tokens)
    (x : V) :
    (∀ rest fuel, run b.build T.tabular fuel
        (.start T.tabular (tokens ++ (b.build.eos, x) :: rest)) =
      (run b.build T.tabular fuel (.start T.tabular tokens)).beforeEnd (b.build.eos, x) rest) ∧
    (∀ result calls, Parses b.build T.tabular (tokens ++ [(b.build.eos, x)]) result calls ↔
      Parses b.build T.tabular tokens result calls) ∧
    ∀ (t : Terminal) (y : V) (rest : List (Token V)),
      (∀ result calls,
        Parses b.build T.tabular (tokens ++ (b.build.eos, x) :: (t, y) :: rest) result calls ↔
          (∃ v, Parses b.build T.tabular tokens (.ok v) calls ∧
            result = .error (.trailingSymbol t)) ∨
          ∃ e, Parses b.build T.tabular tokens (.error e) calls ∧ result = .error e) ∧
      ∃ name, (ParseError.trailingSymbol t).message? b.build =
          some ("unexpected symbol " ++ name ++ " after the end of stream") ∧
        (b.build.symbols.name? (.terminal t) = some name ∨
          b.build.symbols.owns (.terminal t) = false ∧ name = "#" ++ toString t.index) := by
  obtain ⟨c, rule, _, made⟩ := Grammar.of_table? authored.wellFormed.build table
  refine ⟨run_before_end made endless x, fun result calls => ?_, fun t y rest =>
    ⟨fun result calls => ?_, b.build.tokenName t, rfl, tokenName_cases b.build t⟩⟩
  · rw [parses_before_end_iff made endless]
    constructor
    · rintro ⟨r, parsed, rfl⟩
      exact parsed
    · exact fun parsed => ⟨result, parsed, rfl⟩
  · rw [parses_before_end_iff made endless]
    constructor
    · rintro ⟨r, parsed, rfl⟩
      cases r with
      | ok v => exact .inl ⟨v, parsed, rfl⟩
      | error e => exact .inr ⟨e, parsed, rfl⟩
    · rintro (⟨v, parsed, rfl⟩ | ⟨e, parsed, rfl⟩)
      · exact ⟨.ok v, parsed, rfl⟩
      · exact ⟨.error e, parsed, rfl⟩

end Machine

/-- A difference has its value also before an explicit end, and a number behind that is too much. -/
theorem Subtraction.difference_ended :
    builder.build.Endless [number, minus, number] ∧
      Parses builder.build table.tabular [number, minus, number, (builder.build.eos, .none)]
        (.ok (.list [.vec [number.2], minus.2, .vec [number.2]])) [1] ∧
      Parses builder.build table.tabular
        [number, minus, number, (builder.build.eos, .none), number, minus]
        (.error (.trailingSymbol number.1)) [1] := by
  have endless : builder.build.Endless [number, minus, number] := by
    unfold Grammar.Endless
    decide +kernel
  have parsed : Parses builder.build table.tabular [number, minus, number]
      (.ok (.list [.vec [number.2], minus.2, .vec [number.2]])) [1] := ⟨8, rfl⟩
  obtain ⟨_, ended, trailing⟩ := Machine.explicit_end_agrees authored rfl endless Value.none
  exact ⟨endless, (ended _ _).mpr parsed,
    ((trailing number.1 number.2 [minus]).1 _ _).mpr (.inl ⟨_, parsed, rfl⟩)⟩

end CanonicalLR
