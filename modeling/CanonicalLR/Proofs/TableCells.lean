import CanonicalLR.Table
import CanonicalLR.Proofs.CanonicalCollection

/-!
What a finished table says and why. The action under a terminal is the one on which
the candidates of the state are settled, so some item of the state asks for it; where
no state has a conflict, every action that an item asks for is the one in the table.
-/
namespace CanonicalLR

variable {V : Type} {g : Grammar V}

/-! ### Candidates -/

namespace Candidate

theorem mem_actions_add {cs : List Candidate} {p : Proposal} {a : Action} :
    a ∈ (add cs p).map Candidate.action ↔ a ∈ cs.map Candidate.action ∨ a = p.action := by
  induction cs with
  | nil => simp [add]
  | cons c cs ih =>
    unfold add
    by_cases same : c.action = p.action
    · simp [same, or_comm]
    · simp only [if_neg same, List.map_cons, List.mem_cons, ih, or_assoc]

/-- The candidates are for just those actions that are proposed. -/
theorem mem_actions_ofProposals {ps : List Proposal} {a : Action} :
    a ∈ (ofProposals ps).map Candidate.action ↔ a ∈ ps.map Proposal.action := by
  have general (cs : List Candidate) : a ∈ (ps.foldl add cs).map Candidate.action ↔
      a ∈ cs.map Candidate.action ∨ a ∈ ps.map Proposal.action := by
    induction ps generalizing cs with
    | nil => simp
    | cons p ps ih =>
      rw [List.foldl_cons, ih, mem_actions_add, List.map_cons, List.mem_cons, or_assoc]
  rw [ofProposals, general]
  simp

theorem breakTie_mem {cs : List Candidate} {c : Candidate} (h : breakTie g cs = some c) :
    c ∈ cs := by
  unfold breakTie at h
  simp only [Option.bind_eq_bind, Option.bind_eq_some_iff] at h
  obtain ⟨_, _, _, _, associativity, _, h⟩ := h
  have mem : c ∈ cs.filter fun c => isExtreme cs c associativity := by
    split at h
    · split at h
      · rename_i only
        rw [only]
        simpa using h.symm
      · cases h
    · cases h
  exact List.mem_of_mem_filter mem

theorem mem_of_mem_highest {cs : List Candidate} {c : Candidate} (h : c ∈ highest g cs) :
    c ∈ cs := by
  unfold highest at h
  split at h
  · exact List.mem_of_mem_filter h
  · exact h

/-- All that settling can come to, each with what it comes from. -/
inductive Settles (g : Grammar V) :
    List Candidate → Except (List Candidate) Verdict → Prop where
  | nothing : Settles g [] (.ok .nothing)
  | unopposed (c : Candidate) : Settles g [c] (.ok (.unopposed c))
  | byPriority {cs : List Candidate} {c : Candidate} (several : 1 < cs.length)
    (only : highest g cs = [c]) : Settles g cs (.ok (.byPriority c))
  | byAssociativity {cs : List Candidate} {c : Candidate} (several : 1 < cs.length)
    (more : ∀ d, highest g cs ≠ [d]) (tie : breakTie g (highest g cs) = some c) :
    Settles g cs (.ok (.byAssociativity c))
  | undecided {cs : List Candidate} (several : 1 < cs.length) (more : ∀ d, highest g cs ≠ [d])
    (tie : breakTie g (highest g cs) = none) : Settles g cs (.error (highest g cs))

theorem settles (g : Grammar V) (cs : List Candidate) : Settles g cs (settle g cs) := by
  unfold settle
  split
  · exact .nothing
  · exact .unopposed _
  · rename_i some two
    have several : 1 < cs.length := by
      match cs with
      | [] => exact absurd rfl some
      | [c] => exact absurd rfl (two c)
      | _ :: _ :: _ => simp
    split
    · rename_i only
      exact .byPriority several only
    · rename_i more
      split
      · rename_i tie
        exact .byAssociativity several more tie
      · rename_i tie
        exact .undecided several more tie

theorem settles_of_eq {cs : List Candidate} {answer : Except (List Candidate) Verdict}
    (h : settle g cs = answer) : Settles g cs answer :=
  h ▸ settles g cs

/-- The action settled on is that of a candidate, unless there is none. -/
theorem settle_cases {cs : List Candidate} {verdict : Verdict} (h : settle g cs = .ok verdict) :
    cs = [] ∧ verdict = .nothing ∨ ∃ c ∈ cs, verdict.action = c.action := by
  cases settles_of_eq h with
  | nothing => exact .inl ⟨rfl, rfl⟩
  | unopposed c => exact .inr ⟨c, List.mem_singleton_self c, rfl⟩
  | byPriority _ only =>
    exact .inr ⟨_, mem_of_mem_highest (only ▸ List.mem_singleton_self _), rfl⟩
  | byAssociativity _ _ tie => exact .inr ⟨_, mem_of_mem_highest (breakTie_mem tie), rfl⟩

end Candidate

namespace State

variable {state : State} {t : Terminal}

theorem mem_terminals : t ∈ state.terminals ↔ ∃ p ∈ state.proposals, p.terminal = t := by
  simp [terminals]

theorem mem_candidate_actions {a : Action} :
    a ∈ (state.candidates t).map Candidate.action ↔
      ∃ p ∈ state.proposals, p.terminal = t ∧ p.action = a := by
  rw [candidates, Candidate.mem_actions_ofProposals]
  simp [and_assoc]

theorem candidates_eq_nil (h : t ∉ state.terminals) : state.candidates t = [] := by
  have none : state.proposals.filter (fun p => p.terminal = t) = [] := by
    refine List.filter_eq_nil_iff.mpr fun p hp => ?_
    simpa using fun same => h (mem_terminals.mpr ⟨p, hp, same⟩)
  rw [candidates, none]
  rfl

theorem settle_of_not_mem (h : t ∉ state.terminals) (id : StateId) :
    state.settle g id t = .ok .nothing := by
  rw [State.settle, candidates_eq_nil h]
  rfl

/-- Without conflicts there is one action at most under each terminal. -/
theorem length_candidates_le (h : state.hasConflicts = false) :
    (state.candidates t).length ≤ 1 := by
  by_cases mem : t ∈ state.terminals
  · have := List.any_eq_false.mp h t mem
    simpa using this
  · rw [candidates_eq_nil mem]
    exact Nat.zero_le 1

/-- What an item proposes is written down for the state that has the item. -/
theorem mem_proposalsOf {items : ItemSet} {transitions : List (Symbol × StateId)} {p : Proposal} :
    p ∈ proposalsOf g items transitions ↔ ∃ i ∈ items, proposal? g transitions i = some p :=
  List.mem_filterMap

/-- An item proposes to shift what stands after its dot, or at the end of its rule to accept or to
reduce under its lookahead. -/
theorem proposal?_eq_some {transitions : List (Symbol × StateId)} {i : Item} {p : Proposal} :
    proposal? g transitions i = some p ↔
      (∃ t target, i.symbol? g = some (.terminal t) ∧
        transitions.lookup (.terminal t) = some target ∧ p = ⟨t, i, .shift target⟩) ∨
      i.symbol? g = none ∧ ((g.rule? i.rule).map Rule.head = some g.start ∧ i.lookahead = g.eos) ∧
        p = ⟨i.lookahead, i, .accept⟩ ∨
      i.symbol? g = none ∧ ¬((g.rule? i.rule).map Rule.head = some g.start ∧ i.lookahead = g.eos) ∧
        p = ⟨i.lookahead, i, .reduce i.rule⟩ := by
  unfold proposal?
  split
  · rename_i t next
    simp [next, eq_comm]
  · rename_i n next
    simp [next]
  · rename_i exhausted
    split
    · rename_i start
      rw [Option.some.injEq, eq_comm]
      simp [exhausted, start]
    · rename_i other
      rw [Option.some.injEq, eq_comm]
      simp [exhausted, other, -Option.map_eq_some_iff]

theorem item_of_proposal? {transitions : List (Symbol × StateId)} {i : Item} {p : Proposal}
    (h : proposal? g transitions i = some p) : p.item = i := by
  rcases proposal?_eq_some.mp h with ⟨_, _, _, _, rfl⟩ | ⟨_, _, rfl⟩ | ⟨_, _, rfl⟩ <;> rfl

theorem settle_eq_ok_iff {id : StateId} {verdict : Verdict} :
    state.settle g id t = .ok verdict ↔ Candidate.settle g (state.candidates t) = .ok verdict := by
  unfold State.settle
  cases Candidate.settle g (state.candidates t) <;> simp [Except.mapError]

/-- What is settled on does not depend on the number under which it would be reported. -/
theorem settle_eq_ok_of_eq_ok {id : StateId} (id' : StateId) {verdict : Verdict}
    (h : state.settle g id t = .ok verdict) : state.settle g id' t = .ok verdict :=
  settle_eq_ok_iff.mpr (settle_eq_ok_iff.mp h)

/-- What the state settles on is proposed under the terminal, unless nothing is. -/
theorem exists_proposal_of_settle {id : StateId} {verdict : Verdict}
    (h : state.settle g id t = .ok verdict) (ne : verdict.action ≠ .error) :
    ∃ p ∈ state.proposals, p.terminal = t ∧ p.action = verdict.action := by
  rcases Candidate.settle_cases (settle_eq_ok_iff.mp h) with ⟨_, rfl⟩ | ⟨candidate, mem, does⟩
  · exact absurd rfl ne
  · rw [does]
    exact mem_candidate_actions.mp (List.mem_map_of_mem mem)

theorem lookup_gotos {n : NonTerminal} : state.gotos.lookup n = state.target? (.nonTerminal n) := by
  unfold gotos target?
  induction state.transitions with
  | nil => rfl
  | cons edge edges ih =>
    obtain ⟨s, target⟩ := edge
    cases s with
    | terminal t =>
      have other : (Symbol.nonTerminal n == Symbol.terminal t) = false := beq_false_of_ne nofun
      rw [List.lookup_cons, other]
      simpa [Symbol.nonTerminal?] using ih
    | nonTerminal m =>
      by_cases same : n = m
      · simp [Symbol.nonTerminal?, same]
      · have other : (Symbol.nonTerminal n == Symbol.nonTerminal m) = false :=
          beq_false_of_ne fun h => same (Symbol.nonTerminal.inj h)
        rw [List.lookup_cons, other]
        simpa [Symbol.nonTerminal?, List.lookup_cons, beq_false_of_ne same] using ih

end State

/-! ### Cells -/

namespace Table

variable {c : Collection} {T : Table}

theorem settle_of_cell {state : State} {t : Terminal} {entry : Terminal × Action}
    (h : cell g state t = .ok entry) :
    ∃ verdict, state.settle g state.id t = .ok verdict ∧ entry = (t, verdict.action) := by
  unfold cell at h
  cases hs : state.settle g state.id t with
  | error e => simp [hs, Except.map] at h
  | ok verdict =>
    rw [hs] at h
    cases h
    exact ⟨verdict, rfl, rfl⟩

/-- The cells of a row are under its terminals, in order, and say what is settled on. -/
theorem of_cells {state : State} {ts : List Terminal} {entries : List (Terminal × Action)}
    (h : ts.map (cell g state) = entries.map Except.ok) :
    entries.map Prod.fst = ts ∧ ∀ e ∈ entries, ∃ verdict,
      state.settle g state.id e.1 = .ok verdict ∧ e.2 = verdict.action := by
  induction ts generalizing entries with
  | nil =>
    have none : entries = [] := by simpa using h.symm
    simp [none]
  | cons t ts ih =>
    cases entries with
    | nil => simp at h
    | cons e entries =>
      rw [List.map_cons, List.map_cons, List.cons.injEq] at h
      obtain ⟨keys, rest⟩ := ih h.2
      obtain ⟨verdict, settled, rfl⟩ := settle_of_cell h.1
      refine ⟨by rw [List.map_cons, keys], fun e he => ?_⟩
      rcases List.mem_cons.mp he with rfl | he
      · exact ⟨verdict, settled, rfl⟩
      · exact rest e he

/-- A row holds the actions settled on that are not errors, and where the state goes on. -/
theorem of_rowOf {state : State} {row : Row} (h : rowOf g state = .ok row) :
    row.gotos = state.gotos ∧ (row.actions.map Prod.fst).Pairwise (fun a b => compare a b = .lt) ∧
      ∀ t, ∃ verdict, state.settle g state.id t = .ok verdict ∧
        ∀ a, (t, a) ∈ row.actions ↔ a = verdict.action ∧ a ≠ .error := by
  unfold rowOf at h
  cases he : state.terminals.toList.mapM (cell g state) with
  | error e => simp [he, bind, Except.bind] at h
  | ok entries =>
    simp only [he, bind, Except.bind, pure, Except.pure, Except.ok.injEq] at h
    obtain ⟨keys, settled⟩ := of_cells (mapM_eq_ok_iff.mp he)
    subst h
    refine ⟨rfl, ?_, fun t => ?_⟩
    · have ascending := state.terminals.ascending
      rw [← keys] at ascending
      exact ascending.sublist (List.filter_sublist.map _)
    · by_cases mem : t ∈ state.terminals
      · rw [OrderedSet.mem_def, ← keys] at mem
        obtain ⟨e, he, rfl⟩ := List.mem_map.mp mem
        obtain ⟨verdict, hv, same⟩ := settled e he
        refine ⟨verdict, hv, fun a => ?_⟩
        rw [List.mem_filter, decide_eq_true_eq]
        refine and_congr_left fun _ => ⟨fun ha => ?_, fun ha => ?_⟩
        · obtain ⟨verdict', hv', same'⟩ := settled _ ha
          rw [hv] at hv'
          cases hv'
          exact same'
        · rw [ha, ← same]
          exact he
      · refine ⟨.nothing, State.settle_of_not_mem mem _,
          fun a => ⟨fun ha => ?_, fun ha => absurd ha.1 ha.2⟩⟩
        rw [OrderedSet.mem_def, ← keys] at mem
        exact absurd (List.mem_map.mpr ⟨_, List.mem_of_mem_filter ha, rfl⟩) mem

theorem nodup_of_ascending {ts : List Terminal} (h : ts.Pairwise fun a b => compare a b = .lt) :
    ts.Nodup := by
  refine h.imp ?_
  rintro a b lt rfl
  exact OrderedSet.compare_ne_lt_self a lt

theorem action_of_rowOf {state : State} {row : Row} (h : rowOf g state = .ok row)
    (t : Terminal) :
    ∃ verdict, state.settle g state.id t = .ok verdict ∧ row.action t = verdict.action := by
  obtain ⟨_, ascending, cells⟩ := of_rowOf h
  obtain ⟨verdict, settled, entry⟩ := cells t
  have distinct := nodup_of_ascending ascending
  refine ⟨verdict, settled, ?_⟩
  unfold Row.action
  by_cases silent : verdict.action = .error
  · cases found : row.actions.lookup t with
    | none => exact silent.symm
    | some a =>
      have := (entry a).mp ((mem_lookup_iff distinct).mp found)
      exact this.1
  · rw [(mem_lookup_iff distinct).mpr ((entry _).mpr ⟨rfl, silent⟩)]
    rfl

theorem mem_keys_of_rowOf {state : State} {row : Row} (h : rowOf g state = .ok row) (t : Terminal) :
    t ∈ row.actions.map Prod.fst ↔ row.action t ≠ .error := by
  obtain ⟨verdict, settled, act⟩ := action_of_rowOf h t
  obtain ⟨_, _, cells⟩ := of_rowOf h
  obtain ⟨verdict', settled', entry⟩ := cells t
  rw [settled] at settled'
  cases settled'
  rw [act, List.mem_map]
  constructor
  · rintro ⟨⟨_, a⟩, mem, rfl⟩
    obtain ⟨rfl, ne⟩ := (entry a).mp mem
    exact ne
  · intro ne
    exact ⟨(t, verdict.action), (entry _).mpr ⟨rfl, ne⟩, rfl⟩

/-- The table has a row for each state: under a terminal the action on which the state settles, and
for a non-terminal the state reached over it. -/
structure Follows (g : Grammar V) (c : Collection) (T : Table) : Prop where
  initial : T.initial = 0
  action : ∀ (id : StateId) (state : State), c.state? id = some state → ∀ t,
    ∃ verdict, state.settle g id t = .ok verdict ∧ T.action id t = verdict.action
  outside : ∀ id, c.state? id = none → ∀ t, T.action id t = .error
  goto : ∀ id n, T.goto? id n = c.target? id (.nonTerminal n)
  ascending : ∀ id, (T.expected id).Pairwise fun a b => compare a b = .lt
  expected : ∀ id t, t ∈ T.expected id ↔ T.action id t ≠ .error

/-- The rows of a table are those of the states, and there are no others. -/
theorem row?_cases (h : ofCollection g c = .ok T) (id : StateId) :
    c.state? id = none ∧ T.row? id = none ∨
      ∃ state row, c.state? id = some state ∧ T.row? id = some row ∧
        rowOf g state = .ok row := by
  unfold ofCollection at h
  cases hr : rowsOf g c with
  | error e => simp [hr, bind, Except.bind] at h
  | ok rows =>
    simp only [hr, bind, Except.bind, pure, Except.pure, Except.ok.injEq] at h
    have same : T.row? id = rows[id]? := by rw [← h, row?]
    have all := mapM_eq_ok_iff.mp hr
    have here : (c.state? id).map (rowOf g) = (rows[id]?).map Except.ok := by
      rw [← List.getElem?_map, ← all, List.getElem?_map]
      rfl
    rw [same]
    cases hs : c.state? id with
    | none =>
      rw [hs] at here
      exact .inl ⟨rfl, by simpa using here.symm⟩
    | some state =>
      rw [hs, Option.map_some] at here
      obtain ⟨row, hrow, made⟩ := Option.map_eq_some_iff.mp here.symm
      exact .inr ⟨state, row, rfl, hrow, made.symm⟩

theorem follows_ofCollection (h : ofCollection g c = .ok T) : T.Follows g c where
  initial := by
    unfold ofCollection at h
    cases hr : rowsOf g c with
    | error e => simp [hr, bind, Except.bind] at h
    | ok rows =>
      simp only [hr, bind, Except.bind, pure, Except.pure, Except.ok.injEq] at h
      rw [← h]
  action id state hs t := by
    rcases row?_cases h id with ⟨none, _⟩ | ⟨state', row, hs', hrow, made⟩
    · cases hs.symm.trans none
    · cases hs.symm.trans hs'
      obtain ⟨verdict, settled, same⟩ := action_of_rowOf made t
      refine ⟨verdict, State.settle_eq_ok_of_eq_ok id settled, ?_⟩
      rw [action, hrow]
      exact same
  outside id hs t := by
    rcases row?_cases h id with ⟨_, none⟩ | ⟨state, row, hs', _, _⟩
    · rw [action, none]
      rfl
    · cases hs.symm.trans hs'
  goto id n := by
    rw [goto?, Collection.target?]
    rcases row?_cases h id with ⟨hs, none⟩ | ⟨state, row, hs, hrow, made⟩
    · rw [hs, none]
      rfl
    · rw [hs, hrow]
      simp only [Option.bind_some, Row.goto?, (of_rowOf made).1, State.lookup_gotos]
  ascending id := by
    rw [expected]
    rcases row?_cases h id with ⟨_, none⟩ | ⟨state, row, _, hrow, made⟩
    · rw [none]
      exact List.Pairwise.nil
    · rw [hrow]
      exact (of_rowOf made).2.1
  expected id t := by
    rw [expected, action]
    rcases row?_cases h id with ⟨_, none⟩ | ⟨state, row, _, hrow, made⟩
    · simp [none]
    · rw [hrow]
      exact mem_keys_of_rowOf made t

/-! ### Why the table says what it says -/

section

variable {rule : Rule V} {id : StateId} {t : Terminal}

/-- Whatever the table says other than error, an item of the state proposes. -/
theorem Follows.exists_proposal (h : T.Follows g c) (built : c.Built g rule) {a : Action}
    (act : T.action id t = a) (ne : a ≠ .error) :
    ∃ state, c.state? id = some state ∧
      ∃ i ∈ state.items, State.proposal? g state.transitions i = some ⟨t, i, a⟩ := by
  cases hs : c.state? id with
  | none => exact absurd (act.symm.trans (h.outside id hs t)) ne
  | some state =>
    obtain ⟨verdict, settled, same⟩ := h.action id state hs t
    rw [act] at same
    obtain ⟨p, mem, under, does⟩ := State.exists_proposal_of_settle settled (same ▸ ne)
    rw [(built.visited id state hs).proposals] at mem
    obtain ⟨i, hi, proposes⟩ := State.mem_proposalsOf.mp mem
    have whole : p = ⟨t, i, a⟩ := by
      rw [← State.item_of_proposal? proposes, ← under, same, ← does]
    exact ⟨state, rfl, i, hi, whole ▸ proposes⟩

theorem Follows.of_shift (h : T.Follows g c) (built : c.Built g rule) {target : StateId}
    (act : T.action id t = .shift target) : c.target? id (.terminal t) = some target := by
  obtain ⟨state, hs, i, _, proposes⟩ := h.exists_proposal built act nofun
  rcases State.proposal?_eq_some.mp proposes with
    ⟨_, _, _, found, same⟩ | ⟨_, _, same⟩ | ⟨_, _, same⟩
  · cases same
    rw [Collection.target?, hs]
    exact found
  · cases same
  · cases same

theorem Follows.of_reduce (h : T.Follows g c) (built : c.Built g rule) {r : RuleId}
    (act : T.action id t = .reduce r) :
    ∃ state, c.state? id = some state ∧
      ∃ i ∈ state.items, i.symbol? g = none ∧ i.rule = r ∧ i.lookahead = t := by
  obtain ⟨state, hs, i, hi, proposes⟩ := h.exists_proposal built act nofun
  refine ⟨state, hs, i, hi, ?_⟩
  rcases State.proposal?_eq_some.mp proposes with
    ⟨_, _, _, _, same⟩ | ⟨_, _, same⟩ | ⟨exhausted, _, same⟩
  · cases same
  · cases same
  · cases same
    exact ⟨exhausted, rfl, rfl⟩

theorem Follows.of_accept (h : T.Follows g c) (built : c.Built g rule)
    (act : T.action id t = .accept) :
    t = g.eos ∧ ∃ state, c.state? id = some state ∧
      ∃ i ∈ state.items, i.symbol? g = none ∧ i.lookahead = g.eos ∧
        (g.rule? i.rule).map Rule.head = some g.start := by
  obtain ⟨state, hs, i, hi, proposes⟩ := h.exists_proposal built act nofun
  rcases State.proposal?_eq_some.mp proposes with
    ⟨_, _, _, _, same⟩ | ⟨exhausted, ⟨head, ends⟩, same⟩ | ⟨_, _, same⟩
  · cases same
  · cases same
    exact ⟨ends, state, hs, i, hi, exhausted, ends, head⟩
  · cases same

end

end Table

namespace Collection

/-- No state has several actions under one terminal. -/
def ConflictFree (c : Collection) : Prop := ∀ state ∈ c.states, state.hasConflicts = false

instance (c : Collection) : Decidable c.ConflictFree :=
  inferInstanceAs (Decidable (∀ state ∈ c.states, state.hasConflicts = false))

end Collection

namespace Table.Follows

variable {c : Collection} {T : Table} {rule : Rule V} {id : StateId} {state : State} {i : Item}

/-- Without conflicts the table says what an item proposes. -/
theorem action_of_proposal (h : T.Follows g c) (built : c.Built g rule) (free : c.ConflictFree)
    (hs : c.state? id = some state) (hi : i ∈ state.items) {p : Proposal}
    (proposes : State.proposal? g state.transitions i = some p) :
    T.action id p.terminal = p.action := by
  have mem : p ∈ state.proposals := by
    rw [(built.visited id state hs).proposals]
    exact State.mem_proposalsOf.mpr ⟨i, hi, proposes⟩
  have proposed : p.action ∈ (state.candidates p.terminal).map Candidate.action :=
    State.mem_candidate_actions.mpr ⟨p, mem, rfl, rfl⟩
  obtain ⟨candidate, among, does⟩ := List.mem_map.mp proposed
  have one := State.length_candidates_le (t := p.terminal) (free state (List.mem_of_getElem? hs))
  obtain ⟨verdict, settled, same⟩ := h.action id state hs p.terminal
  rw [same, ← does]
  match hc : state.candidates p.terminal, among, one with
  | [only], among, _ =>
    rw [List.mem_singleton.mp among]
    simp only [State.settle, hc, Candidate.settle, Except.mapError, Except.ok.injEq] at settled
    rw [← settled]
    rfl

theorem action_of_terminal (h : T.Follows g c) (built : c.Built g rule) (free : c.ConflictFree)
    (hs : c.state? id = some state) (hi : i ∈ state.items) {t : Terminal} {target : StateId}
    (next : i.symbol? g = some (.terminal t)) (found : c.target? id (.terminal t) = some target) :
    T.action id t = .shift target := by
  refine h.action_of_proposal built free hs hi (p := ⟨t, i, .shift target⟩) ?_
  rw [Collection.target?, hs] at found
  exact State.proposal?_eq_some.mpr (.inl ⟨t, target, next, found, rfl⟩)

theorem action_of_end (h : T.Follows g c) (built : c.Built g rule) (free : c.ConflictFree)
    (hs : c.state? id = some state) (hi : i ∈ state.items) (exhausted : i.symbol? g = none) :
    T.action id i.lookahead =
      if (g.rule? i.rule).map Rule.head = some g.start ∧ i.lookahead = g.eos then .accept
      else .reduce i.rule := by
  split
  · rename_i start
    exact h.action_of_proposal built free hs hi (p := ⟨i.lookahead, i, .accept⟩)
      (State.proposal?_eq_some.mpr (.inr (.inl ⟨exhausted, start, rfl⟩)))
  · rename_i other
    exact h.action_of_proposal built free hs hi (p := ⟨i.lookahead, i, .reduce i.rule⟩)
      (State.proposal?_eq_some.mpr (.inr (.inr ⟨exhausted, other, rfl⟩)))

end Table.Follows

/-- What is known of a table that comes out of a well-formed grammar with this start rule. -/
structure Table.Made (g : Grammar V) (rule : Rule V) (c : Collection) (T : Table) : Prop where
  wf : g.WellFormed
  start : g.rulesOf g.start = [rule]
  body : ∃ n, rule.body = [.nonTerminal n]
  built : c.Built g rule
  follows : T.Follows g c

theorem Table.Made.collection {c : Collection} {T : Table} {rule : Rule V}
    (made : T.Made g rule c) : c.Made g rule :=
  ⟨made.wf, made.start, made.built⟩

theorem Table.Made.start_mem {c : Collection} {T : Table} {rule : Rule V} (made : T.Made g rule c) :
    rule ∈ g.rulesOf g.start :=
  made.collection.start_mem

theorem Table.Made.eq_of_head {c : Collection} {T : Table} {rule r : Rule V}
    (made : T.Made g rule c) (mem : r ∈ g.rules) (head : r.head = g.start) : r = rule :=
  made.collection.eq_of_head mem head

theorem Grammar.table?_eq_of_collection? {c : Collection} (found : g.collection? = .ok c) :
    g.table? = (Table.ofCollection g c).mapError .ambiguous := by
  rw [table?, found]

theorem Grammar.of_table? (wf : g.WellFormed) {T : Table} (h : g.table? = .ok T) :
    ∃ c rule, g.collection? = .ok c ∧ T.Made g rule c := by
  unfold table? at h
  split at h
  · cases h
  · rename_i c found
    obtain ⟨rule, n, only, body, built⟩ := g.of_collection? wf found
    cases ht : Table.ofCollection g c with
    | error e => simp [ht, Except.mapError] at h
    | ok T' =>
      simp only [ht, Except.mapError, Except.ok.injEq] at h
      subst h
      exact ⟨c, rule, found, wf, only, ⟨n, body⟩, built, Table.follows_ofCollection ht⟩

end CanonicalLR
