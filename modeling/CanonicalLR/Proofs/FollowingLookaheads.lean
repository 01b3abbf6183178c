import CanonicalLR.Proofs.FollowExactness

/-!
The lookaheads of the automaton are among what the analysis says may follow. An item
that another one calls for has a lookahead that starts what is behind the dot, or the
lookahead of that one where all behind the dot may be empty; the analysis gives a
non-terminal of a body the same two. Moving a dot changes neither rule nor lookahead, so
it holds of all states, however often the collection is built.
-/
namespace CanonicalLR

variable {V : Type} {g : Grammar V}

/-! ### Items -/

/-- The item has a rule, whose head may be followed by the lookahead. -/
def Item.InFollow (g : Grammar V) (i : Item) : Prop :=
  ∃ rule, g.rule? i.rule = some rule ∧ i.lookahead ∈ g.follow rule.head

namespace Grammar.WellFormed

variable (wf : g.WellFormed)
include wf

theorem eos_mem_follow_start : g.eos ∈ g.follow g.start := by
  rw [follow, Fact.mem_about, wf.analysis]
  exact Analysis.seed_mem_followOf g.rules g.start g.eos

/-- A non-terminal of a body is followed by what may come behind it when the head is followed by a
terminal. -/
theorem mem_follow_of_firstWith {rule : Rule V} (mem : rule ∈ g.rules) {n : NonTerminal}
    {front back : List Symbol} (body : rule.body = front ++ .nonTerminal n :: back)
    {a t : Terminal} (follows : a ∈ g.follow rule.head) (behind : t ∈ g.firstWith back a) :
    t ∈ g.follow n := by
  rw [follow, Fact.mem_about, wf.analysis] at follows ⊢
  apply Analysis.mem_followOf_of_rule mem body
  rw [mem_firstWith, firstOfString, nullableString, wf.analysis] at behind
  cases behind with
  | inl starts => exact .inl starts
  | inr empty => exact .inr ⟨empty.1, empty.2 ▸ follows⟩

end Grammar.WellFormed

namespace Item.InFollow

variable {i j : Item}

theorem initial (wf : g.WellFormed) {rule : Rule V} (mem : rule ∈ g.rulesOf g.start) :
    InFollow g ⟨rule.id, 0, g.eos⟩ := by
  obtain ⟨among, head⟩ := g.mem_rulesOf.mp mem
  refine ⟨rule, wf.rule?_of_mem among, ?_⟩
  rw [head]
  exact wf.eos_mem_follow_start

theorem expand (wf : g.WellFormed) (h : i.InFollow g) (called : j ∈ i.expansion g) :
    j.InFollow g := by
  obtain ⟨rule, found, follows⟩ := h
  obtain ⟨n, next, r, hr, a, behind, rfl⟩ := (i.mem_expansion g).mp called
  obtain ⟨among, rfl⟩ := g.mem_rulesOf.mp hr
  have body : g.body i.rule = rule.body := by simp [Grammar.body, found]
  have split := Item.body_eq_of_symbol? next
  rw [body] at split
  have mem := (wf.mem_of_rule? found).1
  exact ⟨r, wf.rule?_of_mem among, wf.mem_follow_of_firstWith mem split follows behind⟩

end Item.InFollow

theorem ItemSet.Canonical.inFollow (wf : g.WellFormed) {s : ItemSet} (h : Canonical g s) :
    ∀ i ∈ s, i.InFollow g := by
  induction h with
  | initial rule first =>
    intro i hi
    apply close_induction g _ (fun _ h _ called => h.expand wf called) hi
    intro seed hs
    have only : seed = ⟨rule.id, 0, g.eos⟩ := by simpa using hs
    rw [only]
    exact .initial wf (List.mem_of_head? first)
  | goto _ x _ _ ih =>
    intro i hi
    exact goto_induction (fun j hj _ => ih j hj) (fun _ h _ called => h.expand wf called) hi

/-! ### Collections -/

namespace Collection

variable {c : Collection}

/-- The collection was started from the grammar, whether its start rule was checked or not, and has
been built any number of times. -/
inductive Obtained (g : Grammar V) : Collection → Prop where
  | started {c : Collection} (found : g.initialCollection? = .ok c) : Obtained g c
  | checked {c : Collection} (found : g.collection? = .ok c) : Obtained g c
  | built {c : Collection} (before : Obtained g c) : Obtained g (c.build g)

/-- Whatever is proposed in a state is proposed by an item of that state. -/
def Grounded (g : Grammar V) (c : Collection) : Prop :=
  ∀ (id : StateId) (state : State), c.state? id = some state → ∀ p ∈ state.proposals,
    ∃ i ∈ state.items, ∃ edges, State.proposal? g edges i = some p

/-- What is kept by a visit is kept when the collection is built. -/
theorem build_induction {P : Collection → Prop} (visit : ∀ c id, P c → P (c.visit g id))
    (start : P c) : P (c.build g) := by
  have further (fuel next : Nat) (c : Collection) (h : P c) : P (visitFrom g fuel next c) := by
    induction fuel generalizing next c with
    | zero => exact h
    | succ fuel ih =>
      rw [visitFrom]
      split
      · exact ih _ _ (visit c next h)
      · exact h
  exact further _ _ _ (visit c 0 start)

theorem Grounded.initial (rule : Rule V) : Grounded g (.initial g rule) := by
  intro id state hs p hp
  have only := List.mem_of_getElem? hs
  simp only [initial_eq, List.mem_singleton] at only
  rw [only] at hp
  cases hp

theorem Grounded.visit (h : Grounded g c) (id : StateId) : Grounded g (c.visit g id) := by
  cases hs : c.state? id with
  | none =>
    rw [Collection.visit, hs]
    exact h
  | some state =>
    rcases hi : internAll g state.items (state.items.nextSymbols g).toList c with ⟨edges, c'⟩
    intro j s at_ p hp
    rw [state?_visit hs hi] at at_
    by_cases same : id = j
    · -- the state that is visited keeps what was proposed and gets what its items propose
      rw [if_pos same] at at_
      cases at_
      cases List.mem_append.mp hp with
      | inl old => exact h id state hs p old
      | inr new =>
        obtain ⟨i, mem, proposes⟩ := State.mem_proposalsOf.mp new
        exact ⟨i, mem, edges, proposes⟩
    · rw [if_neg same] at at_
      cases (continues_internAll hi).eq_ofItems at_ with
      | inl old => exact h j s old p hp
      | inr fresh =>
        rw [fresh.2] at hp
        cases hp

namespace Obtained

theorem sound (h : Obtained g c) : Sound g c := by
  induction h with
  | started found =>
    obtain ⟨rule, first, rfl⟩ := Grammar.initialCollection?_eq_ok_iff.mp found
    exact .initial first
  | checked found =>
    obtain ⟨rule, checked, rfl⟩ := Grammar.collection?_eq_ok_iff.mp found
    have first : (g.rulesOf g.start).head? = some rule := by
      rw [(g.of_checkStart checked).1]
      rfl
    exact (Sound.initial first).build
  | built _ ih => exact ih.build

theorem grounded (h : Obtained g c) : Grounded g c := by
  induction h with
  | started found =>
    obtain ⟨rule, _, rfl⟩ := Grammar.initialCollection?_eq_ok_iff.mp found
    exact .initial rule
  | checked found =>
    obtain ⟨rule, _, rfl⟩ := Grammar.collection?_eq_ok_iff.mp found
    exact build_induction (fun _ id h => h.visit id) (.initial rule)
  | built _ ih => exact build_induction (fun _ id h => h.visit id) ih

variable {id : StateId} {state : State}

theorem inFollow (wf : g.WellFormed) (h : Obtained g c) (hs : c.state? id = some state) :
    ∀ i ∈ state.items, i.InFollow g :=
  (h.sound.reached _ (List.mem_map_of_mem (List.mem_of_getElem? hs))).inFollow wf

/-- A reduction is proposed by an item of its rule, under the lookahead of that. -/
theorem exists_item_of_reduce (h : Obtained g c) (hs : c.state? id = some state) {t : Terminal}
    {d : Candidate} (mem : d ∈ state.candidates t) {r : RuleId} (reduces : d.action = .reduce r) :
    ∃ i ∈ state.items, i.rule = r ∧ i.lookahead = t := by
  have among : Action.reduce r ∈ (state.candidates t).map Candidate.action :=
    reduces ▸ List.mem_map_of_mem mem
  obtain ⟨p, hp, under, does⟩ := State.mem_candidate_actions.mp among
  obtain ⟨i, hi, edges, proposes⟩ := h.grounded id state hs p hp
  refine ⟨i, hi, ?_⟩
  rcases State.proposal?_eq_some.mp proposes with ⟨_, _, _, _, rfl⟩ | ⟨_, _, rfl⟩ | ⟨_, _, rfl⟩
  · cases does
  · cases does
  · cases does
    exact ⟨rfl, under⟩

end Obtained

end Collection

/-- The terminals that may follow the head of the rule can be looked up, and this is one of them. -/
def Grammar.FollowsHead (g : Grammar V) (id : RuleId) (t : Terminal) : Prop :=
  ∃ rule behind, g.rule? id = some rule ∧ (g.analysed rule.head).map g.follow = .ok behind ∧
    t ∈ behind

/-- In every state of every collection that is obtained from the grammar each item has a lookahead
that follows the head of its rule, so each reduction is proposed under terminals that do. -/
theorem Grammar.lookaheads_follow [SemanticValue V] {b : Builder V} (authored : b.Authored)
    {c : Collection} (obtained : c.Obtained b.build) {id : StateId} {state : State}
    (hs : c.state? id = some state) :
    (∀ i ∈ state.items, b.build.FollowsHead i.rule i.lookahead) ∧
    ∀ t, ∀ d ∈ state.candidates t, ∀ r, d.action = .reduce r → b.build.FollowsHead r t := by
  have items : ∀ i ∈ state.items, b.build.FollowsHead i.rule i.lookahead := by
    intro i hi
    have wf := authored.wellFormed.build
    obtain ⟨rule, found, follows⟩ := obtained.inFollow wf hs i hi
    have owned : b.build.symbols.owns (.nonTerminal rule.head) = true :=
      authored.wellFormed.head_owned rule (wf.mem_of_rule? found).1
    refine ⟨rule, b.build.follow rule.head, found, ?_, follows⟩
    rw [analysed, if_pos owned]
    rfl
  refine ⟨items, fun t d mem r reduces => ?_⟩
  obtain ⟨i, hi, rfl, rfl⟩ := obtained.exists_item_of_reduce hs mem reduces
  exact items i hi

namespace Vanishing

/-- Behind an `a` the state reduces to `A` before a `c`, which the vanishing `B` lets follow; and
still so when the collection is built once more. -/
theorem reduced_before_last_letter :
    ∃ c state, builder.build.collection? = .ok c ∧
      (c.build builder.build).state? 1 = some state ∧
      state.candidates (letter 2) = [⟨⟨4, 1, letter 2⟩, .reduce 4, []⟩] ∧
      builder.build.FollowsHead 4 (letter 2) := by
  have computed : (builder.build.collection?.toOption.bind fun c =>
      (c.build builder.build).state? 1).map (fun state => state.candidates (letter 2)) =
        some [⟨⟨4, 1, letter 2⟩, .reduce 4, []⟩] := by decide +kernel
  cases found : builder.build.collection? with
  | error e =>
    rw [found] at computed
    cases computed
  | ok c =>
    rw [found] at computed
    obtain ⟨state, hs, candidates⟩ := Option.map_eq_some_iff.mp computed
    have obtained := Collection.Obtained.built (.checked found)
    have reduces := (Grammar.lookaheads_follow authored obtained hs).2 (letter 2)
      ⟨⟨4, 1, letter 2⟩, .reduce 4, []⟩ (candidates ▸ List.mem_singleton_self _) 4 rfl
    exact ⟨c, state, rfl, hs, candidates, reduces⟩

end Vanishing

end CanonicalLR
