import CanonicalLR.Proofs.Embeddings
import CanonicalLR.Proofs.GenerationEnds
import CanonicalLR.Proofs.Settling

/-!
The collection of a grammar that lies in another one is that of the other: each visit
finds the same states under the same numbers, with the same transitions and the items
renamed, so the two explorings end in collections that match, and items ask for the
same actions there.
-/
namespace CanonicalLR

/-! ### Loops -/

namespace Loop

variable {σ τ : Type} {round : σ → Option σ} {round' : τ → Option τ}

/-- From one state a loop ends in one way only. -/
theorem Ends.unique {m n : Nat} {s t u : σ} (h : Ends round m s t) (h' : Ends round n s u) :
    m = n ∧ t = u := by
  induction h generalizing n with
  | stop last =>
    cases h' with
    | stop _ => exact ⟨rfl, rfl⟩
    | go next _ => cases last.symm.trans next
  | go next _ ih =>
    cases h' with
    | stop last => cases last.symm.trans next
    | go next' rest =>
      cases next.symm.trans next'
      obtain ⟨same, last⟩ := ih rest
      exact ⟨congrArg (· + 1) same, last⟩

/-- Loops whose rounds keep a relation end together, in related states. -/
theorem Ends.related {R : σ → τ → Prop}
    (keeps : ∀ s s', R s s' → Option.Rel R (round s) (round' s')) {n : Nat} {s t : σ}
    (h : Ends round n s t) {s' : τ} (start : R s s') : ∃ t', Ends round' n s' t' ∧ R t t' := by
  induction h generalizing s' with
  | @stop s last =>
    have step := keeps s s' start
    rw [last] at step
    cases stopped : round' s' with
    | none => exact ⟨s', .stop stopped, start⟩
    | some _ =>
      rw [stopped] at step
      cases step
  | @go _ s _ _ next _ ih =>
    have step := keeps s s' start
    rw [next] at step
    cases gone : round' s' with
    | none =>
      rw [gone] at step
      cases step
    | some u' =>
      rw [gone] at step
      cases step with
      | some step =>
        obtain ⟨t', ends, last⟩ := ih step
        exact ⟨t', .go gone ends, last⟩

end Loop

variable {V : Type} {g g' : Grammar V} {ρ : Renaming}

namespace Collection

/-- The second collection has the same states with their items and transitions renamed, and both
indices are right. -/
structure Matches (ρ : Renaming) (c c' : Collection) : Prop where
  indexed : c.Indexed
  indexed' : c'.Indexed
  itemSets : c'.itemSets = c.itemSets.map ρ.items
  transitions : c'.states.map State.transitions =
    c.states.map fun state => state.transitions.map ρ.transition

/-- Two explorings stand at matching collections, with the same states in their queues. -/
structure Abreast (ρ : Renaming) (g : Grammar V) (s s' : Collection × List StateId) : Prop where
  matching : Matches ρ s.1 s'.1
  sound : Sound g s.1
  queue : s.2 = s'.2

namespace Matches

variable {c c' : Collection} {items : ItemSet}

theorem size_eq (m : Matches ρ c c') : c'.size = c.size := by
  rw [← length_itemSets, m.itemSets, List.length_map, length_itemSets]

theorem state?_eq_some (m : Matches ρ c c') {id : StateId} {state : State}
    (at_ : c.state? id = some state) :
    ∃ state', c'.state? id = some state' ∧ state'.items = ρ.items state.items ∧
      state'.transitions = state.transitions.map ρ.transition := by
  have bound : id < c'.states.length :=
    Nat.lt_of_lt_of_eq (List.getElem?_eq_some_iff.mp at_).1 m.size_eq.symm
  have at_' : c'.states[id]? = some c'.states[id] := List.getElem?_eq_getElem bound
  refine ⟨c'.states[id], at_', ?_, ?_⟩
  · have same := congrArg (·[id]?) m.itemSets
    rw [Collection.state?] at at_
    simpa [Collection.itemSets, at_, at_'] using same
  · have same := congrArg (·[id]?) m.transitions
    rw [Collection.state?] at at_
    simpa [at_, at_'] using same

theorem state?_eq_none (m : Matches ρ c c') {id : StateId} (off : c.state? id = none) :
    c'.state? id = none := by
  refine List.getElem?_eq_none ?_
  have := List.getElem?_eq_none_iff.mp off
  exact m.size_eq.le.trans this

variable (m : Matches ρ c c') (wf : g.WellFormed) (inside : c.Inside g)
include m wf inside

theorem find?_items (hi : ∀ i ∈ items, i ∈ g.items) :
    c'.find? (ρ.items items) = c.find? items := by
  refine Option.ext fun id => ?_
  rw [m.indexed'.find?_eq_some_iff, m.indexed.find?_eq_some_iff, m.itemSets, List.getElem?_map,
    Option.map_eq_some_iff]
  constructor
  · rintro ⟨s, at_, same⟩
    rw [← (ρ.items_inj wf (inside s (List.mem_of_getElem? at_)) hi).mp same]
    exact at_
  · exact fun at_ => ⟨items, at_, rfl⟩

/-- A set and the renamed one are interned under the same number. -/
theorem intern (hi : ∀ i ∈ items, i ∈ g.items) :
    (c'.intern (ρ.items items)).1 = (c.intern items).1 ∧
      Matches ρ (c.intern items).2 (c'.intern (ρ.items items)).2 := by
  have indexed := (continues_intern (rfl : c.intern items = _)).indexed m.indexed
  have indexed' := (continues_intern (rfl : c'.intern (ρ.items items) = _)).indexed m.indexed'
  revert indexed indexed'
  unfold Collection.intern
  rw [m.find?_items wf inside hi]
  cases c.find? items with
  | some id => exact fun _ _ => ⟨rfl, m⟩
  | none =>
    refine fun indexed indexed' => ⟨m.size_eq, indexed, indexed', ?_, ?_⟩
    · rw [itemSets_add, itemSets_add, m.itemSets, List.map_append]
      rfl
    · simp [m.transitions, State.ofItems]

end Matches

section

variable (E : g.Embeds ρ g') (wf : g.WellFormed) (wf' : g'.WellFormed) {c c' : Collection}
include E wf wf'

theorem Matches.internAll {items : ItemSet} (hi : ∀ i ∈ items, i ∈ g.items) {symbols : List Symbol}
    (owned : ∀ x ∈ symbols, g.symbols.owns x = true) (m : Matches ρ c c') (inside : c.Inside g) :
    (internAll g' (ρ.items items) (symbols.map ρ.symbol) c').1 =
        (internAll g items symbols c).1.map ρ.transition ∧
      Matches ρ (internAll g items symbols c).2
        (internAll g' (ρ.items items) (symbols.map ρ.symbol) c').2 := by
  induction symbols generalizing c c' with
  | nil => exact ⟨rfl, m⟩
  | cons x symbols ih =>
    have reached := wf.goto_mem_items (x := x) hi
    obtain ⟨target, first⟩ := m.intern wf inside reached
    obtain ⟨edges, rest⟩ :=
      ih (fun y hy => owned y (List.mem_cons_of_mem x hy)) first (inside.intern reached)
    simp only [List.map_cons, Collection.internAll,
      E.goto_items wf wf' hi (owned x List.mem_cons_self)]
    refine ⟨?_, rest⟩
    rw [edges, target]
    rfl

/-- A visit to a state finds the same in both collections. -/
theorem Matches.visit (m : Matches ρ c c') (inside : c.Inside g) (id : StateId) :
    Matches ρ (c.visit g id) (c'.visit g' id) := by
  cases hs : c.state? id with
  | none =>
    rw [Collection.visit, Collection.visit, hs, m.state?_eq_none hs]
    exact m
  | some state =>
    obtain ⟨state', hs', items, _⟩ := m.state?_eq_some hs
    have hi := inside.of_state? hs
    obtain ⟨edges, rest⟩ := m.internAll E wf wf' hi
      (fun x hx => wf.nextSymbols_owned (s := state.items) hx) inside
    rw [← E.nextSymbols_items wf wf' hi, ← items] at edges rest
    rcases found : Collection.internAll g state.items (state.items.nextSymbols g).toList c
      with ⟨found, after⟩
    rcases found' : Collection.internAll g' state'.items (state'.items.nextSymbols g').toList c'
      with ⟨found', after'⟩
    rw [found, found'] at edges rest
    refine ⟨m.indexed.visit_of_interned hs found, m.indexed'.visit_of_interned hs' found', ?_, ?_⟩
    · rw [itemSets_visit hs found, itemSets_visit hs' found']
      exact rest.itemSets
    · refine List.ext_getElem? fun j => ?_
      rw [List.getElem?_map, List.getElem?_map]
      change ((c'.visit g' id).state? j).map _ = ((c.visit g id).state? j).map _
      rw [state?_visit hs found, state?_visit hs' found']
      by_cases here : id = j
      · rw [if_pos here, if_pos here]
        exact congrArg some edges
      · rw [if_neg here, if_neg here]
        have same := congrArg (·[j]?) rest.transitions
        rwa [List.getElem?_map, List.getElem?_map] at same

/-- A round of the exploring leaves matching collections with the same queue. -/
theorem Abreast.exploring {s s' : Collection × List StateId} (h : Abreast ρ g s s') :
    Option.Rel (Abreast ρ g) (Loop.exploring g s) (Loop.exploring g' s') := by
  obtain ⟨c, queue⟩ := s
  obtain ⟨c', queue'⟩ := s'
  obtain ⟨m, sound, same⟩ := h
  cases same
  cases queue with
  | nil => exact .none
  | cons id queue =>
    have after := m.visit E wf wf' (sound.inside wf) id
    refine .some ⟨after, sound.visit id, ?_⟩
    change queue ++ List.range' c.size ((c.visit g id).size - c.size) = _
    rw [after.size_eq, m.size_eq]

/-- Both explorings end together, so the collections that are built match. -/
theorem Matches.build (m : Matches ρ c c') (sound : Sound g c) (sound' : Sound g' c') :
    Matches ρ (c.build g) (c'.build g') := by
  have start : Abreast ρ g (c, [0]) (c', [0]) := ⟨m, sound, rfl⟩
  obtain ⟨_, ends, last⟩ :=
    (exploring_ends wf sound).related (fun _ _ h => h.exploring E wf wf') start
  obtain ⟨_, same⟩ := ends.unique (exploring_ends wf' sound')
  rw [same] at last
  exact last.matching

end

/-- The collection that starts from a rule matches the one that starts from the same rule under its
new number. -/
theorem matches_initial (E : g.Embeds ρ g') (wf : g.WellFormed) (wf' : g'.WellFormed)
    {rule : Rule V} (mem : rule ∈ g.rules) :
    Matches ρ (initial g rule) (initial g' (ρ.renumber rule)) := by
  have seed : ρ.items (.ofList [⟨rule.id, 0, g.eos⟩]) =
      .ofList [⟨(ρ.renumber rule).id, 0, g'.eos⟩] := by
    refine OrderedSet.ext fun i => ?_
    simp [Renaming.item, Renaming.renumber, E.eos_eq, eq_comm]
  refine ⟨Indexed.empty.add rfl, Indexed.empty.add rfl, ?_, rfl⟩
  simp only [itemSets, initial_eq, State.ofItems, List.map_cons, List.map_nil]
  rw [← E.close_items wf wf' (Grammar.seed_mem_items mem), seed]

end Collection

/-! ### The start rule -/

namespace Grammar.Embeds

variable (E : g.Embeds ρ g') (wf : g.WellFormed) (wf' : g'.WellFormed)
include E wf wf'

theorem rulesOf_start {rule : Rule V} (only : g.rulesOf g.start = [rule]) :
    g'.rulesOf g'.start = [ρ.renumber rule] := by
  refine List.perm_singleton.mp ?_
  refine (List.perm_ext_iff_of_nodup (wf'.nodup_rules.filter _) (List.nodup_singleton _)).mpr ?_
  intro r'
  change r' ∈ g'.rulesOf g'.start ↔ _
  rw [← E.start_eq, E.mem_rulesOf wf.start_owned, only]
  simp

/-- A grammar that lies in another one with its start rule gives that a proper start rule too. -/
theorem checkStart_eq {rule : Rule V} (checked : g.checkStart = .ok rule) :
    g'.checkStart = .ok (ρ.renumber rule) := by
  obtain ⟨only, n, body⟩ := g.of_checkStart checked
  have body' : (ρ.renumber rule).body = [.nonTerminal (ρ.nonTerminal n)] :=
    congrArg ρ.string body
  rw [Grammar.checkStart, E.rulesOf_start wf wf' only]
  simp only [body']

/-- With a proper start rule the two collections match. -/
theorem exists_collections {rule : Rule V} (checked : g.checkStart = .ok rule) :
    ∃ c c', g.collection? = .ok c ∧ g'.collection? = .ok c' ∧ c.Matches ρ c' ∧
      c.Built g rule ∧ c'.Built g' (ρ.renumber rule) := by
  have checked' := E.checkStart_eq wf wf' checked
  obtain ⟨only, _⟩ := g.of_checkStart checked
  have mem : rule ∈ g.rulesOf g.start := by simp [only]
  have first : (g.rulesOf g.start).head? = some rule := by rw [only]; rfl
  have first' : (g'.rulesOf g'.start).head? = some (ρ.renumber rule) := by
    rw [E.rulesOf_start wf wf' only]
    rfl
  refine ⟨_, _, collection?_eq_ok_iff.mpr ⟨rule, checked, rfl⟩,
    collection?_eq_ok_iff.mpr ⟨_, checked', rfl⟩, ?_,
    Collection.built_initial wf first, Collection.built_initial wf' first'⟩
  exact (Collection.matches_initial E wf wf' (g.mem_rulesOf.mp mem).1).build E wf wf'
    (.initial first) (.initial first')

end Grammar.Embeds

/-! ### What is proposed -/

theorem Renaming.lookup_transition (ρ : Renaming) {edges : List (Symbol × StateId)} {x : Symbol}
    (home : ∀ edge ∈ edges, x.grammar = edge.1.grammar) :
    (edges.map ρ.transition).lookup (ρ.symbol x) = edges.lookup x := by
  induction edges with
  | nil => rfl
  | cons edge edges ih =>
    obtain ⟨y, target⟩ := edge
    have same : (ρ.symbol x == ρ.symbol y) = (x == y) := by
      rw [Bool.eq_iff_iff, beq_iff_eq, beq_iff_eq]
      exact ρ.symbol_inj (home (y, target) List.mem_cons_self)
    rw [List.map_cons, Renaming.transition, List.lookup_cons, List.lookup_cons, same,
      ih fun edge he => home edge (List.mem_cons_of_mem _ he)]

namespace Grammar.Embeds

variable (E : g.Embeds ρ g') (wf : g.WellFormed) (wf' : g'.WellFormed) {i : Item} (hi : i ∈ g.items)
include E wf wf' hi

/-- The rule is for the start symbol just if it was before. -/
theorem head_item_eq_start_iff :
    (g'.rule? (ρ.item i).rule).map Rule.head = some g'.start ↔
      (g.rule? i.rule).map Rule.head = some g.start := by
  rw [E.rule?_item wf wf' hi]
  cases found : g.rule? i.rule with
  | none => simp
  | some r =>
    have home := SymbolTable.grammar_of_owns (E.head_owned r (wf.mem_of_rule? found).1)
    simp only [Option.map_some, Option.some.injEq]
    rw [← E.start_eq]
    exact ρ.nonTerminal_inj home

omit wf' in
theorem lookahead_item_eq_eos_iff : (ρ.item i).lookahead = g'.eos ↔ i.lookahead = g.eos := by
  rw [← E.eos_eq]
  exact ρ.terminal_inj (wf.grammar_of_mem_items hi)

theorem proposal?_item {edges : List (Symbol × StateId)}
    (owned : ∀ edge ∈ edges, g.symbols.owns edge.1 = true) :
    State.proposal? g' (edges.map ρ.transition) (ρ.item i) =
      (State.proposal? g edges i).map ρ.proposal := by
  have start := E.head_item_eq_start_iff wf wf' hi
  have ends := E.lookahead_item_eq_eos_iff wf hi
  unfold State.proposal?
  rw [E.symbol?_item wf wf' hi]
  cases next : i.symbol? g with
  | none =>
    simp only [Option.map_none, start, ends]
    split
    · rw [← E.eos_eq]
      rfl
    · rfl
  | some x =>
    cases x with
    | nonTerminal n => rfl
    | terminal t =>
      have mine := SymbolTable.grammar_of_owns (wf.owned_of_mem_body _ (List.mem_of_getElem? next))
      have home : ∀ edge ∈ edges, (Symbol.terminal t).grammar = edge.1.grammar := fun edge he =>
        mine.trans (SymbolTable.grammar_of_owns (owned edge he)).symm
      have found := ρ.lookup_transition home
      simp only [Option.map_some, Renaming.symbol] at found ⊢
      rw [found]
      cases edges.lookup (.terminal t) <;> rfl

end Grammar.Embeds

/-- The second state goes where the first one does and proposes what that does, renamed, where all
symbols in the first are those of the grammar. -/
structure State.Matches (ρ : Renaming) (g : Grammar V) (state state' : State) : Prop where
  home : ∀ p ∈ state.proposals, p.terminal.grammar = g.id
  proposals : ∀ p', p' ∈ state'.proposals ↔ ∃ p ∈ state.proposals, ρ.proposal p = p'
  keys : ∀ edge ∈ state.transitions, edge.1.grammar = g.id
  transitions : state'.transitions = state.transitions.map ρ.transition

/-- In matching collections that are built the states with one number match. -/
theorem Collection.Matches.states (E : g.Embeds ρ g') (wf : g.WellFormed) (wf' : g'.WellFormed)
    {c c' : Collection} (m : Matches ρ c c') {rule rule' : Rule V} (built : c.Built g rule)
    (built' : c'.Built g' rule') {id : StateId} {state : State} (hs : c.state? id = some state) :
    ∃ state', c'.state? id = some state' ∧ state'.items = ρ.items state.items ∧
      state.Matches ρ g state' := by
  obtain ⟨state', hs', items, transitions⟩ := m.state?_eq_some hs
  have hi := built.inside hs wf
  have owned : ∀ edge ∈ state.transitions, g.symbols.owns edge.1 = true := fun _ he =>
    built.transition_owned hs wf he
  refine ⟨state', hs', items, fun p hp => ?_, fun p' => ?_,
    fun edge he => SymbolTable.grammar_of_owns (owned edge he), transitions⟩
  · exact SymbolTable.grammar_of_owns
      (built.terminal_owned hs wf (State.mem_terminals.mpr ⟨p, hp, rfl⟩))
  rw [(built'.visited id state' hs').proposals, (built.visited id state hs).proposals, items,
    transitions, State.mem_proposalsOf]
  constructor
  · rintro ⟨_, mem', proposes'⟩
    obtain ⟨i, mem, rfl⟩ := ρ.mem_items.mp mem'
    rw [E.proposal?_item wf wf' (hi i mem) owned] at proposes'
    obtain ⟨p, proposes, rfl⟩ := Option.map_eq_some_iff.mp proposes'
    exact ⟨p, State.mem_proposalsOf.mpr ⟨i, mem, proposes⟩, rfl⟩
  · rintro ⟨p, hp, rfl⟩
    obtain ⟨i, mem, proposes⟩ := State.mem_proposalsOf.mp hp
    refine ⟨ρ.item i, ρ.mem_items.mpr ⟨i, mem, rfl⟩, ?_⟩
    rw [E.proposal?_item wf wf' (hi i mem) owned, proposes, Option.map_some]

namespace State.Matches

variable {state state' : State} (m : state.Matches ρ g state')
include m

theorem mem_terminals_iff {t' : Terminal} :
    t' ∈ state'.terminals ↔ ∃ t ∈ state.terminals, ρ.terminal t = t' := by
  simp only [mem_terminals]
  constructor
  · rintro ⟨_, hp', rfl⟩
    obtain ⟨p, hp, rfl⟩ := (m.proposals _).mp hp'
    exact ⟨p.terminal, ⟨p, hp, rfl⟩, rfl⟩
  · rintro ⟨_, ⟨p, hp, rfl⟩, rfl⟩
    exact ⟨ρ.proposal p, (m.proposals _).mpr ⟨p, hp, rfl⟩, rfl⟩

theorem home_of_mem_terminals {t : Terminal} (h : t ∈ state.terminals) : t.grammar = g.id := by
  obtain ⟨p, hp, rfl⟩ := mem_terminals.mp h
  exact m.home p hp

/-- Under a terminal of the grammar the same actions are candidates, in some order. -/
theorem actions_perm {t : Terminal} (home : t.grammar = g.id) :
    ((state'.candidates (ρ.terminal t)).map Candidate.action).Perm
      (((state.candidates t).map Candidate.action).map ρ.action) := by
  refine (List.perm_ext_iff_of_nodup (nodup_candidates _ _)
    ((nodup_candidates state t).map ρ.action_injective)).mpr fun a' => ?_
  rw [mem_candidate_actions, List.mem_map]
  constructor
  · rintro ⟨_, hp', under, rfl⟩
    obtain ⟨p, hp, rfl⟩ := (m.proposals _).mp hp'
    have under := (ρ.terminal_inj ((m.home p hp).trans home.symm)).mp under
    exact ⟨p.action, mem_candidate_actions.mpr ⟨p, hp, under, rfl⟩, rfl⟩
  · rintro ⟨_, mem, rfl⟩
    obtain ⟨p, hp, rfl, rfl⟩ := mem_candidate_actions.mp mem
    exact ⟨ρ.proposal p, (m.proposals _).mpr ⟨p, hp, rfl⟩, rfl, rfl⟩

theorem length_candidates_eq {t : Terminal} (home : t.grammar = g.id) :
    (state'.candidates (ρ.terminal t)).length = (state.candidates t).length := by
  have := (m.actions_perm home).length_eq
  simpa only [List.length_map] using this

theorem hasConflicts_eq : state'.hasConflicts = state.hasConflicts := by
  rw [Bool.eq_iff_iff]
  simp only [hasConflicts, List.any_eq_true, decide_eq_true_eq]
  constructor
  · rintro ⟨_, mem', several⟩
    obtain ⟨t, mem, rfl⟩ := m.mem_terminals_iff.mp mem'
    rw [m.length_candidates_eq (m.home_of_mem_terminals mem)] at several
    exact ⟨t, mem, several⟩
  · rintro ⟨t, mem, several⟩
    refine ⟨ρ.terminal t, m.mem_terminals_iff.mpr ⟨t, mem, rfl⟩, ?_⟩
    rw [m.length_candidates_eq (m.home_of_mem_terminals mem)]
    exact several

theorem target?_eq {x : Symbol} (home : x.grammar = g.id) :
    state'.target? (ρ.symbol x) = state.target? x := by
  rw [target?, m.transitions]
  exact ρ.lookup_transition fun edge he => home.trans (m.keys edge he).symm

theorem gotos_eq : state'.gotos = state.gotos.map fun (n, target) => (ρ.nonTerminal n, target) := by
  rw [gotos, gotos, m.transitions, List.filterMap_map, List.map_filterMap]
  refine List.filterMap_congr fun edge _ => ?_
  obtain ⟨x, target⟩ := edge
  cases x <;> rfl

end State.Matches

end CanonicalLR
