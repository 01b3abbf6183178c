import CanonicalLR.Automaton
import CanonicalLR.Proofs.ItemSets

/-!
The breadth-first construction of the collection. Interning and visiting keep the
index right: it has just the item sets of the states, with their numbers. While the
construction goes on, the states before a certain number have been visited and the
others hold nothing but their items; there is fuel for as many visits as there can be
item sets, so in the end all have been visited. Then the transitions of a state are
complete, and what a state proposes is what its items propose.
-/
namespace CanonicalLR

variable {V : Type} {g : Grammar V}

/-- All items that are reached are among those that the grammar can have. -/
theorem ItemSet.Canonical.inside (wf : g.WellFormed) {s : ItemSet} (h : ItemSet.Canonical g s) :
    ∀ i ∈ s, i ∈ g.items := by
  induction h with
  | initial rule first =>
    intro i hi
    refine ItemSet.close_induction g (fun i hi => ?_)
      (fun _ hi _ => Grammar.expansion_mem_items hi) hi
    have seed : i = ⟨rule.id, 0, g.eos⟩ := by simpa using hi
    have mem := (g.mem_rulesOf.mp (List.mem_of_head? first)).1
    rw [seed]
    exact Grammar.mem_items.mpr ⟨rule, mem, rfl, Nat.zero_le _, by simp [Grammar.lookaheads]⟩
  | goto _ _ _ _ ih => exact wf.goto_mem_items ih

/-- A look-up among different keys finds just the entries that there are. -/
theorem mem_lookup_iff {κ υ : Type} [BEq κ] [LawfulBEq κ] {l : List (κ × υ)} {k : κ} {v : υ}
    (distinct : (l.map Prod.fst).Nodup) : l.lookup k = some v ↔ (k, v) ∈ l := by
  induction l with
  | nil => simp
  | cons e l ih =>
    obtain ⟨k', v'⟩ := e
    rw [List.map_cons, List.nodup_cons] at distinct
    by_cases same : k = k'
    · subst same
      have fresh : (k, v) ∉ l := fun mem => distinct.1 (List.mem_map.mpr ⟨_, mem, rfl⟩)
      simp [fresh, eq_comm]
    · rw [List.lookup_cons, beq_false_of_ne same, List.mem_cons, ih distinct.2]
      simp [same]

namespace Collection

/-- The item sets of the states, by number. -/
def itemSets (c : Collection) : List ItemSet := c.states.map State.items

@[simp] theorem length_itemSets (c : Collection) : c.itemSets.length = c.size := List.length_map _

theorem getElem?_itemSets {c : Collection} {id : StateId} {items : ItemSet} :
    c.itemSets[id]? = some items ↔ ∃ state, c.state? id = some state ∧ state.items = items := by
  simp [itemSets, state?]

/-! ### The index -/

/-- The states have the numbers of their places and different item sets, and the index has just
these sets with these numbers. -/
structure Indexed (c : Collection) : Prop where
  ids : c.states.map State.id = List.range c.size
  distinct : c.itemSets.Nodup
  index : c.index = c.itemSets.zipIdx.reverse

namespace Indexed

variable {c c' : Collection} {items : ItemSet} {id : StateId}

theorem empty : Collection.empty.Indexed := ⟨rfl, List.nodup_nil, rfl⟩

/-- A state that is found under a number has that number. -/
theorem id_eq (indexed : c.Indexed) {state : State} (at_ : c.state? id = some state) :
    state.id = id := by
  have numbers := congrArg (·[id]?) indexed.ids
  have bound : id < c.size := (List.getElem?_eq_some_iff.mp at_).1
  rw [Collection.state?] at at_
  simpa [at_, bound] using numbers

/-- A state is found under its number. -/
theorem state?_id (indexed : c.Indexed) {state : State} (mem : state ∈ c.states) :
    c.state? state.id = some state := by
  obtain ⟨id, hs⟩ := List.mem_iff_getElem?.mp mem
  rw [indexed.id_eq hs]
  exact hs

/-- What is found in the index is the number of the state with these items. -/
theorem find?_eq_some_iff (indexed : c.Indexed) :
    c.find? items = some id ↔ c.itemSets[id]? = some items := by
  -- an entry hides no earlier one, since the sets it goes by are all different
  have keys : (c.index.map Prod.fst).Nodup := by
    rw [indexed.index, List.map_reverse, List.zipIdx_map_fst]
    exact List.nodup_reverse.mpr indexed.distinct
  rw [find?, mem_lookup_iff keys, indexed.index, List.mem_reverse]
  exact List.mk_mem_zipIdx_iff_getElem?

theorem find?_eq_none_iff (indexed : c.Indexed) : c.find? items = none ↔ items ∉ c.itemSets := by
  simp only [Option.eq_none_iff_forall_ne_some, ne_eq, indexed.find?_eq_some_iff,
    List.mem_iff_getElem?, not_exists]

/-- Collections with the same states have the same entries in their indices. -/
theorem eq_of_state? (indexed : c.Indexed) (indexed' : c'.Indexed)
    (same : ∀ id, c.state? id = c'.state? id) : c = c' := by
  have states : c.states = c'.states := List.ext_getElem? same
  have index : c.index = c'.index := by
    rw [indexed.index, indexed'.index, itemSets, itemSets, states]
  cases c
  cases c'
  cases states
  cases index
  rfl

/-- Changes to what the states have beside their numbers and items leave the index right. -/
theorem of_states (indexed : c.Indexed) (ids : c'.states.map State.id = c.states.map State.id)
    (sets : c'.itemSets = c.itemSets) (index : c'.index = c.index) : c'.Indexed := by
  have size : c'.size = c.size := by
    rw [← length_itemSets, sets, length_itemSets]
  refine ⟨?_, sets ▸ indexed.distinct, ?_⟩
  · rw [ids, size]
    exact indexed.ids
  · rw [index, sets]
    exact indexed.index

end Indexed

/-! ### Interning -/

/-- The second collection is the first with more states behind it, none of them visited, and its
index is right if that of the first is. -/
structure Continues (c c' : Collection) : Prop where
  states : ∃ fresh : List State, c'.states = c.states ++ fresh ∧
    ∀ state ∈ fresh, state = .ofItems state.id state.items
  indexed : c.Indexed → c'.Indexed

namespace Continues

variable {c c' c'' : Collection}

theorem refl (c : Collection) : c.Continues c := ⟨⟨[], by simp⟩, id⟩

theorem trans (h : c.Continues c') (h' : c'.Continues c'') : c.Continues c'' := by
  obtain ⟨fresh, hs, bare⟩ := h.states
  obtain ⟨more, hs', bare'⟩ := h'.states
  refine ⟨⟨fresh ++ more, by simp [hs', hs], fun state mem => ?_⟩,
    fun indexed => h'.indexed (h.indexed indexed)⟩
  exact (List.mem_append.mp mem).elim (bare state) (bare' state)

theorem getElem?_itemSets (h : c.Continues c') {id : StateId} {items : ItemSet}
    (at_ : c.itemSets[id]? = some items) : c'.itemSets[id]? = some items := by
  obtain ⟨fresh, hs, _⟩ := h.states
  have bound := (List.getElem?_eq_some_iff.mp at_).1
  simp only [itemSets, hs, List.map_append] at at_ bound ⊢
  rw [List.getElem?_append_left bound]
  exact at_

end Continues

section

variable {c c' : Collection} {items : ItemSet} {id : StateId}

/-- Either the items have a number already, and nothing changes, or they get the next one. -/
theorem intern_cases (h : c.intern items = (id, c')) :
    c.find? items = some id ∧ c' = c ∨
      c.find? items = none ∧ id = c.size ∧
        c' = ⟨c.states ++ [.ofItems c.size items], (items, c.size) :: c.index⟩ := by
  unfold intern at h
  split at h
  · rename_i found
    cases h
    exact .inl ⟨found, rfl⟩
  · rename_i missing
    cases h
    exact .inr ⟨missing, rfl, rfl⟩

theorem itemSets_add (c : Collection) (items : ItemSet) (index : List (ItemSet × StateId)) :
    itemSets ⟨c.states ++ [.ofItems c.size items], index⟩ = c.itemSets ++ [items] := by
  simp [itemSets, State.ofItems]

/-- A set that is missing in the index becomes the last state and gets an entry. -/
theorem Indexed.add (indexed : c.Indexed) (missing : c.find? items = none) :
    Indexed ⟨c.states ++ [.ofItems c.size items], (items, c.size) :: c.index⟩ where
  ids := by
    rw [List.map_append, indexed.ids, size, size, List.length_append, List.length_singleton,
      List.range_succ]
    rfl
  distinct := by
    rw [itemSets_add]
    have fresh := indexed.find?_eq_none_iff.mp missing
    exact indexed.distinct.append (by simp) (by simpa using fresh)
  index := by
    rw [itemSets_add, indexed.index, List.zipIdx_append, List.reverse_append]
    simp

theorem continues_intern (h : c.intern items = (id, c')) : c.Continues c' := by
  rcases intern_cases h with ⟨_, rfl⟩ | ⟨missing, _, rfl⟩
  · exact .refl _
  · refine ⟨⟨_, rfl, ?_⟩, fun indexed => indexed.add missing⟩
    simp [State.ofItems]

/-- Interning adds no other set than the one that is interned. -/
theorem mem_itemSets_intern (h : c.intern items = (id, c')) :
    ∀ s ∈ c'.itemSets, s ∈ c.itemSets ∨ s = items := by
  rcases intern_cases h with ⟨_, rfl⟩ | ⟨_, _, rfl⟩
  · exact fun s hs => .inl hs
  · rw [itemSets_add]
    simp

/-- The set stands under the number that interning gives. -/
theorem Indexed.getElem?_intern (indexed : c.Indexed) (h : c.intern items = (id, c')) :
    c'.itemSets[id]? = some items := by
  rcases intern_cases h with ⟨found, rfl⟩ | ⟨_, rfl, rfl⟩
  · exact indexed.find?_eq_some_iff.mp found
  · rw [itemSets_add, List.getElem?_append_right (by simp)]
    simp

variable {symbols : List Symbol} {edges : List (Symbol × StateId)}

theorem continues_internAll (h : internAll g items symbols c = (edges, c')) : c.Continues c' := by
  induction symbols generalizing c edges with
  | nil =>
    cases h
    exact .refl _
  | cons x symbols ih =>
    rcases hi : c.intern (items.goto g x) with ⟨target, middle⟩
    rcases hr : internAll g items symbols middle with ⟨rest, last⟩
    simp only [internAll, hi, hr] at h
    cases h
    exact (continues_intern hi).trans (ih hr)

theorem internAll_spec (indexed : c.Indexed) (h : internAll g items symbols c = (edges, c')) :
    edges.map Prod.fst = symbols ∧
      (∀ edge ∈ edges, c'.itemSets[edge.2]? = some (items.goto g edge.1)) ∧
      ∀ s ∈ c'.itemSets, s ∈ c.itemSets ∨ ∃ x ∈ symbols, s = items.goto g x := by
  induction symbols generalizing c edges with
  | nil =>
    cases h
    exact ⟨rfl, by simp, fun s hs => .inl hs⟩
  | cons x symbols ih =>
    rcases hi : c.intern (items.goto g x) with ⟨target, middle⟩
    rcases hr : internAll g items symbols middle with ⟨rest, last⟩
    simp only [internAll, hi, hr] at h
    cases h
    obtain ⟨keys, targets, origin⟩ := ih ((continues_intern hi).indexed indexed) hr
    refine ⟨by simp [keys], ?_, ?_⟩
    · intro edge he
      rcases List.mem_cons.mp he with rfl | he
      · exact (continues_internAll hr).getElem?_itemSets (indexed.getElem?_intern hi)
      · exact targets edge he
    · intro s hs
      rcases origin s hs with hs | ⟨y, mem, same⟩
      · rcases mem_itemSets_intern hi s hs with hs | rfl
        · exact .inl hs
        · exact .inr ⟨x, List.mem_cons_self, rfl⟩
      · exact .inr ⟨y, List.mem_cons_of_mem x mem, same⟩

end

/-! ### Visits -/

/-- The state has its transitions, over the symbols after its dots and in symbol order, and what it
proposes is what its items propose, once. -/
structure Visited (g : Grammar V) (c : Collection) (state : State) : Prop where
  keys : state.transitions.map Prod.fst = (state.items.nextSymbols g).toList
  targets : ∀ edge ∈ state.transitions, c.itemSets[edge.2]? = some (state.items.goto g edge.1)
  proposals : state.proposals = State.proposalsOf g state.items state.transitions

/-- The index is right, and all item sets are reached from the initial one. -/
structure Sound (g : Grammar V) (c : Collection) : Prop extends Indexed c where
  reached : ∀ s ∈ c.itemSets, ItemSet.Canonical g s

theorem Sound.size_le (wf : g.WellFormed) {c : Collection} (h : Sound g c) :
    c.size ≤ 2 ^ itemCount g := by
  have bound := OrderedSet.length_le_two_pow g.items h.distinct
    fun s hs => (h.reached s hs).inside wf
  rw [length_itemSets] at bound
  exact bound.trans (Nat.pow_le_pow_right (by decide) Grammar.length_items_le)

/-- What holds of the collection when the states before `next` have been visited. -/
structure Explored (g : Grammar V) (c : Collection) (next : Nat) : Prop extends Sound g c where
  visited : ∀ (id : Nat) (state : State), c.state? id = some state → id < next → Visited g c state
  waiting : ∀ (id : Nat) (state : State), c.state? id = some state → next ≤ id →
    state = .ofItems state.id state.items

theorem Continues.state? {c c' : Collection} (h : c.Continues c') {id : StateId} {state : State}
    (at_ : c.state? id = some state) : c'.state? id = some state := by
  obtain ⟨fresh, hs, _⟩ := h.states
  rw [Collection.state?, hs, List.getElem?_append_left (List.getElem?_eq_some_iff.mp at_).1]
  exact at_

/-- A state of the second collection that is not one of the first has nothing but its number and
its items. -/
theorem Continues.eq_ofItems {c c' : Collection} (h : c.Continues c') {id : Nat} {state : State}
    (at_ : c'.state? id = some state) :
    c.state? id = some state ∨ c.size ≤ id ∧ state = .ofItems state.id state.items := by
  obtain ⟨fresh, hs, bare⟩ := h.states
  rw [Collection.state?, hs] at at_
  rcases Nat.lt_or_ge id c.size with old | new
  · rw [List.getElem?_append_left old] at at_
    exact .inl at_
  · rw [List.getElem?_append_right new] at at_
    exact .inr ⟨new, bare state (List.mem_of_getElem? at_)⟩

theorem state?_visit {c c' : Collection} {id : StateId} {state : State}
    {edges : List (Symbol × StateId)} (at_ : c.state? id = some state)
    (interned : internAll g state.items (state.items.nextSymbols g).toList c = (edges, c'))
    (j : StateId) :
    (c.visit g id).state? j =
      if id = j then
        some { state with
          transitions := edges
          proposals := state.proposals ++ State.proposalsOf g state.items edges }
      else c'.state? j := by
  have there := (continues_internAll interned).state? at_
  simp only [Collection.state?] at there ⊢
  simp only [Collection.visit, at_, interned, List.getElem?_modify]
  by_cases same : id = j
  · subst same
    simp [there]
  · simp [same]

/-- What is not changed in one element is not changed in the list. -/
theorem map_modify_of_eq {α β : Type} {f : α → α} {read : α → β} (same : ∀ a, read (f a) = read a)
    (l : List α) (i : Nat) : (l.modify i f).map read = l.map read := by
  refine List.ext_getElem? fun j => ?_
  rw [List.getElem?_map, List.getElem?_map, List.getElem?_modify]
  cases l[j]? with
  | none => rfl
  | some a =>
    by_cases here : i = j
    · simp [here, same]
    · simp [here]

section

variable {c c' : Collection} {id : StateId} {state : State} {edges : List (Symbol × StateId)}
  (at_ : c.state? id = some state)
  (interned : internAll g state.items (state.items.nextSymbols g).toList c = (edges, c'))
include at_ interned

/-- A visit leaves no other item sets than the interning of what is reached over the symbols. -/
theorem itemSets_visit : (c.visit g id).itemSets = c'.itemSets := by
  simp only [Collection.visit, at_, interned]
  refine map_modify_of_eq ?_ _ _
  exact fun _ => rfl

theorem Indexed.visit_of_interned (indexed : c.Indexed) : (c.visit g id).Indexed := by
  refine ((continues_internAll interned).indexed indexed).of_states ?_
    (itemSets_visit at_ interned) ?_
  · simp only [Collection.visit, at_, interned]
    refine map_modify_of_eq ?_ _ _
    exact fun _ => rfl
  · simp only [Collection.visit, at_, interned]

end

/-- What is in place stays there when a state is visited. -/
theorem getElem?_itemSets_visit {c : Collection} (id : StateId) {j : StateId} {items : ItemSet}
    (at_ : c.itemSets[j]? = some items) : (c.visit g id).itemSets[j]? = some items := by
  cases hs : c.state? id with
  | none =>
    rw [Collection.visit, hs]
    exact at_
  | some state =>
    rcases hi : internAll g state.items (state.items.nextSymbols g).toList c with ⟨edges, c'⟩
    rw [itemSets_visit hs hi]
    exact (continues_internAll hi).getElem?_itemSets at_

theorem size_le_size_visit (c : Collection) (id : StateId) : c.size ≤ (c.visit g id).size := by
  by_contra less
  have kept := getElem?_itemSets_visit (g := g) id
    (List.getElem?_eq_getElem (show (c.visit g id).size < c.itemSets.length by simpa using less))
  have := (List.getElem?_eq_some_iff.mp kept).1
  simp at this

theorem Sound.visit {c : Collection} (h : Sound g c) (id : StateId) : Sound g (c.visit g id) := by
  cases hs : c.state? id with
  | none =>
    rw [Collection.visit, hs]
    exact h
  | some state =>
    rcases hi : internAll g state.items (state.items.nextSymbols g).toList c with ⟨edges, c'⟩
    obtain ⟨_, _, origin⟩ := internAll_spec h.toIndexed hi
    have home : state.items ∈ c.itemSets := List.mem_map_of_mem (List.mem_of_getElem? hs)
    rw [← itemSets_visit hs hi] at origin
    refine ⟨h.toIndexed.visit_of_interned hs hi, fun s mem => ?_⟩
    rcases origin s mem with mem | ⟨x, next, rfl⟩
    · exact h.reached s mem
    · obtain ⟨i, hi, dot⟩ := ItemSet.mem_nextSymbols.mp next
      exact .goto (h.reached _ home) x _ (ItemSet.mem_goto_of_mem hi dot)

/-- A visit to the first state that waits leaves one state less waiting. -/
theorem Explored.visit {c : Collection} {next : Nat}
    (h : Explored g c next) (bound : next < c.size) :
    Explored g (c.visit g next) (next + 1) := by
  obtain ⟨state, hs⟩ : ∃ state, c.state? next = some state :=
    ⟨_, List.getElem?_eq_getElem bound⟩
  rcases hi : internAll g state.items (state.items.nextSymbols g).toList c with ⟨edges, c'⟩
  have more := continues_internAll hi
  obtain ⟨keys, targets, _⟩ := internAll_spec h.toIndexed hi
  have after := state?_visit hs hi
  have sets := itemSets_visit hs hi
  have bare : state.proposals = [] := by
    rw [h.waiting next state hs (Nat.le_refl next)]
    rfl
  have kept (s : State) (done : Visited g c s) : Visited g (c.visit g next) s :=
    ⟨done.keys, fun edge he => getElem?_itemSets_visit next (done.targets edge he), done.proposals⟩
  refine ⟨h.toSound.visit next, fun id s at_ before => ?_, fun id s at_ later => ?_⟩
  · rw [after] at at_
    by_cases same : next = id
    · rw [if_pos same] at at_
      cases at_
      refine ⟨keys, fun edge he => ?_, by rw [bare]; rfl⟩
      rw [sets]
      exact targets edge he
    · rw [if_neg same] at at_
      rcases more.eq_ofItems at_ with old | ⟨new, _⟩
      · exact kept s (h.visited id s old (by omega))
      · omega
  · rw [after, if_neg (show ¬next = id by omega)] at at_
    rcases more.eq_ofItems at_ with old | ⟨_, fresh⟩
    · exact h.waiting id s old (by omega)
    · exact fresh

theorem getElem?_itemSets_visitFrom {fuel : Nat} {c : Collection} {next : Nat} {j : StateId}
    {items : ItemSet} (at_ : c.itemSets[j]? = some items) :
    (visitFrom g fuel next c).itemSets[j]? = some items := by
  induction fuel generalizing c next with
  | zero => exact at_
  | succ fuel ih =>
    rw [Collection.visitFrom]
    split
    · exact ih (getElem?_itemSets_visit next at_)
    · exact at_

/-- With fuel for as many visits as there can be item sets, no state is left waiting. -/
theorem Explored.visitFrom (wf : g.WellFormed) {fuel : Nat} {c : Collection} {next : Nat}
    (h : Explored g c next) (bound : next ≤ c.size) (enough : 2 ^ itemCount g ≤ fuel + next) :
    Explored g (visitFrom g fuel next c) (visitFrom g fuel next c).size := by
  induction fuel generalizing c next with
  | zero =>
    have all : next = c.size := by
      have := h.size_le wf
      omega
    subst all
    exact h
  | succ fuel ih =>
    rw [Collection.visitFrom]
    by_cases more : next < c.size
    · rw [if_pos more]
      have grows := size_le_size_visit (g := g) c next
      exact ih (h.visit more) (by omega) (by omega)
    · rw [if_neg more]
      have all : next = c.size := by omega
      subst all
      exact h

/-- The collection holds the initial item set under number zero, its index is right, all item sets
are reached from the initial one, and all states have been visited. -/
structure Built (g : Grammar V) (rule : Rule V) (c : Collection) : Prop extends Sound g c where
  initial : c.itemSets[0]? = some (ItemSet.close g (.ofList [⟨rule.id, 0, g.eos⟩]))
  visited : ∀ (id : Nat) (state : State), c.state? id = some state → Visited g c state

theorem initial_eq (rule : Rule V) :
    initial g rule = ⟨[.ofItems 0 (ItemSet.close g (.ofList [⟨rule.id, 0, g.eos⟩]))],
      [(ItemSet.close g (.ofList [⟨rule.id, 0, g.eos⟩]), 0)]⟩ :=
  rfl

theorem Sound.initial {rule : Rule V} (first : (g.rulesOf g.start).head? = some rule) :
    Sound g (initial g rule) where
  toIndexed := Indexed.empty.add rfl
  reached s hs := by
    have only : s = ItemSet.close g (.ofList [⟨rule.id, 0, g.eos⟩]) := by
      simpa [itemSets, initial_eq, State.ofItems] using hs
    rw [only]
    exact .initial rule first

theorem Explored.initial {rule : Rule V} (first : (g.rulesOf g.start).head? = some rule) :
    Explored g (initial g rule) 0 where
  toSound := .initial first
  visited id _ _ before := absurd before (Nat.not_lt_zero id)
  waiting id state at_ _ := by
    have only := List.mem_of_getElem? at_
    simp only [initial_eq, List.mem_singleton] at only
    rw [only]
    rfl

theorem built_initial (wf : g.WellFormed) {rule : Rule V}
    (first : (g.rulesOf g.start).head? = some rule) :
    Built g rule ((initial g rule).build g) := by
  have explored := (Explored.initial first).visit Nat.one_pos
  have fuel : 2 ^ itemCount g ≤ Nat.pow 2 (itemCount g) + 1 := Nat.le_succ _
  have final := explored.visitFrom wf (size_le_size_visit (initial g rule) 0) fuel
  refine ⟨final.toSound, getElem?_itemSets_visitFrom (getElem?_itemSets_visit 0 rfl),
    fun id state at_ => ?_⟩
  exact final.visited id state at_ (List.getElem?_eq_some_iff.mp at_).1

end Collection

/-- A start rule that passes the check is the only one, and its body is one non-terminal. -/
theorem Grammar.of_checkStart {rule : Rule V} (h : g.checkStart = .ok rule) :
    g.rulesOf g.start = [rule] ∧ ∃ n, rule.body = [.nonTerminal n] := by
  unfold checkStart at h
  split at h
  · cases h
  · rename_i r only
    split at h
    · rename_i n body
      cases h
      exact ⟨only, n, body⟩
    · cases h
  · cases h

theorem Grammar.initialCollection?_eq_ok_iff {c : Collection} :
    g.initialCollection? = .ok c ↔
      ∃ rule, (g.rulesOf g.start).head? = some rule ∧ c = .initial g rule := by
  unfold initialCollection?
  cases g.rulesOf g.start <;> simp [eq_comm]

theorem Grammar.collection?_eq_ok_iff {c : Collection} :
    g.collection? = .ok c ↔
      ∃ rule, g.checkStart = .ok rule ∧ c = (Collection.initial g rule).build g := by
  unfold collection?
  cases g.checkStart <;> simp [bind, Except.bind, pure, Except.pure, eq_comm]

theorem Grammar.of_collection? (wf : g.WellFormed) {c : Collection}
    (h : g.collection? = .ok c) :
    ∃ rule n, g.rulesOf g.start = [rule] ∧ rule.body = [.nonTerminal n] ∧
      Collection.Built g rule c := by
  obtain ⟨rule, checked, rfl⟩ := Grammar.collection?_eq_ok_iff.mp h
  obtain ⟨only, n, body⟩ := g.of_checkStart checked
  exact ⟨rule, n, only, body, Collection.built_initial wf (by rw [only]; rfl)⟩

/-- What is known of the collection of a well-formed grammar with just this start rule. -/
structure Collection.Made (g : Grammar V) (rule : Rule V) (c : Collection) : Prop where
  wf : g.WellFormed
  start : g.rulesOf g.start = [rule]
  built : c.Built g rule

theorem Collection.Made.start_mem {c : Collection} {rule : Rule V} (made : c.Made g rule) :
    rule ∈ g.rulesOf g.start := by
  rw [made.start]
  exact List.mem_singleton.mpr rfl

/-- The start symbol has no other rule than the start rule. -/
theorem Collection.Made.eq_of_head {c : Collection} {rule r : Rule V} (made : c.Made g rule)
    (mem : r ∈ g.rules) (head : r.head = g.start) : r = rule := by
  have among := g.mem_rulesOf.mpr ⟨mem, head⟩
  rw [made.start] at among
  exact List.mem_singleton.mp among

theorem Grammar.exists_collection? (wf : g.WellFormed) {rule : Rule V}
    (checked : g.checkStart = .ok rule) : ∃ c, g.collection? = .ok c ∧ c.Made g rule := by
  obtain ⟨only, _⟩ := g.of_checkStart checked
  exact ⟨_, Grammar.collection?_eq_ok_iff.mpr ⟨rule, checked, rfl⟩, wf, only,
    Collection.built_initial wf (by rw [only]; rfl)⟩

end CanonicalLR
