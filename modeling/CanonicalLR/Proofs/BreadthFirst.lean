import CanonicalLR.Proofs.ViablePaths
import CanonicalLR.Value

/-!
The canonical collection as a whole: its states are just the item sets that can be
reached, each once, its transitions are just the moves over symbols, and the states are
numbered in the order in which a breadth-first search comes to them.
-/
namespace CanonicalLR

variable {V : Type} {g : Grammar V}

/-! ### Symbols before the dot -/

namespace ItemSet

variable {s s' : ItemSet} {x x' : Symbol} {i : Item}

/-- In a set reached over a symbol, that symbol stands before every dot but those at the start. -/
theorem symbol_before_of_goto (h : i ∈ s.goto g x) (moved : i.position ≠ 0) :
    (g.body i.rule)[i.position - 1]? = some x := by
  refine goto_induction (P := fun i => i.position ≠ 0 → (g.body i.rule)[i.position - 1]? = some x)
    (fun j hj next _ => next) (fun j _ k called far => ?_) h moved
  obtain ⟨_, _, _, _, _, _, rfl⟩ := (j.mem_expansion g).mp called
  exact absurd rfl far

/-- A set that is reached over a symbol has an item with the dot behind that symbol. -/
theorem exists_moved_of_goto (h : i ∈ s.goto g x) : ∃ j ∈ s.goto g x, j.position ≠ 0 := by
  obtain ⟨j, hj, next⟩ := Collection.exists_item_of_goto h
  exact ⟨_, mem_goto_of_mem hj next, Nat.succ_ne_zero _⟩

theorem eq_of_goto_eq (h : i ∈ s.goto g x) (same : s.goto g x = s'.goto g x') : x = x' := by
  obtain ⟨j, hj, moved⟩ := exists_moved_of_goto h
  have before := symbol_before_of_goto hj moved
  have before' := symbol_before_of_goto (same ▸ hj) moved
  exact Option.some.inj (before.symm.trans before')

theorem position_of_close {seed : Item} (initial : seed.position = 0)
    (h : i ∈ ItemSet.close g (.ofList [seed])) : i.position = 0 := by
  refine close_induction g (P := fun i => i.position = 0) (fun j hj => ?_)
    (fun j _ k called => ?_) h
  · have only : j = seed := by simpa using hj
    rw [only, initial]
  · obtain ⟨_, _, _, _, _, _, rfl⟩ := (j.mem_expansion g).mp called
    rfl

theorem Canonical.exists_mem (h : Canonical g s) : ∃ i, i ∈ s := by
  cases h with
  | initial rule _ => exact ⟨⟨rule.id, 0, g.eos⟩, mem_close_of_mem g (by simp)⟩
  | goto _ _ i mem => exact ⟨i, mem⟩

end ItemSet

/-! ### The order of symbols -/

/-- In one grammar the order of symbols is terminals first, then by place. -/
theorem Symbol.lt_of_compare {x y : Symbol} (same : x.grammar = y.grammar)
    (h : compare x y = .lt) : x.rank < y.rank ∨ x.rank = y.rank ∧ x.index < y.index := by
  have h : (compare x.rank y.rank).then
      ((compare x.grammar.number y.grammar.number).then (compare x.index y.index)) = .lt := h
  rw [same] at h
  simpa [Ordering.then_eq_lt, Nat.compare_eq_lt] using h

theorem Grammar.WellFormed.grammar_of_mem_body (wf : g.WellFormed) {r : Rule V} (mem : r ∈ g.rules)
    {x : Symbol} (hx : x ∈ r.body) : x.grammar = g.id := by
  obtain ⟨d, _, same⟩ := SymbolTable.owns_iff_declared.mp (wf.body_owned r mem x hx)
  rw [← same, SymbolTable.grammar_handle]
  rfl

namespace Collection

variable {c c' : Collection} {rule : Rule V}

/-! ### The order of discovery -/

theorem size_intern (indexed : c.Indexed) {items : ItemSet} {id : StateId}
    (h : c.intern items = (id, c')) :
    id < c.size ∧ c' = c ∨ id = c.size ∧ c'.size = c.size + 1 := by
  rcases intern_cases h with ⟨found, same⟩ | ⟨_, new, rfl⟩
  · have bound := (List.getElem?_eq_some_iff.mp (indexed.find?_eq_some_iff.mp found)).1
    exact .inl ⟨by simpa using bound, same⟩
  · exact .inr ⟨new, by simp [size]⟩

/-- If the states have come up in the order of their numbers, they still have when another set is
interned. -/
theorem eraseDups_intern {seen : List StateId} (ordered : seen.eraseDups = List.range c.size)
    (indexed : c.Indexed) {items : ItemSet} {id : StateId} (h : c.intern items = (id, c')) :
    (seen ++ [id]).eraseDups = List.range c'.size := by
  have known : id ∈ seen ↔ id < c.size := by
    rw [← List.mem_eraseDups, ordered, List.mem_range]
  rw [List.eraseDups_append, ordered]
  rcases size_intern indexed h with ⟨old, rfl⟩ | ⟨rfl, grown⟩
  · simp [List.removeAll, known.mpr old]
  · have fresh : c.size ∉ seen := fun mem => Nat.lt_irrefl _ (known.mp mem)
    simp [List.removeAll, fresh, grown, List.range_succ, List.eraseDups_cons]

theorem eraseDups_internAll {items : ItemSet} {symbols : List Symbol}
    {edges : List (Symbol × StateId)} {seen : List StateId}
    (ordered : seen.eraseDups = List.range c.size) (indexed : c.Indexed)
    (h : internAll g items symbols c = (edges, c')) :
    (seen ++ edges.map Prod.snd).eraseDups = List.range c'.size := by
  induction symbols generalizing c edges seen with
  | nil =>
    cases h
    simpa using ordered
  | cons x symbols ih =>
    rcases hi : c.intern (items.goto g x) with ⟨target, middle⟩
    rcases hr : internAll g items symbols middle with ⟨rest, last⟩
    simp only [internAll, hi, hr] at h
    cases h
    have more := (continues_intern hi).indexed indexed
    simpa using ih (eraseDups_intern ordered indexed hi) more hr

/-- Where the states from a number on have no transitions, the targets are those of the others. -/
theorem targets_eq_take {next : Nat}
    (bare : ∀ (id : Nat) (state : State), c.state? id = some state → next ≤ id →
      state.transitions = []) :
    c.targets = (c.states.take next).flatMap fun state => state.transitions.map Prod.snd := by
  have late : ((c.states.drop next).flatMap fun state => state.transitions.map Prod.snd) = [] := by
    refine List.flatMap_eq_nil_iff.mpr fun state mem => ?_
    obtain ⟨k, hk⟩ := List.mem_iff_getElem?.mp mem
    rw [List.getElem?_drop] at hk
    rw [bare _ state hk (Nat.le_add_right _ _)]
    rfl
  have split := List.take_append_drop next c.states
  rw [targets, ← split, List.flatMap_append, late, List.append_nil, split]

theorem Explored.bare {next : Nat} (h : Explored g c next) (id : Nat) (state : State)
    (hs : c.state? id = some state) (later : next ≤ id) : state.transitions = [] := by
  rw [h.waiting id state hs later]
  rfl

/-- A visit adds the targets of one more state. -/
theorem Explored.exists_targets_visit {next : Nat} (h : Explored g c next) (bound : next < c.size) :
    ∃ (items : ItemSet) (symbols : List Symbol) (edges : List (Symbol × StateId)) (c' : Collection),
      internAll g items symbols c = (edges, c') ∧ (c.visit g next).size = c'.size ∧
      (c.visit g next).targets = c.targets ++ edges.map Prod.snd := by
  obtain ⟨state, hs⟩ : ∃ state, c.state? next = some state :=
    ⟨_, List.getElem?_eq_getElem bound⟩
  rcases hi : internAll g state.items (state.items.nextSymbols g).toList c with ⟨edges, c'⟩
  have after := state?_visit hs hi
  have more := continues_internAll hi
  have size : (c.visit g next).size = c'.size := by
    simp [Collection.visit, hs, hi, Collection.size]
  have front : (c.visit g next).states.take next = c.states.take next := by
    refine List.ext_getElem? fun id => ?_
    rcases Nat.lt_or_ge id next with old | new
    · obtain ⟨before, hb⟩ : ∃ before, c.state? id = some before :=
        ⟨_, List.getElem?_eq_getElem (Nat.lt_trans old bound)⟩
      have kept : (c.visit g next).state? id = some before := by
        rw [after, if_neg (Nat.ne_of_gt old)]
        exact more.state? hb
      rw [List.getElem?_take_of_lt old, List.getElem?_take_of_lt old]
      exact kept.trans hb.symm
    · rw [List.getElem?_take_eq_none new, List.getElem?_take_eq_none new]
  have here := after next
  rw [if_pos rfl, Collection.state?] at here
  refine ⟨_, _, edges, c', hi, size, ?_⟩
  rw [targets_eq_take (h.visit bound).bare, targets_eq_take h.bare, List.take_add_one, here,
    front]
  simp

/-- The states are numbered in breadth-first order of discovery: on the list of the initial state
and then, state after state, of the targets of its transitions, the numbers come up in ascending
order. -/
def BreadthFirst (c : Collection) : Prop := (0 :: c.targets).eraseDups = List.range c.size

instance (c : Collection) : Decidable c.BreadthFirst :=
  inferInstanceAs (Decidable ((0 :: c.targets).eraseDups = List.range c.size))

theorem BreadthFirst.visit {next : Nat} (ordered : c.BreadthFirst) (h : Explored g c next)
    (bound : next < c.size) : (c.visit g next).BreadthFirst := by
  obtain ⟨items, symbols, edges, c', interned, size, targets⟩ := h.exists_targets_visit bound
  have later := eraseDups_internAll ordered h.toIndexed interned
  rw [BreadthFirst, targets, size, ← later, List.cons_append]

theorem BreadthFirst.visitFrom {fuel : Nat} {next : Nat} (ordered : c.BreadthFirst)
    (h : Explored g c next) : (visitFrom g fuel next c).BreadthFirst := by
  induction fuel generalizing c next with
  | zero => exact ordered
  | succ fuel ih =>
    rw [Collection.visitFrom]
    by_cases more : next < c.size
    · rw [if_pos more]
      exact ih (ordered.visit h more) (h.visit more)
    · rw [if_neg more]
      exact ordered

theorem breadthFirst_build {rule : Rule V} (first : (g.rulesOf g.start).head? = some rule) :
    ((initial g rule).build g).BreadthFirst := by
  have start := Explored.initial first
  have bound : 0 < (initial g rule).size := Nat.one_pos
  have ordered : (initial g rule).BreadthFirst := rfl
  exact (ordered.visit start bound).visitFrom (start.visit bound)

/-! ### The canonical collection -/

/-- The collection is the canonical one of the grammar. -/
structure IsCanonical (g : Grammar V) (c : Collection) : Prop where
  /-- The item sets of the states are just those reached from the initial one. -/
  sets : ∀ s, s ∈ c.itemSets ↔ ItemSet.Canonical g s
  nonempty : ∀ s ∈ c.itemSets, ∃ i, i ∈ s
  distinct : c.itemSets.Nodup
  ids : ∀ id state, c.state? id = some state → state.id = id
  /-- The index gives the number of the state with these items, and no number if there is none. -/
  find : ∀ s id, c.find? s = some id ↔ (c.state? id).map State.items = some s
  /-- A state goes on over just those symbols that one of its items has after the dot. -/
  goes : ∀ id state, c.state? id = some state → ∀ x,
    (∃ target, c.target? id x = some target) ↔ ∃ i ∈ state.items, i.symbol? g = some x
  goto : ∀ id state x target, c.state? id = some state → c.target? id x = some target →
    (c.state? target).map State.items = some (state.items.goto g x)
  /-- Nothing leads back to the initial state. -/
  initial : ∀ id x, c.target? id x ≠ some 0
  /-- A state is gone to over one symbol only. -/
  entry : ∀ id id' x x' target, c.target? id x = some target → c.target? id' x' = some target →
    x = x'
  /-- The transitions of a state are in order: terminals before non-terminals, then by place. -/
  symbols : ∀ state ∈ c.states, (state.transitions.map Prod.fst).Pairwise fun x y =>
    x.rank < y.rank ∨ x.rank = y.rank ∧ x.index < y.index
  order : c.BreadthFirst

section

variable (built : c.Built g rule)
include built

theorem Built.find?_eq_some_iff {s : ItemSet} {id : StateId} :
    c.find? s = some id ↔ (c.state? id).map State.items = some s := by
  have at_ : (c.state? id).map State.items = c.itemSets[id]? := by
    simp [itemSets, state?]
  rw [at_]
  exact built.toIndexed.find?_eq_some_iff

theorem Built.isCanonical (wf : g.WellFormed) (first : (g.rulesOf g.start).head? = some rule)
    (ordered : c.BreadthFirst) : c.IsCanonical g where
  sets s := by
    refine ⟨built.reached s, fun h => ?_⟩
    obtain ⟨_, _, _, _, here⟩ := built.exists_path_of_canonical first h
    exact List.mem_of_getElem? here
  nonempty s mem := (built.reached s mem).exists_mem
  distinct := built.distinct
  ids _ _ hs := built.id_eq hs
  find _ _ := built.find?_eq_some_iff
  goes id state hs x := by
    constructor
    · rintro ⟨target, edge⟩
      obtain ⟨state', hs', next⟩ := built.exists_item_of_target? edge
      cases hs.symm.trans hs'
      exact next
    · rintro ⟨i, hi, next⟩
      exact built.exists_target hs hi next
  goto id state x target hs edge := by
    obtain ⟨_, state', hs', ht, items⟩ := built.of_target? edge
    cases hs.symm.trans hs'
    rw [ht, Option.map_some, items]
  initial id x edge := by
    -- in the initial state all dots are at the start, but one has just been moved
    obtain ⟨state, _, hs, ht, items⟩ := built.of_target? edge
    obtain ⟨_, hs', i, hi, next⟩ := built.exists_item_of_target? edge
    cases hs.symm.trans hs'
    obtain ⟨_, ht', close⟩ := getElem?_itemSets.mp built.initial
    cases ht.symm.trans ht'
    have moved := ItemSet.mem_goto_of_mem hi next
    rw [← items, close] at moved
    exact Nat.succ_ne_zero _ (ItemSet.position_of_close rfl moved)
  entry id id' x x' target edge edge' := by
    obtain ⟨state, _, hs, ht, items⟩ := built.of_target? edge
    obtain ⟨_, hs', i, hi, next⟩ := built.exists_item_of_target? edge
    cases hs.symm.trans hs'
    obtain ⟨_, _, _, ht', items'⟩ := built.of_target? edge'
    cases ht.symm.trans ht'
    exact ItemSet.eq_of_goto_eq (ItemSet.mem_goto_of_mem hi next) (items.symm.trans items')
  symbols state mem := by
    obtain ⟨id, hs⟩ := List.mem_iff_getElem?.mp mem
    rw [(built.visited id state hs).keys]
    refine (state.items.nextSymbols g).ascending.imp_of_mem fun {x y} hx hy lt => ?_
    have home {z : Symbol} (hz : z ∈ state.items.nextSymbols g) : z.grammar = g.id := by
      obtain ⟨i, _, next⟩ := ItemSet.mem_nextSymbols.mp hz
      obtain ⟨r, mem, inside⟩ := g.exists_rule_of_mem_body (List.mem_of_getElem? next)
      exact wf.grammar_of_mem_body mem inside
    exact Symbol.lt_of_compare ((home hx).trans (home hy).symm) lt
  order := ordered

end

end Collection

/-- Whatever the form of its start rules, the first of them gives every grammar its canonical
collection. -/
theorem Grammar.build_isCanonical [SemanticValue V] {b : Builder V} (authored : b.Authored)
    {c : Collection} (initial : b.build.initialCollection? = .ok c) :
    (c.build b.build).IsCanonical b.build := by
  have wf := authored.wellFormed.build
  obtain ⟨rule, first, rfl⟩ := Grammar.initialCollection?_eq_ok_iff.mp initial
  exact (Collection.built_initial wf first).isCanonical wf first
    (Collection.breadthFirst_build first)

namespace SecondStart

/-- A second start rule, which is met only inside the first. -/
def builder : Builder Value :=
  Command.runAll
    [.terminal "a", .terminal "b", .nonTerminal "A", .setStart (.name "A") {},
      .rule (.name Builder.defaultStart) [.name "b"] {},
      .rule (.name "A") [.name "a", .name Builder.defaultStart] {}]
    ⟨⟨⟨0⟩, [⟨Builder.defaultStart, .start⟩, ⟨Builder.defaultEos, .eos⟩]⟩, []⟩

theorem authored : builder.Authored :=
  ⟨⟨0⟩, Builder.defaultStart, Builder.defaultEos, _, _, rfl, rfl⟩

/-- The item with the dot at this place of the rule, before the end of input. -/
def item (rule : RuleId) (position : Nat) : Item := ⟨rule, position, builder.build.eos⟩

def letter : Symbol := .terminal ⟨⟨0⟩, 2⟩

/-- The start rule would not pass the check, but a collection can be built all the same. Over the
letter the initial state goes on to the next one and that to itself, and this is the state that the
index has for its items. -/
theorem unchecked_isCanonical :
    builder.build.checkStart = .error (.manyRules 2) ∧
      ∃ c, builder.build.initialCollection? = .ok c ∧
        (c.build builder.build).IsCanonical builder.build ∧
        (c.build builder.build).size = 5 ∧
        (c.build builder.build).target? 0 letter = some 1 ∧
        (c.build builder.build).target? 1 letter = some 1 ∧
        (c.build builder.build).find? (.ofList [item 0 0, item 1 0, item 2 0, item 2 1]) = some 1 ∧
        (c.build builder.build).find? (.ofList [item 1 0]) = none :=
  ⟨rfl, _, rfl, Grammar.build_isCanonical authored rfl, by decide +kernel, by decide +kernel,
    by decide +kernel, by decide +kernel, by decide +kernel⟩

end SecondStart

end CanonicalLR
