import CanonicalLR.Closure
import CanonicalLR.Loop
import CanonicalLR.Value
import CanonicalLR.Proofs.CanonicalCollection

/-!
The loops of the generation come to an end for every grammar, and end in what the
bounded searches compute. A pass over the rules that finds something new adds to a set
that stays inside the result; an item is taken from the stack once, and is then one of
the closure; a state is taken from the queue once, and there are only so many item sets.
-/
namespace CanonicalLR

theorem OrderedSet.size_le_of_subset {α : Type} [Ord α] [Std.LawfulEqOrd α] {s t : OrderedSet α}
    (h : ∀ a ∈ s, a ∈ t) : s.size ≤ t.size :=
  s.nodup.length_le_of_subset h

/-! ### Passes over the rules -/

namespace Loop

section

variable {α : Type} [Ord α] [Std.TransOrd α] [Std.LawfulEqOrd α]
  {steps : List (OrderedSet α → List α)}

/-- A pass either finds nothing and changes nothing, or leaves a greater set. -/
theorem foldl_grow (steps : List (OrderedSet α → List α)) (s : OrderedSet α) (found : Bool) :
    (found = false ∧ steps.foldl grow (s, found) = (s, false) ∧
        ∀ step ∈ steps, ∀ b ∈ step s, b ∈ s) ∨
      (steps.foldl grow (s, found)).2 = true ∧ s.size ≤ (steps.foldl grow (s, found)).1.size ∧
        (found = true ∨ s.size < (steps.foldl grow (s, found)).1.size) := by
  induction steps generalizing s found with
  | nil => cases found <;> simp
  | cons step steps ih =>
    rw [List.foldl_cons]
    by_cases same : s.insertMany (step s) = s
    · have idle : grow (s, found) step = (s, found) := by simp [grow, same]
      rw [idle]
      refine (ih s found).imp_left fun kept => ⟨kept.1, kept.2.1, fun t mem => ?_⟩
      rcases List.mem_cons.mp mem with rfl | mem
      · exact OrderedSet.insertMany_eq_self.mp same
      · exact kept.2.2 t mem
    · have grows := OrderedSet.size_lt_size_insertMany same
      have news : grow (s, found) step = (s.insertMany (step s), true) := by
        simp [grow, Nat.ne_of_gt grows]
      rw [news]
      rcases ih (s.insertMany (step s)) true with ⟨no, _⟩ | ⟨yes, more, _⟩
      · cases no
      · exact .inr ⟨yes, by omega, .inr (by omega)⟩

theorem mem_foldl_grow_of_mem {s : OrderedSet α} {found : Bool} {a : α} (h : a ∈ s) :
    a ∈ (steps.foldl grow (s, found)).1 := by
  induction steps generalizing s found with
  | nil => exact h
  | cons step steps ih => exact ih (OrderedSet.mem_insertMany.mpr (.inl h))

theorem foldl_grow_induction {P : α → Prop} {s : OrderedSet α} (found : Bool)
    (start : ∀ a ∈ s, P a)
    (pass : ∀ step ∈ steps, ∀ t : OrderedSet α, (∀ a ∈ t, P a) → ∀ b ∈ step t, P b) :
    ∀ a ∈ (steps.foldl grow (s, found)).1, P a := by
  induction steps generalizing s found with
  | nil => exact start
  | cons step steps ih =>
    refine ih _ (fun a ha => ?_) fun step mem => pass step (List.mem_cons_of_mem _ mem)
    rcases OrderedSet.mem_insertMany.mp ha with ha | ha
    · exact start a ha
    · exact pass step List.mem_cons_self s start a ha

section

variable {start result : OrderedSet α}
  (inside : ∀ step ∈ steps, ∀ t : OrderedSet α, (∀ a ∈ t, a ∈ result) → ∀ b ∈ step t, b ∈ result)
  (least : ∀ t : OrderedSet α, (∀ a ∈ start, a ∈ t) →
    (∀ step ∈ steps, ∀ b ∈ step t, b ∈ t) → ∀ a ∈ result, a ∈ t)
include inside least

/-- On the way from the start to the result there is one pass at most for each value that is still
missing, and one that finds nothing. -/
theorem growing_ends_from {s : OrderedSet α} (holds : ∀ a ∈ start, a ∈ s)
    (below : ∀ a ∈ s, a ∈ result) :
    ∃ n ≤ result.size - s.size + 1, Ends (growing steps) n (s, true) (result, false) := by
  -- a pass may add several values at once, so the induction is on any smaller number still missing
  induction missing : result.size - s.size using Nat.strongRecOn generalizing s with
  | ind room ih =>
    rcases foldl_grow steps s false with ⟨_, stays, closed⟩ | ⟨again, _, grows⟩
    · have same : s = result := OrderedSet.ext fun a => ⟨below a, least s holds closed a⟩
      subst same
      have idle : growing steps (s, true) = some (s, false) := by rw [growing, stays]
      exact ⟨1, by omega, .go idle (.stop rfl)⟩
    · have below' := foldl_grow_induction false below inside
      have size := OrderedSet.size_le_of_subset below'
      have grows := grows.resolve_left Bool.false_ne_true
      obtain ⟨n, few, ends⟩ :=
        ih _ (by omega) (fun a ha => mem_foldl_grow_of_mem (holds a ha)) below' rfl
      refine ⟨n + 1, by omega, .go ?_ ends⟩
      rw [growing, ← again]

/-- The passes end in the least set that holds what the steps give, after one pass at most for each
of its values and one that finds nothing. -/
theorem growing_ends (member : ∀ a ∈ start, a ∈ result) :
    ∃ n ≤ result.size + 1, Ends (growing steps) n (start, true) (result, false) := by
  obtain ⟨n, few, ends⟩ := growing_ends_from inside least (fun _ ha => ha) member
  exact ⟨n, by omega, ends⟩

end

/-- Passes whose steps together give the consequences of a set end in its saturation. -/
theorem growing_ends_saturate [DecidableEq α] {consequences : OrderedSet α → List α} {rounds : Nat}
    {start : OrderedSet α}
    (together : ∀ (t : OrderedSet α) (b : α), b ∈ consequences t ↔ ∃ step ∈ steps, b ∈ step t)
    (mono : ∀ s t : OrderedSet α, (∀ a ∈ s, a ∈ t) → ∀ b ∈ consequences s, b ∈ consequences t)
    (closed : ∀ b ∈ consequences (.saturate consequences rounds start),
      b ∈ OrderedSet.saturate consequences rounds start) :
    ∃ n ≤ (OrderedSet.saturate consequences rounds start).size + 1,
      Ends (growing steps) n (start, true) (.saturate consequences rounds start, false) := by
  refine growing_ends (fun step mem t below b hb => ?_) (fun t holds stays a ha => ?_)
    (fun a ha => OrderedSet.mem_saturate_of_mem ha)
  · exact closed b (mono t _ below b ((together t b).mpr ⟨step, mem, hb⟩))
  · refine OrderedSet.saturate_induction (P := fun a => a ∈ t) holds (fun u below b hb => ?_) ha
    obtain ⟨step, mem, hb⟩ := (together t b).mp (mono u t below b hb)
    exact stays step mem b hb

end

end Loop

/-! ### The analysis -/

namespace Analysis

variable {V : Type} {rules : List (Rule V)} {nullable nullable' : OrderedSet NonTerminal}
  {first first' follow follow' : OrderedSet Fact} {string : List Symbol}

theorem nullableString_mono (h : ∀ n ∈ nullable, n ∈ nullable')
    (all : nullableString nullable string = true) : nullableString nullable' string = true := by
  simp only [nullableString, List.all_eq_true] at all ⊢
  intro x mem
  have := all x mem
  cases x with
  | terminal t => exact this
  | nonTerminal n =>
    simp only [nullableSymbol, decide_eq_true_eq] at this ⊢
    exact h n this

theorem firstOfString_mono (h : ∀ f ∈ first, f ∈ first') {t : Terminal}
    (mem : t ∈ firstOfString nullable first string) : t ∈ firstOfString nullable first' string := by
  induction string with
  | nil => exact mem
  | cons x string ih =>
    cases x with
    | terminal u => exact mem
    | nonTerminal n =>
      unfold firstOfString at mem ⊢
      split
      · rename_i empty
        rw [if_pos empty] at mem
        refine OrderedSet.mem_union.mpr ((OrderedSet.mem_union.mp mem).imp (fun mem => ?_) ih)
        exact Fact.mem_about.mpr (h _ (Fact.mem_about.mp mem))
      · rename_i full
        rw [if_neg full] at mem
        exact Fact.mem_about.mpr (h _ (Fact.mem_about.mp mem))

theorem followFactsOfBody_mono (h : ∀ f ∈ follow, f ∈ follow') {head : NonTerminal} {f : Fact}
    (mem : f ∈ followFactsOfBody nullable first follow head string) :
    f ∈ followFactsOfBody nullable first follow' head string := by
  induction string with
  | nil => exact mem
  | cons x string ih =>
    cases x with
    | terminal u => exact ih mem
    | nonTerminal n =>
      refine List.mem_append.mpr ((List.mem_append.mp mem).imp (fun mem => ?_) ih)
      obtain ⟨t, ht, rfl⟩ := List.mem_map.mp mem
      refine List.mem_map.mpr ⟨t, ?_, rfl⟩
      split at ht
      · rename_i empty
        rw [if_pos empty]
        refine OrderedSet.mem_union.mpr ((OrderedSet.mem_union.mp ht).imp_right fun ht => ?_)
        exact Fact.mem_about.mpr (h _ (Fact.mem_about.mp ht))
      · rename_i full
        rw [if_neg full]
        exact ht

theorem mem_followFactsOfBody_iff {head : NonTerminal} {f : Fact} :
    f ∈ followFactsOfBody nullable first follow head string ↔
      ∃ step ∈ Loop.followStepsOfBody nullable first head string, f ∈ step follow := by
  induction string with
  | nil => simp [followFactsOfBody, Loop.followStepsOfBody]
  | cons x string ih =>
    cases x with
    | terminal t => exact ih
    | nonTerminal n =>
      rw [followFactsOfBody, List.mem_append, ih, Loop.followStepsOfBody]
      simp only [List.mem_cons, exists_eq_or_imp]

open Loop

theorem nullable_ends (rules : List (Rule V)) :
    ∃ n ≤ (nullableOf rules).size + 1,
      Ends (growing (nullableSteps rules)) n (∅, true) (nullableOf rules, false) := by
  refine growing_ends_saturate (fun t b => ?_) (fun s t below b hb => ?_) (nullableOf_closed rules)
  · simp [nullableSteps, nullableHeads, and_assoc]
  · obtain ⟨r, hr, rfl⟩ := List.mem_map.mp hb
    obtain ⟨mem, all⟩ := List.mem_filter.mp hr
    exact List.mem_map_of_mem (List.mem_filter.mpr ⟨mem, nullableString_mono below all⟩)

theorem first_ends (rules : List (Rule V)) :
    ∃ n ≤ (firstOf rules).size + 1,
      Ends (growing (firstSteps rules (nullableOf rules))) n (∅, true) (firstOf rules, false) := by
  refine growing_ends_saturate (fun t b => ?_) (fun s t below b hb => ?_) (firstOf_closed rules)
  · simp [firstSteps, firstFacts]
  · obtain ⟨r, hr, hb⟩ := List.mem_flatMap.mp hb
    obtain ⟨a, ha, rfl⟩ := List.mem_map.mp hb
    exact List.mem_flatMap.mpr ⟨r, hr, List.mem_map.mpr ⟨a, firstOfString_mono below ha, rfl⟩⟩

theorem follow_ends (rules : List (Rule V)) (start : NonTerminal) (eos : Terminal) :
    ∃ n ≤ (followOf rules start eos).size + 1,
      Ends (growing (followSteps rules (nullableOf rules) (firstOf rules))) n
        (.ofList [(start, eos)], true) (followOf rules start eos, false) := by
  refine growing_ends_saturate (fun t b => ?_) (fun s t below b hb => ?_)
    (followOf_closed rules start eos)
  · simp only [followFacts, followSteps, List.mem_flatMap, mem_followFactsOfBody_iff]
    constructor
    · rintro ⟨r, hr, step, mem, hb⟩
      exact ⟨step, ⟨r, hr, mem⟩, hb⟩
    · rintro ⟨step, ⟨r, hr, mem⟩, hb⟩
      exact ⟨r, hr, step, mem, hb⟩
  · obtain ⟨r, hr, hb⟩ := List.mem_flatMap.mp hb
    exact List.mem_flatMap.mpr ⟨r, hr, followFactsOfBody_mono below hb⟩

end Analysis

/-! ### The closure -/

namespace OrderedSet

variable {α : Type} [Ord α] [Std.TransOrd α] [Std.LawfulEqOrd α]

omit [Std.TransOrd α] in
theorem length_insertAscending {a : α} {l : List α} (fresh : a ∉ l) :
    (insertAscending a l).length = l.length + 1 := by
  induction l with
  | nil => rfl
  | cons b l ih =>
    obtain ⟨other, rest⟩ := not_or.mp (mt List.mem_cons.mpr fresh)
    unfold insertAscending
    split
    · rfl
    · rename_i same
      exact absurd (Std.LawfulEqCmp.eq_of_compare same) other
    · rw [List.length_cons, ih rest, List.length_cons]

theorem size_insert {a : α} {s : OrderedSet α} (fresh : a ∉ s) : (s.insert a).size = s.size + 1 :=
  length_insertAscending fresh

end OrderedSet

namespace ItemSet

variable {V : Type} {g : Grammar V} {s : ItemSet} {stack items : List Item}

open Loop

/-- Pushing items adds them to the set, and those that are new to the stack. -/
theorem foldl_push (s : ItemSet) (stack items : List Item) :
    let pushed := items.foldl push (s, stack)
    (∀ i, i ∈ pushed.1 ↔ i ∈ s ∨ i ∈ items) ∧
      (∀ i, i ∈ pushed.2 ↔ i ∈ stack ∨ i ∈ items ∧ i ∉ s) ∧
      pushed.1.size + stack.length = s.size + pushed.2.length := by
  induction items generalizing s stack with
  | nil => simp
  | cons j items ih =>
    rw [List.foldl_cons]
    by_cases old : j ∈ s
    · have idle : push (s, stack) j = (s, stack) := by simp [push, old]
      rw [idle]
      obtain ⟨members, pending, size⟩ := ih s stack
      refine ⟨fun i => ?_, fun i => ?_, size⟩
      · rw [members, List.mem_cons]
        grind
      · rw [pending, List.mem_cons]
        grind
    · have news : push (s, stack) j = (s.insert j, j :: stack) := by simp [push, old]
      rw [news]
      obtain ⟨members, pending, size⟩ := ih (s.insert j) (j :: stack)
      refine ⟨fun i => ?_, fun i => ?_, ?_⟩
      · rw [members, OrderedSet.mem_insert, List.mem_cons]
        grind
      · rw [pending, OrderedSet.mem_insert, List.mem_cons, List.mem_cons]
        grind
      · rw [OrderedSet.size_insert old, List.length_cons] at size
        omega

/-- On the way from a set to its closure the items that are not on the stack any more have all they
call for in the set. -/
structure Closes (g : Grammar V) (start s : ItemSet) (stack : List Item) : Prop where
  holds : ∀ i ∈ start, i ∈ s
  inside : ∀ i ∈ s, i ∈ close g start
  pending : ∀ i ∈ stack, i ∈ s
  done : ∀ i ∈ s, i ∉ stack → ∀ j ∈ i.expansion g, j ∈ s

namespace Closes

variable {start : ItemSet} {i : Item}

theorem initial (s : ItemSet) : Closes g s s s.toList.reverse where
  holds _ hi := hi
  inside _ hi := mem_close_of_mem g hi
  pending _ hi := List.mem_reverse.mp hi
  done _ hi off := absurd (List.mem_reverse.mpr hi) off

theorem size_le (h : Closes g start s stack) : s.size ≤ (close g start).size :=
  OrderedSet.size_le_of_subset h.inside

theorem eq_close (h : Closes g start s []) : s = close g start :=
  OrderedSet.ext fun i =>
    ⟨h.inside i, close_induction g h.holds fun i hi => h.done i hi List.not_mem_nil⟩

/-- It stays so when an item is taken from the stack and what it calls for is pushed. -/
theorem push (h : Closes g start s (i :: stack)) :
    let pushed := (i.expansion g).foldl push (s, stack)
    Closes g start pushed.1 pushed.2 := by
  obtain ⟨members, later, _⟩ := foldl_push s stack (i.expansion g)
  refine ⟨fun j hj => ?_, fun j hj => ?_, fun j hj => ?_, fun j hj off k hk => ?_⟩
  · exact (members j).mpr (.inl (h.holds j hj))
  · rcases (members j).mp hj with hj | hj
    · exact h.inside j hj
    · exact close_closed g (h.inside i (h.pending i List.mem_cons_self)) j hj
  · rcases (later j).mp hj with hj | ⟨hj, _⟩
    · exact (members j).mpr (.inl (h.pending j (List.mem_cons_of_mem i hj)))
    · exact (members j).mpr (.inr hj)
  · by_cases same : j = i
    · exact (members k).mpr (.inr (same ▸ hk))
    · have old : j ∈ s := by
        by_contra new
        exact off ((later j).mpr (.inr ⟨((members j).mp hj).resolve_left new, new⟩))
      refine (members k).mpr (.inl (h.done j old (fun mem => ?_) k hk))
      rcases List.mem_cons.mp mem with rfl | mem
      · exact same rfl
      · exact off ((later j).mpr (.inl mem))

/-- There is one round for each item on the stack and for each that is still missing. -/
theorem ends (h : Closes g start s stack) {n : Nat}
    (left : n + s.size = (close g start).size + stack.length) :
    Ends (closing g) n (s, stack) (close g start, []) := by
  induction n generalizing s stack with
  | zero =>
    cases stack with
    | nil =>
      rw [h.eq_close]
      exact .stop rfl
    | cons i stack =>
      have small := h.size_le
      rw [List.length_cons] at left
      omega
  | succ n ih =>
    cases stack with
    | nil =>
      rw [h.eq_close, List.length_nil] at left
      omega
    | cons i stack =>
      obtain ⟨_, _, size⟩ := foldl_push s stack (i.expansion g)
      rw [List.length_cons] at left
      exact .go rfl (ih h.push (by omega))

end Closes

/-- The closing of a set ends in its closure, and takes each item of that from the stack once. -/
theorem closing_ends (g : Grammar V) (s : ItemSet) :
    Ends (closing g) (close g s).size (s, s.toList.reverse) (close g s, []) :=
  (Closes.initial s).ends (by simp [OrderedSet.size])

end ItemSet

/-! ### The collection -/

namespace Collection

variable {V : Type} {g : Grammar V} {c : Collection}

open Loop

theorem size_le_size_visitFrom (c : Collection) (fuel next : Nat) :
    c.size ≤ (visitFrom g fuel next c).size := by
  induction fuel generalizing c next with
  | zero => exact Nat.le_refl _
  | succ fuel ih =>
    rw [visitFrom]
    split
    · exact (size_le_size_visit c next).trans (ih _ _)
    · exact Nat.le_refl _

theorem size_le_size_build (g : Grammar V) (c : Collection) : c.size ≤ (c.build g).size :=
  (size_le_size_visit c 0).trans (size_le_size_visitFrom _ _ _)

theorem Sound.visitFrom (h : Sound g c) {fuel : Nat} {next : Nat} :
    Sound g (visitFrom g fuel next c) := by
  induction fuel generalizing c next with
  | zero => exact h
  | succ fuel ih =>
    rw [Collection.visitFrom]
    split
    · exact ih (h.visit next)
    · exact h

theorem Sound.build (h : Sound g c) : Sound g (c.build g) := (h.visit 0).visitFrom

theorem Sound.rebuild (h : Sound g c) (times : Nat) : Sound g (c.rebuild g times) := by
  induction times generalizing c with
  | zero => exact h
  | succ times ih => exact ih h.build

/-- With the states that have not been visited in the queue, the exploring visits each of them and
each that comes up, once. -/
theorem exploring_ends_visitFrom (wf : g.WellFormed) (sound : Sound g c) {fuel next : Nat}
    (bound : next ≤ c.size) (enough : 2 ^ itemCount g ≤ fuel + next) :
    Ends (exploring g) ((visitFrom g fuel next c).size - next)
      (c, List.range' next (c.size - next)) (visitFrom g fuel next c, []) := by
  induction fuel generalizing c next with
  | zero =>
    -- there cannot be more states than item sets, so none is left in the queue
    have all : next = c.size := by
      have := sound.size_le wf
      omega
    rw [visitFrom, all, Nat.sub_self]
    exact .stop rfl
  | succ fuel ih =>
    rw [visitFrom]
    by_cases more : next < c.size
    · have grows := size_le_size_visit (g := g) c next
      have later := size_le_size_visitFrom (g := g) (c.visit g next) fuel (next + 1)
      have count : (visitFrom g fuel (next + 1) (c.visit g next)).size - next =
          (visitFrom g fuel (next + 1) (c.visit g next)).size - (next + 1) + 1 := by omega
      have queue : List.range' next (c.size - next) =
          next :: List.range' (next + 1) (c.size - (next + 1)) := by
        rw [← List.range'_succ]
        congr 1
        omega
      rw [if_pos more, count, queue]
      refine .go ?_ (ih (sound.visit next) (by omega) (by omega))
      have start : c.size = next + 1 + (c.size - (next + 1)) := by omega
      simp only [exploring, Option.some.injEq, Prod.mk.injEq, true_and]
      nth_rewrite 2 [start]
      rw [List.range'_append_1]
      congr 1
      omega
    · have all : next = c.size := by omega
      rw [if_neg more, all, Nat.sub_self]
      exact .stop rfl

/-- The exploring ends in the collection that is built, when it has visited the initial state and
each state that is new. -/
theorem exploring_ends (wf : g.WellFormed) (sound : Sound g c) :
    Ends (exploring g) ((c.build g).size - c.size + 1) (c, [0]) (c.build g, []) :=
  .go rfl (exploring_ends_visitFrom wf (sound.visit 0) (size_le_size_visit c 0)
    (Nat.le_add_right _ _))

end Collection

/-- Every loop of the generation comes to an end, whatever the rules, and ends in what the grammar's
analysis, the closure and the collection are: the passes over the rules for what is nullable, for
what starts and for what follows a non-terminal, the closing of any set of items, and the exploring
of the collection, also where this is built again. -/
theorem Grammar.generation_ends [SemanticValue V] {b : Builder V} (authored : b.Authored) :
    (∃ n ≤ b.build.analysis.nullable.size + 1,
      Loop.Ends (Loop.growing (Loop.nullableSteps b.build.rules)) n (∅, true)
        (b.build.analysis.nullable, false)) ∧
    (∃ n ≤ b.build.analysis.first.size + 1,
      Loop.Ends (Loop.growing (Loop.firstSteps b.build.rules b.build.analysis.nullable)) n (∅, true)
        (b.build.analysis.first, false)) ∧
    (∃ n ≤ b.build.analysis.follow.size + 1,
      Loop.Ends
        (Loop.growing (Loop.followSteps b.build.rules b.build.analysis.nullable
          b.build.analysis.first)) n
        (.ofList [(b.build.start, b.build.eos)], true) (b.build.analysis.follow, false)) ∧
    (∀ s : ItemSet, Loop.Ends (Loop.closing b.build) (ItemSet.close b.build s).size
      (s, s.toList.reverse) (ItemSet.close b.build s, [])) ∧
    (∀ initial, b.build.initialCollection? = .ok initial → ∀ times c,
      c = initial.rebuild b.build times →
        Loop.Ends (Loop.exploring b.build) ((c.build b.build).size - c.size + 1) (c, [0])
          (c.build b.build, [])) ∧
    ∀ c, b.build.collection? = .ok c → ∃ initial, b.build.initialCollection? = .ok initial ∧
      Loop.Ends (Loop.exploring b.build) c.size (initial, [0]) (c, []) := by
  have wf := authored.wellFormed.build
  refine ⟨Analysis.nullable_ends _, Analysis.first_ends _, Analysis.follow_ends _ _ _,
    ItemSet.closing_ends b.build, fun initial found times c same => ?_, fun c found => ?_⟩
  · obtain ⟨rule, first, rfl⟩ := Grammar.initialCollection?_eq_ok_iff.mp found
    rw [same]
    exact Collection.exploring_ends wf ((Collection.Sound.initial first).rebuild times)
  · obtain ⟨rule, checked, rfl⟩ := Grammar.collection?_eq_ok_iff.mp found
    obtain ⟨only, _⟩ := Grammar.of_checkStart checked
    have first : (b.build.rulesOf b.build.start).head? = some rule := by rw [only]; rfl
    refine ⟨_, Grammar.initialCollection?_eq_ok_iff.mpr ⟨rule, first, rfl⟩, ?_⟩
    have ends := Collection.exploring_ends wf (.initial first)
    have one : (Collection.initial b.build rule).size = 1 := rfl
    have grows : 1 ≤ _ := Collection.size_le_size_build b.build (.initial b.build rule)
    rwa [one, Nat.sub_add_cancel grows] at ends

namespace Tangle

/-- A grammar with left recursion, a cycle, non-terminals that derive nothing but the empty string,
and one that derives nothing at all. -/
def builder : Builder Value :=
  Command.runAll
    [.terminal "a", .nonTerminal "E", .nonTerminal "F", .nonTerminal "U", .setStart (.name "E") {},
      .rule (.name "E") [.name "E", .name "F"] {}, .rule (.name "E") [] {},
      .rule (.name "F") [.name "E"] {}, .rule (.name "F") [.name "U"] {},
      .rule (.name "U") [.name "a", .name "U"] {}]
    ⟨⟨⟨0⟩, [⟨Builder.defaultStart, .start⟩, ⟨Builder.defaultEos, .eos⟩]⟩, []⟩

theorem authored : builder.Authored :=
  ⟨⟨0⟩, Builder.defaultStart, Builder.defaultEos, _, _, rfl, rfl⟩

set_option maxRecDepth 2000 in
theorem checked :
    builder.build.checkStart = .ok ⟨{}, 0, builder.build.start, [.nonTerminal ⟨⟨0⟩, 3⟩]⟩ := rfl

/-- The start symbol, `E` and `F` derive the empty string. -/
def nullable : OrderedSet NonTerminal := .ofList [⟨⟨0⟩, 0⟩, ⟨⟨0⟩, 3⟩, ⟨⟨0⟩, 4⟩]

theorem tangle_ends :
    (∃ n ≤ 4, Loop.Ends (Loop.growing (Loop.nullableSteps builder.build.rules)) n (∅, true)
      (nullable, false)) ∧
    ∃ c initial, builder.build.collection? = .ok c ∧
      builder.build.initialCollection? = .ok initial ∧
      Loop.Ends (Loop.exploring builder.build) c.size (initial, [0]) (c, []) := by
  obtain ⟨empty, _, _, _, _, explored⟩ := Grammar.generation_ends authored
  have same : builder.build.analysis.nullable = nullable := by decide +kernel
  rw [same] at empty
  obtain ⟨c, found, _⟩ := Grammar.exists_collection? authored.wellFormed.build checked
  obtain ⟨initial, first, ends⟩ := explored c found
  exact ⟨empty, c, initial, found, first, ends⟩

end Tangle

end CanonicalLR
