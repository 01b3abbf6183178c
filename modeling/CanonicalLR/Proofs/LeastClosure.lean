import CanonicalLR.Proofs.GenerationEnds

/-!
The closure of an item set is the least set that holds it together with all that its
items call for. So closing once more changes nothing, more items have a greater closure,
a union is closed part by part, and it makes no difference in which order the items are
taken from the stack.
-/
namespace CanonicalLR

variable {V : Type} {g : Grammar V}

namespace ItemSet

/-- Where an item has a non-terminal after its dot, the set has all rules of that, each with the dot
in front and under every terminal that starts the rest of the body with the lookahead behind it. -/
def Closed (g : Grammar V) (s : ItemSet) : Prop :=
  ∀ rule ∈ g.rules, ∀ before n after a, rule.body = before ++ .nonTerminal n :: after →
    (⟨rule.id, before.length, a⟩ : Item) ∈ s →
      ∀ called ∈ g.rulesOf n, ∀ b ∈ g.firstWith after a, (⟨called.id, 0, b⟩ : Item) ∈ s

/-- A set is closed just if it holds what its items call for. -/
theorem closed_iff (wf : g.WellFormed) {s : ItemSet} :
    s.Closed g ↔ ∀ i ∈ s, ∀ j ∈ i.expansion g, j ∈ s := by
  constructor
  · intro closed i hi j hj
    obtain ⟨n, next, called, among, b, hb, rfl⟩ := (i.mem_expansion g).mp hj
    have inner := Item.position_lt_of_symbol? next
    have split := Item.body_eq_of_symbol? next
    have place : ((g.body i.rule).take i.position).length = i.position := by
      rw [List.length_take]
      omega
    cases found : g.rule? i.rule with
    | none =>
      have empty : g.body i.rule = [] := by simp [Grammar.body, found]
      simp [empty] at inner
    | some rule =>
      obtain ⟨mem, number⟩ := wf.mem_of_rule? found
      have body : g.body i.rule = rule.body := by simp [Grammar.body, found]
      have at_ : (⟨rule.id, ((g.body i.rule).take i.position).length, i.lookahead⟩ : Item) ∈ s := by
        rw [place, number]
        exact hi
      exact closed rule mem _ n _ i.lookahead (body ▸ split) at_ called among b hb
  · intro calls rule mem before n after a body hi called among b hb
    have next : Item.symbol? g ⟨rule.id, before.length, a⟩ = some (.nonTerminal n) := by
      simp [Item.symbol?, wf.body_of_mem mem, body]
    have rest : Item.remainder g ⟨rule.id, before.length, a⟩ = after := by
      simp [Item.remainder, wf.body_of_mem mem, body]
    apply calls _ hi
    rw [Item.mem_expansion, rest]
    exact ⟨n, next, called, among, b, hb, rfl⟩

/-! ### The laws of a closure -/

variable {s t : ItemSet}

theorem close_subset (holds : ∀ i ∈ s, i ∈ t) (closed : ∀ i ∈ t, ∀ j ∈ i.expansion g, j ∈ t) :
    ∀ i ∈ s.close g, i ∈ t :=
  fun _ hi => close_induction g holds closed hi

theorem close_mono (more : ∀ i ∈ s, i ∈ t) : ∀ i ∈ s.close g, i ∈ t.close g :=
  close_subset (fun i hi => mem_close_of_mem g (more i hi)) fun _ hi => close_closed g hi

theorem close_close (g : Grammar V) (s : ItemSet) : (s.close g).close g = s.close g :=
  OrderedSet.ext fun i =>
    ⟨close_subset (fun _ hi => hi) (fun _ hi => close_closed g hi) i, mem_close_of_mem g⟩

/-- What two sets call for together each calls for alone. -/
theorem close_union (g : Grammar V) (s t : ItemSet) :
    (s ∪ t).close g = s.close g ∪ t.close g := by
  apply OrderedSet.ext
  intro i
  constructor
  · apply close_subset
    · intro j hj
      rw [OrderedSet.mem_union] at hj ⊢
      exact hj.imp (mem_close_of_mem g) (mem_close_of_mem g)
    · intro j hj k hk
      rw [OrderedSet.mem_union] at hj ⊢
      exact hj.imp (fun h => close_closed g h k hk) fun h => close_closed g h k hk
  · intro hi
    cases OrderedSet.mem_union.mp hi with
    | inl hi => exact close_mono (fun j hj => OrderedSet.mem_union.mpr (.inl hj)) i hi
    | inr hi => exact close_mono (fun j hj => OrderedSet.mem_union.mpr (.inr hj)) i hi

end ItemSet

/-! ### The order in which items are taken -/

namespace Loop

/-- So many of the waiting items have been taken, any one of them each time, and what it calls for
has been pushed. -/
inductive Takes (g : Grammar V) : Nat → ItemSet × List Item → ItemSet × List Item → Prop where
  | none (state : ItemSet × List Item) : Takes g 0 state state
  | take {n : Nat} {s : ItemSet} {waiting rest : List Item} {i : Item}
    {state : ItemSet × List Item} (one : waiting.Perm (i :: rest))
    (later : Takes g n ((i.expansion g).foldl push (s, rest)) state) :
    Takes g (n + 1) (s, waiting) state

/-- To take the item on top of the stack each time is one of the orders. -/
theorem Takes.of_ends {n : Nat} {state state' : ItemSet × List Item}
    (ends : Ends (closing g) n state state') : Takes g n state state' := by
  induction ends with
  | stop => exact .none _
  | @go n state middle state' next rest ih =>
    obtain ⟨s, waiting⟩ := state
    cases waiting with
    | nil => cases next
    | cons i waiting =>
      cases next
      exact .take (List.Perm.refl _) ih

end Loop

namespace ItemSet

open Loop

variable {start s : ItemSet} {waiting rest : List Item}

theorem Closes.perm (h : Closes g start s waiting) (same : waiting.Perm rest) :
    Closes g start s rest where
  holds := h.holds
  inside := h.inside
  pending i hi := h.pending i (same.mem_iff.mpr hi)
  done i hi off := h.done i hi (mt same.mem_iff.mp off)

/-- Each item that is taken is one more in the set that does not wait any longer. -/
theorem Closes.takes {state state' : ItemSet × List Item} {n : Nat}
    (h : Closes g start state.1 state.2) (takes : Takes g n state state') :
    Closes g start state'.1 state'.2 ∧
      state'.1.size + state.2.length = state.1.size + n + state'.2.length := by
  induction takes with
  | none => exact ⟨h, rfl⟩
  | @take n s waiting rest i state one later ih =>
    obtain ⟨kept, count⟩ := ih (h.perm one).push
    obtain ⟨_, _, size⟩ := foldl_push s rest (i.expansion g)
    have length := one.length_eq
    rw [List.length_cons] at length
    refine ⟨kept, ?_⟩
    simp only at count ⊢
    omega

/-- In whatever order the items are taken, no more can be taken than the closure has, and when none
is left the set is the closure. -/
theorem close_of_takes {c : ItemSet} {n : Nat} (order : waiting.Perm s.toList)
    (takes : Takes g n (s, waiting) (c, rest)) :
    n + rest.length ≤ (s.close g).size ∧ (rest = [] → c = s.close g) := by
  have begun := (Closes.initial (g := g) s).perm ((List.reverse_perm _).trans order.symm)
  obtain ⟨kept, count⟩ := begun.takes takes
  have small := kept.size_le
  have length : waiting.length = s.size := order.length_eq
  simp only at count small
  constructor
  · omega
  · intro empty
    subst empty
    exact kept.eq_close

end ItemSet

/-- The closure of an item set is the least closed set that holds it, and the closing that takes
items from a stack ends in it. So it is closed itself, grows with the set, and is that of the parts
together; and closings that take the items in any other order come to nothing else. -/
theorem Grammar.closure_least [SemanticValue V] {b : Builder V} (authored : b.Authored) :
    (∀ s : ItemSet,
      Loop.Ends (Loop.closing b.build) (s.close b.build).size (s, s.toList.reverse)
        (s.close b.build, []) ∧
      (∀ i ∈ s, i ∈ s.close b.build) ∧ (s.close b.build).Closed b.build ∧
      ∀ t : ItemSet, (∀ i ∈ s, i ∈ t) → t.Closed b.build → ∀ i ∈ s.close b.build, i ∈ t) ∧
    (∀ s : ItemSet, (s.close b.build).close b.build = s.close b.build) ∧
    (∀ s t : ItemSet, (∀ i ∈ s, i ∈ t) → ∀ i ∈ s.close b.build, i ∈ t.close b.build) ∧
    (∀ (s : ItemSet) (waiting : List Item), waiting.Perm s.toList → ∀ n c rest,
      Loop.Takes b.build n (s, waiting) (c, rest) →
        n + rest.length ≤ (s.close b.build).size ∧ (rest = [] → c = s.close b.build)) ∧
    ∀ s t : ItemSet, (s ∪ t).close b.build = s.close b.build ∪ t.close b.build := by
  have wf := authored.wellFormed.build
  refine ⟨fun s => ⟨ItemSet.closing_ends b.build s, fun i hi => ItemSet.mem_close_of_mem _ hi,
    ?_, ?_⟩, ItemSet.close_close b.build, fun s t more => ItemSet.close_mono more,
    fun s waiting order n c rest takes => ItemSet.close_of_takes order takes,
    ItemSet.close_union b.build⟩
  · rw [ItemSet.closed_iff wf]
    intro i hi
    exact ItemSet.close_closed _ hi
  · intro t holds closed
    rw [ItemSet.closed_iff wf] at closed
    exact ItemSet.close_subset holds closed

namespace Tangle

/-- The first item of the collection. -/
def kernel : ItemSet := .ofList [⟨0, 0, builder.build.eos⟩]

/-- What the items call for goes round: `E` stands before `F`, which may be `E` or nothing. -/
def closure : ItemSet :=
  .ofList [⟨0, 0, ⟨⟨0⟩, 1⟩⟩, ⟨1, 0, ⟨⟨0⟩, 1⟩⟩, ⟨1, 0, ⟨⟨0⟩, 2⟩⟩, ⟨2, 0, ⟨⟨0⟩, 1⟩⟩, ⟨2, 0, ⟨⟨0⟩, 2⟩⟩]

theorem kernel_close : kernel.close builder.build = closure := by decide +kernel

/-- There is an order in which the items are taken, and it does not matter which one it is. -/
theorem closure_in_any_order :
    builder.Authored ∧ closure.Closed builder.build ∧
      Loop.Takes builder.build 5 (kernel, kernel.toList) (closure, []) ∧
      ∀ n c, Loop.Takes builder.build n (kernel, kernel.toList) (c, []) → c = closure := by
  obtain ⟨least, _, _, any, _⟩ := Grammar.closure_least authored
  obtain ⟨ends, _, closed, _⟩ := least kernel
  rw [kernel_close] at ends closed
  refine ⟨authored, closed, Loop.Takes.of_ends ends, fun n c takes => ?_⟩
  rw [← kernel_close]
  exact (any kernel kernel.toList (List.Perm.refl _) n c [] takes).2 rfl

end Tangle

end CanonicalLR
