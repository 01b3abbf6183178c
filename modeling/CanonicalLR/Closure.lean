import CanonicalLR.FixedPoint
import CanonicalLR.ItemSet

/-!
The closure of an item set is its least superset that holds whatever its members
call for.
-/
namespace CanonicalLR

namespace ItemSet

variable {V : Type} (g : Grammar V)

theorem mem_close_of_mem {s : ItemSet} {i : Item} (h : i ∈ s) : i ∈ close g s :=
  OrderedSet.mem_reached_of_mem h

theorem close_induction {P : Item → Prop} {s : ItemSet} (start : ∀ i ∈ s, P i)
    (pass : ∀ i, P i → ∀ j ∈ i.expansion g, P j) {i : Item} (h : i ∈ close g s) : P i :=
  OrderedSet.reached_induction start pass h

/-- The lookaheads that can appear in the closure. -/
def lookaheads (s : ItemSet) : List Terminal :=
  g.analysis.first.toList.map Prod.snd ++ Analysis.bodyTerminals g.rules ++
    s.toList.map Item.lookahead

/-- The items that can appear in the closure. -/
def closureItems (s : ItemSet) : List Item :=
  s.toList ++ g.rules.flatMap fun r => (lookaheads g s).map fun a => ⟨r.id, 0, a⟩

theorem lookahead_mem_of_mem_closureItems {s : ItemSet} {i : Item}
    (h : i ∈ closureItems g s) : i.lookahead ∈ lookaheads g s := by
  rcases List.mem_append.mp h with h | h
  · exact List.mem_append.mpr (.inr (List.mem_map_of_mem h))
  · obtain ⟨r, _, h⟩ := List.mem_flatMap.mp h
    obtain ⟨a, ha, rfl⟩ := List.mem_map.mp h
    exact ha

theorem mem_lookaheads_of_firstOfString {s : ItemSet} {i : Item} {t : Terminal}
    (h : t ∈ g.firstOfString (i.remainder g)) : t ∈ lookaheads g s := by
  refine List.mem_append.mpr (.inl (List.mem_append.mpr ?_))
  rcases Analysis.mem_firstOfString h with h | ⟨n, _, h⟩
  · obtain ⟨r, hr, ht⟩ := g.exists_rule_of_mem_body (List.mem_of_mem_drop h)
    exact .inr (Analysis.mem_bodyTerminals.mpr ⟨r, hr, ht⟩)
  · exact .inl (List.mem_map.mpr ⟨(n, t), h, rfl⟩)

theorem expansion_subset_closureItems {s : ItemSet} {i : Item} (h : i ∈ closureItems g s) :
    ∀ j ∈ i.expansion g, j ∈ closureItems g s := by
  intro j hj
  obtain ⟨n, _, r, hr, a, ha, rfl⟩ := (i.mem_expansion g).mp hj
  refine List.mem_append.mpr (.inr (List.mem_flatMap.mpr ⟨r, ((g.mem_rulesOf).mp hr).1, ?_⟩))
  refine List.mem_map.mpr ⟨a, ?_, rfl⟩
  rcases g.mem_firstWith.mp ha with ha | ⟨_, rfl⟩
  · exact mem_lookaheads_of_firstOfString g ha
  · exact lookahead_mem_of_mem_closureItems g h

theorem length_closureItems_le (s : ItemSet) :
    (closureItems g s).length < closureRounds g s + s.size := by
  have constant (l : List Terminal) : ∀ rules : List (Rule V),
      (rules.flatMap fun r => l.map fun a => (⟨r.id, 0, a⟩ : Item)).length =
        rules.length * l.length := by
    intro rules
    induction rules with
    | nil => simp
    | cons r rules ih =>
      simp only [List.flatMap_cons, List.length_append, List.length_map, ih, List.length_cons,
        Nat.succ_mul]
      omega
  have bound : (lookaheads g s).length ≤
      g.analysis.first.size + Analysis.occurrences g.rules + s.size := by
    have h := Analysis.length_flatMap_body_le Symbol.terminal? g.rules
    simp only [lookaheads, Analysis.bodyTerminals, List.length_append, List.length_map,
      OrderedSet.size]
    omega
  have h := Nat.mul_le_mul_left g.rules.length bound
  simp only [closureItems, List.length_append, constant, closureRounds, OrderedSet.size] at h ⊢
  omega

/-- Whatever a member of the closure calls for is a member. -/
theorem close_closed {s : ItemSet} {i : Item} (h : i ∈ close g s) :
    ∀ j ∈ i.expansion g, j ∈ close g s :=
  OrderedSet.reached_closed (closureItems g s)
    (fun _ hi => List.mem_append.mpr (.inl hi))
    (fun _ hi => expansion_subset_closureItems g hi)
    (length_closureItems_le g s) i h

end ItemSet

end CanonicalLR
