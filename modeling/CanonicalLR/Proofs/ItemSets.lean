import CanonicalLR.Closure
import CanonicalLR.Proofs.AnalysisExactness
import Mathlib.Data.Finset.Powerset

/-!
Where the items of a closure and of the set reached over a symbol come from, and how
many item sets there can be: all items have a rule of the grammar, a place in its
body, and one of finitely many lookaheads.
-/
namespace CanonicalLR

variable {V : Type} {g : Grammar V}

/-- Of the sets with members among these values there are at most two to the power of their
number. -/
theorem OrderedSet.length_le_two_pow {α : Type} [Ord α] [Std.TransOrd α] [Std.LawfulEqOrd α]
    [DecidableEq α] {sets : List (OrderedSet α)} (values : List α) (distinct : sets.Nodup)
    (inside : ∀ s ∈ sets, ∀ a ∈ s, a ∈ values) : sets.length ≤ 2 ^ values.length := by
  have inj : ∀ s t : OrderedSet α, s.toList.toFinset = t.toList.toFinset → s = t := by
    intro s t h
    refine OrderedSet.ext fun a => ?_
    have same := Finset.ext_iff.mp h a
    rw [List.mem_toFinset, List.mem_toFinset] at same
    exact same
  have nodup : (sets.map fun s => s.toList.toFinset).Nodup :=
    distinct.map fun s t h => inj s t h
  have sub : (sets.map fun s => s.toList.toFinset).toFinset ⊆ values.toFinset.powerset := by
    intro f hf
    obtain ⟨s, hs, rfl⟩ := List.mem_map.mp (List.mem_toFinset.mp hf)
    refine Finset.mem_powerset.mpr fun a ha => ?_
    exact List.mem_toFinset.mpr (inside s hs a (List.mem_toFinset.mp ha))
  have card := Finset.card_le_card sub
  rw [List.toFinset_card_of_nodup nodup, List.length_map, Finset.card_powerset] at card
  exact card.trans (Nat.pow_le_pow_right (by decide) (List.toFinset_card_le values))

namespace Item

variable {i j : Item}

theorem advance?_eq_some {s : Symbol} :
    i.advance? g s = some j ↔
      i.symbol? g = some s ∧ j = { i with position := i.position + 1 } := by
  unfold advance? next?
  by_cases h : i.symbol? g = some s
  · have inner : i.isExhausted g = false := by
      by_contra out
      rw [Bool.not_eq_false, ← symbol?_eq_none_iff, h] at out
      cases out
    rw [if_pos h, inner]
    simp [h, eq_comm]
  · simp [h]

/-- The symbol after the dot splits the body. -/
theorem body_eq_of_symbol? {s : Symbol} (h : i.symbol? g = some s) :
    g.body i.rule = (g.body i.rule).take i.position ++ s :: i.remainder g := by
  obtain ⟨bound, rfl⟩ := List.getElem?_eq_some_iff.mp h
  rw [remainder, List.getElem_cons_drop, List.take_append_drop]

theorem take_succ_of_symbol? {s : Symbol} (h : i.symbol? g = some s) :
    (g.body i.rule).take (i.position + 1) = (g.body i.rule).take i.position ++ [s] := by
  obtain ⟨bound, rfl⟩ := List.getElem?_eq_some_iff.mp h
  rw [List.take_append_getElem]

theorem position_lt_of_symbol? {s : Symbol} (h : i.symbol? g = some s) :
    i.position < (g.body i.rule).length :=
  (List.getElem?_eq_some_iff.mp h).1

end Item

namespace ItemSet

variable {s : ItemSet} {i : Item}

@[simp] theorem mem_nextSymbols {x : Symbol} :
    x ∈ s.nextSymbols g ↔ ∃ i ∈ s, i.symbol? g = some x := by
  rw [nextSymbols, OrderedSet.mem_ofList, List.mem_filterMap]
  rfl

theorem mem_goto_of_mem {x : Symbol} (h : i ∈ s) (next : i.symbol? g = some x) :
    { i with position := i.position + 1 } ∈ s.goto g x := by
  refine mem_close_of_mem g (OrderedSet.mem_ofList.mpr (List.mem_filterMap.mpr ⟨i, h, ?_⟩))
  exact Item.advance?_eq_some.mpr ⟨next, rfl⟩

/-- What holds of all items whose dots move over the symbol, and passes to what items call for,
holds of the set reached over the symbol. -/
theorem goto_induction {P : Item → Prop} {x : Symbol}
    (moved : ∀ i ∈ s, i.symbol? g = some x → P { i with position := i.position + 1 })
    (pass : ∀ i, P i → ∀ j ∈ i.expansion g, P j) (h : i ∈ s.goto g x) : P i := by
  refine close_induction g (fun j hj => ?_) pass h
  obtain ⟨k, hk, hj⟩ := List.mem_filterMap.mp (OrderedSet.mem_ofList.mp hj)
  obtain ⟨next, rfl⟩ := Item.advance?_eq_some.mp hj
  exact moved k hk next

end ItemSet

namespace Grammar

/-- The terminals that can be lookaheads in the collection. -/
def lookaheads (g : Grammar V) : List Terminal :=
  g.eos :: (g.analysis.first.toList.map Prod.snd ++ Analysis.bodyTerminals g.rules)

/-- The items that can be in the collection. -/
def items (g : Grammar V) : List Item :=
  g.rules.flatMap fun r => (List.range (r.length + 1)).flatMap fun p =>
    g.lookaheads.map fun a => ⟨r.id, p, a⟩

theorem mem_items {i : Item} :
    i ∈ g.items ↔ ∃ r ∈ g.rules, i.rule = r.id ∧ i.position ≤ r.length ∧
      i.lookahead ∈ g.lookaheads := by
  simp only [items, List.mem_flatMap, List.mem_range, List.mem_map]
  constructor
  · rintro ⟨r, hr, p, hp, a, ha, rfl⟩
    exact ⟨r, hr, rfl, Nat.lt_succ_iff.mp hp, ha⟩
  · rintro ⟨r, hr, same, hp, ha⟩
    exact ⟨r, hr, i.position, Nat.lt_succ_iff.mpr hp, i.lookahead, ha, by rw [← same]⟩

theorem length_items_le : g.items.length ≤ Collection.itemCount g := by
  have perRule (l : List Terminal) : ∀ rules : List (Rule V),
      (rules.flatMap fun r => (List.range (r.length + 1)).flatMap fun p =>
        l.map fun a => (⟨r.id, p, a⟩ : Item)).length =
          (Analysis.occurrences rules + rules.length) * l.length := by
    intro rules
    induction rules with
    | nil => simp [Analysis.occurrences]
    | cons r rules ih =>
      have places : ((List.range (r.length + 1)).flatMap fun p =>
          l.map fun a => (⟨r.id, p, a⟩ : Item)).length = (r.length + 1) * l.length := by
        simp [List.length_flatMap, List.map_const']
      rw [List.flatMap_cons, List.length_append, ih, places, ← Nat.add_mul]
      simp only [Analysis.occurrences, List.foldr_cons, List.length_cons]
      congr 1
      omega
  have bound : g.lookaheads.length ≤
      g.analysis.first.size + Analysis.occurrences g.rules + 1 := by
    have h := Analysis.length_flatMap_body_le Symbol.terminal? g.rules
    simp only [lookaheads, Analysis.bodyTerminals, List.length_cons, List.length_append,
      List.length_map, OrderedSet.size]
    omega
  rw [items, perRule]
  exact Nat.mul_le_mul_left _ bound

theorem expansion_mem_items {i j : Item} (hi : i ∈ g.items) (hj : j ∈ i.expansion g) :
    j ∈ g.items := by
  obtain ⟨n, _, r, hr, a, ha, rfl⟩ := (i.mem_expansion g).mp hj
  refine mem_items.mpr ⟨r, (g.mem_rulesOf.mp hr).1, rfl, Nat.zero_le _, ?_⟩
  rcases g.mem_firstWith.mp ha with ha | ⟨_, rfl⟩
  · have := ItemSet.mem_lookaheads_of_firstOfString g (s := ∅) ha
    simp only [ItemSet.lookaheads, List.mem_append] at this
    rcases this with this | this
    · exact List.mem_cons_of_mem _ (List.mem_append.mpr this)
    · cases this
  · exact (mem_items.mp hi).elim fun _ hi => hi.2.2.2

theorem WellFormed.advance_mem_items (h : g.WellFormed) {i : Item} (hi : i ∈ g.items) {s : Symbol}
    (next : i.symbol? g = some s) : { i with position := i.position + 1 } ∈ g.items := by
  obtain ⟨r, hr, same, _, ha⟩ := mem_items.mp hi
  have bound := Item.position_lt_of_symbol? next
  rw [same, h.body_of_mem hr] at bound
  exact mem_items.mpr ⟨r, hr, same, bound, ha⟩

/-- Moving over a symbol stays among the items that can be in the collection. -/
theorem WellFormed.goto_mem_items (h : g.WellFormed) {s : ItemSet} (hs : ∀ i ∈ s, i ∈ g.items)
    {x : Symbol} : ∀ i ∈ s.goto g x, i ∈ g.items := fun _ hi =>
  ItemSet.goto_induction (fun j hj next => h.advance_mem_items (hs j hj) next)
    (fun _ hj _ => expansion_mem_items hj) hi

end Grammar

end CanonicalLR
