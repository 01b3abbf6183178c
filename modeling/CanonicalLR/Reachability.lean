import CanonicalLR.OrderedSet

/-!
The values reached from a set by following successors: the least superset that holds
the successors of its members. The search keeps the values whose successors have not
been looked at yet, so each value is expanded once.
-/
namespace CanonicalLR

namespace OrderedSet

variable {α : Type} [Ord α] [Std.TransOrd α] [Std.LawfulEqOrd α] [DecidableEq α]

/-- The successors of the pending values that are not in the set yet. -/
def fresh (successors : α → List α) (pending s : OrderedSet α) : OrderedSet α :=
  (ofList (pending.toList.flatMap successors)).filter fun a => a ∉ s

@[simp] theorem mem_fresh {successors : α → List α} {pending s : OrderedSet α} {b : α} :
    b ∈ fresh successors pending s ↔ (∃ a ∈ pending, b ∈ successors a) ∧ b ∉ s := by
  rw [fresh, mem_filter, mem_ofList, List.mem_flatMap]
  simp [mem_def]

/-- Add what is reached from the pending members, in at most so many rounds. -/
def search (successors : α → List α) : Nat → OrderedSet α → OrderedSet α → OrderedSet α
  | 0, _, s => s
  | rounds + 1, pending, s =>
    let found := fresh successors pending s
    if found.isEmpty then s else search successors rounds found (s ∪ found)

/-- What is reached from the set, in at most so many rounds. -/
def reached (successors : α → List α) (rounds : Nat) (s : OrderedSet α) : OrderedSet α :=
  search successors rounds s s

variable {successors : α → List α}

theorem search_succ (rounds : Nat) (pending s : OrderedSet α) :
    search successors (rounds + 1) pending s =
      if (fresh successors pending s).isEmpty then s
      else search successors rounds (fresh successors pending s)
        (s ∪ fresh successors pending s) := rfl

theorem mem_search_of_mem {rounds : Nat} {pending s : OrderedSet α} {a : α} (h : a ∈ s) :
    a ∈ search successors rounds pending s := by
  induction rounds generalizing pending s with
  | zero => exact h
  | succ rounds ih =>
    rw [search_succ]
    split
    · exact h
    · exact ih (mem_union.mpr (Or.inl h))

theorem mem_reached_of_mem {rounds : Nat} {s : OrderedSet α} {a : α} (h : a ∈ s) :
    a ∈ reached successors rounds s :=
  mem_search_of_mem h

theorem search_induction {P : α → Prop} {rounds : Nat} {pending s : OrderedSet α}
    (start : ∀ a ∈ s, P a) (member : ∀ a ∈ pending, a ∈ s)
    (pass : ∀ a, P a → ∀ b ∈ successors a, P b)
    {a : α} (h : a ∈ search successors rounds pending s) : P a := by
  induction rounds generalizing pending s with
  | zero => exact start a h
  | succ rounds ih =>
    rw [search_succ] at h
    split at h
    · exact start a h
    · refine ih (fun b hb => ?_) (fun b hb => mem_union.mpr (Or.inr hb)) h
      rcases mem_union.mp hb with hb | hb
      · exact start b hb
      · obtain ⟨⟨c, hc, hbc⟩, _⟩ := mem_fresh.mp hb
        exact pass c (start c (member c hc)) b hbc

/-- What is reached has every property that holds of the start and passes to successors. -/
theorem reached_induction {P : α → Prop} {rounds : Nat} {s : OrderedSet α}
    (start : ∀ a ∈ s, P a) (pass : ∀ a, P a → ∀ b ∈ successors a, P b)
    {a : α} (h : a ∈ reached successors rounds s) : P a :=
  search_induction start (fun _ ha => ha) pass h

theorem search_closed (values : List α) {rounds : Nat} {pending s : OrderedSet α}
    (expanded : ∀ a ∈ s, a ∉ pending → ∀ b ∈ successors a, b ∈ s)
    (start : ∀ a ∈ s, a ∈ values) (member : ∀ a ∈ pending, a ∈ s)
    (pass : ∀ a ∈ values, ∀ b ∈ successors a, b ∈ values)
    (enough : values.length < rounds + s.size) :
    ∀ a ∈ search successors rounds pending s, ∀ b ∈ successors a,
      b ∈ search successors rounds pending s := by
  induction rounds generalizing pending s with
  | zero =>
    have : s.size ≤ values.length := s.nodup.length_le_of_subset start
    omega
  | succ rounds ih =>
    rw [search_succ]
    split
    · rename_i h
      intro a ha b hb
      by_cases hp : a ∈ pending
      · refine Decidable.byContradiction fun hs => ?_
        have hf : b ∈ fresh successors pending s := mem_fresh.mpr ⟨⟨a, hp, hb⟩, hs⟩
        rw [mem_def, List.isEmpty_iff.mp h] at hf
        cases hf
      · exact expanded a ha hp b hb
    · rename_i h
      have ⟨c, hc⟩ : ∃ c, c ∈ fresh successors pending s := by
        cases hl : (fresh successors pending s).toList with
        | nil => exact absurd (List.isEmpty_iff.mpr hl) h
        | cons c l => exact ⟨c, by rw [mem_def, hl]; simp⟩
      have grows : s.size < (s ∪ fresh successors pending s).size :=
        size_lt_size_insertMany fun h => (mem_fresh.mp hc).2 (insertMany_eq_self.mp h c hc)
      refine ih (fun a ha hn b hb => ?_) (fun a ha => ?_) (fun a ha => mem_union.mpr (Or.inr ha))
        (by omega)
      · have has : a ∈ s := (mem_union.mp ha).resolve_right hn
        by_cases hs : b ∈ s
        · exact mem_union.mpr (Or.inl hs)
        · by_cases hp : a ∈ pending
          · exact mem_union.mpr (Or.inr (mem_fresh.mpr ⟨⟨a, hp, hb⟩, hs⟩))
          · exact absurd (expanded a has hp b hb) hs
      · rcases mem_union.mp ha with ha | ha
        · exact start a ha
        · obtain ⟨⟨c, hc, hac⟩, _⟩ := mem_fresh.mp ha
          exact pass c (start c (member c hc)) a hac

/-- With more rounds than values that could still be reached, the result holds the successors of
its members. -/
theorem reached_closed (values : List α) {rounds : Nat} {s : OrderedSet α}
    (start : ∀ a ∈ s, a ∈ values) (pass : ∀ a ∈ values, ∀ b ∈ successors a, b ∈ values)
    (enough : values.length < rounds + s.size) :
    ∀ a ∈ reached successors rounds s, ∀ b ∈ successors a, b ∈ reached successors rounds s :=
  search_closed values (fun _ ha hn => absurd ha hn) start (fun _ ha => ha) pass enough

end OrderedSet

end CanonicalLR
