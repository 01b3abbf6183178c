import CanonicalLR.OrderedSet

/-!
Saturation: a set grows by its consequences until it has them all. With monotone
consequences the result is the least set that holds the given members and its own
consequences, whatever the order in which these were found. Every round but the
last adds a member, so a bound on the members bounds the rounds.
-/
namespace CanonicalLR

namespace OrderedSet

variable {α : Type} [Ord α] [Std.TransOrd α] [Std.LawfulEqOrd α] [DecidableEq α]

/-- Add the consequences of the set until it no longer changes, in at most so many rounds. -/
def saturate (consequences : OrderedSet α → List α) : Nat → OrderedSet α → OrderedSet α
  | 0, s => s
  | rounds + 1, s =>
    let grown := s.insertMany (consequences s)
    if grown = s then s else saturate consequences rounds grown

variable {consequences : OrderedSet α → List α}

theorem saturate_succ (rounds : Nat) (s : OrderedSet α) :
    saturate consequences (rounds + 1) s =
      if s.insertMany (consequences s) = s then s
      else saturate consequences rounds (s.insertMany (consequences s)) := rfl

theorem mem_saturate_of_mem {rounds : Nat} {s : OrderedSet α} {a : α} (h : a ∈ s) :
    a ∈ saturate consequences rounds s := by
  induction rounds generalizing s with
  | zero => exact h
  | succ rounds ih =>
    rw [saturate_succ]
    split
    · exact h
    · exact ih (mem_insertMany.mpr (Or.inl h))

/-- Saturation stays inside every property that holds of the start and passes to consequences. -/
theorem saturate_induction {P : α → Prop} {rounds : Nat} {s : OrderedSet α}
    (start : ∀ a ∈ s, P a)
    (pass : ∀ t : OrderedSet α, (∀ a ∈ t, P a) → ∀ b ∈ consequences t, P b)
    {a : α} (h : a ∈ saturate consequences rounds s) : P a := by
  induction rounds generalizing s with
  | zero => exact start a h
  | succ rounds ih =>
    rw [saturate_succ] at h
    split at h
    · exact start a h
    · refine ih (fun b hb => ?_) h
      rcases mem_insertMany.mp hb with hb | hb
      · exact start b hb
      · exact pass s start b hb

/-- With at least as many rounds as values that could still appear, nothing is left to add. -/
theorem saturate_closed (values : List α) {rounds : Nat} {s : OrderedSet α}
    (start : ∀ a ∈ s, a ∈ values)
    (pass : ∀ t : OrderedSet α, (∀ a ∈ t, a ∈ values) → ∀ b ∈ consequences t, b ∈ values)
    (enough : values.length < rounds + s.size) :
    ∀ b ∈ consequences (saturate consequences rounds s),
      b ∈ saturate consequences rounds s := by
  induction rounds generalizing s with
  | zero =>
    have : s.size ≤ values.length := s.nodup.length_le_of_subset start
    omega
  | succ rounds ih =>
    rw [saturate_succ]
    split
    · rename_i h
      exact insertMany_eq_self.mp h
    · rename_i h
      have grows := size_lt_size_insertMany h
      refine ih (fun a ha => ?_) (by omega)
      rcases mem_insertMany.mp ha with ha | ha
      · exact start a ha
      · exact pass s start a ha

end OrderedSet

end CanonicalLR
