/-!
Finite sets of an ordered type, held as strictly ascending lists. A set is
determined by its members (`OrderedSet.ext`), so two sets with the same members
have the same list, and a set is its own key when sets are looked up.
-/
namespace CanonicalLR

/-- The finite set whose members, from least to greatest, are `toList`. -/
structure OrderedSet (α : Type) [Ord α] where
  toList : List α
  ascending : toList.Pairwise (fun a b => compare a b = .lt)

namespace OrderedSet

variable {α : Type} [Ord α]

instance [DecidableEq α] : DecidableEq (OrderedSet α) := fun s t =>
  decidable_of_iff (s.toList = t.toList) <| by
    cases s; cases t; simp

instance : Membership α (OrderedSet α) := ⟨fun s a => a ∈ s.toList⟩

instance [DecidableEq α] (a : α) (s : OrderedSet α) : Decidable (a ∈ s) :=
  inferInstanceAs (Decidable (a ∈ s.toList))

theorem mem_def {a : α} {s : OrderedSet α} : a ∈ s ↔ a ∈ s.toList := Iff.rfl

def size (s : OrderedSet α) : Nat := s.toList.length

def isEmpty (s : OrderedSet α) : Bool := s.toList.isEmpty

def empty : OrderedSet α := ⟨[], List.Pairwise.nil⟩

instance : EmptyCollection (OrderedSet α) := ⟨empty⟩

instance : Inhabited (OrderedSet α) := ⟨∅⟩

@[simp] theorem not_mem_empty (a : α) : a ∉ (∅ : OrderedSet α) := by
  change a ∉ ([] : List α)
  simp

/-- Those members that pass the test. -/
def filter (p : α → Bool) (s : OrderedSet α) : OrderedSet α :=
  ⟨s.toList.filter p, s.ascending.filter p⟩

@[simp] theorem mem_filter {p : α → Bool} {s : OrderedSet α} {a : α} :
    a ∈ s.filter p ↔ a ∈ s ∧ p a = true := by
  simp [mem_def, filter]

/-- Place a value before the first greater one; an equal value is not repeated. -/
def insertAscending (a : α) : List α → List α
  | [] => [a]
  | b :: l =>
    match compare a b with
    | .lt => a :: b :: l
    | .eq => b :: l
    | .gt => b :: insertAscending a l

section Lawful

variable [Std.LawfulEqOrd α]

theorem compare_ne_lt_self (a : α) : compare a a ≠ .lt := by
  simp

theorem nodup (s : OrderedSet α) : s.toList.Nodup := by
  refine s.ascending.imp ?_
  rintro a b h rfl
  exact compare_ne_lt_self a h

theorem mem_insertAscending {a x : α} {l : List α} :
    x ∈ insertAscending a l ↔ x = a ∨ x ∈ l := by
  induction l with
  | nil => simp [insertAscending]
  | cons b l ih =>
    unfold insertAscending
    split
    · simp
    · rename_i h
      have hab : a = b := Std.LawfulEqCmp.eq_of_compare h
      subst hab
      simp
    · simp only [List.mem_cons, ih]
      constructor
      · rintro (h | h | h) <;> simp [h]
      · rintro (h | h | h) <;> simp [h]

variable [Std.TransOrd α]

theorem ascending_insertAscending (a : α) {l : List α}
    (h : l.Pairwise (fun a b => compare a b = .lt)) :
    (insertAscending a l).Pairwise (fun a b => compare a b = .lt) := by
  induction l with
  | nil => simp [insertAscending]
  | cons b l ih =>
    obtain ⟨hb, hl⟩ := List.pairwise_cons.mp h
    unfold insertAscending
    split
    · rename_i hab
      refine List.pairwise_cons.mpr ⟨?_, h⟩
      intro c hc
      rcases List.mem_cons.mp hc with rfl | hc
      · exact hab
      · exact Std.TransCmp.lt_trans hab (hb c hc)
    · exact h
    · rename_i hab
      refine List.pairwise_cons.mpr ⟨?_, ih hl⟩
      intro c hc
      rcases mem_insertAscending.mp hc with rfl | hc
      · exact Std.OrientedCmp.lt_of_gt hab
      · exact hb c hc

def insert (a : α) (s : OrderedSet α) : OrderedSet α :=
  ⟨insertAscending a s.toList, ascending_insertAscending a s.ascending⟩

@[simp] theorem mem_insert {a x : α} {s : OrderedSet α} :
    x ∈ s.insert a ↔ x = a ∨ x ∈ s :=
  mem_insertAscending

/-- The set with every value of the list added. -/
def insertMany (s : OrderedSet α) (l : List α) : OrderedSet α :=
  l.foldr insert s

@[simp] theorem mem_insertMany {x : α} {s : OrderedSet α} {l : List α} :
    x ∈ s.insertMany l ↔ x ∈ s ∨ x ∈ l := by
  induction l with
  | nil => simp [insertMany]
  | cons a l ih =>
    change x ∈ (s.insertMany l).insert a ↔ _
    rw [mem_insert, ih, List.mem_cons]
    constructor
    · rintro (h | h | h) <;> simp [h]
    · rintro (h | h | h) <;> simp [h]

def ofList (l : List α) : OrderedSet α := insertMany ∅ l

@[simp] theorem mem_ofList {x : α} {l : List α} : x ∈ ofList l ↔ x ∈ l := by
  simp [ofList]

def union (s t : OrderedSet α) : OrderedSet α := s.insertMany t.toList

instance : Union (OrderedSet α) := ⟨union⟩

@[simp] theorem mem_union {x : α} {s t : OrderedSet α} : x ∈ s ∪ t ↔ x ∈ s ∨ x ∈ t :=
  mem_insertMany

/-- A strictly ascending list is determined by its members. -/
theorem eq_of_mem_iff {l m : List α}
    (hl : l.Pairwise (fun a b => compare a b = .lt))
    (hm : m.Pairwise (fun a b => compare a b = .lt))
    (h : ∀ x, x ∈ l ↔ x ∈ m) : l = m := by
  induction l generalizing m with
  | nil =>
    cases m with
    | nil => rfl
    | cons b m => exact absurd ((h b).mpr (by simp)) (by simp)
  | cons a l ih =>
    cases m with
    | nil => exact absurd ((h a).mp (by simp)) (by simp)
    | cons b m =>
      obtain ⟨ha, hl'⟩ := List.pairwise_cons.mp hl
      obtain ⟨hb, hm'⟩ := List.pairwise_cons.mp hm
      have hab : a = b := by
        rcases List.mem_cons.mp ((h a).mp (by simp)) with hab | hab
        · exact hab
        · rcases List.mem_cons.mp ((h b).mpr (by simp)) with hba | hba
          · exact hba.symm
          · exact absurd (Std.TransCmp.lt_trans (ha b hba) (hb a hab)) (compare_ne_lt_self a)
      subst hab
      congr 1
      refine ih hl' hm' fun x => ⟨fun hx => ?_, fun hx => ?_⟩
      · rcases List.mem_cons.mp ((h x).mp (by simp [hx])) with rfl | hx'
        · exact absurd (ha x hx) (compare_ne_lt_self x)
        · exact hx'
      · rcases List.mem_cons.mp ((h x).mpr (by simp [hx])) with rfl | hx'
        · exact absurd (hb x hx) (compare_ne_lt_self x)
        · exact hx'

theorem ext {s t : OrderedSet α} (h : ∀ x, x ∈ s ↔ x ∈ t) : s = t := by
  have e := eq_of_mem_iff s.ascending t.ascending h
  cases s; cases t
  cases e
  rfl

theorem insertMany_eq_self {s : OrderedSet α} {l : List α} :
    s.insertMany l = s ↔ ∀ a ∈ l, a ∈ s := by
  constructor
  · intro h a ha
    rw [← h]
    exact mem_insertMany.mpr (Or.inr ha)
  · intro h
    refine ext fun x => ?_
    rw [mem_insertMany]
    exact ⟨fun hx => hx.elim id (h x), Or.inl⟩

theorem size_lt_size_insertMany {s : OrderedSet α} {l : List α} (h : s.insertMany l ≠ s) :
    s.size < (s.insertMany l).size := by
  have ⟨a, ha, hs⟩ : ∃ a, a ∈ l ∧ a ∉ s := by
    apply Classical.byContradiction
    intro hn
    refine h (insertMany_eq_self.mpr fun a ha => Classical.byContradiction fun hs => ?_)
    exact hn ⟨a, ha, hs⟩
  have hnd : (a :: s.toList).Nodup := List.nodup_cons.mpr ⟨hs, s.nodup⟩
  refine hnd.length_le_of_subset fun x hx => ?_
  rcases List.mem_cons.mp hx with rfl | hx
  · exact mem_insertMany.mpr (Or.inr ha)
  · exact mem_insertMany.mpr (Or.inl hx)

end Lawful

end OrderedSet

end CanonicalLR
