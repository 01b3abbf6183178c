import CanonicalLR.Analysis

/-!
The analysis leaves nothing out: each of its sets holds all consequences that the
rules draw from it, since there are at least as many rounds as facts that the rules
could ever give.
-/
namespace CanonicalLR

namespace Analysis

variable {V : Type}

/-- The terminals in the bodies of the rules, with repetitions. -/
def bodyTerminals (rules : List (Rule V)) : List Terminal :=
  rules.flatMap fun r => r.body.filterMap Symbol.terminal?

/-- The non-terminals in the bodies of the rules, with repetitions. -/
def bodyNonTerminals (rules : List (Rule V)) : List NonTerminal :=
  rules.flatMap fun r => r.body.filterMap Symbol.nonTerminal?

theorem mem_bodyTerminals {rules : List (Rule V)} {t : Terminal} :
    t ∈ bodyTerminals rules ↔ ∃ r ∈ rules, .terminal t ∈ r.body := by
  simp [bodyTerminals]

theorem mem_bodyNonTerminals {rules : List (Rule V)} {n : NonTerminal} :
    n ∈ bodyNonTerminals rules ↔ ∃ r ∈ rules, .nonTerminal n ∈ r.body := by
  simp [bodyNonTerminals]

theorem length_flatMap_body_le {α : Type} (f : Symbol → Option α) (rules : List (Rule V)) :
    (rules.flatMap fun r => r.body.filterMap f).length ≤ occurrences rules := by
  induction rules with
  | nil => simp [occurrences]
  | cons r rules ih =>
    have h : (r.body.filterMap f).length ≤ r.body.length := List.length_filterMap_le f r.body
    simp only [List.flatMap_cons, List.length_append]
    simp only [occurrences, List.foldr_cons, Rule.length] at ih ⊢
    omega

theorem length_flatMap_pairs {α β : Type} (l : List α) (m : List β) :
    (l.flatMap fun a => m.map fun b => (a, b)).length = l.length * m.length := by
  induction l with
  | nil => simp
  | cons a l ih =>
    simp only [List.flatMap_cons, List.length_append, List.length_map, ih, List.length_cons,
      Nat.succ_mul]
    omega

/-- A terminal that can start a string is in it, or starts a non-terminal in it. -/
theorem mem_firstOfString {nullable : OrderedSet NonTerminal} {first : OrderedSet Fact}
    {string : List Symbol} {t : Terminal} (h : t ∈ firstOfString nullable first string) :
    .terminal t ∈ string ∨ ∃ n, .nonTerminal n ∈ string ∧ (n, t) ∈ first := by
  induction string with
  | nil => exact absurd h (OrderedSet.not_mem_empty t)
  | cons s string ih =>
    cases s with
    | terminal u =>
      have hu : t = u := by simpa [firstOfString] using h
      exact .inl (by simp [hu])
    | nonTerminal n =>
      unfold firstOfString at h
      split at h
      · rcases OrderedSet.mem_union.mp h with h | h
        · exact .inr ⟨n, by simp, Fact.mem_about.mp h⟩
        · rcases ih h with h | ⟨m, hm, hf⟩
          · exact .inl (by simp [h])
          · exact .inr ⟨m, by simp [hm], hf⟩
      · exact .inr ⟨n, by simp, Fact.mem_about.mp h⟩

theorem nullableOf_closed (rules : List (Rule V)) :
    ∀ n ∈ nullableHeads rules (nullableOf rules), n ∈ nullableOf rules := by
  refine OrderedSet.saturate_closed (rules.map Rule.head) ?_ ?_ ?_
  · exact fun n h => absurd h (OrderedSet.not_mem_empty n)
  · intro s _ n h
    simp only [nullableHeads, List.mem_map, List.mem_filter] at h ⊢
    obtain ⟨r, ⟨hr, _⟩, hn⟩ := h
    exact ⟨r, hr, hn⟩
  · simp only [List.length_map]
    omega

theorem firstOf_closed (rules : List (Rule V)) :
    ∀ f ∈ firstFacts rules (nullableOf rules) (firstOf rules), f ∈ firstOf rules := by
  refine OrderedSet.saturate_closed
    ((rules.map Rule.head).flatMap fun n => (bodyTerminals rules).map fun t => (n, t)) ?_ ?_ ?_
  · exact fun f h => absurd h (OrderedSet.not_mem_empty f)
  · intro s hs f h
    simp only [firstFacts, List.mem_flatMap, List.mem_map] at h
    obtain ⟨r, hr, t, ht, rfl⟩ := h
    simp only [List.mem_flatMap, List.mem_map]
    refine ⟨r.head, ⟨r, hr, rfl⟩, t, ?_, rfl⟩
    rcases mem_firstOfString ht with ht | ⟨n, _, hf⟩
    · exact mem_bodyTerminals.mpr ⟨r, hr, ht⟩
    · have hv := hs _ hf
      simp only [List.mem_flatMap, List.mem_map, Prod.mk.injEq] at hv
      obtain ⟨_, _, u, hu, _, rfl⟩ := hv
      exact hu
  · rw [length_flatMap_pairs, List.length_map]
    have h := Nat.mul_le_mul_left rules.length
      (length_flatMap_body_le Symbol.terminal? rules)
    simp only [bodyTerminals]
    omega

/-- A terminal that follows a non-terminal of a body starts what is behind it, or follows the
head. -/
theorem mem_followFactsOfBody {nullable : OrderedSet NonTerminal}
    {first follow : OrderedSet Fact} {head : NonTerminal} {body : List Symbol} {f : Fact}
    (h : f ∈ followFactsOfBody nullable first follow head body) :
    .nonTerminal f.1 ∈ body ∧
      (.terminal f.2 ∈ body ∨ (∃ n, (n, f.2) ∈ first) ∨ (head, f.2) ∈ follow) := by
  induction body with
  | nil => exact absurd h (by simp [followFactsOfBody])
  | cons s body ih =>
    cases s with
    | terminal u =>
      obtain ⟨hn, ht⟩ := ih h
      refine ⟨by simp [hn], ht.imp (fun ht => ?_) id⟩
      simp [ht]
    | nonTerminal n =>
      rcases List.mem_append.mp h with h | h
      · obtain ⟨t, ht, rfl⟩ := List.mem_map.mp h
        refine ⟨by simp, ?_⟩
        have next : t ∈ firstOfString nullable first body →
            .terminal t ∈ Symbol.nonTerminal n :: body ∨
              (∃ m, (m, t) ∈ first) ∨ (head, t) ∈ follow := by
          intro ht
          rcases mem_firstOfString ht with ht | ⟨m, _, hf⟩
          · exact .inl (by simp [ht])
          · exact .inr (.inl ⟨m, hf⟩)
        split at ht
        · rcases OrderedSet.mem_union.mp ht with ht | ht
          · exact next ht
          · exact .inr (.inr (Fact.mem_about.mp ht))
        · exact next ht
      · obtain ⟨hn, ht⟩ := ih h
        refine ⟨by simp [hn], ht.imp (fun ht => ?_) id⟩
        simp [ht]

theorem firstOf_terminal {rules : List (Rule V)} {f : Fact} (h : f ∈ firstOf rules) :
    f.2 ∈ bodyTerminals rules := by
  refine OrderedSet.saturate_induction (P := fun f => f.2 ∈ bodyTerminals rules) ?_ ?_ h
  · exact fun f h => absurd h (OrderedSet.not_mem_empty f)
  · intro s hs f h
    simp only [firstFacts, List.mem_flatMap, List.mem_map] at h
    obtain ⟨r, hr, t, ht, rfl⟩ := h
    rcases mem_firstOfString ht with ht | ⟨n, _, hf⟩
    · exact mem_bodyTerminals.mpr ⟨r, hr, ht⟩
    · exact hs (n, t) hf

theorem followOf_closed (rules : List (Rule V)) (start : NonTerminal) (eos : Terminal) :
    ∀ f ∈ followFacts rules (nullableOf rules) (firstOf rules) (followOf rules start eos),
      f ∈ followOf rules start eos := by
  refine OrderedSet.saturate_closed
    ((start :: bodyNonTerminals rules).flatMap fun n =>
      (eos :: bodyTerminals rules).map fun t => (n, t)) ?_ ?_ ?_
  · intro f h
    have hf : f = (start, eos) := by simpa using h
    simp [hf]
  · intro s hs f h
    simp only [followFacts, List.mem_flatMap] at h
    obtain ⟨r, hr, hf⟩ := h
    obtain ⟨hn, ht⟩ := mem_followFactsOfBody hf
    simp only [List.mem_flatMap, List.mem_map]
    refine ⟨f.1, List.mem_cons_of_mem _ (mem_bodyNonTerminals.mpr ⟨r, hr, hn⟩), f.2, ?_, rfl⟩
    rcases ht with ht | ⟨n, hf⟩ | hf
    · exact List.mem_cons_of_mem _ (mem_bodyTerminals.mpr ⟨r, hr, ht⟩)
    · have hb := firstOf_terminal hf
      exact List.mem_cons_of_mem _ hb
    · have hv := hs _ hf
      simp only [List.mem_flatMap, List.mem_map, Prod.mk.injEq] at hv
      obtain ⟨_, _, u, hu, _, rfl⟩ := hv
      exact hu
  · rw [length_flatMap_pairs]
    have hn := length_flatMap_body_le Symbol.nonTerminal? rules
    have ht := length_flatMap_body_le Symbol.terminal? rules
    have h := Nat.mul_le_mul (Nat.succ_le_succ hn) (Nat.succ_le_succ ht)
    have hs : (OrderedSet.ofList [(start, eos)] : OrderedSet Fact).size = 1 := rfl
    simp only [List.length_cons, bodyNonTerminals, bodyTerminals, hs]
    simp only [Nat.succ_eq_add_one] at h
    omega

end Analysis

end CanonicalLR
