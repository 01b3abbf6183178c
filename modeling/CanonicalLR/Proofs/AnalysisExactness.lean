import CanonicalLR.FixedPoint
import CanonicalLR.Proofs.Authoring
import CanonicalLR.Proofs.Derivations

/-!
What the analysis says of a string is what derivations say of it: it is nullable just
if it derives the empty string, and a terminal starts it just if it derives a string
that begins with that terminal. Soundness goes by the rounds of saturation,
completeness by the steps of a derivation and the closedness of the result.
-/
namespace CanonicalLR

variable {V : Type}

namespace Analysis

variable {rules : List (Rule V)}

/-! ### Nullable strings -/

@[simp] theorem nullableString_append (nullable : OrderedSet NonTerminal) (s t : List Symbol) :
    nullableString nullable (s ++ t) = (nullableString nullable s && nullableString nullable t) :=
  List.all_append

@[simp] theorem nullableString_cons (nullable : OrderedSet NonTerminal) (x : Symbol)
    (s : List Symbol) :
    nullableString nullable (x :: s) = (nullableSymbol nullable x && nullableString nullable s) :=
  List.all_cons

theorem derives_nil_of_nullableString {nullable : OrderedSet NonTerminal} {string : List Symbol}
    (sound : ∀ n ∈ nullable, Derives rules [.nonTerminal n] [])
    (h : nullableString nullable string = true) : Derives rules string [] := by
  induction string with
  | nil => exact .refl
  | cons x string ih =>
    simp only [nullableString_cons, Bool.and_eq_true] at h
    cases x with
    | terminal t => cases h.1
    | nonTerminal n => exact (sound n (by simpa [nullableSymbol] using h.1)).concat (ih h.2)

theorem derives_nil_of_mem_nullableOf {n : NonTerminal} (h : n ∈ nullableOf rules) :
    Derives rules [.nonTerminal n] [] := by
  refine OrderedSet.saturate_induction (P := fun n => Derives rules [.nonTerminal n] []) ?_ ?_ h
  · exact fun n h => absurd h (OrderedSet.not_mem_empty n)
  · intro s sound n hn
    simp only [nullableHeads, List.mem_map, List.mem_filter] at hn
    obtain ⟨rule, ⟨mem, nullable⟩, rfl⟩ := hn
    exact (Derives.of_rule mem).trans (derives_nil_of_nullableString sound nullable)

theorem exists_rule_of_mem_nullableOf {n : NonTerminal} (h : n ∈ nullableOf rules) :
    ∃ rule ∈ rules, rule.head = n := by
  refine OrderedSet.saturate_induction (P := fun n => ∃ rule ∈ rules, rule.head = n) ?_ ?_ h
  · exact fun n h => absurd h (OrderedSet.not_mem_empty n)
  · intro s _ n hn
    obtain ⟨rule, mem, head⟩ := List.mem_map.mp hn
    exact ⟨rule, (List.mem_filter.mp mem).1, head⟩

theorem mem_nullableOf_of_rule {rule : Rule V} (mem : rule ∈ rules)
    (h : nullableString (nullableOf rules) rule.body = true) : rule.head ∈ nullableOf rules :=
  nullableOf_closed rules _ (List.mem_map_of_mem (List.mem_filter.mpr ⟨mem, h⟩))

theorem nullableString_iff_derives {string : List Symbol} :
    nullableString (nullableOf rules) string = true ↔ Derives rules string [] := by
  constructor
  · exact derives_nil_of_nullableString fun _ h => derives_nil_of_mem_nullableOf h
  · intro h
    induction h using Relation.ReflTransGen.head_induction_on with
    | refl => rfl
    | head step _ ih =>
      cases step with
      | step rule mem left right =>
        simp only [nullableString_append, nullableString_cons, Bool.and_eq_true] at ih ⊢
        have head := mem_nullableOf_of_rule mem ih.1.2
        exact ⟨ih.1.1, by simpa [nullableSymbol] using head, ih.2⟩

/-! ### First terminals -/

theorem mem_firstOfString_append {nullable : OrderedSet NonTerminal} {first : OrderedSet Fact}
    {s t : List Symbol} {a : Terminal} :
    a ∈ firstOfString nullable first (s ++ t) ↔
      a ∈ firstOfString nullable first s ∨
        nullableString nullable s = true ∧ a ∈ firstOfString nullable first t := by
  induction s with
  | nil => simp [firstOfString, nullableString]
  | cons x s ih =>
    cases x with
    | terminal u => simp [firstOfString, nullableSymbol]
    | nonTerminal n =>
      by_cases hn : n ∈ nullable
      · simp [firstOfString, nullableSymbol, hn, ih, or_assoc]
      · simp [firstOfString, nullableSymbol, hn]

theorem mem_firstOfString_nonTerminal {nullable : OrderedSet NonTerminal}
    {first : OrderedSet Fact} {n : NonTerminal} {string : List Symbol} {a : Terminal} :
    a ∈ firstOfString nullable first (.nonTerminal n :: string) ↔
      (n, a) ∈ first ∨ n ∈ nullable ∧ a ∈ firstOfString nullable first string := by
  by_cases hn : n ∈ nullable <;> simp [firstOfString, hn]

theorem derives_of_mem_firstOfString {first : OrderedSet Fact} {string : List Symbol}
    {a : Terminal}
    (sound : ∀ f ∈ first, ∃ rest, Derives rules [.nonTerminal f.1] (.terminal f.2 :: rest))
    (h : a ∈ firstOfString (nullableOf rules) first string) :
    ∃ rest, Derives rules string (.terminal a :: rest) := by
  induction string with
  | nil => exact absurd h (OrderedSet.not_mem_empty a)
  | cons x string ih =>
    cases x with
    | terminal t =>
      have same : a = t := by simpa [firstOfString] using h
      exact ⟨string, by rw [same]; exact .refl⟩
    | nonTerminal n =>
      rcases mem_firstOfString_nonTerminal.mp h with fact | ⟨vanishes, later⟩
      · obtain ⟨rest, begins⟩ := sound _ fact
        exact ⟨rest ++ string, begins.concat .refl⟩
      · obtain ⟨rest, begins⟩ := ih later
        exact ⟨rest, (derives_nil_of_mem_nullableOf vanishes).concat begins⟩

theorem derives_of_mem_firstOf {f : Fact} (h : f ∈ firstOf rules) :
    ∃ rest, Derives rules [.nonTerminal f.1] (.terminal f.2 :: rest) := by
  refine OrderedSet.saturate_induction
    (P := fun f : Fact => ∃ rest, Derives rules [.nonTerminal f.1] (.terminal f.2 :: rest))
    ?_ ?_ h
  · exact fun f h => absurd h (OrderedSet.not_mem_empty f)
  · intro s sound f hf
    simp only [firstFacts, List.mem_flatMap, List.mem_map] at hf
    obtain ⟨rule, mem, a, ha, rfl⟩ := hf
    obtain ⟨rest, begins⟩ := derives_of_mem_firstOfString sound ha
    exact ⟨rest, (Derives.of_rule mem).trans begins⟩

theorem mem_firstOf_of_rule {rule : Rule V} (mem : rule ∈ rules) {a : Terminal}
    (h : a ∈ firstOfString (nullableOf rules) (firstOf rules) rule.body) :
    (rule.head, a) ∈ firstOf rules :=
  firstOf_closed rules _ (List.mem_flatMap.mpr ⟨rule, mem, List.mem_map.mpr ⟨a, h, rfl⟩⟩)

theorem mem_firstOfString_iff_derives {string : List Symbol} {a : Terminal} :
    a ∈ firstOfString (nullableOf rules) (firstOf rules) string ↔
      ∃ rest, Derives rules string (.terminal a :: rest) := by
  constructor
  · exact derives_of_mem_firstOfString fun _ h => derives_of_mem_firstOf h
  · rintro ⟨rest, h⟩
    induction h using Relation.ReflTransGen.head_induction_on with
    | refl => simp [firstOfString]
    | head step _ ih =>
      cases step with
      | step rule mem left right =>
        -- The terminal starts what is before the replaced symbol, its body, or what is behind it.
        rw [List.append_assoc, mem_firstOfString_append, mem_firstOfString_append] at ih
        rw [mem_firstOfString_append, mem_firstOfString_nonTerminal]
        rcases ih with before | ⟨vanishes, inside | ⟨empty, behind⟩⟩
        · exact .inl before
        · exact .inr ⟨vanishes, .inl (mem_firstOf_of_rule mem inside)⟩
        · exact .inr ⟨vanishes, .inr ⟨mem_nullableOf_of_rule mem empty, behind⟩⟩

end Analysis

namespace Grammar

variable {g : Grammar V} (h : g.WellFormed)
include h

theorem nullableString_iff_derives {string : List Symbol} :
    g.nullableString string = true ↔ Derives g.rules string [] := by
  unfold nullableString
  rw [h.analysis]
  exact Analysis.nullableString_iff_derives

theorem mem_firstOfString_iff_derives {string : List Symbol} {a : Terminal} :
    a ∈ g.firstOfString string ↔ ∃ rest, Derives g.rules string (.terminal a :: rest) := by
  unfold firstOfString
  rw [h.analysis]
  exact Analysis.mem_firstOfString_iff_derives

theorem mem_firstWith_iff_derives {string : List Symbol} {lookahead a : Terminal} :
    a ∈ g.firstWith string lookahead ↔
      (∃ rest, Derives g.rules string (.terminal a :: rest)) ∨
        Derives g.rules string [] ∧ a = lookahead := by
  rw [mem_firstWith, mem_firstOfString_iff_derives h, nullableString_iff_derives h]

end Grammar

end CanonicalLR
