import CanonicalLR.Proofs.SafeGeneration

/-!
What the analysis says of non-terminals is what derivations say of them: which derive
the empty string, which terminals begin what they derive, and which come right behind
them. A terminal that follows a non-terminal stands behind it in something derived, as
the rules that say so show one after the other; and whatever stands behind it in
something derived was given to it when the last of the two came in by a rule.
-/
namespace CanonicalLR

variable {V : Type}

/-- Something derived from the first non-terminal ends with the second one and this string. -/
def EndsWith (rules : List (Rule V)) (x n : NonTerminal) (behind : List Symbol) : Prop :=
  ∃ left, Derives rules [.nonTerminal x] (left ++ .nonTerminal n :: behind)

namespace EndsWith

variable {rules : List (Rule V)} {x n : NonTerminal} {behind behind' front back : List Symbol}
  {rule : Rule V}

theorem refl (n : NonTerminal) : EndsWith rules n n [] := ⟨[], .refl⟩

/-- What stands behind the non-terminal may be derived further. -/
theorem derive (h : EndsWith rules x n behind) (h' : Derives rules behind behind') :
    EndsWith rules x n behind' := by
  obtain ⟨left, derives⟩ := h
  have behind := h'.append (left ++ [.nonTerminal n]) []
  simp only [List.append_assoc, List.append_nil, List.singleton_append] at behind
  exact ⟨left, derives.trans behind⟩

/-- A non-terminal in the body of a rule has behind it the rest of the body and what stands behind
the head. -/
theorem open_rule (h : EndsWith rules x rule.head behind) (mem : rule ∈ rules)
    (body : rule.body = front ++ .nonTerminal n :: back) :
    EndsWith rules x n (back ++ behind) := by
  obtain ⟨left, derives⟩ := h
  refine ⟨left ++ front, ?_⟩
  simpa [body] using derives.open_rule mem

end EndsWith

namespace Analysis

variable {rules : List (Rule V)} {start n : NonTerminal} {eos t : Terminal}

/-! ### One rule -/

theorem exists_split_cons {x y : Symbol} {rest : List Symbol} {P : List Symbol → Prop} :
    (∃ front back, x :: rest = front ++ y :: back ∧ P back) ↔
      x = y ∧ P rest ∨ ∃ front back, rest = front ++ y :: back ∧ P back := by
  constructor
  · rintro ⟨front, back, split, h⟩
    cases front with
    | nil =>
      obtain ⟨same, rfl⟩ := List.cons.inj split
      exact .inl ⟨same, h⟩
    | cons z front =>
      obtain ⟨-, rfl⟩ := List.cons.inj split
      exact .inr ⟨front, back, rfl, h⟩
  · rintro (⟨rfl, h⟩ | ⟨front, back, rfl, h⟩)
    · exact ⟨[], rest, rfl, h⟩
    · exact ⟨x :: front, back, rfl, h⟩

/-- A non-terminal of a body is given what starts the rest behind it, and if that is nullable what
follows the head. -/
theorem mem_followFactsOfBody_iff_split {nullable : OrderedSet NonTerminal}
    {first follow : OrderedSet Fact} {head : NonTerminal} {body : List Symbol} {f : Fact} :
    f ∈ followFactsOfBody nullable first follow head body ↔
      ∃ front back, body = front ++ .nonTerminal f.1 :: back ∧
        (f.2 ∈ firstOfString nullable first back ∨
          nullableString nullable back = true ∧ (head, f.2) ∈ follow) := by
  induction body with
  | nil => simp [followFactsOfBody]
  | cons x body ih =>
    rw [exists_split_cons]
    cases x with
    | terminal u => simpa [followFactsOfBody] using ih
    | nonTerminal m =>
      rw [followFactsOfBody, List.mem_append, ih]
      refine or_congr_left ?_
      obtain ⟨k, u⟩ := f
      by_cases empty : nullableString nullable body = true
      · simp [empty, OrderedSet.mem_def.symm, and_comm]
      · simp [empty, OrderedSet.mem_def.symm, and_comm]

/-! ### What is said is so -/

/-- What follows a non-terminal stands behind it in something derived from the head of a rule, or is
the end of input behind something derived from the start symbol. -/
theorem endsWith_of_mem_followOf (h : (n, t) ∈ followOf rules start eos) :
    (∃ rule ∈ rules, ∃ right, EndsWith rules rule.head n (.terminal t :: right)) ∨
      t = eos ∧ EndsWith rules start n [] := by
  refine OrderedSet.saturate_induction (P := fun f : Fact =>
    (∃ rule ∈ rules, ∃ right, EndsWith rules rule.head f.1 (.terminal f.2 :: right)) ∨
      f.2 = eos ∧ EndsWith rules start f.1 []) ?_ ?_ h
  · intro f hf
    have seed : f = (start, eos) := by simpa using hf
    rw [seed]
    exact .inr ⟨rfl, .refl start⟩
  · intro known sound f hf
    obtain ⟨rule, mem, hf⟩ := List.mem_flatMap.mp hf
    obtain ⟨front, back, body, starts | ⟨empty, inherited⟩⟩ :=
      mem_followFactsOfBody_iff_split.mp hf
    · obtain ⟨right, begins⟩ := mem_firstOfString_iff_derives.mp starts
      have behind := (EndsWith.refl rule.head).open_rule mem body
      rw [List.append_nil] at behind
      exact .inl ⟨rule, mem, right, behind.derive begins⟩
    · have vanishes := nullableString_iff_derives.mp empty
      have pass {x : NonTerminal} {behind : List Symbol}
          (h : EndsWith rules x rule.head behind) : EndsWith rules x f.1 behind :=
        (h.open_rule mem body).derive (vanishes.concat .refl)
      rcases sound _ inherited with ⟨outer, among, right, ends⟩ | ⟨last, ends⟩
      · exact .inl ⟨outer, among, right, pass ends⟩
      · exact .inr ⟨last, pass ends⟩

/-! ### What is so is said -/

theorem seed_mem_followOf (rules : List (Rule V)) (start : NonTerminal) (eos : Terminal) :
    (start, eos) ∈ followOf rules start eos :=
  OrderedSet.mem_saturate_of_mem (OrderedSet.mem_ofList.mpr List.mem_cons_self)

theorem mem_followOf_of_rule {rule : Rule V} (mem : rule ∈ rules) {front back : List Symbol}
    (body : rule.body = front ++ .nonTerminal n :: back)
    (h : t ∈ firstOfString (nullableOf rules) (firstOf rules) back ∨
      nullableString (nullableOf rules) back = true ∧
        (rule.head, t) ∈ followOf rules start eos) :
    (n, t) ∈ followOf rules start eos :=
  followOf_closed rules start eos _ (List.mem_flatMap.mpr
    ⟨rule, mem, mem_followFactsOfBody_iff_split.mpr ⟨front, back, body, h⟩⟩)

/-- Each non-terminal in the string is followed by what starts the rest behind it, and if the rest
is nullable by the terminals that come behind the string. -/
def Followed (rules : List (Rule V)) (follow : OrderedSet Fact) (after : Terminal → Prop)
    (string : List Symbol) : Prop :=
  ∀ left n right, string = left ++ .nonTerminal n :: right → ∀ t,
    t ∈ firstOfString (nullableOf rules) (firstOf rules) right ∨
      nullableString (nullableOf rules) right = true ∧ after t → (n, t) ∈ follow

namespace Followed

variable {after : Terminal → Prop} {string string' : List Symbol}

theorem single (h : ∀ t, after t → (n, t) ∈ followOf rules start eos) :
    Followed rules (followOf rules start eos) after [.nonTerminal n] := by
  intro left m right split t ht
  obtain ⟨rfl, same⟩ := List.append_eq_singleton_iff.mp split.symm |>.resolve_right (by simp)
  obtain ⟨rfl, rfl⟩ : m = n ∧ right = [] := by simpa using same
  rcases ht with starts | ⟨-, behind⟩
  · exact absurd starts (OrderedSet.not_mem_empty t)
  · exact h t behind

/-- It stays so when a non-terminal of the string is replaced by the body of a rule. -/
theorem step (h : Followed rules (followOf rules start eos) after string)
    (produces : Produces rules string string') :
    Followed rules (followOf rules start eos) after string' := by
  obtain ⟨rule, mem, l, r⟩ := produces
  intro left n right split t ht
  rcases exists_of_append_eq split with ⟨rest, early, rfl⟩ | ⟨before, rfl, rfl⟩
  · rcases exists_of_append_eq early with ⟨inner, rfl, rfl⟩ | ⟨front, rfl, body⟩
    · -- in front of what is replaced: what the body gives the head gives too
      have replaced : Produces rules (inner ++ .nonTerminal rule.head :: r)
          (inner ++ rule.body ++ r) := .step rule mem inner r
      refine h left n (inner ++ .nonTerminal rule.head :: r) (by simp) t (ht.imp ?_ ?_)
      · rw [mem_firstOfString_iff_derives, mem_firstOfString_iff_derives]
        exact Exists.imp fun _ begins => .head replaced begins
      · rw [nullableString_iff_derives, nullableString_iff_derives]
        exact And.imp_left fun vanishes => .head replaced vanishes
    · -- in the body: what it is not given by the rest of the body the head is given too
      refine mem_followOf_of_rule mem body ?_
      rw [mem_firstOfString_append, nullableString_append, Bool.and_eq_true] at ht
      have around := h l rule.head r rfl t
      rcases ht with (inside | ⟨empty, behind⟩) | ⟨⟨empty, rest⟩, last⟩
      · exact .inl inside
      · exact .inr ⟨empty, around (.inl behind)⟩
      · exact .inr ⟨empty, around (.inr ⟨rest, last⟩)⟩
  · -- behind what is replaced nothing changes
    exact h (l ++ .nonTerminal rule.head :: before) n right (by simp) t ht

theorem derives (h : Followed rules (followOf rules start eos) after string)
    (derives : Derives rules string string') :
    Followed rules (followOf rules start eos) after string' := by
  induction derives with
  | refl => exact h
  | tail _ produces ih => exact ih.step produces

end Followed

theorem mem_followOf_of_endsWith {x : NonTerminal} {right : List Symbol}
    (h : EndsWith rules x n (.terminal t :: right)) : (n, t) ∈ followOf rules start eos := by
  obtain ⟨left, derives⟩ := h
  have none : Followed rules (followOf rules start eos) (fun _ => False) [.nonTerminal x] :=
    .single fun _ => False.elim
  exact none.derives derives left n _ rfl t (.inl (by simp [firstOfString]))

theorem mem_followOf_of_endsWith_start (h : EndsWith rules start n []) :
    (n, eos) ∈ followOf rules start eos := by
  obtain ⟨left, derives⟩ := h
  have last : Followed rules (followOf rules start eos) (fun t => t = eos) [.nonTerminal start] :=
    .single fun t same => same ▸ seed_mem_followOf rules start eos
  exact last.derives derives left n [] rfl eos (.inr ⟨rfl, rfl⟩)

end Analysis

/-! ### Finished grammars -/

namespace Grammar

variable {g : Grammar V}

theorem mem_first_iff {n : NonTerminal} {t : Terminal} :
    t ∈ g.first n ↔ t ∈ g.firstOfString [.nonTerminal n] := by
  rw [first, Fact.mem_about, firstOfString, Analysis.mem_firstOfString_nonTerminal]
  simp [Analysis.firstOfString]

/-- With the lookahead behind it the string is one string. -/
theorem mem_firstWith_iff {string : List Symbol} {lookahead t : Terminal} :
    t ∈ g.firstWith string lookahead ↔ t ∈ g.firstOfString (string ++ [.terminal lookahead]) := by
  rw [mem_firstWith, firstOfString, firstOfString, Analysis.mem_firstOfString_append]
  simp [Analysis.firstOfString, nullableString]

/-- A non-terminal is nullable just if it derives the empty string. -/
theorem isNullable_iff_derives_nil (b : Builder V) (n : NonTerminal) :
    b.build.isNullable n = true ↔ Derives b.build.rules [.nonTerminal n] [] := by
  have single : b.build.nullableString [.nonTerminal n] = b.build.isNullable n := Bool.and_true _
  rw [← single]
  exact Analysis.nullableString_iff_derives

/-- What starts a non-terminal or a string of symbols of the grammar is what begins something that
it derives, and so it is with a lookahead behind the string. All of it can be looked up. -/
theorem first_exact (b : Builder V) :
    (∀ n, b.build.symbols.owns (.nonTerminal n) = true →
      ∃ starts, (b.build.analysed n).map b.build.first = .ok starts ∧ ∀ t, t ∈ starts ↔
        ∃ rest, Derives b.build.rules [.nonTerminal n] (.terminal t :: rest)) ∧
    ∀ string, (∀ x ∈ string, b.build.symbols.owns x = true) →
      (∃ starts, b.build.firstOfString? string = .ok starts ∧ ∀ t, t ∈ starts ↔
        ∃ rest, Derives b.build.rules string (.terminal t :: rest)) ∧
      ∀ lookahead, ∃ starts, b.build.firstWith? string lookahead = .ok starts ∧ ∀ t, t ∈ starts ↔
        ∃ rest, Derives b.build.rules (string ++ [.terminal lookahead]) (.terminal t :: rest) := by
  have exactly (string : List Symbol) (t : Terminal) : t ∈ b.build.firstOfString string ↔
      ∃ rest, Derives b.build.rules string (.terminal t :: rest) :=
    Analysis.mem_firstOfString_iff_derives
  refine ⟨fun n owned => ⟨b.build.first n, ?_, fun t => ?_⟩, fun string owned => ⟨?_, ?_⟩⟩
  · rw [analysed, if_pos owned]
    rfl
  · rw [mem_first_iff, exactly]
  · exact ⟨_, firstOfString?_eq_ok owned, exactly string⟩
  · refine fun lookahead => ⟨_, firstWith?_eq_ok owned lookahead, fun t => ?_⟩
    rw [mem_firstWith_iff, exactly]

/-- What follows a non-terminal of the grammar is what stands right behind it in something that some
non-terminal derives, and the end of input if something that the start symbol derives ends with
it. -/
theorem follow_exact [SemanticValue V] {b : Builder V} (authored : b.Authored) {n : NonTerminal}
    (owned : b.build.symbols.owns (.nonTerminal n) = true) :
    ∃ behind, (b.build.analysed n).map b.build.follow = .ok behind ∧ ∀ t, t ∈ behind ↔
      (∃ x left right, b.build.symbols.owns (.nonTerminal x) = true ∧
        Derives b.build.rules [.nonTerminal x]
          (left ++ .nonTerminal n :: .terminal t :: right)) ∨
      t = b.build.eos ∧
        ∃ left, Derives b.build.rules [.nonTerminal b.build.start] (left ++ [.nonTerminal n]) := by
  refine ⟨b.build.follow n, by rw [analysed, if_pos owned]; rfl, fun t => ?_⟩
  have said : t ∈ b.build.follow n ↔
      (n, t) ∈ Analysis.followOf b.build.rules b.build.start b.build.eos := Fact.mem_about
  rw [said]
  constructor
  · intro follows
    rcases Analysis.endsWith_of_mem_followOf follows with ⟨rule, mem, right, left, ends⟩ | last
    · exact .inl ⟨rule.head, left, right, authored.wellFormed.head_owned rule mem, ends⟩
    · exact .inr last
  · rintro (⟨x, left, right, _, ends⟩ | ⟨rfl, ends⟩)
    · exact Analysis.mem_followOf_of_endsWith ⟨left, ends⟩
    · exact Analysis.mem_followOf_of_endsWith_start ends

end Grammar

namespace Vanishing

/-- Two non-terminals that may derive the empty string stand one behind the other before a terminal
and at the end, and one that derives nothing at all stands behind what they follow. -/
def builder : Builder Value :=
  Command.runAll
    [.terminal "a", .terminal "b", .terminal "c",
      .nonTerminal "A", .nonTerminal "B", .nonTerminal "C", .nonTerminal "D", .nonTerminal "U",
      .setStart (.name "D") {},
      .rule (.name "D") [.name "C", .name "A", .name "B"] {},
      .rule (.name "C") [.name "A", .name "B", .name "c"] {},
      .rule (.name "C") [.name "C", .name "U"] {},
      .rule (.name "A") [.name "a"] {}, .rule (.name "A") [] {},
      .rule (.name "B") [.name "b"] {}, .rule (.name "B") [] {}]
    ⟨⟨⟨0⟩, [⟨Builder.defaultStart, .start⟩, ⟨Builder.defaultEos, .eos⟩]⟩, []⟩

theorem authored : builder.Authored :=
  ⟨⟨0⟩, Builder.defaultStart, Builder.defaultEos, _, _, rfl, rfl⟩

/-- The terminal `a`, `b` or `c`. -/
def letter (i : Nat) : Terminal := ⟨⟨0⟩, i + 2⟩

/-- The non-terminal `A`, `B`, `C`, `D` or `U`. -/
def category (i : Nat) : NonTerminal := ⟨⟨0⟩, i + 5⟩

def string : List Symbol := [.nonTerminal (category 0), .nonTerminal (category 1)]

/-- Before a `c` the two non-terminals let all three letters come first. -/
theorem first_before_letter :
    (∀ x ∈ string, builder.build.symbols.owns x = true) ∧
    ∀ t, t ∈ [letter 0, letter 1, letter 2] ↔
      ∃ rest, Derives builder.build.rules (string ++ [.terminal (letter 2)])
        (.terminal t :: rest) := by
  have owned : ∀ x ∈ string, builder.build.symbols.owns x = true := by decide +kernel
  obtain ⟨starts, found, exactly⟩ := ((Grammar.first_exact builder).2 string owned).2 (letter 2)
  have same : (builder.build.firstWith? string (letter 2)).toOption.map OrderedSet.toList =
      some [letter 0, letter 1, letter 2] := by decide +kernel
  rw [found] at same
  refine ⟨owned, fun t => ?_⟩
  rw [← exactly, OrderedSet.mem_def, Option.some.inj same]

/-- The first of the two is followed by all letters but its own, and by the end of input. -/
theorem followed_through_vanishing :
    builder.build.symbols.owns (.nonTerminal (category 0)) = true ∧
    ∀ t, t ∈ [builder.build.eos, letter 1, letter 2] ↔
      (∃ x left right, builder.build.symbols.owns (.nonTerminal x) = true ∧
        Derives builder.build.rules [.nonTerminal x]
          (left ++ .nonTerminal (category 0) :: .terminal t :: right)) ∨
      t = builder.build.eos ∧ ∃ left,
        Derives builder.build.rules [.nonTerminal builder.build.start]
          (left ++ [.nonTerminal (category 0)]) := by
  have owned : builder.build.symbols.owns (.nonTerminal (category 0)) = true := by decide +kernel
  obtain ⟨behind, found, exactly⟩ := Grammar.follow_exact authored owned
  have same : ((builder.build.analysed (category 0)).map
      builder.build.follow).toOption.map OrderedSet.toList =
        some [builder.build.eos, letter 1, letter 2] := by decide +kernel
  rw [found] at same
  refine ⟨owned, fun t => ?_⟩
  rw [← exactly, OrderedSet.mem_def, Option.some.inj same]

end Vanishing

end CanonicalLR
