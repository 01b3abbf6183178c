import CanonicalLR.Derivation
import CanonicalLR.DerivationTree

/-!
Derivations put together and taken apart, and their trees: a forest derives what it
yields, and every string of terminals that is derived is the yield of a forest.
-/
namespace CanonicalLR

variable {V : Type} {rules : List (Rule V)}

theorem mem_terminalString {t : Terminal} {ts : List Terminal} :
    Symbol.terminal t ∈ terminalString ts ↔ t ∈ ts := by
  simp [terminalString]

/-- A symbol of two strings in a row is in the one or in the other. -/
theorem exists_of_append_eq {s t front back : List Symbol} {x : Symbol}
    (h : s ++ t = front ++ x :: back) :
    (∃ after, s = front ++ x :: after ∧ back = after ++ t) ∨
      ∃ before, front = s ++ before ∧ t = before ++ x :: back := by
  rcases List.append_eq_append_iff.mp h with ⟨before, rfl, split⟩ | ⟨after, rfl, split⟩
  · exact .inr ⟨before, rfl, split⟩
  · cases after with
    | nil => exact .inr ⟨[], by simp, split.symm⟩
    | cons y after =>
      rw [List.cons_append, List.cons.injEq] at split
      exact .inl ⟨after, by rw [split.1], split.2⟩

namespace Derives

variable {s t u left right : List Symbol}

theorem of_rule {rule : Rule V} (mem : rule ∈ rules) :
    Derives rules [.nonTerminal rule.head] rule.body := by
  have h := Produces.step rule mem [] []
  simp only [List.nil_append, List.append_nil] at h
  exact .single h

/-- Two strings side by side derive what they derive, side by side. -/
theorem concat {s' t' : List Symbol} (h : Derives rules s t) (h' : Derives rules s' t') :
    Derives rules (s ++ s') (t ++ t') := by
  have first := h.append [] s'
  have second := h'.append t []
  simp only [List.nil_append, List.append_nil] at first second
  exact first.trans second

/-- A part of a derived string may be derived further. -/
theorem splice (h : Derives rules s (left ++ t ++ right)) (h' : Derives rules t u) :
    Derives rules s (left ++ u ++ right) :=
  h.trans (h'.append left right)

theorem open_rule {rule : Rule V} (mem : rule ∈ rules)
    (h : Derives rules s (left ++ .nonTerminal rule.head :: right)) :
    Derives rules s (left ++ rule.body ++ right) :=
  h.tail (.step rule mem left right)

/-- What holds of all symbols of a string and of all bodies holds of all symbols derived. -/
theorem forall_mem {P : Symbol → Prop} (h : Derives rules s t)
    (bodies : ∀ rule ∈ rules, ∀ x ∈ rule.body, P x) (start : ∀ x ∈ s, P x) : ∀ x ∈ t, P x := by
  induction h with
  | refl => exact start
  | tail _ step ih =>
    cases step with
    | step rule mem l r =>
      intro x hx
      simp only [List.mem_append] at hx
      rcases hx with (hx | hx) | hx
      · exact ih x (by simp [hx])
      · exact bodies rule mem x hx
      · exact ih x (by simp [hx])

/-- After a first replacement, what holds of all bodies holds of all symbols derived. -/
theorem eq_or_forall_mem {P : Symbol → Prop} {x : Symbol} (h : Derives rules [x] t)
    (bodies : ∀ rule ∈ rules, ∀ x ∈ rule.body, P x) : t = [x] ∨ ∀ x ∈ t, P x := by
  rcases Relation.ReflTransGen.cases_head h with rfl | ⟨s, first, rest⟩
  · exact .inl rfl
  · refine .inr (forall_mem rest bodies ?_)
    generalize hx : [x] = string at first
    cases first with
    | step rule mem l r =>
      -- A string of one symbol has nothing beside the one that is replaced.
      have bare : l = [] ∧ r = [] := by
        have := congrArg List.length hx
        simp only [List.length_append, List.length_cons, List.length_nil] at this
        exact ⟨List.length_eq_zero_iff.mp (by omega), List.length_eq_zero_iff.mp (by omega)⟩
      rw [bare.1, bare.2]
      simpa using bodies rule mem

end Derives

/-! ### Trees -/

theorem Forest.yield_cons {s : Symbol} {string : List Symbol} (tree : Tree rules s)
    (rest : Forest rules string) : (Forest.cons tree rest).yield = tree.yield ++ rest.yield :=
  List.map_append

mutual

/-- A tree shows how its root derives its yield. -/
theorem Tree.derives : ∀ {s : Symbol} (tree : Tree rules s),
    Derives rules [s] (terminalString tree.yield)
  | _, .leaf token => .refl
  | _, .node rule mem children => (Derives.of_rule mem).trans children.derives

theorem Forest.derives : ∀ {string : List Symbol} (forest : Forest rules string),
    Derives rules string (terminalString forest.yield)
  | _, .nil => .refl
  | _, .cons tree rest => by
    have h := tree.derives.concat rest.derives
    rw [← terminalString_append, ← Forest.yield_cons] at h
    exact h

end

mutual

/-- A tree also tells how to derive its yield at the last non-terminal each time, whatever stands
before it and whatever terminals behind it: the last child is derived first. -/
theorem Tree.derivesLast : ∀ {s : Symbol} (tree : Tree rules s) (left : List Symbol)
    (right : List Terminal), DerivesLast rules (left ++ s :: terminalString right)
      (left ++ terminalString (tree.yield ++ right))
  | _, .leaf token, left, right => .refl
  | _, .node rule mem children, left, right => by
    have first := ProducesLast.step rule mem left right
    exact (Relation.ReflTransGen.single first).trans (children.derivesLast left right)

theorem Forest.derivesLast : ∀ {string : List Symbol} (forest : Forest rules string)
    (left : List Symbol) (right : List Terminal),
    DerivesLast rules (left ++ string ++ terminalString right)
      (left ++ terminalString (forest.yield ++ right))
  | _, .nil, left, right => by
    rw [List.append_nil]
    exact .refl
  | x :: _, .cons tree rest, left, right => by
    have later := rest.derivesLast (left ++ [x]) right
    have first := tree.derivesLast left (rest.yield ++ right)
    rw [Forest.yield_cons, List.append_assoc tree.yield]
    simp only [List.append_assoc, List.cons_append] at later ⊢
    exact later.trans first

end

namespace Forest

def append : {s t : List Symbol} → Forest rules s → Forest rules t → Forest rules (s ++ t)
  | _, _, .nil, other => other
  | _, _, .cons tree rest, other => .cons tree (rest.append other)

@[simp] theorem tokens_append {s t : List Symbol} (forest : Forest rules s)
    (other : Forest rules t) : (forest.append other).tokens = forest.tokens ++ other.tokens := by
  induction s with
  | nil => cases forest; rfl
  | cons x s ih =>
    cases forest with
    | cons tree rest => simp only [append, tokens, ih, List.append_assoc]

@[simp] theorem calls_append {s t : List Symbol} (forest : Forest rules s)
    (other : Forest rules t) : (forest.append other).calls = forest.calls ++ other.calls := by
  induction s with
  | nil => cases forest; rfl
  | cons x s ih =>
    cases forest with
    | cons tree rest => simp only [append, calls, ih, List.append_assoc]

@[simp] theorem values_append [SemanticValue V] {s t : List Symbol} (forest : Forest rules s)
    (other : Forest rules t) : (forest.append other).values = forest.values ++ other.values := by
  induction s with
  | nil => cases forest; rfl
  | cons x s ih =>
    cases forest with
    | cons tree rest => simp only [append, values, ih, List.cons_append]

@[simp] theorem length_values [SemanticValue V] {s : List Symbol} (forest : Forest rules s) :
    forest.values.length = s.length := by
  induction s with
  | nil => cases forest; rfl
  | cons x s ih =>
    cases forest with
    | cons tree rest => simp only [values, List.length_cons, ih]

/-- The trees over the one part of a string, and those over the other. -/
theorem exists_append {s t : List Symbol} (forest : Forest rules (s ++ t)) :
    ∃ (first : Forest rules s) (second : Forest rules t), forest = first.append second := by
  induction s with
  | nil => exact ⟨.nil, forest, rfl⟩
  | cons x s ih =>
    cases forest with
    | cons tree rest =>
      obtain ⟨first, second, h⟩ := ih rest
      exact ⟨.cons tree first, second, by rw [h]; rfl⟩

theorem exists_tree [SemanticValue V] {string : List Symbol} {x : Symbol}
    (forest : Forest rules string) (single : string = [x]) :
    ∃ tree : Tree rules x, tree.tokens = forest.tokens ∧ forest.values = [tree.value] ∧
      tree.calls = forest.calls := by
  subst single
  cases forest with
  | cons tree rest =>
    cases rest
    exact ⟨tree, by simp [tokens], by simp [values], by simp [calls]⟩

/-- A token stands for the tree that is its leaf. -/
theorem exists_leaves (tokens : List (Token V)) :
    ∃ forest : Forest rules (terminalString (tokens.map Prod.fst)), forest.tokens = tokens := by
  induction tokens with
  | nil => exact ⟨.nil, rfl⟩
  | cons token tokens ih =>
    obtain ⟨forest, h⟩ := ih
    refine ⟨.cons (.leaf token) forest, ?_⟩
    change [token] ++ forest.tokens = token :: tokens
    rw [h, List.singleton_append]

/-- Whatever derives the terminals of the tokens has a forest with these tokens for its leaves. -/
theorem exists_of_derives {string : List Symbol} {tokens : List (Token V)}
    (h : Derives rules string (terminalString (tokens.map Prod.fst))) :
    ∃ forest : Forest rules string, forest.tokens = tokens := by
  induction h using Relation.ReflTransGen.head_induction_on with
  | refl => exact exists_leaves tokens
  | head step _ ih =>
    obtain ⟨forest, hf⟩ := ih
    cases step with
    | step rule mem left right =>
      obtain ⟨front, after, split⟩ := forest.exists_append
      obtain ⟨before, children, split'⟩ := front.exists_append
      refine ⟨before.append (.cons (.node rule mem children) after), ?_⟩
      rw [← hf, split, split']
      simp only [tokens_append, Forest.tokens, Tree.tokens, List.append_assoc]

/-- What holds of all symbols of a string and of all bodies holds of the leaves of its forests. -/
theorem forall_tokens {P : Symbol → Prop} {string : List Symbol} (forest : Forest rules string)
    (bodies : ∀ rule ∈ rules, ∀ x ∈ rule.body, P x) (start : ∀ x ∈ string, P x) :
    ∀ token ∈ forest.tokens, P (.terminal token.1) := fun token member =>
  forest.derives.forall_mem bodies start _
    (mem_terminalString.mpr (List.mem_map.mpr ⟨token, member, rfl⟩))

end Forest

end CanonicalLR
