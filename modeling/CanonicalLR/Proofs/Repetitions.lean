import CanonicalLR.Proofs.Synthesis
import CanonicalLR.Proofs.Unfoldings
import CanonicalLR.Series
import CanonicalLR.Value

/-!
The trees of a repetition. The rules that are written for it let a tree end or go on
with one more member, so its trees are the lists of their members; and as every
member is put in front of the list of the later ones, the value is the list of the
members' values in their order.
-/
namespace CanonicalLR

open Combinator

variable {V : Type} [SemanticValue V]

/-! ### What is written -/

namespace Builder

/-- The builder in which the empty repetition is written. -/
def withEmptyStar (b : Builder V) : Builder V :=
  (b.withHead "star").withRule b.newHead [] emptyList

/-- The builder in which a star is written. -/
def withStar (b : Builder V) (x : Symbol) : Builder V :=
  b.withEmptyStar.withRule b.newHead [x, .nonTerminal b.newHead] itemThenList

/-- The builder in which a plus is written. -/
def withPlus (b : Builder V) (x : Symbol) : Builder V :=
  ((b.withStar x).withHead "plus").withRule (b.withStar x).newHead [x, .nonTerminal b.newHead]
    itemThenList

variable {b : Builder V} {x : Symbol} {ref : SymbolRef}

theorem usable_star (b : Builder V) (x : Symbol) :
    (b.withStar x).Usable (.nonTerminal b.newHead) :=
  (b.usable_newHead "star").withRule.withRule

theorem Usable.withStar {y : Symbol} (h : b.Usable y) (x : Symbol) : (b.withStar x).Usable y :=
  (h.withHead "star").withRule.withRule

theorem apply_star (resolved : b.symbols.resolve ref = .ok x) (usable : b.Usable x) :
    (Combinator.star ref).apply b = (.ok b.newHead, b.withStar x) := by
  have head := b.usable_newHead "star"
  have head' : b.withEmptyStar.Usable (.nonTerminal b.newHead) := head.withRule
  have stops : (produce b.newHead [] emptyList).apply (b.withHead "star") =
      (.ok ⟨⟩, b.withEmptyStar) := apply_produce emptyList head.owned (by simp)
  have goes : (produce b.newHead [x, .nonTerminal b.newHead] itemThenList).apply b.withEmptyStar =
      (.ok ⟨⟩, b.withStar x) :=
    apply_produce itemThenList head'.owned
      (by simpa using ⟨(usable.withHead "star").withRule, head'⟩)
  simp only [Combinator.star, Authoring.apply_bind, apply_resolve, resolved, apply_fresh, stops,
    goes, Authoring.apply_pure]

theorem apply_plus (resolved : b.symbols.resolve ref = .ok x) (usable : b.Usable x) :
    (plus ref).apply b = (.ok (b.withStar x).newHead, b.withPlus x) := by
  have again : b.symbols.resolve (.handle x) = .ok x :=
    SymbolTable.resolve_handle_eq_ok_iff.mpr ⟨usable.owned, rfl⟩
  have goes : (produce (b.withStar x).newHead [x, .nonTerminal b.newHead] itemThenList).apply
      ((b.withStar x).withHead "plus") = (.ok ⟨⟩, b.withPlus x) :=
    apply_produce itemThenList ((b.withStar x).usable_newHead "plus").owned
      (by simpa using ⟨(usable.withStar x).withHead "plus", (b.usable_star x).withHead "plus"⟩)
  simp only [plus, Authoring.apply_bind, apply_resolve, resolved, apply_star again usable,
    apply_fresh, goes, Authoring.apply_pure]

/-! ### The new rules -/

theorem rulesOf_withStar (wf : b.WellFormed) :
    (b.withStar x).build.rulesOf b.newHead =
      [(b.withHead "star").newRule b.newHead [] emptyList,
        b.withEmptyStar.newRule b.newHead [x, .nonTerminal b.newHead] itemThenList] := by
  simp [Builder.withStar, withEmptyStar, rulesOf_newHead wf]

theorem newHead_withStar_ne : (b.withStar x).newHead ≠ b.newHead := newHead_withHead_ne

theorem rulesOf_withPlus_star :
    (b.withPlus x).build.rulesOf b.newHead = (b.withStar x).build.rulesOf b.newHead := by
  simp [withPlus, newHead_withStar_ne]

theorem rulesOf_withPlus (wf : b.WellFormed) :
    (b.withPlus x).build.rulesOf (b.withStar x).newHead =
      [((b.withStar x).withHead "plus").newRule (b.withStar x).newHead
        [x, .nonTerminal b.newHead] itemThenList] := by
  have none : (b.withStar x).build.rulesOf (b.withStar x).newHead = [] := by
    simp [Builder.withStar, withEmptyStar, rulesOf_newHead_withHead wf, newHead_withHead_ne.symm]
  simp [withPlus, none]

end Builder

/-! ### The trees -/

namespace Grammar

variable {g : Grammar V} {n rest : NonTerminal} {x : Symbol} {stop go : Rule V}

section

variable (stops : stop.Makes g.rules n [] emptyList)
  (goes : go.Makes g.rules n [x, .nonTerminal n] itemThenList)

/-- The tree that repeats these members. -/
def repetition (members : List (Tree g.rules x)) : Tree g.rules (.nonTerminal n) :=
  members.foldr (fun member rest => .root goes (.cons member (.cons rest .nil))) (.root stops .nil)

theorem tokens_repetition (members : List (Tree g.rules x)) :
    (repetition stops goes members).tokens = members.flatMap Tree.tokens := by
  induction members with
  | nil => simp [repetition, Forest.tokens]
  | cons member members ih =>
    simp only [repetition] at ih
    simp [repetition, Forest.tokens, ih]

theorem value_repetition [LawfulSemanticValue V] (members : List (Tree g.rules x)) :
    (repetition stops goes members).value = SemanticValue.list (members.map Tree.value) := by
  induction members with
  | nil => simp [repetition, emptyList]
  | cons member members ih =>
    simp only [repetition] at ih
    simp [repetition, Forest.values, itemThenList, push, ih]

theorem unfolds_repetition (rules : g.rulesOf n = [stop, go]) :
    Unfolds (fun tree => tree.moves.length) (fun _ : Unit => Tree.root stops .nil)
      fun member rest => Tree.root goes (.cons member (.cons rest .nil)) := by
  refine Tree.unfolds rules stops goes nofun Forest.nil_bijective ⟨?_, ?_⟩ fun _ _ => ?_
  · rintro ⟨member, rest⟩ ⟨member', rest'⟩ same
    cases same
    rfl
  · intro children
    match children with
    | .cons member (.cons rest .nil) => exact ⟨(member, rest), rfl⟩
  · simp only [Forest.moves, List.length_append]
    omega

theorem repetition_bijective (rules : g.rulesOf n = [stop, go]) :
    Function.Bijective (repetition stops goes) := by
  have unfolds := (unfolds_repetition stops goes rules).foldr_bijective
  exact unfolds.comp (Equiv.punitProd _).symm.bijective

end

variable [LawfulSemanticValue V]

theorem repeats_star (rules : g.rulesOf n = [stop, go]) (stops : stop.Makes g.rules n [] emptyList)
    (goes : go.Makes g.rules n [x, .nonTerminal n] itemThenList) : g.Repeats n x 0 := by
  have one := repetition_bijective stops goes rules
  refine ⟨fun members => repetition stops goes members.1, ⟨?_, ?_⟩, fun members =>
    ⟨tokens_repetition stops goes members.1, value_repetition stops goes members.1⟩⟩
  · intro members members' same
    exact Subtype.ext (one.injective same)
  · intro tree
    obtain ⟨members, same⟩ := one.surjective tree
    exact ⟨⟨members, Nat.zero_le _⟩, same⟩

/-- One member and then any number of them are at least one. -/
theorem repeats_plus (star : g.Repeats rest x 0) (rules : g.rulesOf n = [go])
    (goes : go.Makes g.rules n [x, .nonTerminal rest] itemThenList) : g.Repeats n x 1 := by
  obtain ⟨tree, one, content⟩ := star
  have some (members : {members : List (Tree g.rules x) // 1 ≤ members.length}) :
      members.1 ≠ [] := List.ne_nil_of_length_pos members.2
  refine ⟨fun members => .root goes (.cons (members.1.head (some members))
    (.cons (tree ⟨members.1.tail, Nat.zero_le _⟩) .nil)), ⟨?_, ?_⟩, ?_⟩
  · intro members members' same
    have children := Tree.root_injective goes same
    simp only [Forest.cons.injEq, and_true] at children
    obtain ⟨heads, trees⟩ := children
    have tails : members.1.tail = members'.1.tail := congrArg Subtype.val (one.injective trees)
    apply Subtype.ext
    rw [← List.cons_head_tail (some members), ← List.cons_head_tail (some members'), heads, tails]
  · intro t
    obtain ⟨rule, mem, made⟩ := t.exists_root
    rw [rules] at mem
    obtain rfl := List.mem_singleton.mp mem
    obtain ⟨children, rfl⟩ := made goes
    match children with
    | .cons first (.cons later .nil) =>
      obtain ⟨members, rfl⟩ := one.surjective later
      exact ⟨⟨first :: members.1, by simp⟩, rfl⟩
  · rintro ⟨members, positive⟩
    cases members with
    | nil => cases positive
    | cons first later =>
      obtain ⟨tokens, value⟩ := content ⟨later, Nat.zero_le _⟩
      simp [Forest.tokens, Forest.values, itemThenList, push, tokens, value]

/-- A grammar with the rules that were written for a star repeats its symbol. -/
theorem repeats_of_withStar {b : Builder V} (wf : b.WellFormed)
    (kept : g.rulesOf b.newHead = (b.withStar x).build.rulesOf b.newHead) :
    g.Repeats b.newHead x 0 := by
  rw [Builder.rulesOf_withStar wf] at kept
  apply repeats_star kept
  · exact .of_rulesOf (by simp only [kept, List.mem_cons, true_or]) rfl rfl
  · exact .of_rulesOf (by simp only [kept, List.mem_cons, true_or, or_true]) rfl rfl

/-- A star repeats its symbol any number of times and a plus at least once, whatever the builder and
the symbol, as long as that is not the end of input: the derivation trees are the sequences of trees
of the symbol, with the list of their values as value. -/
theorem repetitions_exact {b : Builder V} (authored : b.Authored) {ref : SymbolRef}
    (resolved : b.symbols.resolve ref = .ok x) (inner : x ≠ .terminal b.eos) :
    (Combinator.star ref).Establishes b (fun g n => g.Repeats n x 0) ∧
      (Combinator.plus ref).Establishes b fun g n => g.Repeats n x 1 := by
  have wf := authored.wellFormed
  have usable : b.Usable x := ⟨SymbolTable.owns_of_resolve resolved, inner⟩
  constructor
  · refine ⟨b.newHead, b.withStar x, Builder.apply_star resolved usable, fun commands keeps => ?_⟩
    apply repeats_of_withStar wf
    exact keeps b.newHead (b.usable_star x).owned b.not_owns_newHead
  · refine ⟨(b.withStar x).newHead, b.withPlus x, Builder.apply_plus resolved usable,
      fun commands keeps => ?_⟩
    have star := keeps b.newHead ((b.usable_star x).withHead "plus").withRule.owned
      b.not_owns_newHead
    have plus := keeps (b.withStar x).newHead
      ((b.withStar x).usable_newHead "plus").withRule.owned
      (Builder.not_owns_of_le (Nat.le_of_lt (b.newHead_lt_withHead "star")))
    rw [Builder.rulesOf_withPlus_star] at star
    rw [Builder.rulesOf_withPlus wf] at plus
    apply repeats_plus (repeats_of_withStar wf star) plus
    exact .of_rulesOf (by simp only [plus, List.mem_cons, true_or]) rfl rfl

end Grammar

namespace Letters

/-- There is a terminal that has the name of a repetition. -/
def builder : Builder Value :=
  Command.runAll [.terminal "a", .terminal "star"]
    ⟨⟨⟨0⟩, [⟨Builder.defaultStart, .start⟩, ⟨Builder.defaultEos, .eos⟩]⟩, []⟩

theorem authored : builder.Authored :=
  ⟨⟨0⟩, Builder.defaultStart, Builder.defaultEos, _, _, rfl, rfl⟩

def letter : Symbol := .terminal ⟨⟨0⟩, 2⟩

theorem resolved : builder.symbols.resolve (.name "a") = .ok letter := rfl

/-- The builder after the call, with a start rule added. -/
def finished (call : Authoring Value NonTerminal) (start : SymbolRef) : Builder Value :=
  Command.runAll [.setStart start {}] (call.apply builder).2

theorem keepsNew {call : Authoring Value NonTerminal} {start : SymbolRef} {rule : Rule Value}
    (rules : (finished call start).rules = (call.apply builder).2.rules ++ [rule])
    (head : rule.head = builder.start) :
    builder.KeepsNew (call.apply builder).2 (finished call start) := by
  apply Builder.KeepsNew.of_concat rules
  rw [head]
  decide

theorem letters_repeated :
    builder.Authored ∧
      (finished (Combinator.star (.name "a")) (.name "star#1")).build.Repeats ⟨⟨0⟩, 4⟩ letter 0 ∧
      (finished (Combinator.plus (.name "a")) (.name "plus")).build.Repeats ⟨⟨0⟩, 5⟩ letter 1 := by
  obtain ⟨⟨n, b, ran, star⟩, ⟨n', b', ran', plus⟩⟩ :=
    Grammar.repetitions_exact authored resolved (by decide)
  obtain rfl : _ = b := congrArg Prod.snd ran
  obtain rfl : _ = b' := congrArg Prod.snd ran'
  obtain rfl : ⟨⟨0⟩, 4⟩ = n := Except.ok.inj (congrArg Prod.fst ran)
  obtain rfl : ⟨⟨0⟩, 5⟩ = n' := Except.ok.inj (congrArg Prod.fst ran')
  exact ⟨authored, star _ (keepsNew rfl rfl), plus _ (keepsNew rfl rfl)⟩

end Letters

end CanonicalLR
