import CanonicalLR.Proofs.Synthesis
import CanonicalLR.Proofs.Unfoldings
import CanonicalLR.Series
import CanonicalLR.Value

/-!
The trees of a separated series. One new non-terminal holds what comes behind the first
item: it grows to the left, each time with a separator and an item in front of the
later ones, so its value is the list of the later items' values in their order. The
other non-terminal puts the first item in front of that and makes a sequence of it, and
it may be empty where the flag allows it.
-/
namespace CanonicalLR

open Combinator

variable {V : Type} [SemanticValue V]

/-! ### What is written -/

namespace Builder

section

variable (b : Builder V) (item separator : Symbol) (atLeastOne : Bool)

/-- The builder in which it is written that nothing comes behind the first item. -/
def withEmptyTail : Builder V :=
  (b.withHead "sep_tail").withRule b.newHead [] emptyList

/-- The builder in which all that can come behind the first item is written. -/
def withTail : Builder V :=
  b.withEmptyTail.withRule b.newHead [separator, item, .nonTerminal b.newHead] separatorItemList

/-- The builder in which the series of at least one item are written. -/
def withSeries : Builder V :=
  ((b.withTail item separator).withHead "sep").withRule (b.withTail item separator).newHead
    [item, .nonTerminal b.newHead] itemThenSequence

/-- The builder in which a separated series is written. -/
def withSeparated : Builder V :=
  (b.withSeries item separator).withRuleIf (!atLeastOne) (b.withTail item separator).newHead []
    emptySequence

end

variable {b : Builder V} {item separator x : Symbol} {itemRef separatorRef : SymbolRef}
  {atLeastOne : Bool}

theorem Usable.withTail (h : b.Usable x) (item separator : Symbol) :
    (b.withTail item separator).Usable x :=
  (h.withHead "sep_tail").withRule.withRule

theorem usable_tail (b : Builder V) (item separator : Symbol) :
    (b.withTail item separator).Usable (.nonTerminal b.newHead) :=
  (b.usable_newHead "sep_tail").withRule.withRule

theorem Usable.withSeparated (h : ((b.withTail item separator).withHead "sep").Usable x) :
    (b.withSeparated item separator atLeastOne).Usable x :=
  h.withRule.withRuleIf

theorem apply_separated (resolvedItem : b.symbols.resolve itemRef = .ok item)
    (resolvedSeparator : b.symbols.resolve separatorRef = .ok separator)
    (usableItem : b.Usable item) (usableSeparator : b.Usable separator) :
    (Combinator.separated itemRef separatorRef atLeastOne).apply b =
      (.ok (b.withTail item separator).newHead, b.withSeparated item separator atLeastOne) := by
  have tail := b.usable_newHead "sep_tail"
  have stops : (produce b.newHead [] emptyList).apply (b.withHead "sep_tail") =
      (.ok ⟨⟩, b.withEmptyTail) := apply_produce emptyList tail.owned (by simp)
  have goes : (produce b.newHead [separator, item, .nonTerminal b.newHead]
      separatorItemList).apply b.withEmptyTail = (.ok ⟨⟩, b.withTail item separator) :=
    apply_produce separatorItemList tail.withRule.owned
      (by simpa using ⟨(usableSeparator.withHead "sep_tail").withRule,
        (usableItem.withHead "sep_tail").withRule, tail.withRule⟩)
  have head := (b.withTail item separator).usable_newHead "sep"
  have series : (produce (b.withTail item separator).newHead [item, .nonTerminal b.newHead]
      itemThenSequence).apply ((b.withTail item separator).withHead "sep") =
      (.ok ⟨⟩, b.withSeries item separator) :=
    apply_produce itemThenSequence head.owned
      (by simpa using ⟨(usableItem.withTail item separator).withHead "sep",
        (b.usable_tail item separator).withHead "sep"⟩)
  have none : (produce (b.withTail item separator).newHead [] emptySequence).apply
      (b.withSeries item separator) = (.ok ⟨⟩, b.withSeparated item separator false) :=
    apply_produce emptySequence head.withRule.owned (by simp)
  simp only [Combinator.separated, Authoring.apply_bind, apply_resolve, resolvedItem,
    resolvedSeparator, apply_fresh, stops, goes, series]
  cases atLeastOne <;>
    simp only [Bool.false_eq_true, if_false, if_true, Authoring.apply_bind, none,
      Authoring.apply_pure]
  all_goals rfl

/-! ### The new rules -/

theorem rulesOf_withTail (wf : b.WellFormed) :
    (b.withTail item separator).build.rulesOf b.newHead =
      [(b.withHead "sep_tail").newRule b.newHead [] emptyList,
        b.withEmptyTail.newRule b.newHead [separator, item, .nonTerminal b.newHead]
          separatorItemList] := by
  simp [withTail, withEmptyTail, rulesOf_newHead wf]

theorem newHead_withTail_ne : (b.withTail item separator).newHead ≠ b.newHead :=
  newHead_withHead_ne

theorem rulesOf_withSeparated_tail :
    (b.withSeparated item separator atLeastOne).build.rulesOf b.newHead =
      (b.withTail item separator).build.rulesOf b.newHead := by
  simp [withSeparated, withSeries, newHead_withTail_ne]

theorem mem_rulesOf_withSeparated (wf : b.WellFormed) {rule : Rule V} :
    rule ∈ (b.withSeparated item separator atLeastOne).build.rulesOf
      (b.withTail item separator).newHead ↔
      rule = ((b.withTail item separator).withHead "sep").newRule
        (b.withTail item separator).newHead [item, .nonTerminal b.newHead] itemThenSequence ∨
      atLeastOne = false ∧ rule = (b.withSeries item separator).newRule
        (b.withTail item separator).newHead [] emptySequence := by
  have none : (b.withTail item separator).build.rulesOf (b.withTail item separator).newHead =
      [] := by
    simp [Builder.withTail, withEmptyTail, rulesOf_newHead_withHead wf, newHead_withHead_ne.symm]
  cases atLeastOne <;> simp [withSeparated, withSeries, none]

end Builder

/-! ### The trees -/

namespace Grammar

variable {g : Grammar V} {n tail : NonTerminal} {item separator : Symbol} {atLeastOne : Bool}
  {stop go r₁ r₂ : Rule V}

section Tail

variable (stops : stop.Makes g.rules tail [] emptyList)
  (goes : go.Makes g.rules tail [separator, item, .nonTerminal tail] separatorItemList)

/-- The tree of what comes behind the first item. -/
def continued (later : List (Tree g.rules separator × Tree g.rules item)) :
    Tree g.rules (.nonTerminal tail) :=
  later.foldr (fun next rest => .root goes (.cons next.1 (.cons next.2 (.cons rest .nil))))
    (.root stops .nil)

theorem tokens_continued (later : List (Tree g.rules separator × Tree g.rules item)) :
    (continued stops goes later).tokens =
      later.flatMap fun next => next.1.tokens ++ next.2.tokens := by
  induction later with
  | nil => simp [continued, Forest.tokens]
  | cons next later ih =>
    simp only [continued] at ih
    simp [continued, Forest.tokens, ih]

theorem value_continued [LawfulSemanticValue V]
    (later : List (Tree g.rules separator × Tree g.rules item)) :
    (continued stops goes later).value =
      SemanticValue.list (later.map fun next => next.2.value) := by
  induction later with
  | nil => simp [continued, emptyList]
  | cons next later ih =>
    simp only [continued] at ih
    simp [continued, Forest.values, separatorItemList, push, ih]

theorem unfolds_continued (rules : g.rulesOf tail = [stop, go]) :
    Unfolds (fun tree => tree.moves.length) (fun _ : Unit => Tree.root stops .nil)
      fun (next : Tree g.rules separator × Tree g.rules item) rest =>
        Tree.root goes (.cons next.1 (.cons next.2 (.cons rest .nil))) := by
  refine Tree.unfolds rules stops goes nofun Forest.nil_bijective ⟨?_, ?_⟩ fun _ _ => ?_
  · rintro ⟨⟨between, next⟩, rest⟩ ⟨⟨between', next'⟩, rest'⟩ same
    cases same
    rfl
  · intro children
    match children with
    | .cons between (.cons next (.cons rest .nil)) => exact ⟨((between, next), rest), rfl⟩
  · simp only [Forest.moves, List.length_append]
    omega

theorem continued_bijective (rules : g.rulesOf tail = [stop, go]) :
    Function.Bijective (continued stops goes) := by
  have unfolds := (unfolds_continued stops goes rules).foldr_bijective
  exact unfolds.comp (Equiv.punitProd _).symm.bijective

end Tail

/-- The rules by which a series begins, or is empty where the flag allows it. -/
structure BegunBy (g : Grammar V) (n tail : NonTerminal) (item : Symbol) (atLeastOne : Bool)
    (r₁ r₂ : Rule V) : Prop where
  nonempty : r₁.Makes g.rules n [item, .nonTerminal tail] itemThenSequence
  empty : atLeastOne = false → r₂.Makes g.rules n [] emptySequence
  cases : ∀ rule ∈ g.rulesOf n, rule = r₁ ∨ atLeastOne = false ∧ rule = r₂

namespace BegunBy

variable (rules : g.BegunBy n tail item atLeastOne r₁ r₂)
  (continued : List (Tree g.rules separator × Tree g.rules item) →
    Tree g.rules (.nonTerminal tail))

/-- The tree of a series, where what comes behind the first item has the tree that is given. -/
def tree : Separation g.rules item separator atLeastOne → Tree g.rules (.nonTerminal n)
  | .nonempty series =>
    .root rules.nonempty (.cons series.first (.cons (continued series.later) .nil))
  | .empty allowed => .root (rules.empty allowed) .nil

theorem tokens_tree
    (tokens : ∀ later, (continued later).tokens =
      later.flatMap fun next => next.1.tokens ++ next.2.tokens)
    (separation : Separation g.rules item separator atLeastOne) :
    (rules.tree continued separation).tokens = separation.tokens := by
  cases separation <;> simp [tree, Separation.tokens, Series.tokens, Forest.tokens, tokens]

theorem value_tree [LawfulSemanticValue V]
    (values : ∀ later, (continued later).value =
      SemanticValue.list (later.map fun next => next.2.value))
    (separation : Separation g.rules item separator atLeastOne) :
    (rules.tree continued separation).value =
      SemanticValue.vec (separation.items.map Tree.value) := by
  cases separation <;>
    simp [tree, Separation.items, Series.items, Forest.values, itemThenSequence, emptySequence,
      values, Function.comp_def]

theorem tree_injective (one : Function.Injective continued) :
    Function.Injective (rules.tree continued) := by
  intro separation separation' same
  cases separation <;> cases separation' <;> simp only [tree] at same
  case nonempty.nonempty series series' =>
    have children := Tree.root_injective _ same
    simp only [Forest.cons.injEq, and_true] at children
    obtain ⟨first, later⟩ := children
    cases series
    cases series'
    cases first
    cases one later
    rfl
  case empty.empty => rfl
  all_goals cases Tree.string_eq_of_root _ _ same

theorem tree_surjective (onto : Function.Surjective continued) :
    Function.Surjective (rules.tree continued) := by
  intro t
  obtain ⟨rule, mem, made⟩ := t.exists_root
  rcases rules.cases rule mem with rfl | ⟨allowed, rfl⟩
  · obtain ⟨children, rfl⟩ := made rules.nonempty
    match children with
    | .cons first (.cons rest .nil) =>
      obtain ⟨later, rfl⟩ := onto rest
      exact ⟨.nonempty ⟨first, later⟩, rfl⟩
  · obtain ⟨children, rfl⟩ := made (rules.empty allowed)
    cases children
    exact ⟨.empty allowed, rfl⟩

/-- The rules that were written for a separated series begin it. -/
theorem exists_of_withSeparated {b : Builder V} (wf : b.WellFormed)
    (kept : g.rulesOf (b.withTail item separator).newHead =
      (b.withSeparated item separator atLeastOne).build.rulesOf
        (b.withTail item separator).newHead) :
    ∃ r₁ r₂, g.BegunBy (b.withTail item separator).newHead b.newHead item atLeastOne r₁ r₂ := by
  have mem (rule : Rule V) := (congrArg (rule ∈ ·) kept).to_iff.trans
    (Builder.mem_rulesOf_withSeparated wf)
  refine ⟨_, _, .of_rulesOf ((mem _).mpr (.inl rfl)) rfl rfl, fun allowed => ?_,
    fun rule among => (mem rule).mp among⟩
  exact .of_rulesOf ((mem _).mpr (.inr ⟨allowed, rfl⟩)) rfl rfl

theorem separates [LawfulSemanticValue V] (rules : g.rulesOf tail = [stop, go])
    (begins : g.BegunBy n tail item atLeastOne r₁ r₂)
    (stops : stop.Makes g.rules tail [] emptyList)
    (goes : go.Makes g.rules tail [separator, item, .nonTerminal tail] separatorItemList) :
    g.Separates n item separator atLeastOne := by
  have one := continued_bijective stops goes rules
  refine ⟨begins.tree (continued stops goes), ⟨?_, ?_⟩, fun separation => ⟨?_, ?_⟩⟩
  · exact begins.tree_injective _ one.injective
  · exact begins.tree_surjective _ one.surjective
  · exact begins.tokens_tree _ (tokens_continued stops goes) separation
  · exact begins.value_tree _ (value_continued stops goes) separation

end BegunBy

/-- The derivation trees of a separated series are series of items and separators in turn, which
begin and end with an item, and nothing at all where no item is needed. The value is the sequence of
the values of the items. Builder and symbols are any, and the symbols may be the same one, as long
as neither is the end of input. -/
theorem separated_exact [LawfulSemanticValue V] {b : Builder V} (authored : b.Authored)
    {itemRef separatorRef : SymbolRef} (resolvedItem : b.symbols.resolve itemRef = .ok item)
    (resolvedSeparator : b.symbols.resolve separatorRef = .ok separator)
    (inner : ∀ x ∈ [item, separator], x ≠ .terminal b.eos) (atLeastOne : Bool) :
    (Combinator.separated itemRef separatorRef atLeastOne).Establishes b fun g n =>
      g.Separates n item separator atLeastOne := by
  have wf := authored.wellFormed
  have usableItem : b.Usable item :=
    ⟨SymbolTable.owns_of_resolve resolvedItem, inner item (by simp)⟩
  have usableSeparator : b.Usable separator :=
    ⟨SymbolTable.owns_of_resolve resolvedSeparator, inner separator (by simp)⟩
  refine ⟨_, _, Builder.apply_separated resolvedItem resolvedSeparator usableItem usableSeparator,
    fun commands keeps => ?_⟩
  have continues := keeps b.newHead
    ((b.usable_tail item separator).withHead "sep").withSeparated.owned b.not_owns_newHead
  have begun := keeps (b.withTail item separator).newHead
    ((b.withTail item separator).usable_newHead "sep").withSeparated.owned
    (Builder.not_owns_of_le (Nat.le_of_lt (b.newHead_lt_withHead "sep_tail")))
  rw [Builder.rulesOf_withSeparated_tail, Builder.rulesOf_withTail wf] at continues
  obtain ⟨_, _, begins⟩ := BegunBy.exists_of_withSeparated wf begun
  apply BegunBy.separates continues begins
  · exact .of_rulesOf (by simp only [continues, List.mem_cons, true_or]) rfl rfl
  · exact .of_rulesOf (by simp only [continues, List.mem_cons, true_or, or_true]) rfl rfl

end Grammar

namespace Arguments

/-- There is a terminal that has the name of a separated series. -/
def builder : Builder Value :=
  Command.runAll [.terminal "a", .terminal "sep"]
    ⟨⟨⟨0⟩, [⟨Builder.defaultStart, .start⟩, ⟨Builder.defaultEos, .eos⟩]⟩, []⟩

theorem authored : builder.Authored :=
  ⟨⟨0⟩, Builder.defaultStart, Builder.defaultEos, _, _, rfl, rfl⟩

def argument : Symbol := .terminal ⟨⟨0⟩, 2⟩

theorem resolved : builder.symbols.resolve (.name "a") = .ok argument := rfl

/-- The item separates itself. -/
def call (atLeastOne : Bool) : Authoring Value NonTerminal :=
  Combinator.separated (.name "a") (.name "a") atLeastOne

def finished (atLeastOne : Bool) : Builder Value :=
  Command.runAll [.setStart (.name "sep#1") {}] ((call atLeastOne).apply builder).2

theorem keepsNew {atLeastOne : Bool} {rule : Rule Value}
    (rules : (finished atLeastOne).rules = ((call atLeastOne).apply builder).2.rules ++ [rule])
    (head : rule.head = builder.start) :
    builder.KeepsNew ((call atLeastOne).apply builder).2 (finished atLeastOne) := by
  apply Builder.KeepsNew.of_concat rules
  rw [head]
  decide

theorem arguments_separated :
    builder.Authored ∧ (finished false).build.Separates ⟨⟨0⟩, 5⟩ argument argument false ∧
      (finished true).build.Separates ⟨⟨0⟩, 5⟩ argument argument true := by
  obtain ⟨n, b, ran, any⟩ := Grammar.separated_exact authored resolved resolved (by decide) false
  obtain ⟨n', b', ran', some⟩ :=
    Grammar.separated_exact authored resolved resolved (by decide) true
  obtain rfl : _ = b := congrArg Prod.snd ran
  obtain rfl : _ = b' := congrArg Prod.snd ran'
  obtain rfl : ⟨⟨0⟩, 5⟩ = n := Except.ok.inj (congrArg Prod.fst ran)
  obtain rfl : ⟨⟨0⟩, 5⟩ = n' := Except.ok.inj (congrArg Prod.fst ran')
  exact ⟨authored, any _ (keepsNew rfl rfl), some _ (keepsNew rfl rfl)⟩

end Arguments

end CanonicalLR
