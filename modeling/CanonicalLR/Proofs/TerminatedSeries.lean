import CanonicalLR.Proofs.Synthesis
import CanonicalLR.Proofs.Unfoldings
import CanonicalLR.Series
import CanonicalLR.Value

/-!
The trees of a terminated series. One new non-terminal collects the items: it grows to
the right, so its trees are series, and as every item is put in front of the earlier
ones its value is the list of the items' values backwards. The other non-terminal ends
the series in the ways that the flags allow, and its handlers turn the list round.
-/
namespace CanonicalLR

open Combinator

variable {V : Type} [SemanticValue V]

/-! ### What is written -/

namespace Builder

section

variable (b : Builder V) (item separator terminator : Symbol)
  (terminatorOptional allowEmpty : Bool)

/-- The builder in which series of one item are written. -/
def withFirstItem : Builder V :=
  (b.withHead "term_acc").withRule b.newHead [item] Combinator.singleton

/-- The builder in which all series are written. -/
def withItems : Builder V :=
  (b.withFirstItem item).withRule b.newHead [.nonTerminal b.newHead, separator, item]
    listSeparatorItem

/-- The builder in which the series with a terminator are written. -/
def withTerminator : Builder V :=
  ((b.withItems item separator).withHead "term").withRule (b.withItems item separator).newHead
    [.nonTerminal b.newHead, terminator] reversedSequence

/-- The builder in which the series without a terminator are written, too. -/
def withOptionalTerminator : Builder V :=
  (b.withTerminator item separator terminator).withRuleIf terminatorOptional
    (b.withItems item separator).newHead [.nonTerminal b.newHead] reversedSequence

/-- The builder in which the terminator alone is written, too. -/
def withTerminatorOnly : Builder V :=
  (b.withOptionalTerminator item separator terminator terminatorOptional).withRuleIf allowEmpty
    (b.withItems item separator).newHead [terminator] emptySequence

/-- The builder in which a terminated series is written. -/
def withTerminated : Builder V :=
  (b.withTerminatorOnly item separator terminator terminatorOptional allowEmpty).withRuleIf
    (allowEmpty && terminatorOptional) (b.withItems item separator).newHead [] emptySequence

end

variable {b : Builder V} {item separator terminator x : Symbol}
  {itemRef separatorRef terminatorRef : SymbolRef} {terminatorOptional allowEmpty : Bool}

theorem Usable.withItems (h : b.Usable x) (item separator : Symbol) :
    (b.withItems item separator).Usable x :=
  (h.withHead "term_acc").withRule.withRule

theorem usable_items (b : Builder V) (item separator : Symbol) :
    (b.withItems item separator).Usable (.nonTerminal b.newHead) :=
  (b.usable_newHead "term_acc").withRule.withRule

theorem Usable.withTerminated (h : ((b.withItems item separator).withHead "term").Usable x) :
    (b.withTerminated item separator terminator terminatorOptional allowEmpty).Usable x :=
  h.withRule.withRuleIf.withRuleIf.withRuleIf

theorem apply_terminated (resolvedItem : b.symbols.resolve itemRef = .ok item)
    (resolvedSeparator : b.symbols.resolve separatorRef = .ok separator)
    (resolvedTerminator : b.symbols.resolve terminatorRef = .ok terminator)
    (usableItem : b.Usable item) (usableSeparator : b.Usable separator)
    (usableTerminator : b.Usable terminator) :
    (Combinator.terminated itemRef separatorRef terminatorRef terminatorOptional
        allowEmpty).apply b =
      (.ok (b.withItems item separator).newHead,
        b.withTerminated item separator terminator terminatorOptional allowEmpty) := by
  have items := b.usable_newHead "term_acc"
  have first : (produce b.newHead [item] Combinator.singleton).apply (b.withHead "term_acc") =
      (.ok ⟨⟩, b.withFirstItem item) :=
    apply_produce Combinator.singleton items.owned
      (List.forall_mem_singleton.mpr (usableItem.withHead "term_acc"))
  have more : (produce b.newHead [.nonTerminal b.newHead, separator, item] listSeparatorItem).apply
      (b.withFirstItem item) = (.ok ⟨⟩, b.withItems item separator) :=
    apply_produce listSeparatorItem items.withRule.owned
      (by simpa using ⟨items.withRule, (usableSeparator.withHead "term_acc").withRule,
        (usableItem.withHead "term_acc").withRule⟩)
  have head := (b.withItems item separator).usable_newHead "term"
  have items' := (b.usable_items item separator).withHead "term"
  have terminator' := (usableTerminator.withItems item separator).withHead "term"
  have closed : (produce (b.withItems item separator).newHead [.nonTerminal b.newHead, terminator]
      reversedSequence).apply ((b.withItems item separator).withHead "term") =
      (.ok ⟨⟩, b.withTerminator item separator terminator) :=
    apply_produce reversedSequence head.owned (by simpa using ⟨items', terminator'⟩)
  have unclosed : (produce (b.withItems item separator).newHead [.nonTerminal b.newHead]
      reversedSequence).apply (b.withTerminator item separator terminator) =
      (.ok ⟨⟩, b.withOptionalTerminator item separator terminator true) :=
    apply_produce reversedSequence head.withRule.owned
      (List.forall_mem_singleton.mpr items'.withRule)
  have only (terminatorOptional : Bool) :
      (produce (b.withItems item separator).newHead [terminator] emptySequence).apply
        (b.withOptionalTerminator item separator terminator terminatorOptional) =
      (.ok ⟨⟩, b.withTerminatorOnly item separator terminator terminatorOptional true) :=
    apply_produce emptySequence head.withRule.withRuleIf.owned
      (List.forall_mem_singleton.mpr terminator'.withRule.withRuleIf)
  have only' : (produce (b.withItems item separator).newHead [terminator] emptySequence).apply
      (b.withTerminator item separator terminator) =
      (.ok ⟨⟩, b.withTerminatorOnly item separator terminator false true) := only false
  have none : (produce (b.withItems item separator).newHead [] emptySequence).apply
      (b.withTerminatorOnly item separator terminator true true) =
      (.ok ⟨⟩, b.withTerminated item separator terminator true true) :=
    apply_produce emptySequence head.withRule.withRuleIf.withRuleIf.owned (by simp)
  simp only [Combinator.terminated, Authoring.apply_bind, apply_resolve, resolvedItem,
    resolvedSeparator, resolvedTerminator, apply_fresh, first, more, closed]
  -- Where the flags exclude a rule, the next step starts from the builder without it.
  cases terminatorOptional <;> cases allowEmpty <;>
    simp only [Bool.false_eq_true, if_false, if_true, Authoring.apply_bind, unclosed, only, only',
      none, Authoring.apply_pure] <;> rfl

/-! ### The new rules -/

theorem rulesOf_withItems (wf : b.WellFormed) :
    (b.withItems item separator).build.rulesOf b.newHead =
      [(b.withHead "term_acc").newRule b.newHead [item] Combinator.singleton,
        (b.withFirstItem item).newRule b.newHead [.nonTerminal b.newHead, separator, item]
          listSeparatorItem] := by
  simp [withItems, withFirstItem, rulesOf_newHead wf]

theorem newHead_withItems_ne : (b.withItems item separator).newHead ≠ b.newHead :=
  newHead_withHead_ne

theorem rulesOf_withTerminated_items :
    (b.withTerminated item separator terminator terminatorOptional allowEmpty).build.rulesOf
      b.newHead = (b.withItems item separator).build.rulesOf b.newHead := by
  simp [withTerminated, withTerminatorOnly, withOptionalTerminator, withTerminator,
    newHead_withItems_ne]

theorem mem_rulesOf_withTerminated (wf : b.WellFormed) {rule : Rule V} :
    rule ∈ (b.withTerminated item separator terminator terminatorOptional allowEmpty).build.rulesOf
      (b.withItems item separator).newHead ↔
      rule = ((b.withItems item separator).withHead "term").newRule
        (b.withItems item separator).newHead [.nonTerminal b.newHead, terminator] reversedSequence ∨
      terminatorOptional = true ∧ rule = (b.withTerminator item separator terminator).newRule
        (b.withItems item separator).newHead [.nonTerminal b.newHead] reversedSequence ∨
      allowEmpty = true ∧
        rule = (b.withOptionalTerminator item separator terminator terminatorOptional).newRule
          (b.withItems item separator).newHead [terminator] emptySequence ∨
      (terminatorOptional = true ∧ allowEmpty = true) ∧
        rule = (b.withTerminatorOnly item separator terminator terminatorOptional
          allowEmpty).newRule (b.withItems item separator).newHead [] emptySequence := by
  have none : (b.withItems item separator).build.rulesOf (b.withItems item separator).newHead =
      [] := by
    simp [Builder.withItems, withFirstItem, rulesOf_newHead_withHead wf, newHead_withHead_ne.symm]
  cases terminatorOptional <;> cases allowEmpty <;>
    simp [withTerminated, withTerminatorOnly, withOptionalTerminator, withTerminator, none]

end Builder

/-! ### The trees -/

namespace Grammar

variable {g : Grammar V} {n items : NonTerminal} {item separator terminator : Symbol}
  {terminatorOptional allowEmpty : Bool} {stop go r₁ r₂ r₃ r₄ : Rule V}

section Series

variable (stops : stop.Makes g.rules items [item] Combinator.singleton)
  (goes : go.Makes g.rules items [.nonTerminal items, separator, item] listSeparatorItem)

/-- The tree of a series with a separator and an item more. -/
def longer (before : Tree g.rules (.nonTerminal items))
    (next : Tree g.rules separator × Tree g.rules item) : Tree g.rules (.nonTerminal items) :=
  .root goes (.cons before (.cons next.1 (.cons next.2 .nil)))

/-- The tree that collects the items of a series. -/
def collected (series : Series g.rules item separator) : Tree g.rules (.nonTerminal items) :=
  series.later.foldl (longer goes) (.root stops (.cons series.first .nil))

theorem tokens_foldl_longer (later : List (Tree g.rules separator × Tree g.rules item))
    (before : Tree g.rules (.nonTerminal items)) :
    (later.foldl (longer goes) before).tokens =
      before.tokens ++ later.flatMap fun next => next.1.tokens ++ next.2.tokens := by
  induction later generalizing before with
  | nil => simp
  | cons next later ih => simp [ih, longer, Forest.tokens]

theorem value_foldl_longer [LawfulSemanticValue V]
    (later : List (Tree g.rules separator × Tree g.rules item))
    {before : Tree g.rules (.nonTerminal items)} {values : List V}
    (value : before.value = SemanticValue.list values) :
    (later.foldl (longer goes) before).value =
      SemanticValue.list ((later.map fun next => next.2.value).reverse ++ values) := by
  induction later generalizing before values with
  | nil => simp [value]
  | cons next later ih =>
    have value' : (longer goes before next).value =
        SemanticValue.list (next.2.value :: values) := by
      simp [longer, Forest.values, listSeparatorItem, push, value]
    simp [ih value']

theorem tokens_collected (series : Series g.rules item separator) :
    (collected stops goes series).tokens = series.tokens := by
  simp [collected, Series.tokens, tokens_foldl_longer, Forest.tokens]

/-- The latest item is in front. -/
theorem value_collected [LawfulSemanticValue V] (series : Series g.rules item separator) :
    (collected stops goes series).value =
      SemanticValue.list (series.items.map Tree.value).reverse := by
  have first : (Tree.root stops (.cons series.first .nil)).value =
      SemanticValue.list [series.first.value] := by
    simp [Forest.values, Combinator.singleton]
  simp [collected, value_foldl_longer goes series.later first, Series.items, Function.comp_def]

theorem unfolds_collected (rules : g.rulesOf items = [stop, go]) :
    Unfolds (fun tree => tree.moves.length)
      (fun first : Tree g.rules item => Tree.root stops (.cons first .nil))
      fun next before => longer goes before next := by
  refine Tree.unfolds rules stops goes nofun ⟨?_, ?_⟩ ⟨?_, ?_⟩ fun _ _ => ?_
  · intro first first' same
    cases same
    rfl
  · intro children
    match children with
    | .cons first .nil => exact ⟨first, rfl⟩
  · rintro ⟨⟨between, next⟩, before⟩ ⟨⟨between', next'⟩, before'⟩ same
    cases same
    rfl
  · intro children
    match children with
    | .cons before (.cons between (.cons next .nil)) => exact ⟨((between, next), before), rfl⟩
  · simp only [Forest.moves, List.length_append]
    omega

theorem collected_bijective (rules : g.rulesOf items = [stop, go]) :
    Function.Bijective (collected stops goes) := by
  have unfolds := (unfolds_collected stops goes rules).foldl_bijective
  constructor
  · intro series series' same
    have pairs : (series.first, series.later) = (series'.first, series'.later) :=
      unfolds.injective same
    cases series
    cases series'
    cases pairs
    rfl
  · intro tree
    obtain ⟨⟨first, later⟩, same⟩ := unfolds.surjective tree
    exact ⟨⟨first, later⟩, same⟩

end Series

/-- The rules by which a series is ended, as far as the flags allow them. -/
structure EndedBy (g : Grammar V) (n items : NonTerminal) (terminator : Symbol)
    (terminatorOptional allowEmpty : Bool) (r₁ r₂ r₃ r₄ : Rule V) : Prop where
  terminated : r₁.Makes g.rules n [.nonTerminal items, terminator] reversedSequence
  unterminated : terminatorOptional = true →
    r₂.Makes g.rules n [.nonTerminal items] reversedSequence
  terminatorOnly : allowEmpty = true → r₃.Makes g.rules n [terminator] emptySequence
  empty : terminatorOptional = true → allowEmpty = true → r₄.Makes g.rules n [] emptySequence
  cases : ∀ rule ∈ g.rulesOf n, rule = r₁ ∨ terminatorOptional = true ∧ rule = r₂ ∨
    allowEmpty = true ∧ rule = r₃ ∨
    (terminatorOptional = true ∧ allowEmpty = true) ∧ rule = r₄

namespace EndedBy

variable (rules : g.EndedBy n items terminator terminatorOptional allowEmpty r₁ r₂ r₃ r₄)
  (collected : Series g.rules item separator → Tree g.rules (.nonTerminal items))

/-- The tree of an ending, where a series has the tree that is given. -/
def tree : Ending g.rules item separator terminator terminatorOptional allowEmpty →
    Tree g.rules (.nonTerminal n)
  | .terminated series last => .root rules.terminated (.cons (collected series) (.cons last .nil))
  | .unterminated series omissible =>
    .root (rules.unterminated omissible) (.cons (collected series) .nil)
  | .terminatorOnly last allowed => .root (rules.terminatorOnly allowed) (.cons last .nil)
  | .empty omissible allowed => .root (rules.empty omissible allowed) .nil

theorem tokens_tree (tokens : ∀ series, (collected series).tokens = series.tokens)
    (ending : Ending g.rules item separator terminator terminatorOptional allowEmpty) :
    (rules.tree collected ending).tokens = ending.tokens := by
  cases ending <;> simp [tree, Ending.tokens, Forest.tokens, tokens]

theorem value_tree [LawfulSemanticValue V]
    (values : ∀ series, (collected series).value =
      SemanticValue.list (series.items.map Tree.value).reverse)
    (ending : Ending g.rules item separator terminator terminatorOptional allowEmpty) :
    (rules.tree collected ending).value = SemanticValue.vec (ending.items.map Tree.value) := by
  cases ending <;>
    simp [tree, Ending.items, Forest.values, reversedSequence, emptySequence, values]

theorem tree_injective (one : Function.Injective collected)
    (distinct : .nonTerminal items ≠ terminator) : Function.Injective (rules.tree collected) := by
  intro ending ending' same
  cases ending <;> cases ending' <;> simp only [tree] at same
  case terminated.terminated =>
    have children := Tree.root_injective _ same
    simp only [Forest.cons.injEq, and_true] at children
    rw [one children.1, children.2]
  case unterminated.unterminated =>
    have children := Tree.root_injective _ same
    simp only [Forest.cons.injEq, and_true] at children
    rw [one children]
  case terminatorOnly.terminatorOnly =>
    have children := Tree.root_injective _ same
    simp only [Forest.cons.injEq, and_true] at children
    rw [children]
  case empty.empty => rfl
  -- Different bodies of one length are told apart by their first symbols.
  case unterminated.terminatorOnly =>
    exact absurd (List.cons.inj (Tree.string_eq_of_root _ _ same)).1 distinct
  case terminatorOnly.unterminated =>
    exact absurd (List.cons.inj (Tree.string_eq_of_root _ _ same)).1.symm distinct
  all_goals cases Tree.string_eq_of_root _ _ same

theorem tree_surjective (onto : Function.Surjective collected) :
    Function.Surjective (rules.tree collected) := by
  intro t
  obtain ⟨rule, mem, made⟩ := t.exists_root
  rcases rules.cases rule mem with rfl | ⟨omissible, rfl⟩ | ⟨allowed, rfl⟩ |
    ⟨⟨omissible, allowed⟩, rfl⟩
  · obtain ⟨children, rfl⟩ := made rules.terminated
    match children with
    | .cons before (.cons last .nil) =>
      obtain ⟨series, rfl⟩ := onto before
      exact ⟨.terminated series last, rfl⟩
  · obtain ⟨children, rfl⟩ := made (rules.unterminated omissible)
    match children with
    | .cons before .nil =>
      obtain ⟨series, rfl⟩ := onto before
      exact ⟨.unterminated series omissible, rfl⟩
  · obtain ⟨children, rfl⟩ := made (rules.terminatorOnly allowed)
    match children with
    | .cons last .nil => exact ⟨.terminatorOnly last allowed, rfl⟩
  · obtain ⟨children, rfl⟩ := made (rules.empty omissible allowed)
    cases children
    exact ⟨.empty omissible allowed, rfl⟩

/-- The rules that were written for a terminated series end it. -/
theorem exists_of_withTerminated {b : Builder V} (wf : b.WellFormed)
    (kept : g.rulesOf (b.withItems item separator).newHead =
      (b.withTerminated item separator terminator terminatorOptional allowEmpty).build.rulesOf
        (b.withItems item separator).newHead) :
    ∃ r₁ r₂ r₃ r₄, g.EndedBy (b.withItems item separator).newHead b.newHead terminator
      terminatorOptional allowEmpty r₁ r₂ r₃ r₄ := by
  have mem (rule : Rule V) := (congrArg (rule ∈ ·) kept).to_iff.trans
    (Builder.mem_rulesOf_withTerminated wf)
  refine ⟨_, _, _, _, .of_rulesOf ((mem _).mpr (.inl rfl)) rfl rfl, fun omissible => ?_,
    fun allowed => ?_, fun omissible allowed => ?_, fun rule among => (mem rule).mp among⟩
  · exact .of_rulesOf ((mem _).mpr (.inr (.inl ⟨omissible, rfl⟩))) rfl rfl
  · exact .of_rulesOf ((mem _).mpr (.inr (.inr (.inl ⟨allowed, rfl⟩)))) rfl rfl
  · exact .of_rulesOf ((mem _).mpr (.inr (.inr (.inr ⟨⟨omissible, allowed⟩, rfl⟩)))) rfl rfl

theorem terminates [LawfulSemanticValue V] (rules : g.rulesOf items = [stop, go])
    (ends : g.EndedBy n items terminator terminatorOptional allowEmpty r₁ r₂ r₃ r₄)
    (stops : stop.Makes g.rules items [item] Combinator.singleton)
    (goes : go.Makes g.rules items [.nonTerminal items, separator, item] listSeparatorItem)
    (distinct : .nonTerminal items ≠ terminator) :
    g.Terminates n item separator terminator terminatorOptional allowEmpty := by
  have one := collected_bijective stops goes rules
  refine ⟨ends.tree (collected stops goes), ⟨?_, ?_⟩, fun ending => ⟨?_, ?_⟩⟩
  · exact ends.tree_injective _ one.injective distinct
  · exact ends.tree_surjective _ one.surjective
  · exact ends.tokens_tree _ (tokens_collected stops goes) ending
  · exact ends.value_tree _ (value_collected stops goes) ending

end EndedBy

/-- The derivation trees of a terminated series are series of items and separators in turn, each
with a terminator or, where that is optional, without one; where no item is needed, also the
terminators alone, and nothing if the terminator is optional. The value is the sequence of the
values of the items. Builder, flags and symbols are any, and the symbols may be the same ones, as
long as none is the end of input. -/
theorem terminated_exact [LawfulSemanticValue V] {b : Builder V} (authored : b.Authored)
    {itemRef separatorRef terminatorRef : SymbolRef}
    (resolvedItem : b.symbols.resolve itemRef = .ok item)
    (resolvedSeparator : b.symbols.resolve separatorRef = .ok separator)
    (resolvedTerminator : b.symbols.resolve terminatorRef = .ok terminator)
    (inner : ∀ x ∈ [item, separator, terminator], x ≠ .terminal b.eos)
    (terminatorOptional allowEmpty : Bool) :
    (Combinator.terminated itemRef separatorRef terminatorRef terminatorOptional
      allowEmpty).Establishes b fun g n =>
        g.Terminates n item separator terminator terminatorOptional allowEmpty := by
  have wf := authored.wellFormed
  have usableItem : b.Usable item :=
    ⟨SymbolTable.owns_of_resolve resolvedItem, inner item (by simp)⟩
  have usableSeparator : b.Usable separator :=
    ⟨SymbolTable.owns_of_resolve resolvedSeparator, inner separator (by simp)⟩
  have usableTerminator : b.Usable terminator :=
    ⟨SymbolTable.owns_of_resolve resolvedTerminator, inner terminator (by simp)⟩
  refine ⟨_, _, Builder.apply_terminated resolvedItem resolvedSeparator resolvedTerminator
    usableItem usableSeparator usableTerminator, fun commands keeps => ?_⟩
  have collects := keeps b.newHead
    ((b.usable_items item separator).withHead "term").withTerminated.owned b.not_owns_newHead
  have ended := keeps (b.withItems item separator).newHead
    ((b.withItems item separator).usable_newHead "term").withTerminated.owned
    (Builder.not_owns_of_le (Nat.le_of_lt (b.newHead_lt_withHead "term_acc")))
  rw [Builder.rulesOf_withTerminated_items, Builder.rulesOf_withItems wf] at collects
  obtain ⟨_, _, _, _, ends⟩ := EndedBy.exists_of_withTerminated wf ended
  apply EndedBy.terminates collects ends
  · exact .of_rulesOf (by simp only [collects, List.mem_cons, true_or]) rfl rfl
  · exact .of_rulesOf (by simp only [collects, List.mem_cons, true_or, or_true]) rfl rfl
  · exact usableTerminator.ne_newHead.symm

end Grammar

namespace Statements

def builder : Builder Value :=
  Command.runAll [.terminal "a", .terminal ";"]
    ⟨⟨⟨0⟩, [⟨Builder.defaultStart, .start⟩, ⟨Builder.defaultEos, .eos⟩]⟩, []⟩

theorem authored : builder.Authored :=
  ⟨⟨0⟩, Builder.defaultStart, Builder.defaultEos, _, _, rfl, rfl⟩

def statement : Symbol := .terminal ⟨⟨0⟩, 2⟩

def semicolon : Symbol := .terminal ⟨⟨0⟩, 3⟩

/-- Statements with a semicolon between them, which may also stand at the end, or alone. -/
def call : Authoring Value NonTerminal :=
  Combinator.terminated (.name "a") (.name ";") (.name ";") true true

def finished : Builder Value :=
  Command.runAll [.setStart (.name "term") {}] (call.apply builder).2

theorem keepsNew : builder.KeepsNew (call.apply builder).2 finished := by
  have rules : finished.rules = (call.apply builder).2.rules ++
      [⟨{}, 6, builder.start, [.nonTerminal ⟨⟨0⟩, 5⟩]⟩] := rfl
  exact Builder.KeepsNew.of_concat rules (by decide)

theorem statements_terminated :
    builder.Authored ∧
      finished.build.Terminates ⟨⟨0⟩, 5⟩ statement semicolon semicolon true true := by
  obtain ⟨n, b, ran, ends⟩ := Grammar.terminated_exact authored
    (rfl : builder.symbols.resolve (.name "a") = .ok statement)
    (rfl : builder.symbols.resolve (.name ";") = .ok semicolon)
    (rfl : builder.symbols.resolve (.name ";") = .ok semicolon) (by decide) true true
  obtain rfl : _ = b := congrArg Prod.snd ran
  obtain rfl : ⟨⟨0⟩, 5⟩ = n := Except.ok.inj (congrArg Prod.fst ran)
  exact ⟨authored, ends _ keepsNew⟩

end Statements

end CanonicalLR
