import CanonicalLR.Proofs.AuthoringFrames
import Mathlib.Data.List.Nodup
import Mathlib.Order.Bounds.Defs

/-!
What the steps of a combinator do to a builder. The name found for a fresh non-terminal
is always free, since there are more numbered forms than symbols; so the declaration
succeeds, and so does every rule made of symbols that may stand in a body. A new
non-terminal has the rules that were written for it and no others.
-/
namespace CanonicalLR

variable {V : Type}

/-! ### Free names -/

theorem SymbolTable.containsName_iff {table : SymbolTable} {name : String} :
    table.containsName name = true ↔ name ∈ table.declarations.map Declaration.name := by
  simp [containsName]

namespace Builder

theorem numbered_injective (stem : String) : Function.Injective (numbered stem) := by
  intro m n same
  have decimals : Nat.repr m = Nat.repr n := (String.append_right_inj (stem ++ "#")).mp same
  have digits : Nat.toDigits 10 m = Nat.toDigits 10 n := by
    rw [← Nat.toList_repr, ← Nat.toList_repr, decimals]
  calc m = Nat.ofDigitChars 10 (Nat.toDigits 10 m) 0 :=
        (Nat.ofDigitChars_toDigits (by decide) (by decide)).symm
    _ = Nat.ofDigitChars 10 (Nat.toDigits 10 n) 0 := by rw [digits]
    _ = n := Nat.ofDigitChars_toDigits (by decide) (by decide)

theorem numbered_ne_stem (stem : String) (n : Nat) : numbered stem n ≠ stem := by
  intro same
  have lengths := congrArg String.length same
  simp only [numbered, String.length_append] at lengths
  have mark : "#".length = 1 := rfl
  omega

/-- Not all the numbered forms that are looked at can be taken beside the stem. -/
theorem exists_free_number (b : Builder V) {stem : String}
    (taken : b.symbols.containsName stem = true) :
    ∃ n < b.symbols.size, b.symbols.containsName (numbered stem (n + 1)) = false := by
  by_contra none
  let forms := (List.range b.symbols.size).map fun n => numbered stem (n + 1)
  have distinct : (stem :: forms).Nodup := by
    apply List.nodup_cons.mpr
    constructor
    · intro mem
      obtain ⟨n, _, same⟩ := List.mem_map.mp mem
      exact numbered_ne_stem stem (n + 1) same
    · exact List.nodup_range.map fun m n same => Nat.succ.inj (numbered_injective stem same)
  have used : stem :: forms ⊆ b.symbols.declarations.map Declaration.name := by
    intro name mem
    apply SymbolTable.containsName_iff.mp
    cases List.mem_cons.mp mem with
    | inl same => exact same ▸ taken
    | inr form =>
      obtain ⟨n, bound, same⟩ := List.mem_map.mp form
      by_contra free
      exact none ⟨n, List.mem_range.mp bound, by rw [same]; simpa using free⟩
  have count := distinct.length_le_of_subset used
  simp only [forms, List.length_cons, List.length_map, List.length_range, SymbolTable.size] at count
  omega

theorem uniqueName_of_free {b : Builder V} {stem : String}
    (free : b.symbols.containsName stem = false) : b.uniqueName stem = stem := by
  simp [uniqueName, free]

/-- If the stem is taken, its first numbered form that is free is found, under a number that is not
greater than the number of symbols. -/
theorem exists_uniqueName_eq {b : Builder V} {stem : String}
    (taken : b.symbols.containsName stem = true) :
    ∃ n ≤ b.symbols.size,
      IsLeast {n | 1 ≤ n ∧ b.symbols.containsName (numbered stem n) = false} n ∧
      b.uniqueName stem = numbered stem n := by
  obtain ⟨m, bound, free⟩ := b.exists_free_number taken
  cases found : (List.range b.symbols.size).find?
      fun n => !b.symbols.containsName (numbered stem (n + 1)) with
  | none =>
    have all := List.find?_eq_none.mp found m (List.mem_range.mpr bound)
    simp [free] at all
  | some n =>
    obtain ⟨free, mem, before⟩ := List.find?_range_eq_some.mp found
    have least : n + 1 ∈ lowerBounds
        {n | 1 ≤ n ∧ b.symbols.containsName (numbered stem n) = false} := by
      rintro k ⟨positive, free'⟩
      by_contra less
      have taken' := before (k - 1) (by omega)
      rw [Nat.sub_add_cancel positive, free'] at taken'
      cases taken'
    refine ⟨n + 1, List.mem_range.mp mem, ⟨⟨by omega, by simpa using free⟩, least⟩, ?_⟩
    simp [uniqueName, taken, found]

theorem containsName_uniqueName (b : Builder V) (stem : String) :
    b.symbols.containsName (b.uniqueName stem) = false := by
  cases taken : b.symbols.containsName stem with
  | true =>
    obtain ⟨n, _, ⟨⟨_, free⟩, _⟩, same⟩ := exists_uniqueName_eq taken
    rw [same]
    exact free
  | false =>
    rw [uniqueName_of_free taken]
    exact taken

/-! ### What is written -/

/-- The handle that the next non-terminal gets. -/
def newHead (b : Builder V) : NonTerminal := ⟨b.symbols.grammar, b.symbols.size⟩

/-- The builder with a fresh non-terminal declared. -/
def withHead (b : Builder V) (stem : String) : Builder V :=
  { b with symbols := { b.symbols with
      declarations := b.symbols.declarations ++ [⟨b.uniqueName stem, .nonTerminal⟩] } }

/-- The rule that is added next, with a handler. -/
def newRule (b : Builder V) (head : NonTerminal) (body : List Symbol) (handler : List V → V) :
    Rule V :=
  ⟨{ handler := some handler }, b.rules.length, head, body⟩

def withRule (b : Builder V) (head : NonTerminal) (body : List Symbol) (handler : List V → V) :
    Builder V :=
  { b with rules := b.rules ++ [b.newRule head body handler] }

/-- The rule is added only if the flag is set. -/
def withRuleIf (b : Builder V) (flag : Bool) (head : NonTerminal) (body : List Symbol)
    (handler : List V → V) : Builder V :=
  if flag then b.withRule head body handler else b

/-- The symbol may stand in the body of a rule. -/
structure Usable (b : Builder V) (x : Symbol) : Prop where
  owned : b.symbols.owns x = true
  ne_eos : x ≠ .terminal b.eos

section

variable {b : Builder V} {head n : NonTerminal} {body : List Symbol} {handler : List V → V}
  {x : Symbol} {stem : String} {flag : Bool}

@[simp] theorem newHead_withRule : (b.withRule head body handler).newHead = b.newHead := rfl

@[simp] theorem rulesOf_withHead : (b.withHead stem).build.rulesOf n = b.build.rulesOf n := rfl

@[simp] theorem rulesOf_withRule :
    (b.withRule head body handler).build.rulesOf n =
      b.build.rulesOf n ++ if head = n then [b.newRule head body handler] else [] := by
  simp only [Grammar.rulesOf, build, withRule, newRule, List.filter_append, List.filter_cons,
    List.filter_nil]
  by_cases same : head = n <;> simp [same]

@[simp] theorem rulesOf_withRuleIf :
    (b.withRuleIf flag head body handler).build.rulesOf n =
      b.build.rulesOf n ++
        if flag = true ∧ head = n then [b.newRule head body handler] else [] := by
  cases flag <;> simp [withRuleIf]

theorem newHead_lt_withHead (b : Builder V) (stem : String) :
    b.newHead.index < (b.withHead stem).newHead.index := by
  simp [newHead, withHead, SymbolTable.size]

theorem newHead_withHead_ne : (b.withHead stem).newHead ≠ b.newHead := by
  intro same
  have later := b.newHead_lt_withHead stem
  rw [same] at later
  exact Nat.lt_irrefl _ later

theorem extends_withHead (b : Builder V) (stem : String) : b.Extends (b.withHead stem) :=
  ⟨rfl, List.prefix_append _ _, List.prefix_refl _⟩

theorem Usable.withHead (h : b.Usable x) (stem : String) : (b.withHead stem).Usable x :=
  ⟨SymbolTable.owns_of_append h.owned _, h.ne_eos⟩

theorem Usable.withRule (h : b.Usable x) : (b.withRule head body handler).Usable x :=
  ⟨h.owned, h.ne_eos⟩

theorem Usable.withRuleIf (h : b.Usable x) : (b.withRuleIf flag head body handler).Usable x := by
  cases flag with
  | true => exact h.withRule
  | false => exact h

theorem usable_newHead (b : Builder V) (stem : String) :
    (b.withHead stem).Usable (.nonTerminal b.newHead) := by
  refine ⟨?_, nofun⟩
  have last : (b.withHead stem).symbols.declarations[b.symbols.size]? =
      some ⟨b.uniqueName stem, .nonTerminal⟩ := by
    simp [Builder.withHead, SymbolTable.size]
  exact SymbolTable.owns_handle last

theorem not_owns_of_le (late : b.newHead.index ≤ n.index) :
    b.symbols.owns (.nonTerminal n) = false := by
  rw [← Bool.not_eq_true]
  intro owned
  have early : n.index < b.newHead.index := SymbolTable.index_lt_of_owns owned
  omega

theorem not_owns_newHead (b : Builder V) : b.symbols.owns (.nonTerminal b.newHead) = false :=
  not_owns_of_le (Nat.le_refl _)

/-- A symbol that was there before is not the new non-terminal. -/
theorem Usable.ne_newHead (h : b.Usable x) : x ≠ .nonTerminal b.newHead := by
  intro same
  have owned := h.owned
  rw [same, not_owns_newHead] at owned
  cases owned

theorem rulesOf_eq_nil (wf : b.WellFormed) (late : b.newHead.index ≤ n.index) :
    b.build.rulesOf n = [] := by
  apply List.eq_nil_iff_forall_not_mem.mpr
  intro rule mem
  obtain ⟨among, head⟩ := b.build.mem_rulesOf.mp mem
  have owned := wf.head_owned rule among
  rw [head, not_owns_of_le late] at owned
  cases owned

theorem rulesOf_newHead (wf : b.WellFormed) : b.build.rulesOf b.newHead = [] :=
  rulesOf_eq_nil wf (Nat.le_refl _)

/-- What is written for one new non-terminal is no rule of the next one. -/
theorem rulesOf_newHead_withHead (wf : b.WellFormed) :
    b.build.rulesOf (b.withHead stem).newHead = [] :=
  rulesOf_eq_nil wf (Nat.le_of_lt (b.newHead_lt_withHead stem))

end

/-! ### The steps -/

end Builder

namespace SymbolTable

variable {table : SymbolTable} {x : Symbol}

theorem resolve_name_eq_ok_iff {name : String} :
    table.resolve (.name name) = .ok x ↔ table.find? name = some x := by
  simp only [resolve]
  cases table.find? name <;> simp

theorem resolve_handle_eq_ok_iff {y : Symbol} :
    table.resolve (.handle y) = .ok x ↔ table.owns y = true ∧ y = x := by
  simp only [resolve]
  cases table.owns y <;> simp

end SymbolTable

namespace Builder

theorem resolveAll_handles {table : SymbolTable} {body : List Symbol}
    (owned : ∀ x ∈ body, table.owns x = true) :
    table.resolveAll (body.map SymbolRef.handle) = .ok body := by
  apply mapM_eq_ok_iff.mpr
  rw [List.map_map]
  apply List.map_congr_left
  intro x mem
  exact SymbolTable.resolve_handle_eq_ok_iff.mpr ⟨owned x mem, rfl⟩

/-- A rule of symbols of the table can only be refused for the end of input in its body. -/
theorem checkRule_of_owned {b : Builder V} {head : NonTerminal} {body : List Symbol}
    (owned : b.symbols.owns (.nonTerminal head) = true)
    (all : ∀ x ∈ body, b.symbols.owns x = true) :
    b.checkRule head (body.map SymbolRef.handle) =
      if .terminal b.eos ∈ body then
        .error (.eosInRule ((b.symbols.name? (.terminal b.eos)).getD ""))
      else .ok (head, body) := by
  have found : b.symbols.resolveNonTerminal head = .ok head := by
    simp [SymbolTable.resolveNonTerminal, SymbolTable.resolve, owned, bind, Except.bind]
  rw [checkRule, found, resolveAll_handles all]
  by_cases mem : Symbol.terminal b.eos ∈ body <;>
    simp [mem, bind, Except.bind, pure, Except.pure, throw, throwThe, MonadExceptOf.throw]

theorem checkRule_eq_ok {b : Builder V} {head : NonTerminal} {body : List Symbol}
    (owned : b.symbols.owns (.nonTerminal head) = true) (usable : ∀ x ∈ body, b.Usable x) :
    b.checkRule head (body.map SymbolRef.handle) = .ok (head, body) := by
  have free : Symbol.terminal b.eos ∉ body := fun mem => (usable _ mem).ne_eos rfl
  rw [checkRule_of_owned owned fun x mem => (usable x mem).owned, if_neg free]

end Builder

namespace Combinator

open Authoring

variable {b : Builder V}

theorem apply_resolve (ref : SymbolRef) (b : Builder V) :
    (resolve ref).apply b = (b.symbols.resolve ref, b) := by
  simp [resolve, apply_bind]

theorem apply_resolveAll (refs : List SymbolRef) (b : Builder V) :
    (resolveAll refs).apply b = (b.symbols.resolveAll refs, b) := by
  simp [resolveAll, apply_bind]

theorem apply_fresh (stem : String) (b : Builder V) :
    (fresh stem).apply b = (.ok b.newHead, b.withHead stem) := by
  have free := b.containsName_uniqueName stem
  simp [fresh, Builder.nonTerminal, apply_bind, Builder.apply_declare, SymbolTable.declare, free,
    Builder.newHead, Builder.withHead, Except.map]

theorem apply_produce {head : NonTerminal} {body : List Symbol} (handler : List V → V)
    (owned : b.symbols.owns (.nonTerminal head) = true) (usable : ∀ x ∈ body, b.Usable x) :
    (produce head body handler).apply b = (.ok ⟨⟩, b.withRule head body handler) := by
  simp [produce, Builder.apply_addRule, Builder.checkRule_eq_ok owned usable,
    Builder.withRule, Builder.newRule, Except.map]

end Combinator

end CanonicalLR
