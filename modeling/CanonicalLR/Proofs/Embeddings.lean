import CanonicalLR.Renaming
import CanonicalLR.Proofs.Ownership

/-!
A grammar that lies in another one is analysed there as by itself: what its strings
derive, which of them are nullable, what can start them, what its items call for and
the closures of its item sets are the same up to the renaming, whatever else the other
grammar has and in whatever order the rules stand.
-/
namespace CanonicalLR

variable {V : Type} {g g' : Grammar V} {ρ : Renaming}

namespace Grammar.Embeds

variable (E : g.Embeds ρ g')
include E

/-! ### Symbols -/

theorem symbol_owned {x : Symbol} (h : g.symbols.owns x = true) :
    g'.symbols.owns (ρ.symbol x) = true := by
  obtain ⟨d, hd, same⟩ := SymbolTable.owns_iff_declared.mp h
  obtain ⟨more, split⟩ := E.declarations
  have bound := (List.getElem?_eq_some_iff.mp hd).1
  refine SymbolTable.owns_iff_declared.mpr ⟨d, ?_, ?_⟩
  · rw [Renaming.index_symbol, ← split, List.getElem?_append_left bound]
    exact hd
  · have home : ρ.grammar = g'.symbols.grammar := E.grammar
    rw [← same, Renaming.index_symbol, SymbolTable.index_handle]
    unfold SymbolTable.handle
    split <;> simp [Renaming.symbol, Renaming.terminal, Renaming.nonTerminal, home]

theorem start_eq : ρ.nonTerminal g.start = g'.start :=
  congrArg (fun id => NonTerminal.mk id 0) E.grammar

theorem eos_eq : ρ.terminal g.eos = g'.eos :=
  congrArg (fun id => Terminal.mk id 1) E.grammar

theorem name?_symbol {x : Symbol} (h : g.symbols.owns x = true) :
    g'.symbols.name? (ρ.symbol x) = g.symbols.name? x := by
  obtain ⟨d, hd, _⟩ := SymbolTable.owns_iff_declared.mp h
  obtain ⟨more, split⟩ := E.declarations
  have bound := (List.getElem?_eq_some_iff.mp hd).1
  rw [SymbolTable.name?, SymbolTable.name?, if_pos h, if_pos (E.symbol_owned h),
    Renaming.index_symbol, ← split, List.getElem?_append_left bound]

/-- A rule of the second grammar for a non-terminal of the first is a rule of the first. -/
theorem exists_rule {n : NonTerminal} (owned : g.symbols.owns (.nonTerminal n) = true)
    {r' : Rule V} (mem : r' ∈ g'.rules) (head : r'.head = ρ.nonTerminal n) :
    ∃ r ∈ g.rules, r.head = n ∧ r' = ρ.renumber r := by
  obtain ⟨r, hr, rfl⟩ := E.only r' mem n owned head
  have home : r.head.grammar = n.grammar :=
    (SymbolTable.grammar_of_owns (E.head_owned r hr)).trans
      (SymbolTable.grammar_of_owns owned).symm
  exact ⟨r, hr, (ρ.nonTerminal_inj home).mp head, rfl⟩

theorem mem_rulesOf {n : NonTerminal} (owned : g.symbols.owns (.nonTerminal n) = true)
    {r' : Rule V} : r' ∈ g'.rulesOf (ρ.nonTerminal n) ↔ ∃ r ∈ g.rulesOf n, r' = ρ.renumber r := by
  rw [Grammar.mem_rulesOf]
  constructor
  · rintro ⟨mem, head⟩
    obtain ⟨r, hr, rfl, same⟩ := E.exists_rule owned mem head
    exact ⟨r, g.mem_rulesOf.mpr ⟨hr, rfl⟩, same⟩
  · rintro ⟨r, hr, rfl⟩
    obtain ⟨mem, rfl⟩ := g.mem_rulesOf.mp hr
    exact ⟨E.rule r mem, rfl⟩

/-! ### Derivations -/

theorem derives {s t : List Symbol} (h : Derives g.rules s t) :
    Derives g'.rules (ρ.string s) (ρ.string t) := by
  refine Relation.ReflTransGen.lift ρ.string (fun s t step => ?_) s t h
  cases step with
  | step rule mem left right =>
    have step := Produces.step (ρ.renumber rule) (E.rule rule mem) (ρ.string left) (ρ.string right)
    change Produces g'.rules (ρ.string _) (ρ.string _)
    simpa [Renaming.renumber, Renaming.symbol] using step

variable (wf : g.WellFormed)
include wf

/-- From a string of the first grammar the second derives nothing but strings of the first. -/
theorem exists_derives {s t' : List Symbol} (owned : ∀ x ∈ s, g.symbols.owns x = true)
    (h : Derives g'.rules (ρ.string s) t') :
    ∃ t, t' = ρ.string t ∧ Derives g.rules s t := by
  induction h with
  | refl => exact ⟨s, rfl, .refl⟩
  | tail _ step ih =>
    obtain ⟨t, same, h⟩ := ih
    have inside := h.forall_mem wf.body_owned owned
    cases step with
    | step rule' mem left right =>
      -- the replaced non-terminal comes from one of the first grammar, and so does its rule
      obtain ⟨front, rest, rfl, rfl, split⟩ := List.map_eq_append_iff.mp same.symm
      obtain ⟨x, after, rfl, head, rfl⟩ := List.map_eq_cons_iff.mp split
      cases x with
      | terminal a => cases head
      | nonTerminal n =>
        obtain ⟨rule, hr, rfl, rfl⟩ :=
          E.exists_rule (inside (.nonTerminal n) (by simp)) mem (Symbol.nonTerminal.inj head).symm
        refine ⟨front ++ rule.body ++ after, ?_, h.open_rule hr⟩
        simp [Renaming.string, Renaming.renumber]

/-! ### Analysis -/

variable (wf' : g'.WellFormed)
include wf'

theorem nullableString_eq {s : List Symbol} (owned : ∀ x ∈ s, g.symbols.owns x = true) :
    g'.nullableString (ρ.string s) = g.nullableString s := by
  rw [Bool.eq_iff_iff, nullableString_iff_derives wf', nullableString_iff_derives wf]
  constructor
  · intro h
    obtain ⟨t, same, h⟩ := E.exists_derives wf owned h
    cases List.map_eq_nil_iff.mp same.symm
    exact h
  · exact E.derives

theorem mem_firstOfString {s : List Symbol} (owned : ∀ x ∈ s, g.symbols.owns x = true)
    {t' : Terminal} :
    t' ∈ g'.firstOfString (ρ.string s) ↔ ∃ t ∈ g.firstOfString s, t' = ρ.terminal t := by
  simp only [mem_firstOfString_iff_derives wf', mem_firstOfString_iff_derives wf]
  constructor
  · rintro ⟨rest', h⟩
    obtain ⟨t, same, h⟩ := E.exists_derives wf owned h
    obtain ⟨x, rest, rfl, first, _⟩ := List.map_eq_cons_iff.mp same.symm
    cases x with
    | terminal t => exact ⟨t, ⟨rest, h⟩, (Symbol.terminal.inj first).symm⟩
    | nonTerminal n => cases first
  · rintro ⟨t, ⟨rest, h⟩, rfl⟩
    exact ⟨ρ.string rest, E.derives h⟩

theorem mem_firstWith {s : List Symbol} (owned : ∀ x ∈ s, g.symbols.owns x = true)
    {a t' : Terminal} :
    t' ∈ g'.firstWith (ρ.string s) (ρ.terminal a) ↔ ∃ t ∈ g.firstWith s a, t' = ρ.terminal t := by
  simp only [Grammar.mem_firstWith, E.mem_firstOfString wf wf' owned,
    E.nullableString_eq wf wf' owned]
  constructor
  · rintro (⟨t, mem, rfl⟩ | ⟨empty, rfl⟩)
    · exact ⟨t, .inl mem, rfl⟩
    · exact ⟨a, .inr ⟨empty, rfl⟩, rfl⟩
  · rintro ⟨t, mem | ⟨empty, rfl⟩, rfl⟩
    · exact .inl ⟨t, mem, rfl⟩
    · exact .inr ⟨empty, rfl⟩

/-! ### Items -/

omit wf in
theorem rule?_eq {id : RuleId} {r : Rule V} (found : g.rule? id = some r) (same : r.id = id) :
    g'.rule? (ρ.rule id) = some (ρ.renumber r) := by
  have mem := E.rule r (List.mem_of_getElem? found)
  rw [← same]
  exact wf'.rule?_of_mem mem

variable {i j : Item} (hi : i ∈ g.items)
include hi

theorem rule?_item : g'.rule? (ρ.item i).rule = (g.rule? i.rule).map ρ.renumber := by
  obtain ⟨r, mem, same, _⟩ := Grammar.mem_items.mp hi
  have found := wf.rule?_of_mem mem
  rw [← same] at found
  rw [found, Option.map_some]
  exact E.rule?_eq wf' found same.symm

theorem body_item : g'.body (ρ.item i).rule = ρ.string (g.body i.rule) := by
  rw [Grammar.body, Grammar.body, E.rule?_item wf wf' hi]
  cases g.rule? i.rule <;> rfl

theorem symbol?_item : (ρ.item i).symbol? g' = (i.symbol? g).map ρ.symbol := by
  rw [Item.symbol?, E.body_item wf wf' hi]
  exact List.getElem?_map

theorem remainder_item : (ρ.item i).remainder g' = ρ.string (i.remainder g) := by
  rw [Item.remainder, E.body_item wf wf' hi]
  exact (List.map_drop).symm

theorem mem_expansion_item {j' : Item} :
    j' ∈ (ρ.item i).expansion g' ↔ ∃ j ∈ i.expansion g, ρ.item j = j' := by
  have rest : ∀ x ∈ i.remainder g, g.symbols.owns x = true := fun x hx =>
    wf.owned_of_mem_body x (List.mem_of_mem_drop hx)
  simp only [Item.mem_expansion, E.symbol?_item wf wf' hi, E.remainder_item wf wf' hi,
    Option.map_eq_some_iff]
  constructor
  · rintro ⟨n', ⟨x, next, same⟩, r', mem, a', ha', rfl⟩
    cases x with
    | terminal t => cases same
    | nonTerminal n =>
      cases same
      have owned := wf.owned_of_mem_body _ (List.mem_of_getElem? next)
      obtain ⟨r, hr, rfl⟩ := (E.mem_rulesOf owned).mp mem
      obtain ⟨a, ha, rfl⟩ := (E.mem_firstWith wf wf' rest).mp ha'
      exact ⟨⟨r.id, 0, a⟩, ⟨n, next, r, hr, a, ha, rfl⟩, rfl⟩
  · rintro ⟨_, ⟨n, next, r, hr, a, ha, rfl⟩, rfl⟩
    have owned := wf.owned_of_mem_body _ (List.mem_of_getElem? next)
    exact ⟨_, ⟨_, next, rfl⟩, _, (E.mem_rulesOf owned).mpr ⟨r, hr, rfl⟩, _,
      (E.mem_firstWith wf wf' rest).mpr ⟨a, ha, rfl⟩, rfl⟩

/-! ### Item sets -/

omit hi

variable {s t : ItemSet}

theorem close_items (inside : ∀ i ∈ s, i ∈ g.items) :
    (ρ.items s).close g' = ρ.items (s.close g) := by
  have known := Grammar.close_mem_items inside
  refine OrderedSet.ext fun i' => ?_
  rw [Renaming.mem_items]
  constructor
  · refine ItemSet.close_induction g' (P := fun i' => ∃ i ∈ s.close g, ρ.item i = i')
      (fun i' hi' => ?_) fun i' hi' j' hj' => ?_
    · obtain ⟨i, hi, rfl⟩ := ρ.mem_items.mp hi'
      exact ⟨i, ItemSet.mem_close_of_mem g hi, rfl⟩
    · obtain ⟨i, hi, rfl⟩ := hi'
      obtain ⟨j, hj, rfl⟩ := (E.mem_expansion_item wf wf' (known i hi)).mp hj'
      exact ⟨j, ItemSet.close_closed g hi j hj, rfl⟩
  · rintro ⟨i, hi, rfl⟩
    have both : i ∈ g.items ∧ ρ.item i ∈ (ρ.items s).close g' := by
      refine ItemSet.close_induction g (P := fun i => i ∈ g.items ∧ ρ.item i ∈ _)
        (fun i hi => ?_) (fun i hi j hj => ?_) hi
      · exact ⟨inside i hi, ItemSet.mem_close_of_mem g' (ρ.mem_items.mpr ⟨i, hi, rfl⟩)⟩
      · refine ⟨Grammar.expansion_mem_items hi.1 hj, ItemSet.close_closed g' hi.2 _ ?_⟩
        exact (E.mem_expansion_item wf wf' hi.1).mpr ⟨j, hj, rfl⟩
    exact both.2

theorem advance?_item (hi : i ∈ g.items) {x : Symbol} (owned : g.symbols.owns x = true) :
    (ρ.item i).advance? g' (ρ.symbol x) = (i.advance? g x).map ρ.item := by
  refine Option.ext fun j' => ?_
  simp only [Item.advance?_eq_some, Option.map_eq_some_iff, E.symbol?_item wf wf' hi]
  constructor
  · rintro ⟨⟨y, next, same⟩, rfl⟩
    have mine := wf.owned_of_mem_body y (List.mem_of_getElem? next)
    have home := (SymbolTable.grammar_of_owns mine).trans (SymbolTable.grammar_of_owns owned).symm
    cases (ρ.symbol_inj home).mp same
    exact ⟨_, ⟨next, rfl⟩, rfl⟩
  · rintro ⟨_, ⟨next, rfl⟩, rfl⟩
    exact ⟨⟨x, next, rfl⟩, rfl⟩

theorem goto_items (inside : ∀ i ∈ s, i ∈ g.items) {x : Symbol} (owned : g.symbols.owns x = true) :
    (ρ.items s).goto g' (ρ.symbol x) = ρ.items (s.goto g x) := by
  rw [ItemSet.goto, ItemSet.goto, ← E.close_items wf wf' (wf.moved_mem_items inside x)]
  congr 1
  refine OrderedSet.ext fun j' => ?_
  simp only [OrderedSet.mem_ofList, Renaming.mem_items, List.mem_filterMap]
  constructor
  · rintro ⟨_, hi', hj'⟩
    obtain ⟨i, hi, rfl⟩ := ρ.mem_items.mp hi'
    rw [E.advance?_item wf wf' (inside i hi) owned] at hj'
    obtain ⟨j, hj, rfl⟩ := Option.map_eq_some_iff.mp hj'
    exact ⟨j, ⟨i, hi, hj⟩, rfl⟩
  · rintro ⟨j, ⟨i, hi, hj⟩, rfl⟩
    refine ⟨ρ.item i, ρ.mem_items.mpr ⟨i, hi, rfl⟩, ?_⟩
    rw [E.advance?_item wf wf' (inside i hi) owned, hj, Option.map_some]

/-- The symbols after the dots keep their order. -/
theorem nextSymbols_items (inside : ∀ i ∈ s, i ∈ g.items) :
    ((ρ.items s).nextSymbols g').toList = (s.nextSymbols g).toList.map ρ.symbol := by
  refine OrderedSet.eq_of_mem_iff (OrderedSet.ascending _) ?_ fun x' => ?_
  · refine List.pairwise_map.mpr ((s.nextSymbols g).ascending.imp_of_mem fun hx hy less => ?_)
    rwa [ρ.compare_symbol]
    exact (SymbolTable.grammar_of_owns (wf.nextSymbols_owned hx)).trans
      (SymbolTable.grammar_of_owns (wf.nextSymbols_owned hy)).symm
  · rw [← OrderedSet.mem_def, ItemSet.mem_nextSymbols, List.mem_map]
    constructor
    · rintro ⟨_, hi', next'⟩
      obtain ⟨i, hi, rfl⟩ := ρ.mem_items.mp hi'
      rw [E.symbol?_item wf wf' (inside i hi)] at next'
      obtain ⟨x, next, rfl⟩ := Option.map_eq_some_iff.mp next'
      exact ⟨x, ItemSet.mem_nextSymbols.mpr ⟨i, hi, next⟩, rfl⟩
    · rintro ⟨x, hx, rfl⟩
      obtain ⟨i, hi, next⟩ := ItemSet.mem_nextSymbols.mp hx
      refine ⟨ρ.item i, ρ.mem_items.mpr ⟨i, hi, rfl⟩, ?_⟩
      rw [E.symbol?_item wf wf' (inside i hi), next, Option.map_some]

end Grammar.Embeds

/-- Different item sets of the grammar stay different. -/
theorem Renaming.items_inj (ρ : Renaming) (wf : g.WellFormed) {s t : ItemSet}
    (hs : ∀ i ∈ s, i ∈ g.items) (ht : ∀ i ∈ t, i ∈ g.items) : ρ.items s = ρ.items t ↔ s = t := by
  have inside {s t : ItemSet} (hs : ∀ i ∈ s, i ∈ g.items) (ht : ∀ i ∈ t, i ∈ g.items)
      (same : ρ.items s = ρ.items t) {i : Item} (hi : i ∈ s) : i ∈ t := by
    have mem : ρ.item i ∈ ρ.items t := same ▸ ρ.mem_items.mpr ⟨i, hi, rfl⟩
    obtain ⟨j, hj, equal⟩ := ρ.mem_items.mp mem
    have home := (wf.grammar_of_mem_items (ht j hj)).trans (wf.grammar_of_mem_items (hs i hi)).symm
    exact (ρ.item_inj home).mp equal ▸ hj
  refine ⟨fun same => OrderedSet.ext fun i => ?_, congrArg _⟩
  exact ⟨inside hs ht same, inside ht hs same.symm⟩

end CanonicalLR
