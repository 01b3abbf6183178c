import CanonicalLR.WellFormed

/-!
Whatever the author calls, a builder grows by declarations and by checked rules, one
at a time. So what holds of a new builder and survives these two holds of every
builder that an author can reach, and of the grammars that are finished from them.
-/
namespace CanonicalLR

variable {V α β : Type}

/-- Whether the call succeeds or not, the builder it leaves is related to the one it was given. -/
def Authoring.Within (R : Builder V → Builder V → Prop) (call : Authoring V α) : Prop :=
  ∀ b, R b (call.apply b).2

/-- The relation holds across a declaration and across a rule, across nothing, and across what is
put together of parts across which it holds. -/
structure Builder.Stepwise (R : Builder V → Builder V → Prop) : Prop where
  refl : ∀ b, R b b
  trans : ∀ a b c, R a b → R b c → R a c
  terminal : ∀ name, Authoring.Within R (Builder.declare name .terminal)
  nonTerminal : ∀ name, Authoring.Within R (Builder.declare name .nonTerminal)
  rule : ∀ head body decoration, Authoring.Within R (Builder.addRule head body decoration)

namespace Builder.Stepwise

open Authoring

variable {R : Builder V → Builder V → Prop} (grows : Stepwise R)
include grows

theorem pure (a : α) : Within R (Pure.pure a : Authoring V α) := fun b => grows.refl b

theorem get : Within R (MonadState.get : Authoring V (Builder V)) := fun b => grows.refl b

theorem lift (answer : Except AuthoringError α) : Within R (liftM answer : Authoring V α) :=
  fun b => grows.refl b

theorem bind {call : Authoring V α} {next : α → Authoring V β} (h : Within R call)
    (h' : ∀ a, Within R (next a)) : Within R (call >>= next) := by
  intro b
  have first := h b
  rw [apply_bind]
  rcases hb : call.apply b with ⟨answer, b'⟩
  rw [hb] at first
  cases answer with
  | ok a => exact grows.trans _ _ _ first (h' a b')
  | error e => exact first

theorem forM {f : α → Authoring V PUnit} (h : ∀ a, Within R (f a)) (l : List α) :
    Within R (l.forM f) := by
  induction l with
  | nil => exact grows.pure _
  | cons a l ih => exact grows.bind (h a) fun _ => ih

/-! ### Combinators -/

theorem resolve (ref : SymbolRef) : Within R (Combinator.resolve ref) :=
  grows.bind grows.get fun _ => grows.lift _

theorem resolveAll (refs : List SymbolRef) : Within R (Combinator.resolveAll refs) :=
  grows.bind grows.get fun _ => grows.lift _

theorem fresh (stem : String) : Within R (Combinator.fresh stem) :=
  grows.bind grows.get fun _ =>
    grows.bind grows.get fun _ => grows.bind (grows.nonTerminal _) fun _ => grows.pure _

theorem produce (head : NonTerminal) (body : List Symbol) (handler : List V → V) :
    Within R (Combinator.produce head body handler) :=
  grows.bind (grows.rule _ _ _) fun _ => grows.pure _

theorem seq (body : List SymbolRef) (handler : Option (List V → V)) :
    Within R (Combinator.seq body handler) := by
  refine grows.bind (grows.resolveAll body) fun body => ?_
  refine grows.bind (grows.fresh _) fun head => ?_
  exact grows.bind (grows.rule _ _ _) fun _ => grows.pure _

variable [SemanticValue V]

theorem optional (symbol : SymbolRef) : Within R (Combinator.optional symbol) := by
  refine grows.bind (grows.resolve symbol) fun symbol => ?_
  refine grows.bind (grows.fresh _) fun head => ?_
  refine grows.bind (grows.produce _ _ _) fun _ => ?_
  exact grows.bind (grows.produce _ _ _) fun _ => grows.pure _

theorem star (symbol : SymbolRef) : Within R (Combinator.star symbol) := by
  refine grows.bind (grows.resolve symbol) fun symbol => ?_
  refine grows.bind (grows.fresh _) fun head => ?_
  refine grows.bind (grows.produce _ _ _) fun _ => ?_
  exact grows.bind (grows.produce _ _ _) fun _ => grows.pure _

theorem plus (symbol : SymbolRef) : Within R (Combinator.plus symbol) := by
  refine grows.bind (grows.resolve symbol) fun symbol => ?_
  refine grows.bind (grows.star _) fun rest => ?_
  refine grows.bind (grows.fresh _) fun head => ?_
  exact grows.bind (grows.produce _ _ _) fun _ => grows.pure _

theorem oneOf (first : SymbolRef) (rest : List SymbolRef) :
    Within R (Combinator.oneOf first rest) := by
  refine grows.bind (grows.resolveAll _) fun alternatives => ?_
  refine grows.bind (grows.fresh _) fun head => ?_
  exact grows.bind (grows.forM (fun _ => grows.produce _ _ _) _) fun _ => grows.pure _

theorem separated (item separator : SymbolRef) (atLeastOne : Bool) :
    Within R (Combinator.separated item separator atLeastOne) := by
  refine grows.bind (grows.resolve item) fun item => ?_
  refine grows.bind (grows.resolve separator) fun separator => ?_
  refine grows.bind (grows.fresh _) fun tail => ?_
  refine grows.bind (grows.produce _ _ _) fun _ => ?_
  refine grows.bind (grows.produce _ _ _) fun _ => ?_
  refine grows.bind (grows.fresh _) fun head => ?_
  refine grows.bind (grows.produce _ _ _) fun _ => ?_
  cases atLeastOne with
  | true => exact grows.pure _
  | false => exact grows.bind (grows.produce _ _ _) fun _ => grows.pure _

theorem terminated (item separator terminator : SymbolRef) (terminatorOptional allowEmpty : Bool) :
    Within R (Combinator.terminated item separator terminator terminatorOptional allowEmpty) := by
  refine grows.bind (grows.resolve item) fun item => ?_
  refine grows.bind (grows.resolve separator) fun separator => ?_
  refine grows.bind (grows.resolve terminator) fun terminator => ?_
  refine grows.bind (grows.fresh _) fun items => ?_
  refine grows.bind (grows.produce _ _ _) fun _ => ?_
  refine grows.bind (grows.produce _ _ _) fun _ => ?_
  refine grows.bind (grows.fresh _) fun head => ?_
  refine grows.bind (grows.produce _ _ _) fun _ => ?_
  -- The two flags decide which of the last three rules are written.
  cases terminatorOptional <;> cases allowEmpty
  · exact grows.pure _
  · exact grows.bind (grows.produce _ _ _) fun _ => grows.pure _
  · exact grows.bind (grows.produce _ _ _) fun _ => grows.pure _
  · refine grows.bind (grows.produce _ _ _) fun _ => ?_
    refine grows.bind (grows.produce _ _ _) fun _ => ?_
    exact grows.bind (grows.produce _ _ _) fun _ => grows.pure _

/-- The relation holds across every command. -/
theorem run (command : Command V) (b : Builder V) : R b (command.run b).2 := by
  suffices h : Within R command.call from h b
  cases command with
  | terminal name =>
    refine grows.bind (grows.bind grows.get fun _ => ?_) fun _ => grows.pure _
    exact grows.bind (grows.terminal _) fun _ => grows.pure _
  | nonTerminal name =>
    refine grows.bind (grows.bind grows.get fun _ => ?_) fun _ => grows.pure _
    exact grows.bind (grows.nonTerminal _) fun _ => grows.pure _
  | rule head body decoration =>
    exact grows.bind (grows.rule head body decoration) fun _ => grows.pure _
  | setStart symbol decoration =>
    refine grows.bind (grows.bind grows.get fun _ => ?_) fun _ => grows.pure _
    exact grows.bind (grows.lift _) fun _ => grows.rule _ _ _
  | seq body handler => exact grows.bind (grows.seq body handler) fun _ => grows.pure _
  | optional symbol => exact grows.bind (grows.optional symbol) fun _ => grows.pure _
  | star symbol => exact grows.bind (grows.star symbol) fun _ => grows.pure _
  | plus symbol => exact grows.bind (grows.plus symbol) fun _ => grows.pure _
  | oneOf first rest => exact grows.bind (grows.oneOf first rest) fun _ => grows.pure _
  | separated item separator atLeastOne =>
    exact grows.bind (grows.separated item separator atLeastOne) fun _ => grows.pure _
  | terminated item separator terminator terminatorOptional allowEmpty =>
    exact grows.bind
      (grows.terminated item separator terminator terminatorOptional allowEmpty) fun _ =>
        grows.pure _

theorem runAll (commands : List (Command V)) (b : Builder V) :
    R b (Command.runAll commands b) := by
  induction commands generalizing b with
  | nil => exact grows.refl b
  | cons command commands ih => exact grows.trans _ _ _ (grows.run command b) (ih _)

end Builder.Stepwise

/-! ### References -/

/-- A list of checks succeeds just if each check succeeds, with the answers in order. -/
theorem mapM_eq_ok_iff {ε : Type} {f : α → Except ε β} {l : List α} {m : List β} :
    l.mapM f = .ok m ↔ l.map f = m.map Except.ok := by
  induction l generalizing m with
  | nil => cases m <;> simp [pure, Except.pure]
  | cons a l ih =>
    rw [List.mapM_cons]
    cases ha : f a with
    | error e => cases m <;> simp [bind, Except.bind, ha]
    | ok b =>
      cases hl : l.mapM f with
      | error e =>
        have none (rest : List β) : l.map f ≠ rest.map Except.ok := fun h => by
          rw [ih.mpr h] at hl
          cases hl
        cases m <;> simp [bind, Except.bind, ha, none]
      | ok rest =>
        have := ih.mp hl
        cases m with
        | nil => simp [bind, Except.bind, pure, Except.pure]
        | cons c m =>
          simp only [bind, Except.bind, pure, Except.pure, Except.ok.injEq, List.map_cons, ha, this,
            List.cons.injEq]
          exact and_congr_right fun _ =>
            (List.map_inj_right fun _ _ => Except.ok.inj).symm

theorem exists_eq_ok {ε α : Type} {answer : Except ε α} (h : answer.isOk = true) :
    ∃ a, answer = .ok a := by
  cases answer with
  | error e => cases h
  | ok a => exact ⟨a, rfl⟩

theorem mapM_congr {m : Type → Type} [Monad m] [LawfulMonad m] {f f' : α → m β}
    {l : List α} (same : ∀ a ∈ l, f a = f' a) : l.mapM f = l.mapM f' := by
  induction l with
  | nil => rfl
  | cons a l ih =>
    rw [List.mapM_cons, List.mapM_cons, same a List.mem_cons_self,
      ih fun b mem => same b (List.mem_cons_of_mem a mem)]

namespace SymbolTable

variable {table : SymbolTable}

theorem owns_iff_declared {s : Symbol} :
    table.owns s = true ↔
      ∃ d, table.declarations[s.index]? = some d ∧ table.handle d.kind s.index = s := by
  simp only [owns, symbolAt?, decide_eq_true_eq, Option.map_eq_some_iff]

theorem owns_handle {i : Nat} {d : Declaration} (h : table.declarations[i]? = some d) :
    table.owns (table.handle d.kind i) = true :=
  owns_iff_declared.mpr ⟨d, by simpa using h, by simp⟩

/-- A table that continues another one owns what that one owns. -/
theorem owns_of_append {s : Symbol} (h : table.owns s = true) (more : List Declaration) :
    owns { table with declarations := table.declarations ++ more } s = true := by
  obtain ⟨d, hd, hs⟩ := owns_iff_declared.mp h
  refine owns_iff_declared.mpr ⟨d, ?_, hs⟩
  rw [List.getElem?_append_left (List.getElem?_eq_some_iff.mp hd).1]
  exact hd

theorem owns_of_find? {name : String} {s : Symbol} (h : table.find? name = some s) :
    table.owns s = true := by
  simp only [find?, Option.map_eq_some_iff, Prod.exists] at h
  obtain ⟨d, i, found, rfl⟩ := h
  have member := List.mem_of_find?_eq_some found
  exact owns_handle (List.mem_zipIdx_iff_getElem?.mp member)

theorem owns_of_resolve {ref : SymbolRef} {s : Symbol} (h : table.resolve ref = .ok s) :
    table.owns s = true := by
  cases ref with
  | name name =>
    simp only [resolve] at h
    split at h
    · rename_i found
      cases h
      exact owns_of_find? found
    · cases h
  | handle symbol =>
    simp only [resolve] at h
    split at h
    · rename_i owned
      cases h
      exact owned
    · cases h

theorem owns_of_resolveNonTerminal {ref : SymbolRef} {n : NonTerminal}
    (h : table.resolveNonTerminal ref = .ok n) : table.owns (.nonTerminal n) = true := by
  unfold resolveNonTerminal at h
  cases hs : table.resolve ref with
  | error e => simp [hs, bind, Except.bind] at h
  | ok s =>
    simp only [hs, bind, Except.bind] at h
    cases s with
    | terminal t => cases h
    | nonTerminal m =>
      cases h
      exact owns_of_resolve hs

theorem owns_of_resolveAll {refs : List SymbolRef} {body : List Symbol}
    (h : table.resolveAll refs = .ok body) : ∀ s ∈ body, table.owns s = true := by
  intro s hs
  have answered : Except.ok s ∈ refs.map table.resolve := by
    rw [mapM_eq_ok_iff.mp h]
    exact List.mem_map_of_mem hs
  obtain ⟨ref, _, href⟩ := List.mem_map.mp answered
  exact owns_of_resolve href

end SymbolTable

/-! ### Well-formed builders -/

namespace Builder.WellFormed

/-- A rule that passes its checks is made of symbols of the table, without the end of input. -/
theorem of_checkRule {b : Builder V} {head : SymbolRef} {body : List SymbolRef} {n : NonTerminal}
    {string : List Symbol} (h : b.checkRule head body = .ok (n, string)) :
    b.symbols.owns (.nonTerminal n) = true ∧ (∀ s ∈ string, b.symbols.owns s = true) ∧
      Symbol.terminal b.eos ∉ string := by
  unfold checkRule at h
  cases hn : b.symbols.resolveNonTerminal head with
  | error e => simp [hn, bind, Except.bind] at h
  | ok m =>
    cases hs : b.symbols.resolveAll body with
    | error e => simp [hn, hs, bind, Except.bind] at h
    | ok symbols =>
      simp only [hn, hs, bind, Except.bind] at h
      split at h
      · cases h
      · rename_i free
        cases h
        exact ⟨SymbolTable.owns_of_resolveNonTerminal hn, SymbolTable.owns_of_resolveAll hs, free⟩

theorem declare {b : Builder V} (h : b.WellFormed) (name : String) (kind : SymbolKind) :
    ((Builder.declare name kind).apply b).2.WellFormed := by
  rw [apply_declare]
  unfold SymbolTable.declare
  by_cases taken : b.symbols.containsName name = true
  · simpa only [if_pos taken] using h
  · simp only [if_neg taken]
    have two : 1 < b.symbols.declarations.length := by
      obtain ⟨d, hd, _⟩ := Option.map_eq_some_iff.mp h.eos_kind
      exact (List.getElem?_eq_some_iff.mp hd).1
    refine ⟨?_, ?_, ?_, h.rule_id, ?_, ?_, h.eos_not_mem_body⟩
    · rw [List.map_append, List.nodup_append]
      refine ⟨h.names_nodup, by simp, ?_⟩
      rintro _ hn _ hm rfl
      obtain ⟨d, hd, rfl⟩ := List.mem_map.mp hn
      refine taken (List.any_eq_true.mpr ⟨d, hd, ?_⟩)
      simpa using hm
    · rw [List.getElem?_append_left (by omega)]
      exact h.start_kind
    · rw [List.getElem?_append_left (by omega)]
      exact h.eos_kind
    · intro rule mem
      exact SymbolTable.owns_of_append (h.head_owned rule mem) _
    · intro rule mem s hs
      exact SymbolTable.owns_of_append (h.body_owned rule mem s hs) _

theorem addRule {b : Builder V} (h : b.WellFormed) (head : SymbolRef) (body : List SymbolRef)
    (decoration : Decoration V) :
    ((Builder.addRule head body decoration).apply b).2.WellFormed := by
  rw [apply_addRule]
  cases checked : b.checkRule head body with
  | error e => exact h
  | ok answer =>
    obtain ⟨head', body'⟩ := answer
    obtain ⟨owned, all, free⟩ := of_checkRule checked
    refine ⟨h.names_nodup, h.start_kind, h.eos_kind, ?_, ?_, ?_, ?_⟩
    · intro i rule hi
      rcases Nat.lt_or_ge i b.rules.length with hlt | hge
      · rw [List.getElem?_append_left hlt] at hi
        exact h.rule_id i rule hi
      · rw [List.getElem?_append_right hge] at hi
        obtain ⟨bound, rfl⟩ := List.getElem?_eq_some_iff.mp hi
        simp only [List.length_singleton] at bound
        rw [List.getElem_singleton]
        change b.rules.length = i
        omega
    all_goals
      intro rule mem
      rcases List.mem_append.mp mem with mem | mem
    · exact h.head_owned rule mem
    · rw [List.mem_singleton.mp mem]
      exact owned
    · exact h.body_owned rule mem
    · rw [List.mem_singleton.mp mem]
      exact all
    · exact h.eos_not_mem_body rule mem
    · rw [List.mem_singleton.mp mem]
      exact free

theorem new {id : GrammarId} {startName eosName : String} {b : Builder V}
    (h : Builder.new id startName eosName = .ok b) : b.WellFormed := by
  unfold Builder.new SymbolTable.declare at h
  simp only [SymbolTable.containsName, List.any_nil, Bool.false_eq_true, if_false, bind,
    Except.bind, List.nil_append, List.any_cons, Bool.or_false, beq_iff_eq] at h
  by_cases same : startName = eosName
  · simp [same] at h
  · simp only [if_neg same, pure, Except.pure, Except.ok.injEq] at h
    subst h
    refine ⟨by simpa using same, rfl, rfl, ?_, ?_, ?_, ?_⟩ <;> simp

end Builder.WellFormed

theorem Builder.stepwise_wellFormed :
    Builder.Stepwise fun b b' : Builder V => b.WellFormed → b'.WellFormed where
  refl _ h := h
  trans _ _ _ h h' := h' ∘ h
  terminal name _ h := h.declare name .terminal
  nonTerminal name _ h := h.declare name .nonTerminal
  rule head body decoration _ h := h.addRule head body decoration

/-- Every builder that an author can reach is well-formed. -/
theorem Builder.Authored.wellFormed [SemanticValue V] {b : Builder V} (h : b.Authored) :
    b.WellFormed := by
  obtain ⟨id, startName, eosName, b₀, commands, created, rfl⟩ := h
  exact Builder.stepwise_wellFormed.runAll commands b₀ (.new created)

/-! ### Finished grammars -/

/-- What is known of a grammar that was finished from a well-formed builder. -/
structure Grammar.WellFormed (g : Grammar V) : Prop where
  analysis : g.analysis = .ofRules g.rules g.start g.eos
  rule_id : ∀ (i : Nat) (rule : Rule V), g.rules[i]? = some rule → rule.id = i
  start_owned : g.symbols.owns (.nonTerminal g.start) = true
  eos_owned : g.symbols.owns (.terminal g.eos) = true
  body_owned : ∀ rule ∈ g.rules, ∀ s ∈ rule.body, g.symbols.owns s = true
  eos_not_mem_body : ∀ rule ∈ g.rules, Symbol.terminal g.eos ∉ rule.body

theorem Builder.WellFormed.build {b : Builder V} (h : b.WellFormed) : b.build.WellFormed where
  analysis := rfl
  rule_id := h.rule_id
  start_owned := by
    obtain ⟨d, hd, kind⟩ := Option.map_eq_some_iff.mp h.start_kind
    exact SymbolTable.owns_iff_declared.mpr ⟨d, hd, by rw [kind]; rfl⟩
  eos_owned := by
    obtain ⟨d, hd, kind⟩ := Option.map_eq_some_iff.mp h.eos_kind
    exact SymbolTable.owns_iff_declared.mpr ⟨d, hd, by rw [kind]; rfl⟩
  body_owned := h.body_owned
  eos_not_mem_body := h.eos_not_mem_body

namespace Grammar.WellFormed

variable {g : Grammar V} (h : g.WellFormed)
include h

theorem mem_of_rule? {id : RuleId} {rule : Rule V} (found : g.rule? id = some rule) :
    rule ∈ g.rules ∧ rule.id = id :=
  ⟨List.mem_of_getElem? found, h.rule_id id rule found⟩

theorem rule?_of_mem {rule : Rule V} (mem : rule ∈ g.rules) : g.rule? rule.id = some rule := by
  obtain ⟨i, hi⟩ := List.mem_iff_getElem?.mp mem
  rw [h.rule_id i rule hi]
  exact hi

theorem body_of_mem {rule : Rule V} (mem : rule ∈ g.rules) : g.body rule.id = rule.body := by
  simp [Grammar.body, h.rule?_of_mem mem]

/-- Rules have different numbers, so none is there twice. -/
theorem nodup_rules : g.rules.Nodup := by
  refine List.pairwise_iff_getElem.mpr fun i j hi hj before same => ?_
  have first := h.rule_id i _ (List.getElem?_eq_getElem hi)
  have second := h.rule_id j _ (List.getElem?_eq_getElem hj)
  exact absurd (second.symm.trans (same ▸ first)) (Nat.ne_of_gt before)

end Grammar.WellFormed

end CanonicalLR
