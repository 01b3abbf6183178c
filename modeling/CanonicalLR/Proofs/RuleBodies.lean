import CanonicalLR.Proofs.Synthesis
import CanonicalLR.Proofs.Texts

/-!
What combinators write into the bodies of rules. A call that has looked up its arguments
declares non-terminals, which never fails, and adds rules for them, made of the arguments
and of what it has declared; such a rule can only be refused for the end of input in its
body. So how the call comes out hangs on the symbols that it writes into bodies, and these
are its arguments, each of them.
-/
namespace CanonicalLR

variable {V α β : Type}

/-! ### Builders that have grown -/

namespace Builder.Extends

variable {b b' : Builder V} (h : b.Extends b')
include h

/-- What has come to the table stands behind what there was. -/
theorem exists_more : ∃ more,
    b'.symbols = ⟨b.symbols.grammar, b.symbols.declarations ++ more⟩ := by
  obtain ⟨more, same⟩ := h.declarations
  exact ⟨more, by rw [same, h.grammar]⟩

theorem eos_eq : b'.eos = b.eos := by
  rw [eos, eos, h.grammar]

theorem owns {x : Symbol} (owned : b.symbols.owns x = true) : b'.symbols.owns x = true := by
  obtain ⟨more, same⟩ := h.exists_more
  rw [same]
  exact SymbolTable.owns_of_append owned more

/-- A name keeps its symbol, since the symbols that are new come behind. -/
theorem resolve {ref : SymbolRef} {x : Symbol} (resolved : b.symbols.resolve ref = .ok x) :
    b'.symbols.resolve ref = .ok x := by
  cases ref with
  | name name =>
    obtain ⟨more, same⟩ := h.exists_more
    rw [SymbolTable.resolve_name_eq_ok_iff, SymbolTable.find?_eq_map,
      Option.map_eq_some_iff] at resolved ⊢
    obtain ⟨entry, found, handle⟩ := resolved
    refine ⟨entry, ?_, ?_⟩
    · rw [same, List.zipIdx_append, List.find?_append, found, Option.some_or]
    · rw [← handle, same]
      rfl
  | handle y =>
    obtain ⟨owned, rfl⟩ := SymbolTable.resolve_handle_eq_ok_iff.mp resolved
    exact SymbolTable.resolve_handle_eq_ok_iff.mpr ⟨h.owns owned, rfl⟩

theorem resolveAll {refs : List SymbolRef} {symbols : List Symbol}
    (resolved : b.symbols.resolveAll refs = .ok symbols) :
    b'.symbols.resolveAll refs = .ok symbols := by
  have answers := mapM_eq_ok_iff.mp resolved
  have same : ∀ ref ∈ refs, b'.symbols.resolve ref = b.symbols.resolve ref := by
    intro ref mem
    have answered : b.symbols.resolve ref ∈ symbols.map Except.ok := by
      rw [← answers]
      exact List.mem_map_of_mem mem
    obtain ⟨x, _, here⟩ := List.mem_map.mp answered
    rw [← here, h.resolve here.symm]
  exact (mapM_congr same).trans resolved

theorem name?_eq {x : Symbol} (owned : b.symbols.owns x = true) :
    b'.symbols.name? x = b.symbols.name? x := by
  obtain ⟨more, same⟩ := h.exists_more
  have bound := SymbolTable.index_lt_of_owns owned
  rw [SymbolTable.name?, SymbolTable.name?, if_pos owned, if_pos (h.owns owned), same,
    List.getElem?_append_left bound]

end Builder.Extends

/-! ### What is written into rule bodies -/

namespace Authoring

/-- How a call comes out on a builder if these are the symbols that it writes into rule bodies: it
is refused if the end of input is among them, and has an answer with the property if it is not.
Either way it has only added to the builder. -/
inductive Outcome (b : Builder V) (written : List Symbol) (P : Builder V → α → Prop) :
    Except AuthoringError α × Builder V → Prop where
  | refused {b' : Builder V} {name : String} (grown : b.Extends b')
    (mem : .terminal b.eos ∈ written) (named : b'.symbols.name? (.terminal b.eos) = some name) :
    Outcome b written P (.error (.eosInRule name), b')
  | answered {b' : Builder V} {a : α} (grown : b.Extends b')
    (free : .terminal b.eos ∉ written) (holds : P b' a) : Outcome b written P (.ok a, b')

/-- On whatever has become of the builder, the call writes these symbols into rule bodies. -/
def Writes (b₀ : Builder V) (written : List Symbol) (call : Authoring V α)
    (P : Builder V → α → Prop) : Prop :=
  ∀ b, b₀.Extends b → Outcome b written P (call.apply b)

/-- The non-terminal is one of the builder. -/
def Declared (b : Builder V) (n : NonTerminal) : Prop := b.symbols.owns (.nonTerminal n) = true

namespace Writes

variable {b₀ : Builder V} {written written' : List Symbol} {call : Authoring V α}
  {next : α → Authoring V β} {P : Builder V → α → Prop} {Q : Builder V → β → Prop}

theorem mono {b : Builder V} (writes : Writes b₀ written call P) (grown : b₀.Extends b) :
    Writes b written call P :=
  fun b' grown' => writes b' (grown.trans grown')

/-- Only terminals matter, and neither their order nor their number. -/
theorem congr (writes : Writes b₀ written call P)
    (same : ∀ t, Symbol.terminal t ∈ written ↔ Symbol.terminal t ∈ written') :
    Writes b₀ written' call P := by
  intro b grown
  have outcome := writes b grown
  generalize call.apply b = result at outcome ⊢
  cases outcome with
  | refused grown' mem named => exact .refused grown' ((same _).mp mem) named
  | answered grown' free holds => exact .answered grown' (fun mem => free ((same _).mpr mem)) holds

theorem bind (first : Writes b₀ written call P) (written' : List Symbol)
    (then_ : ∀ a b, b₀.Extends b → P b a → Writes b written' (next a) Q) :
    Writes b₀ (written ++ written') (call >>= next) Q := by
  intro b grown
  rw [apply_bind]
  have outcome := first b grown
  generalize call.apply b = result at outcome ⊢
  cases outcome with
  | refused grown' mem named => exact .refused grown' (List.mem_append_left _ mem) named
  | @answered b' a grown' free holds =>
    have later := then_ a b' (grown.trans grown') holds b' (.refl b')
    dsimp only
    generalize (next a).apply b' = result at later ⊢
    -- The end of input stays the same terminal, and the first part has not written it.
    have all : Symbol.terminal b.eos ∈ written ++ written' ↔ .terminal b'.eos ∈ written' := by
      simp [free, grown'.eos_eq]
    cases later with
    | refused grown'' mem named =>
      rw [grown'.eos_eq] at named
      exact .refused (grown'.trans grown'') (all.mpr mem) named
    | answered grown'' free' holds' =>
      exact .answered (grown'.trans grown'') (fun mem => free' (all.mp mem)) holds'

/-- A rest that is good for the first builder is good for what the first part leaves. -/
theorem andThen (first : Writes b₀ written call P) (rest : ∀ a, Writes b₀ written' (next a) Q) :
    Writes b₀ (written ++ written') (call >>= next) Q :=
  first.bind written' fun a _ grown _ => (rest a).mono grown

/-! ### Steps -/

theorem pure {a : α} (holds : ∀ b, b₀.Extends b → P b a) :
    Writes b₀ [] (Pure.pure a : Authoring V α) P :=
  fun b grown => .answered (.refl b) List.not_mem_nil (holds b grown)

theorem answer {n : NonTerminal} (declared : Declared b₀ n) :
    Writes b₀ [] (Pure.pure n : Authoring V NonTerminal) Declared :=
  pure fun _ grown => grown.owns declared

/-- An argument is the same symbol in whatever has become of the builder. -/
theorem resolve {ref : SymbolRef} {x : Symbol} {next : Symbol → Authoring V β}
    (resolved : b₀.symbols.resolve ref = .ok x) (rest : Writes b₀ written (next x) Q) :
    Writes b₀ written (Combinator.resolve ref >>= next) Q := by
  intro b grown
  rw [apply_bind, Combinator.apply_resolve, grown.resolve resolved]
  exact rest b grown

theorem resolveAll {refs : List SymbolRef} {symbols : List Symbol}
    {next : List Symbol → Authoring V β} (resolved : b₀.symbols.resolveAll refs = .ok symbols)
    (rest : Writes b₀ written (next symbols) Q) :
    Writes b₀ written (Combinator.resolveAll refs >>= next) Q := by
  intro b grown
  rw [apply_bind, Combinator.apply_resolveAll, grown.resolveAll resolved]
  exact rest b grown

/-- A new non-terminal is always declared. -/
theorem fresh (stem : String) : Writes b₀ [] (Combinator.fresh stem) Declared := by
  intro b _
  rw [Combinator.apply_fresh]
  exact .answered (b.extends_withHead stem) List.not_mem_nil (b.usable_newHead stem).owned

section

variable {head : NonTerminal} (declared : Declared b₀ head) (body : List Symbol)
  (owned : ∀ x ∈ body, b₀.symbols.owns x = true)
include declared owned

/-- Only the end of input in its body can stop a rule of symbols of the builder. -/
theorem addRule (decoration : Decoration V) :
    Writes b₀ body (Builder.addRule head (body.map SymbolRef.handle) decoration)
      fun _ _ => True := by
  intro b grown
  have all : ∀ x ∈ body, b.symbols.owns x = true := fun x mem => grown.owns (owned x mem)
  rw [Builder.apply_addRule, Builder.checkRule_of_owned (grown.owns declared) all]
  by_cases mem : Symbol.terminal b.eos ∈ body
  · obtain ⟨name, named⟩ := SymbolTable.exists_name? (all _ mem)
    rw [if_pos mem, named]
    exact .refused (.refl b) mem named
  · rw [if_neg mem]
    exact .answered ⟨rfl, List.prefix_refl _, List.prefix_append _ _⟩ mem trivial

theorem produce (handler : List V → V) :
    Writes b₀ body (Combinator.produce head body handler) fun _ _ => True :=
  ((addRule declared body owned _).andThen fun _ => pure fun _ _ => trivial).congr (by simp)

end

theorem forM {f : Symbol → Authoring V PUnit} {l : List Symbol}
    (each : ∀ x ∈ l, Writes b₀ [x] (f x) fun _ _ => True) :
    Writes b₀ l (l.forM f) fun _ _ => True := by
  induction l with
  | nil => exact pure fun _ _ => trivial
  | cons x l ih =>
    obtain ⟨here, later⟩ := List.forall_mem_cons.mp each
    exact here.andThen fun _ => ih later

/-! ### Combinators -/

theorem seq {refs : List SymbolRef} {body : List Symbol}
    (resolved : b₀.symbols.resolveAll refs = .ok body) (handler : Option (List V → V)) :
    Writes b₀ body (Combinator.seq refs handler) Declared := by
  apply resolveAll resolved
  apply (fresh "seq").bind body
  intro head b grown new
  have owned : ∀ x ∈ body, b.symbols.owns x = true := fun x mem =>
    grown.owns (SymbolTable.owns_of_resolveAll resolved x mem)
  have rule := addRule new body owned { handler := handler }
  exact (rule.andThen fun _ => answer new).congr (by simp)

variable [SemanticValue V] {ref itemRef separatorRef terminatorRef : SymbolRef}
  {x item separator terminator : Symbol}

theorem optional (resolved : b₀.symbols.resolve ref = .ok x) :
    Writes b₀ [x] (Combinator.optional ref) Declared := by
  apply resolve resolved
  apply (fresh "opt").bind [x]
  intro head b grown new
  have owned := grown.owns (SymbolTable.owns_of_resolve resolved)
  have none := produce new [] (by simp) Combinator.absent
  have some := produce new [x] (by simp [owned]) Combinator.onlyValue
  exact none.andThen fun _ => some.andThen fun _ => answer new

theorem star (resolved : b₀.symbols.resolve ref = .ok x) :
    Writes b₀ [x] (Combinator.star ref) Declared := by
  apply resolve resolved
  apply (fresh "star").bind [x]
  intro head b grown new
  have owned := grown.owns (SymbolTable.owns_of_resolve resolved)
  have stops := produce new [] (by simp) Combinator.emptyList
  have goes := produce new [x, .nonTerminal head] (by simpa using ⟨owned, new⟩)
    Combinator.itemThenList
  exact (stops.andThen fun _ => goes.andThen fun _ => answer new).congr (by simp)

theorem plus (resolved : b₀.symbols.resolve ref = .ok x) :
    Writes b₀ [x] (Combinator.plus ref) Declared := by
  have owned := SymbolTable.owns_of_resolve resolved
  have again : b₀.symbols.resolve (.handle x) = .ok x :=
    SymbolTable.resolve_handle_eq_ok_iff.mpr ⟨owned, rfl⟩
  apply resolve resolved
  refine ((star again).bind [x] ?_).congr (by simp)
  intro rest b grown old
  apply (fresh "plus").bind [x]
  intro head b' grown' new
  have item := grown'.owns (grown.owns owned)
  have goes := produce new [x, .nonTerminal rest]
    (by simpa using ⟨item, grown'.owns old⟩) Combinator.itemThenList
  exact (goes.andThen fun _ => answer new).congr (by simp)

theorem oneOf {first : SymbolRef} {rest : List SymbolRef} {symbols : List Symbol}
    (resolved : b₀.symbols.resolveAll (first :: rest) = .ok symbols) :
    Writes b₀ symbols (Combinator.oneOf first rest) Declared := by
  apply resolveAll resolved
  apply (fresh "one_of").bind symbols
  intro head b grown new
  have each : ∀ x ∈ symbols,
      Writes b [x] (Combinator.produce head [x] Combinator.firstValue) fun _ _ => True := by
    intro x mem
    have owned := grown.owns (SymbolTable.owns_of_resolveAll resolved x mem)
    exact produce new [x] (by simpa using owned) _
  exact ((forM each).andThen fun _ => answer new).congr (by simp)

theorem separated (resolvedItem : b₀.symbols.resolve itemRef = .ok item)
    (resolvedSeparator : b₀.symbols.resolve separatorRef = .ok separator) (atLeastOne : Bool) :
    Writes b₀ [item, separator] (Combinator.separated itemRef separatorRef atLeastOne)
      Declared := by
  apply resolve resolvedItem
  apply resolve resolvedSeparator
  apply (fresh "sep_tail").bind [item, separator]
  intro tail b grown newTail
  have ownedItem := grown.owns (SymbolTable.owns_of_resolve resolvedItem)
  have ownedSeparator := grown.owns (SymbolTable.owns_of_resolve resolvedSeparator)
  have stops := produce newTail [] (by simp) Combinator.emptyList
  have goes := produce newTail [separator, item, .nonTerminal tail]
    (by simpa using ⟨ownedSeparator, ownedItem, newTail⟩) Combinator.separatorItemList
  refine (stops.andThen fun _ => goes.andThen fun _ =>
    (fresh "sep").bind [item] ?_).congr (by grind)
  intro head b' grown' new
  have series := produce new [item, .nonTerminal tail]
    (by simpa using ⟨grown'.owns ownedItem, grown'.owns newTail⟩) Combinator.itemThenSequence
  have none := produce new [] (by simp) Combinator.emptySequence
  cases atLeastOne with
  | true => exact (series.andThen fun _ => answer new).congr (by simp)
  | false => exact (series.andThen fun _ => none.andThen fun _ => answer new).congr (by simp)

theorem terminated (resolvedItem : b₀.symbols.resolve itemRef = .ok item)
    (resolvedSeparator : b₀.symbols.resolve separatorRef = .ok separator)
    (resolvedTerminator : b₀.symbols.resolve terminatorRef = .ok terminator)
    (terminatorOptional allowEmpty : Bool) :
    Writes b₀ [item, separator, terminator]
      (Combinator.terminated itemRef separatorRef terminatorRef terminatorOptional allowEmpty)
      Declared := by
  apply resolve resolvedItem
  apply resolve resolvedSeparator
  apply resolve resolvedTerminator
  apply (fresh "term_acc").bind [item, separator, terminator]
  intro items b grown newItems
  have ownedItem := grown.owns (SymbolTable.owns_of_resolve resolvedItem)
  have ownedSeparator := grown.owns (SymbolTable.owns_of_resolve resolvedSeparator)
  have ownedTerminator := grown.owns (SymbolTable.owns_of_resolve resolvedTerminator)
  have first := produce newItems [item] (by simpa using ownedItem) Combinator.singleton
  have more := produce newItems [.nonTerminal items, separator, item]
    (by simpa using ⟨newItems, ownedSeparator, ownedItem⟩) Combinator.listSeparatorItem
  refine (first.andThen fun _ => more.andThen fun _ =>
    (fresh "term").bind [terminator] ?_).congr (by grind)
  intro head b' grown' new
  have ownedItems := grown'.owns newItems
  have ownedTerminator' := grown'.owns ownedTerminator
  have closed := produce new [.nonTerminal items, terminator]
    (by simpa using ⟨ownedItems, ownedTerminator'⟩) Combinator.reversedSequence
  have unclosed := produce new [.nonTerminal items] (by simpa using ownedItems)
    Combinator.reversedSequence
  have only := produce new [terminator] (by simpa using ownedTerminator')
    Combinator.emptySequence
  have none := produce new [] (by simp) Combinator.emptySequence
  -- What the flags add besides is the terminator again, or no symbol of the arguments.
  cases terminatorOptional <;> cases allowEmpty
  · exact (closed.andThen fun _ => answer new).congr (by simp)
  · exact (closed.andThen fun _ => only.andThen fun _ => answer new).congr (by simp)
  · exact (closed.andThen fun _ => unclosed.andThen fun _ => answer new).congr (by simp)
  · exact (closed.andThen fun _ => unclosed.andThen fun _ => only.andThen fun _ =>
      none.andThen fun _ => answer new).congr (by simp)

end Writes

end Authoring

end CanonicalLR
