import CanonicalLR.Proofs.Authoring

/-!
What a call leaves alone. Every call only adds symbols and rules behind those that are
there. A combinator, whether or not it comes to its end, adds no rule but for the
non-terminals that it has declared itself.
-/
namespace CanonicalLR

variable {V α β : Type}

theorem SymbolTable.index_lt_of_owns {table : SymbolTable} {x : Symbol}
    (h : table.owns x = true) : x.index < table.size := by
  obtain ⟨_, hd, _⟩ := owns_iff_declared.mp h
  exact (List.getElem?_eq_some_iff.mp hd).1

/-- The second builder extends the first, and the rules that it has more are for non-terminals that
it has more. -/
structure Builder.Augments (b b' : Builder V) : Prop extends b.Extends b' where
  fresh : ∀ rule ∈ b'.rules.drop b.rules.length, b.symbols.size ≤ rule.head.index

/-- The commands that are calls of combinators. -/
def Command.isCombinator : Command V → Bool
  | .seq .. | .optional _ | .star _ | .plus _ | .oneOf .. | .separated .. | .terminated .. => true
  | .terminal _ | .nonTerminal _ | .rule .. | .setStart .. => false

/-- If the builder has only been augmented before the call it has only been augmented after it, and
what the call answers has the property. -/
def Authoring.Augmenting (b₀ : Builder V) (call : Authoring V α) (P : α → Prop) : Prop :=
  ∀ b, b₀.Augments b → b₀.Augments (call.apply b).2 ∧ ∀ a, (call.apply b).1 = .ok a → P a

namespace Builder.Augments

variable {b₀ b : Builder V}

theorem refl (b : Builder V) : b.Augments b :=
  ⟨.refl b, by simp⟩

theorem size_le (h : b₀.Augments b) : b₀.symbols.size ≤ b.symbols.size := h.declarations.length_le

theorem declare (h : b₀.Augments b) (name : String) (kind : SymbolKind) :
    b₀.Augments ((Builder.declare name kind).apply b).2 := by
  rw [apply_declare]
  unfold SymbolTable.declare
  by_cases taken : b.symbols.containsName name = true
  · rw [if_pos taken]
    exact h
  · rw [if_neg taken]
    exact ⟨⟨h.grammar, h.declarations.trans (List.prefix_append _ _), h.rules⟩, h.fresh⟩

/-- A rule is added for the very non-terminal whose handle was given. -/
theorem head_of_checkRule {n head : NonTerminal} {body : List SymbolRef} {string : List Symbol}
    (checked : b.checkRule head body = .ok (n, string)) : n = head := by
  unfold checkRule SymbolTable.resolveNonTerminal SymbolTable.resolve at checked
  cases owned : b.symbols.owns (.nonTerminal head) with
  | false => simp [owned, bind, Except.bind] at checked
  | true =>
    simp only [owned, if_true, bind, Except.bind] at checked
    split at checked
    · cases checked
    · split at checked
      · cases checked
      · cases checked
        rfl

/-- A rule for a new non-terminal may be added. -/
theorem addRule (h : b₀.Augments b) {head : NonTerminal} (new : b₀.symbols.size ≤ head.index)
    (body : List SymbolRef) (decoration : Decoration V) :
    b₀.Augments ((Builder.addRule head body decoration).apply b).2 := by
  rw [apply_addRule]
  cases checked : b.checkRule head body with
  | error e => exact h
  | ok answer =>
    obtain ⟨head', body'⟩ := answer
    cases head_of_checkRule checked
    refine ⟨⟨h.grammar, h.declarations, h.rules.trans (List.prefix_append _ _)⟩, ?_⟩
    intro rule mem
    rw [List.drop_append_of_le_length h.rules.length_le] at mem
    rcases List.mem_append.mp mem with old | last
    · exact h.fresh rule old
    · rw [List.mem_singleton.mp last]
      exact new

end Builder.Augments

namespace Authoring.Augmenting

variable {b₀ : Builder V} {P : α → Prop} {Q : β → Prop}

theorem pure {a : α} (holds : P a) : Augmenting b₀ (Pure.pure a : Authoring V α) P :=
  fun _ h => ⟨h, fun _ same => Except.ok.inj same ▸ holds⟩

theorem get : Augmenting b₀ (MonadState.get : Authoring V (Builder V)) fun _ => True :=
  fun _ h => ⟨h, fun _ _ => trivial⟩

theorem lift (answer : Except AuthoringError α) :
    Augmenting b₀ (liftM answer : Authoring V α) fun _ => True :=
  fun _ h => ⟨h, fun _ _ => trivial⟩

theorem bind {call : Authoring V α} {next : α → Authoring V β} (first : Augmenting b₀ call P)
    (then_ : ∀ a, P a → Augmenting b₀ (next a) Q) : Augmenting b₀ (call >>= next) Q := by
  intro b h
  obtain ⟨kept, answered⟩ := first b h
  rw [apply_bind]
  rcases hb : call.apply b with ⟨answer, b'⟩
  rw [hb] at kept answered
  cases answer with
  | ok a => exact then_ a (answered a rfl) b' kept
  | error e => exact ⟨kept, nofun⟩

theorem forM {f : α → Authoring V PUnit} (each : ∀ a, Augmenting b₀ (f a) fun _ => True)
    (l : List α) : Augmenting b₀ (l.forM f) fun _ => True := by
  induction l with
  | nil => exact .pure trivial
  | cons a l ih => exact (each a).bind fun _ _ => ih

/-! ### Combinators -/

theorem resolve (ref : SymbolRef) : Augmenting b₀ (Combinator.resolve ref) fun _ => True :=
  get.bind fun _ _ => lift _

theorem resolveAll (refs : List SymbolRef) :
    Augmenting b₀ (Combinator.resolveAll refs) fun _ => True :=
  get.bind fun _ _ => lift _

/-- The non-terminal that is declared is a new one. -/
theorem nonTerminal (name : String) :
    Augmenting b₀ (Builder.nonTerminal name) fun n => b₀.symbols.size ≤ n.index := by
  intro b h
  have declared := h.declare name .nonTerminal
  unfold Builder.nonTerminal
  rw [apply_bind, apply_get]
  simp only
  rw [apply_bind]
  rcases hb : (Builder.declare name .nonTerminal).apply b with ⟨answer, b'⟩
  rw [hb] at declared
  cases answer with
  | error e => exact ⟨declared, nofun⟩
  | ok x =>
    refine ⟨declared, fun n same => ?_⟩
    cases Except.ok.inj same
    exact h.size_le

theorem fresh (stem : String) :
    Augmenting b₀ (Combinator.fresh stem) fun n => b₀.symbols.size ≤ n.index :=
  get.bind fun _ _ => nonTerminal _

variable {head : NonTerminal} (new : b₀.symbols.size ≤ head.index)
include new

theorem addRule (body : List SymbolRef) (decoration : Decoration V) :
    Augmenting b₀ (Builder.addRule head body decoration) fun _ => True :=
  fun _ h => ⟨h.addRule new body decoration, fun _ _ => trivial⟩

theorem produce (body : List Symbol) (handler : List V → V) :
    Augmenting b₀ (Combinator.produce head body handler) fun _ => True :=
  (addRule new _ _).bind fun _ _ => .pure trivial

omit new

theorem seq (body : List SymbolRef) (handler : Option (List V → V)) :
    Augmenting b₀ (Combinator.seq body handler) fun n => b₀.symbols.size ≤ n.index := by
  refine (resolveAll body).bind fun body _ => ?_
  refine (fresh _).bind fun head new => ?_
  exact (addRule new _ _).bind fun _ _ => .pure new

variable [SemanticValue V]

theorem optional (symbol : SymbolRef) :
    Augmenting b₀ (Combinator.optional symbol) fun n => b₀.symbols.size ≤ n.index := by
  refine (resolve symbol).bind fun symbol _ => ?_
  refine (fresh _).bind fun head new => ?_
  refine (produce new _ _).bind fun _ _ => ?_
  exact (produce new _ _).bind fun _ _ => .pure new

theorem star (symbol : SymbolRef) :
    Augmenting b₀ (Combinator.star symbol) fun n => b₀.symbols.size ≤ n.index := by
  refine (resolve symbol).bind fun symbol _ => ?_
  refine (fresh _).bind fun head new => ?_
  refine (produce new _ _).bind fun _ _ => ?_
  exact (produce new _ _).bind fun _ _ => .pure new

theorem plus (symbol : SymbolRef) :
    Augmenting b₀ (Combinator.plus symbol) fun n => b₀.symbols.size ≤ n.index := by
  refine (resolve symbol).bind fun symbol _ => ?_
  refine (star _).bind fun rest _ => ?_
  refine (fresh _).bind fun head new => ?_
  exact (produce new _ _).bind fun _ _ => .pure new

theorem oneOf (first : SymbolRef) (rest : List SymbolRef) :
    Augmenting b₀ (Combinator.oneOf first rest) fun n => b₀.symbols.size ≤ n.index := by
  refine (resolveAll _).bind fun alternatives _ => ?_
  refine (fresh _).bind fun head new => ?_
  exact (forM (fun _ => produce new _ _) _).bind fun _ _ => .pure new

theorem separated (item separator : SymbolRef) (atLeastOne : Bool) :
    Augmenting b₀ (Combinator.separated item separator atLeastOne)
      fun n => b₀.symbols.size ≤ n.index := by
  refine (resolve item).bind fun item _ => ?_
  refine (resolve separator).bind fun separator _ => ?_
  refine (fresh _).bind fun tail newTail => ?_
  refine (produce newTail _ _).bind fun _ _ => ?_
  refine (produce newTail _ _).bind fun _ _ => ?_
  refine (fresh _).bind fun head new => ?_
  refine (produce new _ _).bind fun _ _ => ?_
  cases atLeastOne with
  | true => exact .pure new
  | false => exact (produce new _ _).bind fun _ _ => .pure new

theorem terminated (item separator terminator : SymbolRef) (terminatorOptional allowEmpty : Bool) :
    Augmenting b₀
      (Combinator.terminated item separator terminator terminatorOptional allowEmpty)
      fun n => b₀.symbols.size ≤ n.index := by
  refine (resolve item).bind fun item _ => ?_
  refine (resolve separator).bind fun separator _ => ?_
  refine (resolve terminator).bind fun terminator _ => ?_
  refine (fresh _).bind fun items newItems => ?_
  refine (produce newItems _ _).bind fun _ _ => ?_
  refine (produce newItems _ _).bind fun _ _ => ?_
  refine (fresh _).bind fun head new => ?_
  refine (produce new _ _).bind fun _ _ => ?_
  cases terminatorOptional <;> cases allowEmpty
  · exact .pure new
  · exact (produce new _ _).bind fun _ _ => .pure new
  · exact (produce new _ _).bind fun _ _ => .pure new
  · refine (produce new _ _).bind fun _ _ => ?_
    refine (produce new _ _).bind fun _ _ => ?_
    exact (produce new _ _).bind fun _ _ => .pure new

theorem call {command : Command V} (combinator : command.isCombinator = true) :
    Augmenting b₀ command.call fun _ => True := by
  cases command with
  | terminal | nonTerminal | rule | setStart => cases combinator
  | seq body handler => exact (seq body handler).bind fun _ _ => .pure trivial
  | optional symbol => exact (optional symbol).bind fun _ _ => .pure trivial
  | star symbol => exact (star symbol).bind fun _ _ => .pure trivial
  | plus symbol => exact (plus symbol).bind fun _ _ => .pure trivial
  | oneOf first rest => exact (oneOf first rest).bind fun _ _ => .pure trivial
  | separated item separator atLeastOne =>
    exact (separated item separator atLeastOne).bind fun _ _ => .pure trivial
  | terminated item separator terminator terminatorOptional allowEmpty =>
    exact (terminated item separator terminator terminatorOptional allowEmpty).bind
      fun _ _ => .pure trivial

end Authoring.Augmenting

/-- A combinator only augments the builder, even where it fails on the way. -/
theorem Command.augments [SemanticValue V] {command : Command V}
    (combinator : command.isCombinator = true) (b : Builder V) : b.Augments (command.run b).2 :=
  (Authoring.Augmenting.call combinator b (.refl b)).1

/-- A declaration or a rule that is refused leaves the builder as it was. -/
theorem Command.run_of_error [SemanticValue V] {command : Command V}
    (single : command.isCombinator = false) {b : Builder V} {e : AuthoringError}
    (fails : (command.run b).1 = .error e) : (command.run b).2 = b := by
  cases command with
  | terminal name =>
    simp only [run, call, Builder.terminal, Authoring.apply_bind, Authoring.apply_get,
      Builder.apply_declare] at fails ⊢
    cases declared : b.symbols.declare name .terminal with
    | ok answer => simp [declared] at fails
    | error e => rfl
  | nonTerminal name =>
    simp only [run, call, Builder.nonTerminal, Authoring.apply_bind, Authoring.apply_get,
      Builder.apply_declare] at fails ⊢
    cases declared : b.symbols.declare name .nonTerminal with
    | ok answer => simp [declared] at fails
    | error e => rfl
  | rule head body decoration =>
    simp only [run, call, Authoring.apply_bind, Builder.apply_addRule] at fails ⊢
    cases checked : b.checkRule head body with
    | ok answer => simp [checked] at fails
    | error e => rfl
  | setStart symbol decoration =>
    simp only [run, call, Builder.setStart, Authoring.apply_bind, Authoring.apply_get,
      Authoring.apply_lift, Builder.apply_addRule] at fails ⊢
    cases resolved : b.symbols.resolveNonTerminal symbol with
    | error e => rfl
    | ok n =>
      cases checked : b.checkRule b.start [.handle (.nonTerminal n)] with
      | ok answer => simp [resolved, checked] at fails
      | error e => simp [checked]
  | _ => cases single

end CanonicalLR
