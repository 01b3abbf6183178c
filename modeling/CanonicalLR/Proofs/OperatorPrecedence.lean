import CanonicalLR.Proofs.OperatorTables
import CanonicalLR.Proofs.SafeDriving
import CanonicalLR.Proofs.Termination

/-!
Grammars of binary operators parse by precedence and associativity. Over the tokens of
a grouped expression the machine comes to where its value is on top, provided that the
operator that waits before and the one that comes behind may both have it for their
operand; for then they leave alone what is inside.
-/
namespace CanonicalLR

open Machine

variable {V : Type} {g : Grammar V} {c : Collection} {T : Table} {o : Operators V}

/-! ### Trees -/

theorem Tree.exists_leaf {rules : List (Rule V)} {x : Symbol} (tree : Tree rules x) {t : Terminal}
    (same : x = .terminal t) : ∃ v, tree.tokens = [(t, v)] := by
  cases tree with
  | leaf token => exact ⟨token.2, by rw [← Symbol.terminal.inj same]; rfl⟩
  | node r mem children => cases same

theorem Forest.exists_operand {rules : List (Rule V)} : ∀ {string : List Symbol}
    (forest : Forest rules string), string = [.terminal o.operand] →
    ∃ e : Operators.Expression o, forest.tokens = e.tokens
  | _, .cons tree .nil, same => by
    obtain ⟨v, tokens⟩ := tree.exists_leaf (List.cons.inj same).1
    exact ⟨.operand v, by rw [Forest.tokens, tokens]; rfl⟩

mutual

/-- The tokens of a tree are those of an expression. -/
theorem Tree.exists_expression (h : o.Describes g) : ∀ {x : Symbol} (tree : Tree g.rules x),
    x = .nonTerminal o.expression → ∃ e : Operators.Expression o, tree.tokens = e.tokens
  | _, .leaf token, same => by cases same
  | _, .node r mem children, same => by
    -- the rule is not replaced, for then the children would be others
    rcases h.of_head mem (Symbol.nonTerminal.inj same) with atom | ⟨i, binary⟩
    · exact children.exists_operand (atom ▸ h.atom_body)
    · exact children.exists_binary h i (binary ▸ h.binary_body i)

theorem Forest.exists_binary (h : o.Describes g) (i : Fin o.count) : ∀ {string : List Symbol}
    (forest : Forest g.rules string), string =
      [.nonTerminal o.expression, .terminal (o.operator i), .nonTerminal o.expression] →
    ∃ e : Operators.Expression o, forest.tokens = e.tokens
  | _, .cons left (.cons middle (.cons right .nil)), same => by
    simp only [List.cons.injEq, and_true] at same
    obtain ⟨first, second, third⟩ := same
    obtain ⟨l, hl⟩ := left.exists_expression h first
    obtain ⟨w, hw⟩ := middle.exists_leaf second
    obtain ⟨r, hr⟩ := right.exists_expression h third
    exact ⟨.binary i w l r, by simp [Forest.tokens, hl, hw, hr, Operators.Expression.tokens]⟩

end

namespace Operators

namespace Describes

variable (h : o.Describes g)
include h

theorem solid : ∀ r ∈ g.rules, r.body ≠ [] := by
  intro r mem
  rcases (h.rules r).mp mem with rfl | rfl | ⟨i, rfl⟩
  · simp [h.top_body]
  · simp [h.atom_body]
  · simp [h.binary_body]

theorem acyclic : g.Acyclic := by
  refine Grammar.acyclic_of_solid h.solid (fun n => if n = g.start then 1 else 0) ?_
  intro r mem
  rcases (h.rules r).mp mem with rfl | rfl | ⟨i, rfl⟩
  · simp [h.top_body, h.top_head, Grammar.level, h.inner]
  · simp [h.atom_body, Grammar.level]
  · simp [h.binary_body]

theorem startOnlyAtTop : g.StartOnlyAtTop := by
  intro r mem
  rcases (h.rules r).mp mem with rfl | rfl | ⟨i, rfl⟩
  · simpa [h.top_body] using h.inner.symm
  · simp [h.atom_body]
  · simpa [h.binary_body] using h.inner.symm

end Describes

variable [SemanticValue V]

/-! ### Runs over grouped expressions -/

/-- From the configuration the machine comes to where the value of the expression is on top, behind
the operators that wait, and this input is left. -/
def Expression.Evaluates (g : Grammar V) (c : Collection) (T : Table) (e : Expression o)
    (is : List (Fin o.count)) (m : Configuration V) (rest : List (Token V)) : Prop :=
  ∃ moves states, Runs g T.tabular moves m
      ⟨states, e.value :: m.values, rest, e.calls.reverse ++ m.handled⟩ ∧
    c.Path states (Place.after is).stack

namespace Describes

variable (h : o.Describes g)
include h

theorem reduced_atom (states below : List StateId) (v : V) (values : List V)
    (input : List (Token V)) (handled : List RuleId) :
    (⟨below, v :: values, input, handled⟩ : Configuration V).reduced o.atom.id o.atom states =
      ⟨states, (Expression.operand v : Expression o).value :: values, input,
        (Expression.operand v : Expression o).calls.reverse ++ handled⟩ := by
  have size : o.atom.length = 1 := by rw [Rule.length, h.atom_body]; rfl
  cases hh : o.atom.handler <;>
    simp [Configuration.reduced, size, Expression.value, Expression.calls, Rule.valueOf, hh]

theorem reduced_binary (states below : List StateId) (i : Fin o.count) (w : V)
    (left right : Expression o) (values : List V) (input : List (Token V))
    (handled : List RuleId) :
    (⟨below, right.value :: w :: left.value :: values, input,
        right.calls.reverse ++ (left.calls.reverse ++ handled)⟩ : Configuration V).reduced
        (o.binary i).id (o.binary i) states =
      ⟨states, (Expression.binary i w left right).value :: values, input,
        (Expression.binary i w left right).calls.reverse ++ handled⟩ := by
  have size : (o.binary i).length = 3 := by rw [Rule.length, h.binary_body]; rfl
  cases hh : (o.binary i).handler <;>
    simp [Configuration.reduced, size, Expression.value, Expression.calls, Rule.valueOf, hh]

/-- An operand is shifted and reduced. -/
theorem evaluates_operand (made : T.Made g o.top c) {is : List (Fin o.count)}
    {m : Configuration V} {v : V} {rest : List (Token V)}
    (path : c.Path m.states (Place.before is).stack) (input : m.input = (o.operand, v) :: rest)
    (follows : o.Follows g (g.nextOf rest)) :
    (Expression.operand v : Expression o).Evaluates g c T is m rest := by
  obtain ⟨id, below, top⟩ := path.exists_top
  obtain ⟨target, shift⟩ := h.shifts_operand made (top ▸ path)
  obtain ⟨does, path₁⟩ := path.does_shift made top input shift
  have reduce : T.action target (g.nextOf rest) = .reduce o.atom.id :=
    h.reduces_atom made path₁ follows
  obtain ⟨states, does', path₂⟩ := Collection.Path.does_reduce made h.atom_mem
    (m := ⟨target :: m.states, v :: m.values, rest, m.handled⟩) (o.waiting is)
    (by rw [h.atom_body]; exact path₁) (by simp [Rule.length, h.atom_body]) rfl reduce
  rw [h.reduced_atom] at does'
  rw [h.atom_head] at path₂
  exact ⟨_, states, .cons does (.single does'), path₂⟩

/-- What is grouped is evaluated, provided that the operators on both sides may have it for their
operand. -/
theorem evaluates (made : T.Made g o.top c) (decided : o.Decided) {e : Expression o}
    (grouped : e.Grouped) {is : List (Fin o.count)} {m : Configuration V} {rest : List (Token V)}
    (path : c.Path m.states (Place.before is).stack) (input : m.input = e.tokens ++ rest)
    (follows : o.Follows g (g.nextOf rest))
    (before : ∀ j ∈ is.head?, ∀ i ∈ e.root?, o.Groups j i .right)
    (behind : ∀ k, g.nextOf rest = o.operator k → ∀ i ∈ e.root?, o.Groups k i .left) :
    e.Evaluates g c T is m rest := by
  induction e generalizing is m rest with
  | operand v => exact h.evaluates_operand made path input follows
  | binary i w left right ihl ihr =>
    obtain ⟨grouped_left, grouped_right, left_root, right_root⟩ := grouped
    -- the left operand
    have input_left : m.input = left.tokens ++ (o.operator i, w) :: (right.tokens ++ rest) := by
      rw [input, Expression.tokens, List.append_assoc, List.cons_append]
    obtain ⟨moves₁, states₁, runs₁, path₁⟩ := ihl grouped_left path input_left (.inr ⟨i, rfl⟩)
      (fun j hj k hk => (before j hj i rfl).trans (left_root k hk))
      (fun k next => h.distinct next ▸ left_root)
    -- the operator
    obtain ⟨id, below, rfl⟩ := path₁.exists_top
    obtain ⟨target, shift⟩ := h.shifts_operator made decided path₁ fun j hj => before j hj i rfl
    obtain ⟨does, path₂⟩ := Collection.Path.does_shift made
      (m := ⟨id :: below, left.value :: m.values, (o.operator i, w) :: (right.tokens ++ rest),
        left.calls.reverse ++ m.handled⟩) path₁ rfl rfl shift
    have behind_operator : c.Path (target :: id :: below) (Place.before (i :: is)).stack := path₂
    -- the right operand
    obtain ⟨moves₃, states₃, runs₃, path₃⟩ := ihr grouped_right
      (m := ⟨target :: id :: below, w :: left.value :: m.values, right.tokens ++ rest,
        left.calls.reverse ++ m.handled⟩) behind_operator rfl follows
      (fun j hj => by cases hj; exact right_root)
      (fun k next j hj => (behind k next i rfl).trans (right_root j hj))
    -- the reduction
    obtain ⟨id', below', rfl⟩ := path₃.exists_top
    have reduce : T.action id' (g.nextOf rest) = .reduce (o.binary i).id :=
      h.reduces_binary made decided path₃ follows fun k next => behind k next i rfl
    obtain ⟨states, does', path₄⟩ := Collection.Path.does_reduce made (h.binary_mem i)
      (m := ⟨id' :: below', right.value :: w :: left.value :: m.values, rest,
        right.calls.reverse ++ (left.calls.reverse ++ m.handled)⟩) (o.waiting is)
      (by rw [h.binary_body]; exact path₃) (by simp [Rule.length, h.binary_body]) rfl reduce
    rw [h.reduced_binary] at does'
    rw [h.binary_head] at path₄
    exact ⟨_, states, runs₁.append (.cons does (runs₃.append (.single does'))), path₄⟩

/-- The machine accepts behind a grouped expression at the end of input, explicit or not. -/
theorem parses_grouped (made : T.Made g o.top c) (decided : o.Decided) {e : Expression o}
    (grouped : e.Grouped) (rest : List (Token V)) (short : rest.length ≤ 1)
    (ends : g.nextOf rest = g.eos) :
    Parses g T.tabular (e.tokens ++ rest) (.ok e.value) e.calls := by
  have first : c.Path (Configuration.start T.tabular (e.tokens ++ rest)).states
      (Place.before [] : Place o).stack := by
    have zero : (Configuration.start T.tabular (e.tokens ++ rest)).states = [0] :=
      congrArg (fun id => [id]) made.follows.initial
    exact zero ▸ .start
  obtain ⟨moves, states, runs, path⟩ := h.evaluates made decided grouped first rfl (.inl ends)
    nofun fun k next => absurd (next.symm.trans ends) (h.operator_ne_eos made.wf k)
  obtain ⟨id, below, rfl⟩ := path.exists_top
  refine parses_iff.mpr ⟨moves, _, runs, step_eq_ok.mpr ⟨⟨id, below, rfl, ?_, ?_⟩, short, rfl, ?_⟩⟩
  · exact ends ▸ made.wf.eos_owned
  · exact ends ▸ h.accepts made path
  · simp [Configuration.calls, Configuration.start]

/-- Only rows of operands and operators are parsed, with the end of input after them or not. -/
theorem eq_phrase_of_parses (made : T.Made g o.top c) {tokens : List (Token V)} {v : V}
    {calls : List RuleId} (parsed : Parses g T.tabular tokens (.ok v) calls) :
    ∃ v rest, tokens = o.phrase v rest ∨ ∃ x, tokens = o.phrase v rest ++ [(g.eos, x)] := by
  obtain ⟨moves, m, runs, last⟩ := parses_iff.mp parsed
  obtain ⟨accepts, short, _⟩ := step_eq_ok.mp last
  obtain ⟨left, forest, derives, _, _, read, _, next⟩ := (runs.parsed made).of_accepts made accepts
  have none := h.startOnlyAtTop.eq_nil_of_derives derives
  obtain ⟨tree, tokens_eq, _⟩ := forest.exists_tree (x := .nonTerminal o.expression)
    (by rw [none, h.top_body]; rfl)
  obtain ⟨e, expression⟩ := tree.exists_expression h rfl
  rw [← tokens_eq, expression, e.tokens_eq_phrase] at read
  refine ⟨e.first, e.rest, ?_⟩
  match hm : m.input, short, next with
  | [], _, _ => exact .inl (by simpa [hm] using read)
  | [(t, x)], _, next =>
    have last : t = g.eos := next
    exact .inr ⟨x, by rw [read, hm, last]⟩

/-- Whatever else the tokens are, parsing ends with an error. -/
theorem exists_error (made : T.Made g o.top c) {tokens : List (Token V)}
    (other : ∀ v rest, tokens ≠ o.phrase v rest ∧ ∀ x, tokens ≠ o.phrase v rest ++ [(g.eos, x)]) :
    ∃ error calls, Parses g T.tabular tokens (.error error) calls := by
  obtain ⟨bound, few⟩ := Runs.exists_bound made h.acyclic
    (Grammar.noHiddenLeftRecursion_of_solid h.solid) tokens
  obtain ⟨result, calls, parsed⟩ := exists_parses_of_bound few
  cases result with
  | error error => exact ⟨error, calls, parsed⟩
  | ok v =>
    obtain ⟨v, rest, same | ⟨x, same⟩⟩ := h.eq_phrase_of_parses made parsed
    · exact absurd same (other v rest).1
    · exact absurd same ((other v rest).2 x)

end Describes

end Operators

/-- There is a table of a grammar of binary operators just if all operators have a priority and an
associativity, the same one for the same priority. By it every row of operands and operators, with
the end of input after it or not, is parsed to the value of the only tree that groups it; and all
other tokens to an error. -/
theorem Machine.parses_by_precedence {b : Builder V} [SemanticValue V] (authored : b.Authored)
    {o : Operators V} (describes : o.Describes b.build) :
    ((∃ T, b.build.table? = .ok T) ↔ o.Decided) ∧
      ∀ T, b.build.table? = .ok T →
        (∀ v rest, ∃! e : Operators.Expression o, e.Grouped ∧ e.tokens = o.phrase v rest) ∧
        (∀ v rest (e : Operators.Expression o), e.Grouped → e.tokens = o.phrase v rest →
          Parses b.build T.tabular (o.phrase v rest) (.ok e.value) e.calls ∧
          ∀ x, Parses b.build T.tabular (o.phrase v rest ++ [(b.build.eos, x)]) (.ok e.value)
            e.calls) ∧
        ∀ tokens,
          (∀ v rest, tokens ≠ o.phrase v rest ∧
            ∀ x, tokens ≠ o.phrase v rest ++ [(b.build.eos, x)]) →
          ∃ error calls, Parses b.build T.tabular tokens (.error error) calls := by
  have wf := authored.wellFormed.build
  refine ⟨describes.exists_table?_iff wf, fun T table => ?_⟩
  obtain ⟨c, made⟩ := describes.of_table? wf table
  have decided := describes.decided_of_made made
  refine ⟨decided.existsUnique_grouped describes.distinct, fun v rest e grouped tokens => ?_,
    fun tokens other => describes.exists_error made other⟩
  rw [← tokens]
  constructor
  · simpa using describes.parses_grouped made decided grouped [] (by simp) rfl
  · exact fun x => describes.parses_grouped made decided grouped _ (by simp) rfl

/-! ### Sums and powers -/

namespace Arithmetic

/-- Sums group to the left, and powers, which come first, to the right. -/
def builder : Builder Value :=
  Command.runAll
    [.terminal "+", .terminal "^", .terminal "n", .nonTerminal "E", .setStart (.name "E") {},
      .rule (.name "E") [.name "E", .name "+", .name "E"]
        { priority := some 1, associativity := some .left, handler := some Value.list },
      .rule (.name "E") [.name "E", .name "^", .name "E"]
        { priority := some 2, associativity := some .right, handler := some Value.list },
      .rule (.name "E") [.name "n"] {}]
    ⟨⟨⟨0⟩, [⟨Builder.defaultStart, .start⟩, ⟨Builder.defaultEos, .eos⟩]⟩, []⟩

set_option maxRecDepth 2000 in
theorem authored : builder.Authored :=
  ⟨⟨0⟩, Builder.defaultStart, Builder.defaultEos, _, _, rfl, rfl⟩

def expression : NonTerminal := ⟨⟨0⟩, 5⟩

def operators : Operators Value where
  count := 2
  expression := expression
  operand := ⟨⟨0⟩, 4⟩
  operator i := ⟨⟨0⟩, 2 + i⟩
  top := ⟨{}, 0, ⟨⟨0⟩, 0⟩, [.nonTerminal expression]⟩
  atom := ⟨{}, 3, expression, [.terminal ⟨⟨0⟩, 4⟩]⟩
  binary i :=
    ⟨⟨some (1 + i), some (if i = 0 then .left else .right), some Value.list⟩, 1 + i, expression,
      [.nonTerminal expression, .terminal ⟨⟨0⟩, 2 + i⟩, .nonTerminal expression]⟩

def add : Fin operators.count := (0 : Fin 2)

def pow : Fin operators.count := (1 : Fin 2)

set_option maxRecDepth 2000 in
theorem describes : operators.Describes builder.build where
  rules r := by
    have all : builder.build.rules =
        [operators.top, operators.binary add, operators.binary pow, operators.atom] := rfl
    have either : (∃ i, r = operators.binary i) ↔
        r = operators.binary add ∨ r = operators.binary pow := Fin.exists_fin_two
    rw [all, either]
    simp only [List.mem_cons, List.not_mem_nil, or_false]
    tauto
  top_head := rfl
  top_body := rfl
  atom_head := rfl
  atom_body := rfl
  binary_head _ := rfl
  binary_body _ := rfl
  inner := by decide
  distinct i j same := Fin.ext (Nat.add_left_cancel (Terminal.mk.inj same).2)

theorem decided : operators.Decided where
  priority _ := rfl
  associativity _ := rfl
  agree := by decide

def number : Token Value := (operators.operand, .leaf "n")

def plus : Token Value := (operators.operator add, .leaf "+")

def power : Token Value := (operators.operator pow, .leaf "^")

/-- A sum of a sum and a tower of powers. -/
def mixed : Operators.Expression operators :=
  .binary add plus.2 (.binary add plus.2 (.operand number.2) (.operand number.2))
    (.binary pow power.2 (.operand number.2)
      (.binary pow power.2 (.operand number.2) (.operand number.2)))

theorem mixed_grouped : mixed.Grouped := by
  have groups : operators.Groups add add .left ∧ operators.Groups add pow .right ∧
      operators.Groups pow pow .right := by decide
  refine ⟨⟨trivial, trivial, nofun, nofun⟩, ⟨trivial, ⟨trivial, trivial, nofun, nofun⟩, nofun, ?_⟩,
    ?_, ?_⟩
  · rintro _ ⟨⟩
    exact groups.2.2
  · rintro _ ⟨⟩
    exact groups.1
  · rintro _ ⟨⟩
    exact groups.2.1

/-- There is a table, sums and powers are parsed to the value of the tree that groups them, and an
operator without operands is an error. -/
theorem sums_parse :
    ∃ T, builder.build.table? = .ok T ∧
      Parses builder.build T.tabular
        [number, plus, number, plus, number, power, number, power, number]
        (.ok (.list [.list [.vec [number.2], plus.2, .vec [number.2]], plus.2,
          .list [.vec [number.2], power.2, .list [.vec [number.2], power.2, .vec [number.2]]]]))
        [1, 2, 2, 1] ∧
      ∃ error calls, Parses builder.build T.tabular [plus] (.error error) calls := by
  obtain ⟨exists_iff, tables⟩ := Machine.parses_by_precedence authored describes
  obtain ⟨T, table⟩ := exists_iff.mpr decided
  obtain ⟨_, parses, rejects⟩ := tables T table
  have row : mixed.tokens = operators.phrase number.2 [(add, plus.2, number.2),
    (add, plus.2, number.2), (pow, power.2, number.2), (pow, power.2, number.2)] := rfl
  refine ⟨T, table, (parses _ _ mixed mixed_grouped row).1, rejects _ fun v rest => ?_⟩
  have first : plus.1 ≠ operators.operand := by decide
  exact ⟨fun same => first (congrArg Prod.fst (List.cons.inj same).1),
    fun x same => first (congrArg Prod.fst (List.cons.inj same).1)⟩

/-- An operand is also parsed with the end of input as a token behind it, which is no row of
operands and operators. -/
theorem end_parses :
    operators.Describes builder.build ∧ operators.Decided ∧
      (∀ v rest, [number, (builder.build.eos, .leaf "<eos>")] ≠ operators.phrase v rest) ∧
      ∃ T, builder.build.table? = .ok T ∧
        Parses builder.build T.tabular [number, (builder.build.eos, .leaf "<eos>")]
          (.ok (.vec [number.2])) [] := by
  have wf := authored.wellFormed.build
  obtain ⟨T, table⟩ := (describes.exists_table?_iff wf).mpr decided
  obtain ⟨c, made⟩ := describes.of_table? wf table
  refine ⟨describes, decided, fun v rest => ?_, T, table, ?_⟩
  · cases rest <;> simp [Operators.phrase]
  · exact describes.parses_grouped made decided (e := .operand number.2)
      trivial [(builder.build.eos, .leaf "<eos>")] (Nat.le_refl 1) rfl

end Arithmetic

end CanonicalLR
