import CanonicalLR.DerivationTree

/-!
Grammars of binary operators: an expression is an operand, or two expressions with an
operator between them. The priorities and associativities of the rules say how a row of
operands and operators groups, and what it means so.
-/
namespace CanonicalLR

/-- The symbols and rules of a grammar of binary operators. -/
structure Operators (V : Type) where
  count : Nat
  expression : NonTerminal
  operand : Terminal
  operator : Fin count → Terminal
  /-- The start rule. -/
  top : Rule V
  /-- The rule for an operand alone. -/
  atom : Rule V
  /-- The rule for each operator. -/
  binary : Fin count → Rule V

namespace Operators

variable {V : Type} (o : Operators V)

/-- The grammar has just these rules, and the operators are different terminals. -/
structure Describes (g : Grammar V) : Prop where
  rules : ∀ r, r ∈ g.rules ↔ r = o.top ∨ r = o.atom ∨ ∃ i, r = o.binary i
  top_head : o.top.head = g.start
  top_body : o.top.body = [.nonTerminal o.expression]
  atom_head : o.atom.head = o.expression
  atom_body : o.atom.body = [.terminal o.operand]
  binary_head : ∀ i, (o.binary i).head = o.expression
  binary_body : ∀ i, (o.binary i).body =
    [.nonTerminal o.expression, .terminal (o.operator i), .nonTerminal o.expression]
  inner : o.expression ≠ g.start
  distinct : Function.Injective o.operator

/-- Every operator has a priority and an associativity, and operators of one priority are of one
associativity. -/
structure Decided : Prop where
  priority : ∀ i, (o.binary i).priority.isSome
  associativity : ∀ i, (o.binary i).associativity.isSome
  agree : ∀ i j, (o.binary i).priority = (o.binary j).priority →
    (o.binary i).associativity = (o.binary j).associativity

/-- An expression of the second operator may be the operand of the first one on this side: its
priority is higher, or it is the same and the first operator associates to this side. -/
def Groups (i j : Fin o.count) (side : Associativity) : Prop :=
  ∃ p q, (o.binary i).priority = some p ∧ (o.binary j).priority = some q ∧
    (p < q ∨ q = p ∧ (o.binary i).associativity = some side)

instance (i j : Fin o.count) (side : Associativity) : Decidable (o.Groups i j side) :=
  match hp : (o.binary i).priority, hq : (o.binary j).priority with
  | none, _ => isFalse (by simp [Groups, hp])
  | some _, none => isFalse (by simp [Groups, hq])
  | some p, some q =>
    decidable_of_iff (p < q ∨ q = p ∧ (o.binary i).associativity = some side)
      (by simp [Groups, hp, hq])

/-- A row of operands, each after the first with an operator before it. -/
def phrase (v : V) (rest : List (Fin o.count × V × V)) : List (Token V) :=
  (o.operand, v) :: rest.flatMap fun (i, w, u) => [(o.operator i, w), (o.operand, u)]

/-- A binary tree of operators over operands, with the values of all tokens. -/
inductive Expression (o : Operators V) where
  | operand (v : V)
  | binary (i : Fin o.count) (w : V) (left right : Expression o)

namespace Expression

variable {o : Operators V}

def tokens : Expression o → List (Token V)
  | operand v => [(o.operand, v)]
  | binary i w left right => left.tokens ++ (o.operator i, w) :: right.tokens

/-- The handlers of the rules make the value out of the values of the tokens. -/
def value [SemanticValue V] : Expression o → V
  | operand v => o.atom.valueOf [v]
  | binary i w left right => (o.binary i).valueOf [left.value, w, right.value]

/-- The rules whose handlers run, those of the operands first. -/
def calls : Expression o → List RuleId
  | operand _ => if o.atom.handler.isSome then [o.atom.id] else []
  | binary i _ left right =>
    left.calls ++ right.calls ++ if (o.binary i).handler.isSome then [(o.binary i).id] else []

/-- The operator at the root. -/
def root? : Expression o → Option (Fin o.count)
  | operand _ => none
  | binary i _ _ _ => some i

/-- Under every operator there are only operands and operators that may be there. -/
def Grouped : Expression o → Prop
  | operand _ => True
  | binary i _ left right =>
    left.Grouped ∧ right.Grouped ∧ (∀ j ∈ left.root?, o.Groups i j .left) ∧
      ∀ j ∈ right.root?, o.Groups i j .right

end Expression

end Operators

end CanonicalLR
