import CanonicalLR.Machine

/-!
Derivation trees whose leaves are tokens, with what reading a tree from the bottom up
gives: the tokens at its leaves, its value, and the rules whose handlers run.
-/
namespace CanonicalLR

variable {V : Type}

mutual

/-- A tree of the rules with this symbol at its root. -/
inductive Tree (rules : List (Rule V)) : Symbol → Type where
  | leaf (token : Token V) : Tree rules (.terminal token.1)
  | node (rule : Rule V) (mem : rule ∈ rules) (children : Forest rules rule.body) :
    Tree rules (.nonTerminal rule.head)

/-- A sequence of trees with these symbols at their roots. -/
inductive Forest (rules : List (Rule V)) : List Symbol → Type where
  | nil : Forest rules []
  | cons {s : Symbol} {string : List Symbol} (tree : Tree rules s) (rest : Forest rules string) :
    Forest rules (s :: string)

end

variable {rules : List (Rule V)}

mutual

/-- The tokens at the leaves, from left to right. -/
def Tree.tokens : {s : Symbol} → Tree rules s → List (Token V)
  | _, .leaf token => [token]
  | _, .node _ _ children => children.tokens

def Forest.tokens : {string : List Symbol} → Forest rules string → List (Token V)
  | _, .nil => []
  | _, .cons tree rest => tree.tokens ++ rest.tokens

end

/-- The terminals at the leaves, from left to right. -/
def Tree.yield {s : Symbol} (tree : Tree rules s) : List Terminal := tree.tokens.map Prod.fst

def Forest.yield {string : List Symbol} (forest : Forest rules string) : List Terminal :=
  forest.tokens.map Prod.fst

mutual

/-- The rules with handlers at the nodes, children before their parent and from left to right. -/
def Tree.calls : {s : Symbol} → Tree rules s → List RuleId
  | _, .leaf _ => []
  | _, .node rule _ children =>
    children.calls ++ if rule.handler.isSome then [rule.id] else []

def Forest.calls : {string : List Symbol} → Forest rules string → List RuleId
  | _, .nil => []
  | _, .cons tree rest => tree.calls ++ rest.calls

end

/-- The value of the head: what the handler makes of the values of the body, or the sequence of
these if there is no handler. -/
def Rule.valueOf [SemanticValue V] (rule : Rule V) (values : List V) : V :=
  match rule.handler with
  | some handler => handler values
  | none => SemanticValue.vec values

mutual

/-- A leaf has the value of its token, a node what its rule makes of the values of its children. -/
def Tree.value [SemanticValue V] : {s : Symbol} → Tree rules s → V
  | _, .leaf token => token.2
  | _, .node rule _ children => rule.valueOf children.values

def Forest.values [SemanticValue V] : {string : List Symbol} → Forest rules string → List V
  | _, .nil => []
  | _, .cons tree rest => tree.value :: rest.values

end

end CanonicalLR
