import CanonicalLR.Combinator

/-!
The calls that write a grammar, as data. Running a list of commands gives every
builder that an author can reach.
-/
namespace CanonicalLR

inductive Command (V : Type) where
  | terminal (name : String)
  | nonTerminal (name : String)
  | rule (head : SymbolRef) (body : List SymbolRef) (decoration : Decoration V)
  | setStart (symbol : SymbolRef) (decoration : Decoration V)
  | seq (body : List SymbolRef) (handler : Option (List V → V))
  | optional (symbol : SymbolRef)
  | star (symbol : SymbolRef)
  | plus (symbol : SymbolRef)
  | oneOf (first : SymbolRef) (rest : List SymbolRef)
  | separated (item separator : SymbolRef) (atLeastOne : Bool)
  | terminated (item separator terminator : SymbolRef) (terminatorOptional allowEmpty : Bool)

/-- What a command answers: the symbol that it declared, or the number of the rule. -/
inductive Command.Answer where
  | symbol (s : Symbol)
  | rule (id : RuleId)
  deriving DecidableEq, Repr

namespace Command

variable {V : Type} [SemanticValue V]

def call : Command V → Authoring V Answer
  | .terminal name => do return .symbol (.terminal (← Builder.terminal name))
  | .nonTerminal name => do return .symbol (.nonTerminal (← Builder.nonTerminal name))
  | .rule head body decoration => do return .rule (← Builder.addRule head body decoration)
  | .setStart symbol decoration => do return .rule (← Builder.setStart symbol decoration)
  | .seq body handler => do return .symbol (.nonTerminal (← Combinator.seq body handler))
  | .optional symbol => do return .symbol (.nonTerminal (← Combinator.optional symbol))
  | .star symbol => do return .symbol (.nonTerminal (← Combinator.star symbol))
  | .plus symbol => do return .symbol (.nonTerminal (← Combinator.plus symbol))
  | .oneOf first rest => do return .symbol (.nonTerminal (← Combinator.oneOf first rest))
  | .separated item separator atLeastOne => do
    return .symbol (.nonTerminal (← Combinator.separated item separator atLeastOne))
  | .terminated item separator terminator terminatorOptional allowEmpty => do
    return .symbol (.nonTerminal
      (← Combinator.terminated item separator terminator terminatorOptional allowEmpty))

/-- The answer of a command, and the builder it leaves. -/
def run (command : Command V) (b : Builder V) : Except AuthoringError Answer × Builder V :=
  command.call.apply b

/-- The builder after all the commands, whether or not each of them succeeded. -/
def runAll (commands : List (Command V)) (b : Builder V) : Builder V :=
  commands.foldl (fun b command => (command.run b).2) b

end Command

/-- The builder comes from a new one by commands. -/
def Builder.Authored {V : Type} [SemanticValue V] (b : Builder V) : Prop :=
  ∃ id startName eosName b₀ commands,
    Builder.new id startName eosName = .ok b₀ ∧ b = Command.runAll commands b₀

end CanonicalLR
