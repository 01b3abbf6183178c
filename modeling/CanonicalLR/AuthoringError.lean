import CanonicalLR.Symbol

/-!
Why a call that writes a grammar is refused.
-/
namespace CanonicalLR

inductive AuthoringError where
  /-- Another symbol already has the name. -/
  | duplicateName (name : String)
  | unknownSymbol (name : String)
  /-- The handle is not one of the grammar being written. -/
  | foreignSymbol (symbol : Symbol)
  | notANonTerminal (name : String)
  /-- A rule body holds the end-of-input symbol, which has this name. -/
  | eosInRule (eos : String)
  deriving DecidableEq, Repr

def GrammarId.text (id : GrammarId) : String :=
  "GrammarId(" ++ toString id.number ++ ")"

def AuthoringError.message : AuthoringError → String
  | .duplicateName name => "a symbol with the same name already exists: " ++ name
  | .unknownSymbol name => "unknown symbol " ++ name
  | .foreignSymbol s =>
    "symbol #" ++ toString s.index ++ " of " ++ s.grammar.text ++ " belongs to another grammar"
  | .notANonTerminal name => "symbol " ++ name ++ " is not a non-terminal"
  | .eosInRule eos => "end-of-input symbol " ++ eos ++ " cannot appear in a rule"

end CanonicalLR
