import CanonicalLR.Machine

/-!
Rules, items, actions and errors as text. A text names symbols, so there is none for
a thing that holds a symbol of another grammar.
-/
namespace CanonicalLR

/-- The texts with the separator between them. -/
def joined (separator : String) (texts : List String) : String :=
  separator.intercalate texts

def Action.text : Action → String
  | .shift target => "s" ++ toString target
  | .reduce rule => "r" ++ toString rule
  | .accept => "acc"
  | .error => "err"

namespace SymbolTable

variable (table : SymbolTable)

def names? (symbols : List Symbol) : Option (List String) := symbols.mapM table.name?

def terminalNames? (terminals : List Terminal) : Option (List String) :=
  table.names? (terminals.map Symbol.terminal)

end SymbolTable

/-- The number, the head and the body, where an empty body is `ε`. -/
def Rule.text? {V : Type} (rule : Rule V) (table : SymbolTable) : Option String := do
  let body ← table.names? rule.body
  let head ← table.name? (.nonTerminal rule.head)
  let shown := if body.isEmpty then "ε" else joined " " body
  return "(" ++ toString rule.id ++ ") " ++ head ++ " -> " ++ shown

namespace Item

variable {V : Type} (g : Grammar V)

/-- The names of a body with the dot before the one at this place, or behind them all. A body that
shows as nothing leaves the dot alone. -/
def dotted (position : Nat) (names : List String) : String :=
  if position < names.length then
    joined " " (names.take position ++ "•" :: names.drop position)
  else if (joined " " names).isEmpty then "•"
  else joined " " names ++ " •"

def text? (i : Item) : Option String := do
  let rule ← g.rule? i.rule
  let body ← g.symbols.names? rule.body
  let head ← g.symbols.name? (.nonTerminal rule.head)
  let lookahead ← g.symbols.name? (.terminal i.lookahead)
  return "[(" ++ toString rule.id ++ ") " ++ head ++ " -> " ++ dotted i.position body ++ ", " ++
    lookahead ++ "]"

end Item

def ItemSet.text? {V : Type} (g : Grammar V) (s : ItemSet) : Option String := do
  let items ← s.toList.mapM (Item.text? g)
  return "\x7b" ++ joined ", " items ++ "\x7d"

def Candidate.text? {V : Type} (g : Grammar V) (c : Candidate) : Option String := do
  let item ← c.item.text? g
  let count := c.duplicates.length
  let more := if count = 0 then "" else " (+" ++ toString count ++ " duplicate)"
  return item ++ " => " ++ c.action.text ++ more

namespace Grammar

variable {V : Type} (g : Grammar V)

/-- All rules, a line each. -/
def text? : Option String := do
  let lines ← g.rules.mapM fun r => r.text? g.symbols
  return String.join (lines.map (· ++ "\n"))

/-- The name of a terminal, or its number if it is of another grammar. -/
def tokenName (t : Terminal) : String :=
  (g.symbols.name? (.terminal t)).getD ("#" ++ toString t.index)

end Grammar

/-! ### Messages -/

def StartFault.message? {V : Type} (g : Grammar V) (fault : StartFault) : Option String := do
  let start ← g.symbols.name? (.nonTerminal g.start)
  let text ← match fault with
    | .noRule => some ("no rule for start symbol " ++ start)
    | .manyRules count =>
      some ("start symbol " ++ start ++ " has " ++ toString count ++ " rules, expecting one")
    | .badBody id => do
      let rule ← (← g.rule? id).text? g.symbols
      some ("start rule " ++ rule ++ " must derive a single non-terminal")
    | .missing => some "missing start rule"
  return "malformed grammar: " ++ text

def Ambiguity.message? {V : Type} (g : Grammar V) (a : Ambiguity) : Option String := do
  let terminal ← g.symbols.name? (.terminal a.terminal)
  let candidates ← a.candidates.mapM (Candidate.text? g)
  return "unresolvable ambiguity in state #" ++ toString a.state ++ " for symbol " ++ terminal ++
    ": " ++ joined "; " candidates

def ParseError.message? {V : Type} (g : Grammar V) : ParseError → Option String
  | .unexpectedSymbol state got expecting => do
    let names ← g.symbols.terminalNames? expecting
    return "unexpected symbol " ++ g.tokenName got ++ " in state #" ++ toString state ++
      ", expecting " ++ joined ", " names
  | .unexpectedEnd => some "unexpected end of stream"
  | .missingGoto state symbol => do
    let name ← g.symbols.name? (.nonTerminal symbol)
    return "no goto for " ++ name ++ " in state #" ++ toString state
  | .trailingSymbol got =>
    some ("unexpected symbol " ++ g.tokenName got ++ " after the end of stream")
  | .unknownRule _ => none

end CanonicalLR
