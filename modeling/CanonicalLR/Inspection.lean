import CanonicalLR.Grid
import CanonicalLR.Outline

/-!
Outlines of the values of the library: handles and symbol tables, rules, grammars
with their analysis, items, states and tables.
-/
namespace CanonicalLR

/-! ### Symbols and rules -/

def GrammarId.outline (id : GrammarId) : Outline := .variant "GrammarId" [.ofNat id.number]

def Terminal.outline (t : Terminal) : Outline :=
  .record "Terminal" [("grammar", t.grammar.outline), ("index", .ofNat t.index)]

def NonTerminal.outline (n : NonTerminal) : Outline :=
  .record "NonTerminal" [("grammar", n.grammar.outline), ("index", .ofNat n.index)]

def Symbol.outline : Symbol → Outline
  | .terminal t => .variant "Terminal" [t.outline]
  | .nonTerminal n => .variant "NonTerminal" [n.outline]

def SymbolKind.outline : SymbolKind → Outline
  | .terminal => .atom "Terminal"
  | .nonTerminal => .atom "NonTerminal"
  | .eos => .atom "Eos"
  | .start => .atom "Start"

def SymbolTable.outline (table : SymbolTable) : Outline :=
  .record "SymbolTable" [
    ("grammar", table.grammar.outline),
    ("defs", .sequence (table.declarations.map fun d =>
      .record "SymbolDef" [("name", .quoted d.name), ("kind", d.kind.outline)]))]

def Associativity.outline : Associativity → Outline
  | .left => .atom "Left"
  | .right => .atom "Right"

def Rule.outline {V : Type} (rule : Rule V) : Outline :=
  .record "Rule" [
    ("id", .ofNat rule.id),
    ("lhs", rule.head.outline),
    ("rhs", .sequence (rule.body.map Symbol.outline)),
    ("priority", .ofOption .ofInt rule.priority),
    ("associativity", .ofOption Associativity.outline rule.associativity),
    ("handler", .ofBool rule.handler.isSome)]

def Builder.outline {V : Type} (b : Builder V) : Outline :=
  .record "GrammarBuilder" [
    ("symbols", b.symbols.outline),
    ("rules", .sequence (b.rules.map Rule.outline))]

/-! ### Grammars -/

def Grammar.analysisOutline {V : Type} (g : Grammar V) : Outline :=
  let perNonTerminal (terminals : NonTerminal → OrderedSet Terminal) : Outline :=
    .map (g.symbols.nonTerminals.map fun n =>
      (n.outline, .set ((terminals n).toList.map Terminal.outline)))
  .record "GrammarData" [
    ("nullable", .set (g.analysis.nullable.toList.map NonTerminal.outline)),
    ("first", perNonTerminal g.first),
    ("follow", perNonTerminal g.follow)]

def Grammar.outline {V : Type} (g : Grammar V) : Outline :=
  .record "Grammar" [
    ("symbols", g.symbols.outline),
    ("rules", .sequence (g.rules.map Rule.outline)),
    ("data", g.analysisOutline)]

/-! ### Items, states and tables -/

def Item.outline (i : Item) : Outline :=
  .record "Item" [
    ("rule", .ofNat i.rule),
    ("position", .ofNat i.position),
    ("lookahead", i.lookahead.outline)]

def ItemSet.outline (s : ItemSet) : Outline := .set (s.toList.map Item.outline)

def Action.outline : Action → Outline
  | .shift target => .variant "Shift" [.ofNat target]
  | .reduce rule => .variant "Reduce" [.ofNat rule]
  | .accept => .atom "Accept"
  | .error => .atom "Error"

def Candidate.outline (c : Candidate) : Outline :=
  .record "ActionRecord" [
    ("item", c.item.outline),
    ("action", c.action.outline),
    ("duplicates", .sequence (c.duplicates.map Item.outline))]

/-- The state with this number; its proposals are shown one by one, under each terminal. -/
def State.outline (state : State) (id : StateId) : Outline :=
  let proposed (t : Terminal) : List Outline :=
    (state.proposals.filter fun p => p.terminal = t).map fun p =>
      Candidate.outline ⟨p.item, p.action, []⟩
  .record "State" [
    ("id", .ofNat id),
    ("items", ItemSet.outline state.items),
    ("transitions", .map (state.transitions.map fun (s, target) => (s.outline, .ofNat target))),
    ("records", .map (state.terminals.toList.map fun t =>
      (t.outline, .sequence (proposed t))))]

def Row.outline (row : Row) : Outline :=
  .record "Row" [
    ("actions", .map (row.actions.map fun (t, a) => (t.outline, a.outline))),
    ("goto", .map (row.gotos.map fun (n, target) => (n.outline, .ofNat target)))]

/-- A table shows as its grid, from a new line on. -/
def Table.outline? (table : Table) : Option Outline :=
  table.text?.map fun text => .atom ("\n" ++ text)

end CanonicalLR
