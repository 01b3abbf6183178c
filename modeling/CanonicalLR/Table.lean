import CanonicalLR.Conflict

/-!
Parsing tables. What a run of the parser needs of a table is `Tabular`; `Table` is
the table made from a canonical collection, with the names of its columns.
-/
namespace CanonicalLR

/-- What a parser asks of a table. -/
structure Tabular where
  initial : StateId
  action : StateId → Terminal → Action
  goto : StateId → NonTerminal → Option StateId
  /-- The terminals that a state can do something with. -/
  expected : StateId → List Terminal

/-- The entries of one state: each key once, in ascending order. -/
structure Row where
  actions : List (Terminal × Action)
  gotos : List (NonTerminal × StateId)
  deriving DecidableEq, Repr

namespace Row

/-- What stands under the terminal, an error if nothing does. -/
def action (row : Row) (t : Terminal) : Action := (row.actions.lookup t).getD .error

def goto? (row : Row) (n : NonTerminal) : Option StateId := row.gotos.lookup n

/-- The entries by ascending key, the last one for each key. -/
def collate {κ υ : Type} [Ord κ] [Std.TransOrd κ] [Std.LawfulEqOrd κ] [BEq κ]
    (entries : List (κ × υ)) : List (κ × υ) :=
  (OrderedSet.ofList (entries.map Prod.fst)).toList.filterMap fun k =>
    (entries.reverse.lookup k).map fun v => (k, v)

/-- The row with these entries; of two entries with one key the later counts. -/
def ofEntries (actions : List (Terminal × Action)) (gotos : List (NonTerminal × StateId)) : Row :=
  ⟨collate actions, collate gotos⟩

end Row

/-- The table that rows written by hand describe; an entry that says error is not expected. -/
def Tabular.ofRows (initial : StateId) (rows : List Row) : Tabular where
  initial := initial
  action id t := ((rows[id]?).map fun row => row.action t).getD .error
  goto id n := (rows[id]?).bind fun row => row.goto? n
  expected id := ((rows[id]?).map fun row =>
    (row.actions.filter fun (_, a) => a ≠ .error).map Prod.fst).getD []

structure Table where
  initial : StateId
  rows : List Row
  /-- The columns of actions. -/
  terminals : List (Terminal × String)
  /-- The columns of successor states. -/
  nonTerminals : List (NonTerminal × String)
  deriving DecidableEq, Repr

namespace Table

variable {V : Type} (g : Grammar V)

def size (table : Table) : Nat := table.rows.length

def row? (table : Table) (id : StateId) : Option Row := table.rows[id]?

def action (table : Table) (id : StateId) (t : Terminal) : Action :=
  ((table.row? id).map fun row => row.action t).getD .error

def goto? (table : Table) (id : StateId) (n : NonTerminal) : Option StateId :=
  (table.row? id).bind fun row => row.goto? n

/-- The terminals with an entry in the row. -/
def expected (table : Table) (id : StateId) : List Terminal :=
  ((table.row? id).map fun row => row.actions.map Prod.fst).getD []

def tabular (table : Table) : Tabular where
  initial := table.initial
  action := table.action
  goto := table.goto?
  expected := table.expected

/-- The cell of a state under a terminal, unless it is ambiguous. -/
def cell (state : State) (t : Terminal) : Except Ambiguity (Terminal × Action) :=
  (state.settle g state.id t).map fun verdict => (t, verdict.action)

/-- The row of a state; the least ambiguous terminal decides the error. -/
def rowOf (state : State) : Except Ambiguity Row := do
  let actions ← state.terminals.toList.mapM (cell g state)
  return ⟨actions.filter fun (_, a) => a ≠ .error, state.gotos⟩

/-- The rows of all states; the least state that has an ambiguity decides the error. -/
def rowsOf (c : Collection) : Except Ambiguity (List Row) := c.states.mapM (rowOf g)

def named {α : Type} (wrap : α → Symbol) (columns : List α) : List (α × String) :=
  columns.map fun a => (a, (g.symbols.name? (wrap a)).getD "")

/-- The table of a collection. The start symbol has a column only if some state goes on from it,
as it does when a rule body holds it. -/
def ofCollection (c : Collection) : Except Ambiguity Table := do
  let rows ← rowsOf g c
  let startShows := rows.any fun row => (row.goto? g.start).isSome
  return {
    initial := 0
    rows := rows
    terminals := named g .terminal g.symbols.terminals
    nonTerminals := named g .nonTerminal
      (g.symbols.nonTerminals.filter fun n => n ≠ g.start ∨ startShows) }

end Table

/-- Why no table comes out of a grammar. -/
inductive GenerationError where
  | malformed (fault : StartFault)
  | ambiguous (ambiguity : Ambiguity)
  deriving DecidableEq, Repr

/-- The canonical LR(1) table of a grammar. -/
def Grammar.table? {V : Type} (g : Grammar V) : Except GenerationError Table :=
  match g.collection? with
  | .error fault => .error (.malformed fault)
  | .ok c => (Table.ofCollection g c).mapError .ambiguous

end CanonicalLR
