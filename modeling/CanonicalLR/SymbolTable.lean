import CanonicalLR.AuthoringError

/-!
The symbols of one grammar in their order of declaration, and the two ways to refer
to one: by name or by handle. A name belongs to one symbol at most (`declare`), so
looking up the name of a declared symbol gives that symbol back.
-/
namespace CanonicalLR

inductive SymbolKind where
  | terminal
  | nonTerminal
  /-- The end-of-input terminal. -/
  | eos
  /-- The non-terminal that derives the sentences of the grammar. -/
  | start
  deriving DecidableEq, Repr

def SymbolKind.isTerminal : SymbolKind → Bool
  | .terminal | .eos => true
  | .nonTerminal | .start => false

structure Declaration where
  name : String
  kind : SymbolKind
  deriving DecidableEq, Repr

structure SymbolTable where
  grammar : GrammarId
  declarations : List Declaration
  deriving DecidableEq, Repr

namespace SymbolTable

variable (table : SymbolTable)

def size : Nat := table.declarations.length

/-- The handle of the symbol of this kind at this place. -/
def handle (kind : SymbolKind) (index : Nat) : Symbol :=
  if kind.isTerminal then .terminal ⟨table.grammar, index⟩
  else .nonTerminal ⟨table.grammar, index⟩

@[simp] theorem index_handle (kind : SymbolKind) (index : Nat) :
    (table.handle kind index).index = index := by
  unfold handle; split <;> rfl

@[simp] theorem grammar_handle (kind : SymbolKind) (index : Nat) :
    (table.handle kind index).grammar = table.grammar := by
  unfold handle; split <;> rfl

/-- The symbol declared at this place. -/
def symbolAt? (index : Nat) : Option Symbol :=
  (table.declarations[index]?).map fun d => table.handle d.kind index

/-- All symbols, in order of declaration. -/
def symbols : List Symbol :=
  table.declarations.zipIdx.map fun (d, i) => table.handle d.kind i

def terminals : List Terminal := table.symbols.filterMap Symbol.terminal?

def nonTerminals : List NonTerminal := table.symbols.filterMap Symbol.nonTerminal?

def containsName (name : String) : Bool :=
  table.declarations.any fun d => d.name == name

def find? (name : String) : Option Symbol :=
  (table.declarations.zipIdx.find? fun (d, _) => d.name == name).map
    fun (d, i) => table.handle d.kind i

/-- Whether the handle is that of a symbol declared here. -/
def owns (s : Symbol) : Bool := table.symbolAt? s.index = some s

theorem owns_iff {s : Symbol} : table.owns s = true ↔ s ∈ table.symbols := by
  simp only [owns, symbolAt?, symbols, decide_eq_true_eq, Option.map_eq_some_iff, List.mem_map,
    List.mem_zipIdx_iff_getElem?, Prod.exists]
  constructor
  · rintro ⟨d, hd, hs⟩
    exact ⟨d, s.index, hd, hs⟩
  · rintro ⟨d, i, hd, rfl⟩
    exact ⟨d, by simpa using hd, by simp⟩

/-- The name of a symbol; a symbol of another grammar has none here. -/
def name? (s : Symbol) : Option String :=
  if table.owns s then (table.declarations[s.index]?).map Declaration.name else none

theorem isSome_name? (s : Symbol) : (table.name? s).isSome = table.owns s := by
  unfold name?
  split
  · rename_i h
    rw [h]
    simp only [owns, symbolAt?, decide_eq_true_eq, Option.map_eq_some_iff] at h
    obtain ⟨d, hd, _⟩ := h
    simp [hd]
  · rename_i h
    simpa using h

/-- Declare a symbol, unless its name is taken. -/
def declare (name : String) (kind : SymbolKind) :
    Except AuthoringError (Symbol × SymbolTable) :=
  if table.containsName name then .error (.duplicateName name)
  else .ok (table.handle kind table.size,
    { table with declarations := table.declarations ++ [⟨name, kind⟩] })

end SymbolTable

/-- A symbol as the author of a grammar designates it. -/
inductive SymbolRef where
  | name (name : String)
  | handle (symbol : Symbol)
  deriving DecidableEq, Repr

instance : Coe Symbol SymbolRef := ⟨.handle⟩

instance : Coe NonTerminal SymbolRef := ⟨fun n => .handle (.nonTerminal n)⟩

namespace SymbolTable

variable (table : SymbolTable)

/-- The symbol behind a reference; a handle is passed as it is if it is one of this table. -/
def resolve : SymbolRef → Except AuthoringError Symbol
  | .name name =>
    match table.find? name with
    | some s => .ok s
    | none => .error (.unknownSymbol name)
  | .handle s => if table.owns s then .ok s else .error (.foreignSymbol s)

/-- The non-terminal behind a reference. -/
def resolveNonTerminal (ref : SymbolRef) : Except AuthoringError NonTerminal := do
  match ← table.resolve ref with
  | .nonTerminal n => .ok n
  | .terminal t => .error (.notANonTerminal ((table.name? (.terminal t)).getD ""))

/-- The symbols behind the references; the first that fails decides the error. -/
def resolveAll (refs : List SymbolRef) : Except AuthoringError (List Symbol) :=
  refs.mapM table.resolve

end SymbolTable

end CanonicalLR
