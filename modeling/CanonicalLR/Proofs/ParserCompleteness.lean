import CanonicalLR.Proofs.TreeRuns
import CanonicalLR.Value

/-!
Completeness of the parser. Where no state has a conflict and no rule goes back to the
start symbol, the tokens of every tree of the start rule's body are parsed to the value
of that tree. A run is determined by its input and a tree by its moves, so there is no
other tree with these tokens.
-/
namespace CanonicalLR

open Machine

variable {V : Type} {g : Grammar V} {c : Collection} {T : Table} {rule : Rule V}

/-! ### Trees up to the values of their leaves -/

section Labels

variable {rules : List (Rule V)}

mutual

/-- The tree with this value at every leaf. -/
def Tree.labelled (v : V) : {s : Symbol} → Tree rules s → Tree rules s
  | _, .leaf token => .leaf (token.1, v)
  | _, .node rule mem children => .node rule mem (children.labelled v)

def Forest.labelled (v : V) : {string : List Symbol} → Forest rules string → Forest rules string
  | _, .nil => .nil
  | _, .cons tree rest => .cons (tree.labelled v) (rest.labelled v)

end

mutual

theorem Tree.tokens_labelled (v : V) : ∀ {s : Symbol} (tree : Tree rules s),
    (tree.labelled v).tokens = tree.yield.map fun t => (t, v)
  | _, .leaf token => rfl
  | _, .node _ _ children => children.tokens_labelled v

theorem Forest.tokens_labelled (v : V) : ∀ {string : List Symbol} (forest : Forest rules string),
    (forest.labelled v).tokens = forest.yield.map fun t => (t, v)
  | _, .nil => rfl
  | _, .cons tree rest => by
    rw [Forest.yield_cons, List.map_append, ← tree.tokens_labelled v, ← rest.tokens_labelled v]
    rfl

end

end Labels

/-! ### Runs from the start -/

section Runs

theorem Machine.At.initial (made : c.Made g rule) : At c [0] ⟨rule.id, 0, g.eos⟩ := by
  obtain ⟨state, hs, items⟩ := Collection.getElem?_itemSets.mp made.built.initial
  refine ⟨0, [], state, [], rfl, .start, hs, ?_⟩
  rw [items]
  exact ItemSet.mem_close_of_mem g (by simp)

theorem Machine.At.start (made : T.Made g rule c) (input : List (Token V)) :
    At c (Configuration.start T.tabular input).states ⟨rule.id, 0, g.eos⟩ := by
  have zero : (Configuration.start T.tabular input).states = [0] :=
    congrArg (fun id => [id]) made.follows.initial
  rw [zero]
  exact .initial made.collection

variable [SemanticValue V]

/-- Before the start rule and over the tokens of a tree of its body, the machine makes the moves of
the tree and then accepts, unless rules go back to the start symbol and it accepts early. -/
theorem Tree.runs_to_accept (made : T.Made g rule c) (free : c.ConflictFree) {n : NonTerminal}
    (body : rule.body = [.nonTerminal n]) (tree : Tree g.rules (.nonTerminal n))
    {m : Configuration V} (here : At c m.states ⟨rule.id, 0, g.eos⟩)
    (input : m.input = tree.tokens) :
    Unless g T m [] (∃ target,
      Runs g T.tabular tree.moves m (m.past [target] (.cons tree .nil) []) ∧
      Accepts g T.tabular (m.past [target] (.cons tree .nil) [])) := by
  obtain ⟨mem, head⟩ := g.mem_rulesOf.mp made.start_mem
  have whole : g.body rule.id = [.nonTerminal n] := (made.wf.body_of_mem mem).trans body
  have next : Item.symbol? g ⟨rule.id, 0, g.eos⟩ = some (.nonTerminal n) := by
    rw [Item.symbol?, whole]
    rfl
  have reads : g.Reads m.input := by
    have h := (Forest.cons tree .nil).reads made.wf (fun x hx => ⟨rule, mem, body ▸ hx⟩)
    rw [input]
    simpa [Forest.tokens] using h
  have follows : g.nextOf ([] : List (Token V)) ∈
      g.firstWith (Item.remainder g ⟨rule.id, 0, g.eos⟩) g.eos := by
    rw [Item.remainder, whole]
    exact (Grammar.mem_firstWith_iff_derives made.wf).mpr (.inr ⟨.refl, rfl⟩)
  rcases tree.runs made free here next (input.trans (List.append_nil _).symm) reads follows with
    early | ⟨target, runs, there⟩
  · exact .inl early
  · have final : Item.symbol? g ⟨rule.id, 1, g.eos⟩ = none := by
      rw [Item.symbol?, whole]
      rfl
    have found := made.wf.rule?_of_mem mem
    exact .inr ⟨target, runs, there.accepts made free final rfl (by simp [found, head]) rfl⟩

/-- In a grammar without conflicts that does not go back to its start symbol, every tree of the
start rule's body is what its tokens are parsed to, and no other tree has the same terminals. -/
theorem Machine.parses_complete {b : Builder V} (authored : b.Authored) {T : Table}
    (table : b.build.table? = .ok T) {c : Collection} (collection : b.build.collection? = .ok c)
    (free : c.ConflictFree) (top : b.build.StartOnlyAtTop) :
    ∃ rule n, b.build.rulesOf b.build.start = [rule] ∧ rule.body = [.nonTerminal n] ∧
      (∀ tree : Tree b.build.rules (.nonTerminal n),
        Parses b.build T.tabular tree.tokens (.ok tree.value) tree.calls) ∧
      (∀ tree tree' : Tree b.build.rules (.nonTerminal n),
        tree.tokens = tree'.tokens → tree = tree') ∧
      ∀ tree tree' : Tree b.build.rules (.nonTerminal n),
        tree.yield = tree'.yield → ∀ v, tree.labelled v = tree'.labelled v := by
  obtain ⟨c', rule, found, made⟩ := Grammar.of_table? authored.wellFormed.build table
  rw [collection] at found
  cases found
  obtain ⟨n, body⟩ := made.body
  have complete (tree : Tree b.build.rules (.nonTerminal n)) :=
    (tree.runs_to_accept made free body (.start made tree.tokens) rfl).resolve_left
      fun early => early.1 top
  have unique (tree tree' : Tree b.build.rules (.nonTerminal n))
      (same : tree.tokens = tree'.tokens) : tree = tree' := by
    obtain ⟨target, runs, accepts⟩ := complete tree
    obtain ⟨target', runs', accepts'⟩ := complete tree'
    rw [← same] at runs' accepts'
    obtain ⟨moves, _⟩ :=
      runs.unique runs' (fun _ _ => accepts.not_does) (fun _ _ => accepts'.not_does)
    exact Tree.eq_of_moves_eq moves
  refine ⟨rule, n, made.start, body, fun tree => ?_, unique, fun tree tree' same v => ?_⟩
  · obtain ⟨target, runs, accepts⟩ := complete tree
    refine parses_iff.mpr ⟨_, _, runs, step_eq_ok.mpr ⟨accepts, Nat.zero_le 1, rfl, ?_⟩⟩
    simp [Configuration.calls, Configuration.past, Configuration.start, Forest.calls]
  · apply unique
    rw [tree.tokens_labelled, tree'.tokens_labelled, same]

end Runs

/-! ### Lists with separators -/

namespace Listing

def builder : Builder Value :=
  Command.runAll
    [.terminal ",", .terminal "n", .nonTerminal "L", .setStart (.name "L") {},
      .rule (.name "L") [.name "L", .name ",", .name "n"] { handler := some Value.list },
      .rule (.name "L") [.name "n"] {}]
    ⟨⟨⟨0⟩, [⟨Builder.defaultStart, .start⟩, ⟨Builder.defaultEos, .eos⟩]⟩, []⟩

theorem authored : builder.Authored :=
  ⟨⟨0⟩, Builder.defaultStart, Builder.defaultEos, _, _, rfl, rfl⟩

def collection : Collection := builder.build.collection?.toOption.getD .empty

def table : Table := builder.build.table?.toOption.getD ⟨0, [], [], []⟩

theorem conflictFree : collection.ConflictFree := by
  decide +kernel

theorem startOnlyAtTop : builder.build.StartOnlyAtTop := by
  unfold Grammar.StartOnlyAtTop
  decide +kernel

def comma : Terminal := ⟨⟨0⟩, 2⟩

def number : Terminal := ⟨⟨0⟩, 3⟩

def head : NonTerminal := ⟨⟨0⟩, 4⟩

def top : Rule Value := ⟨{}, 0, builder.build.start, [.nonTerminal head]⟩

def longer : Rule Value :=
  ⟨{ handler := some Value.list }, 1, head,
    [.nonTerminal head, .terminal comma, .terminal number]⟩

def single : Rule Value := ⟨{}, 2, head, [.terminal number]⟩

theorem rules_eq : builder.build.rules = [top, longer, single] := rfl

theorem rulesOf_start : builder.build.rulesOf builder.build.start = [top] := rfl

/-- A number as a list, and another number behind it. -/
def pair (v w u : Value) : Tree builder.build.rules (.nonTerminal head) :=
  .node longer (by simp [rules_eq])
    (.cons (.node single (by simp [rules_eq]) (.cons (.leaf (number, v)) .nil))
      (.cons (.leaf (comma, w)) (.cons (.leaf (number, u)) .nil)))

/-- The handler of the longer rule makes a list of the sequence that is left of the first number, the
comma and the second number. It is the only one that runs, and there is no other tree with these
terminals. -/
theorem lists_complete :
    Parses builder.build table.tabular
        [(number, .leaf "1"), (comma, .leaf ","), (number, .leaf "2")]
        (.ok (.list [.vec [.leaf "1"], .leaf ",", .leaf "2"])) [1] ∧
      ∀ tree : Tree builder.build.rules (.nonTerminal head),
        tree.yield = [number, comma, number] → ∀ v, tree.labelled v = pair v v v := by
  obtain ⟨rule, n, only, body, complete, _, unique⟩ :=
    Machine.parses_complete authored (T := table) rfl (c := collection) rfl conflictFree
      startOnlyAtTop
  have same : top = rule := List.singleton_inj.mp (rulesOf_start.symm.trans only)
  subst same
  cases body
  constructor
  · exact complete (pair (.leaf "1") (.leaf ",") (.leaf "2"))
  · intro tree terminals v
    exact unique tree (pair .none .none .none) terminals v

end Listing

end CanonicalLR
