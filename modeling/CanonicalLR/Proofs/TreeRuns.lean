import CanonicalLR.Proofs.MachineRuns
import CanonicalLR.Proofs.ViablePaths

/-!
How the machine works through the tokens of a tree when no state has a conflict. In a
state with an item that has the root of the tree after its dot, where what comes after
the tree may follow there, the next moves are those of the tree: shifts of its leaves
and reductions at its nodes, children before their parent. Only a node for the start
symbol right before the end of input is not reduced: there the machine accepts.
-/
namespace CanonicalLR

open Machine

variable {V : Type} {g : Grammar V} {c : Collection} {T : Table} {rule : Rule V}

/-! ### The moves that a tree stands for -/

section Moves

variable {rules : List (Rule V)}

mutual

/-- A shift for each leaf and a reduction for each node, children before their parent. -/
def Tree.moves : {s : Symbol} → Tree rules s → List (Move V)
  | _, .leaf token => [.shift token]
  | _, .node rule _ children => children.moves ++ [.reduce rule]

def Forest.moves : {string : List Symbol} → Forest rules string → List (Move V)
  | _, .nil => []
  | _, .cons tree rest => tree.moves ++ rest.moves

end

mutual

/-- Read from the last one back, the moves tell the tree. -/
theorem Tree.eq_of_moves : ∀ {s s' : Symbol} (tree : Tree rules s) (tree' : Tree rules s')
    {before before' : List (Move V)}, before ++ tree.moves = before' ++ tree'.moves →
      s = s' ∧ tree ≍ tree' ∧ before = before'
  | _, _, .leaf token, .leaf token', before, before', same => by
    simp only [Tree.moves] at same
    obtain ⟨rest, last⟩ := List.append_inj' same rfl
    cases last
    exact ⟨rfl, .rfl, rest⟩
  | _, _, .leaf token, .node rule _ children, before, before', same => by
    simp only [Tree.moves, ← List.append_assoc] at same
    obtain ⟨_, last⟩ := List.append_inj' same rfl
    cases last
  | _, _, .node rule _ children, .leaf token, before, before', same => by
    simp only [Tree.moves, ← List.append_assoc] at same
    obtain ⟨_, last⟩ := List.append_inj' same rfl
    cases last
  | _, _, .node rule _ children, .node rule' _ children', before, before', same => by
    simp only [Tree.moves, ← List.append_assoc] at same
    obtain ⟨inner, last⟩ := List.append_inj' same rfl
    cases last
    obtain ⟨rfl, rest⟩ := children.eq_of_moves children' inner
    exact ⟨rfl, .rfl, rest⟩

theorem Forest.eq_of_moves : ∀ {string : List Symbol} (forest forest' : Forest rules string)
    {before before' : List (Move V)}, before ++ forest.moves = before' ++ forest'.moves →
      forest = forest' ∧ before = before'
  | _, .nil, .nil, before, before', same => by
    simpa [Forest.moves] using same
  | _, .cons tree rest, .cons tree' rest', before, before', same => by
    simp only [Forest.moves, ← List.append_assoc] at same
    obtain ⟨rfl, front⟩ := rest.eq_of_moves rest' same
    obtain ⟨_, trees, rest⟩ := tree.eq_of_moves tree' front
    cases trees
    exact ⟨rfl, rest⟩

end

@[simp] theorem Forest.moves_append {s t : List Symbol} (forest : Forest rules s)
    (other : Forest rules t) : (forest.append other).moves = forest.moves ++ other.moves := by
  induction s with
  | nil => cases forest; rfl
  | cons x s ih =>
    cases forest with
    | cons tree rest => simp only [append, moves, ih, List.append_assoc]

theorem Tree.eq_of_moves_eq {s : Symbol} {tree tree' : Tree rules s}
    (same : tree.moves = tree'.moves) : tree = tree' := by
  have before : [] ++ tree.moves = [] ++ tree'.moves := congrArg ([] ++ ·) same
  exact eq_of_heq (tree.eq_of_moves tree' before).2.1

end Moves

/-! ### What may follow -/

/-- Tokens of the grammar, none of which is the end of input. -/
def Grammar.Reads (g : Grammar V) (input : List (Token V)) : Prop :=
  ∀ token ∈ input, g.symbols.owns (.terminal token.1) = true ∧ token.1 ≠ g.eos

instance (input : List (Token V)) : Decidable (g.Reads input) :=
  inferInstanceAs (Decidable (∀ token ∈ input, _))

theorem Grammar.Reads.eq_nil {input : List (Token V)} (reads : g.Reads input)
    (ends : g.nextOf input = g.eos) : input = [] := by
  cases input with
  | nil => rfl
  | cons token rest => exact absurd ends (reads token (by simp)).2

theorem Grammar.Reads.owned (wf : g.WellFormed) {input : List (Token V)} (reads : g.Reads input) :
    g.symbols.owns (.terminal (g.nextOf input)) = true := by
  cases input with
  | nil => exact wf.eos_owned
  | cons token rest => exact (reads token (by simp)).1

/-- The leaves of trees are tokens of the grammar. -/
theorem Forest.reads (wf : g.WellFormed) {string : List Symbol} (forest : Forest g.rules string)
    (symbols : ∀ x ∈ string, ∃ r ∈ g.rules, x ∈ r.body) : g.Reads forest.tokens := by
  have bodies : ∀ r ∈ g.rules, ∀ x ∈ r.body, g.symbols.owns x = true ∧ x ≠ .terminal g.eos :=
    fun r mem x hx => ⟨wf.body_owned r mem x hx, fun same => wf.eos_not_mem_body r mem (same ▸ hx)⟩
  intro token mem
  have h := forest.forall_tokens bodies
    (fun x hx => (symbols x hx).elim fun r h => bodies r h.1 x h.2) token mem
  exact ⟨h.1, fun same => h.2 (same ▸ rfl)⟩

/-- What follows a forest may come after its string, so what begins the forest may come before. -/
theorem Grammar.nextOf_mem_firstWith (wf : g.WellFormed) {string after : List Symbol}
    {lookahead : Terminal} (forest : Forest g.rules string) {rest : List (Token V)}
    (follows : g.nextOf rest ∈ g.firstWith after lookahead) :
    g.nextOf (forest.tokens ++ rest) ∈ g.firstWith (string ++ after) lookahead := by
  have derives := forest.derives
  unfold Forest.yield at derives
  cases ht : forest.tokens with
  | nil =>
    rw [ht] at derives
    have vanish (u : List Symbol) (h : Derives g.rules after u) :
        Derives g.rules (string ++ after) u := derives.concat h
    rw [Grammar.mem_firstWith_iff_derives wf] at follows ⊢
    rcases follows with ⟨more, h⟩ | ⟨h, same⟩
    · exact .inl ⟨more, vanish _ h⟩
    · exact .inr ⟨vanish _ h, same⟩
  | cons token tokens =>
    rw [ht] at derives
    refine (Grammar.mem_firstWith_iff_derives wf).mpr
      (.inl ⟨terminalString (tokens.map Prod.fst) ++ after, ?_⟩)
    exact derives.concat (.refl : Derives _ after after)

/-! ### Where the machine is -/

/-- The states are a path to a state with the item. -/
def Machine.At (c : Collection) (ids : List StateId) (i : Item) : Prop :=
  ∃ id below state string, ids = id :: below ∧ c.Path (id :: below) string ∧
    c.state? id = some state ∧ i ∈ state.items

namespace Machine.At

variable {ids : List StateId} {i j : Item}

theorem expand (h : At c ids i) (made : c.Made g rule) (called : j ∈ i.expansion g) :
    At c ids j := by
  obtain ⟨id, below, state, string, top, path, hs, hi⟩ := h
  exact ⟨id, below, state, string, top, path, hs, path.mem_of_expansion made.built hs hi called⟩

/-- From a state with an item before a symbol there is a transition over that symbol. -/
theorem push (h : At c ids i) (made : c.Made g rule) {x : Symbol}
    (next : i.symbol? g = some x) :
    ∃ id below target, ids = id :: below ∧ c.target? id x = some target ∧
      At c (target :: ids) { i with position := i.position + 1 } := by
  obtain ⟨id, below, state, string, top, path, hs, hi⟩ := h
  obtain ⟨target, edge⟩ := made.built.exists_target hs hi next
  obtain ⟨state', hs', hi'⟩ := made.built.mem_of_target? edge hs hi next
  refine ⟨id, below, target, top, edge, target, ids, state', x :: string, rfl, ?_, hs', hi'⟩
  rw [top]
  exact .push path edge

end Machine.At

/-! ### Runs over trees -/

section Runs

variable [SemanticValue V]

/-- Before it is through, the machine accepts, with more values than there are now. -/
def Machine.AcceptsEarly (g : Grammar V) (T : Table) (m : Configuration V) : Prop :=
  ∃ moves m', Runs g T.tabular moves m m' ∧ Accepts g T.tabular m' ∧ m'.input = [] ∧
    m.values.length < m'.values.length

theorem Machine.AcceptsEarly.of_runs {m m₁ : Configuration V} {moves : List (Move V)}
    (h : AcceptsEarly g T m₁) (runs : Runs g T.tabular moves m m₁)
    (grows : m.values.length ≤ m₁.values.length) : AcceptsEarly g T m := by
  obtain ⟨moves', m', runs', accepts, read, more⟩ := h
  exact ⟨moves ++ moves', m', runs.append runs', accepts, read, by omega⟩

/-- Either this has happened, or rules go back to the start symbol, nothing is left to be read, and
the machine accepts early. -/
def Machine.Unless (g : Grammar V) (T : Table) (m : Configuration V) (rest : List (Token V))
    (happens : Prop) : Prop :=
  (¬g.StartOnlyAtTop ∧ rest = [] ∧ AcceptsEarly g T m) ∨ happens

omit [SemanticValue V] in
/-- At the end of a rule for the start symbol, with nothing left to be read, the machine accepts. -/
theorem Machine.At.accepts {m : Configuration V} {i : Item} (h : At c m.states i)
    (made : T.Made g rule c) (free : c.ConflictFree) (final : i.symbol? g = none)
    (last : i.lookahead = g.eos) (head : (g.rule? i.rule).map Rule.head = some g.start)
    (read : m.input = []) : Accepts g T.tabular m := by
  obtain ⟨id, below, state, string, top, _, hs, hi⟩ := h
  have act := made.follows.action_of_end made.built free hs hi final
  rw [if_pos ⟨head, last⟩, last] at act
  refine ⟨id, below, top, ?_, ?_⟩
  · rw [read]
    exact made.wf.eos_owned
  · rw [read]
    exact act

/-- In a state with an item before a terminal, that terminal is shifted. -/
theorem Machine.At.shifts {m : Configuration V} {i : Item} (h : At c m.states i)
    (made : T.Made g rule c) (free : c.ConflictFree) {token : Token V} {rest : List (Token V)}
    (next : i.symbol? g = some (.terminal token.1)) (input : m.input = token :: rest)
    (reads : g.Reads m.input) :
    ∃ target, Does g T.tabular (.shift token) m
        ⟨target :: m.states, token.2 :: m.values, rest, m.handled⟩ ∧
      At c (target :: m.states) { i with position := i.position + 1 } := by
  obtain ⟨id, below, target, top, edge, there⟩ := h.push made.collection next
  obtain ⟨id', below', state, string, top', _, hs, hi⟩ := h
  rw [top] at top'
  cases top'
  have act := made.follows.action_of_terminal made.built free hs hi next edge
  have owned := (reads token (by simp [input])).1
  exact ⟨target, .shift top input owned act, there⟩

/-- In a state at the end of a rule, what the rule's body left on the stacks is reduced, unless the
rule is for the start symbol and nothing is left to be read. -/
theorem Machine.At.reduces {m : Configuration V} {ids top : List StateId} {i : Item} {r : Rule V}
    (mem : r ∈ g.rules) (here : At c m.states ⟨r.id, r.length, g.nextOf m.input⟩)
    (made : T.Made g rule c) (free : c.ConflictFree) (states : m.states = top ++ ids)
    (size : top.length = r.length) (values : r.length ≤ m.values.length)
    (inner : ¬(r.head = g.start ∧ g.nextOf m.input = g.eos)) (reads : g.Reads m.input)
    (below : At c ids i) (next : i.symbol? g = some (.nonTerminal r.head)) :
    ∃ target, Does g T.tabular (.reduce r) m (m.reduced r.id r (target :: ids)) ∧
      At c (target :: ids) { i with position := i.position + 1 } := by
  obtain ⟨base, under, target, rfl, edge, there⟩ := below.push made.collection next
  obtain ⟨id, rest, state, string, first, _, hs, hi⟩ := here
  have found := made.wf.rule?_of_mem mem
  have final : Item.symbol? g ⟨r.id, r.length, g.nextOf m.input⟩ = none := by
    refine List.getElem?_eq_none_iff.mpr ?_
    rw [made.wf.body_of_mem mem]
    exact Nat.le_refl _
  have act := made.follows.action_of_end made.built free hs hi final
  simp only [found, Option.map_some, Option.some.injEq, if_neg inner] at act
  have goto : T.goto? base r.head = some target := (made.follows.goto base r.head).trans edge
  have uncovered : m.states.drop r.length = base :: under := by
    rw [states, List.drop_left' size]
  exact ⟨target, .reduce first (reads.owned made.wf) act found values uncovered goto, there⟩

/-- What the configuration is after the trees. -/
def Configuration.past (m : Configuration V) (states : List StateId) {string : List Symbol}
    (forest : Forest g.rules string) (rest : List (Token V)) : Configuration V :=
  ⟨states ++ m.states, forest.values.reverse ++ m.values, rest, forest.calls.reverse ++ m.handled⟩

theorem Configuration.past_past (m : Configuration V) (target : StateId) (states : List StateId)
    {x : Symbol} {string : List Symbol} (tree : Tree g.rules x) (forest : Forest g.rules string)
    (middle rest : List (Token V)) :
    (m.past [target] (.cons tree .nil) middle).past states forest rest =
      m.past (states ++ [target]) (.cons tree forest) rest := by
  simp [Configuration.past, Forest.values, Forest.calls]

theorem Configuration.reduced_past (m : Configuration V) (target : StateId)
    (states : List StateId) {r : Rule V} (mem : r ∈ g.rules) (children : Forest g.rules r.body)
    (rest : List (Token V)) :
    (m.past states children rest).reduced r.id r (target :: m.states) =
      m.past [target] (.cons (.node r mem children) .nil) rest := by
  have size : children.values.reverse.length = r.length := by simp [Rule.length]
  simp only [Configuration.past, Configuration.reduced, List.take_left' size,
    List.drop_left' size, List.reverse_reverse, Forest.values, Forest.calls, Tree.value,
    Tree.calls]
  cases r.handler <;> simp [Rule.valueOf]

mutual

/-- In a state with an item before the root of a tree, the machine makes the moves of the tree,
which leave its value behind. -/
theorem Tree.runs (made : T.Made g rule c) (free : c.ConflictFree) :
    ∀ {x : Symbol} (tree : Tree g.rules x) {m : Configuration V} {i : Item}
      {rest : List (Token V)}, At c m.states i → i.symbol? g = some x →
      m.input = tree.tokens ++ rest → g.Reads m.input →
      g.nextOf rest ∈ g.firstWith (i.remainder g) i.lookahead →
      Unless g T m rest (∃ target, Runs g T.tabular tree.moves m
        (m.past [target] (.cons tree .nil) rest) ∧
        At c (target :: m.states) { i with position := i.position + 1 })
  | _, .leaf token, m, i, rest, here, next, input, reads, follows => by
    obtain ⟨target, does, there⟩ := here.shifts made free next input reads
    exact .inr ⟨target, .single does, there⟩
  | _, .node r mem children, m, i, rest, here, next, input, reads, follows => by
    have called : (⟨r.id, 0, g.nextOf rest⟩ : Item) ∈ i.expansion g :=
      (i.mem_expansion g).mpr
        ⟨r.head, next, r, g.mem_rulesOf.mpr ⟨mem, rfl⟩, g.nextOf rest, follows, rfl⟩
    have body : (g.body r.id).drop 0 = r.body ++ [] := by
      rw [made.wf.body_of_mem mem]
      simp
    have ends : g.nextOf rest ∈ g.firstWith [] (g.nextOf rest) := g.mem_firstWith_nil.mpr rfl
    have remaining : g.Reads rest := fun token mem => reads token (by simp [input, mem])
    rcases children.runs made free (here.expand made.collection called) body input reads ends with
      early | ⟨states, size, runs, there⟩
    · exact .inl early
    · rw [Nat.zero_add] at there
      by_cases start : r.head = g.start ∧ g.nextOf rest = g.eos
      · have deep : ¬g.StartOnlyAtTop := fun top => by
          obtain ⟨r', mem', inside⟩ := g.exists_rule_of_mem_body (List.mem_of_getElem? next)
          exact top r' mem' (start.1 ▸ inside)
        have none := remaining.eq_nil start.2
        have only := made.eq_of_head mem start.1
        obtain ⟨n, single⟩ := made.body
        have found := made.wf.rule?_of_mem mem
        have final : Item.symbol? g ⟨r.id, r.body.length, g.nextOf rest⟩ = .none := by
          refine List.getElem?_eq_none_iff.mpr ?_
          rw [made.wf.body_of_mem mem]
        have accepts := At.accepts (m := m.past states children rest) there made free final start.2
          (by simp [found, start.1]) none
        refine .inl ⟨deep, none, _, _, runs, accepts, none, ?_⟩
        simp [Configuration.past, only, single]
      · obtain ⟨target, does, there⟩ := At.reduces (m := m.past states children rest) mem there
          made free rfl size (by simp [Configuration.past, Rule.length]) start remaining here next
        rw [m.reduced_past target states mem children rest] at does
        exact .inr ⟨target, runs.append (.single does), there⟩

/-- In a state with an item before the roots of trees, the machine makes the moves of the trees,
which leave their values behind. -/
theorem Forest.runs (made : T.Made g rule c) (free : c.ConflictFree) :
    ∀ {string : List Symbol} (forest : Forest g.rules string) {m : Configuration V} {i : Item}
      {after : List Symbol} {rest : List (Token V)}, At c m.states i →
      (g.body i.rule).drop i.position = string ++ after →
      m.input = forest.tokens ++ rest → g.Reads m.input →
      g.nextOf rest ∈ g.firstWith after i.lookahead →
      Unless g T m rest (∃ states, states.length = string.length ∧
        Runs g T.tabular forest.moves m (m.past states forest rest) ∧
        At c (states ++ m.states) { i with position := i.position + string.length })
  | _, .nil, m, i, after, rest, here, body, input, reads, follows => by
    have same : rest = m.input := input.symm
    subst same
    exact .inr ⟨[], rfl, .nil m, here⟩
  | x :: string, .cons tree forest, m, i, after, rest, here, body, input, reads, follows => by
    have next : i.symbol? g = some x := by
      have h := congrArg List.head? body
      rw [List.head?_drop] at h
      exact h
    have remainder : i.remainder g = string ++ after := by
      have h := congrArg List.tail body
      rw [List.tail_drop] at h
      exact h
    have input' : m.input = tree.tokens ++ (forest.tokens ++ rest) := by
      rw [input, Forest.tokens, List.append_assoc]
    have follows' : g.nextOf (forest.tokens ++ rest) ∈
        g.firstWith (i.remainder g) i.lookahead := by
      rw [remainder]
      exact Grammar.nextOf_mem_firstWith made.wf forest follows
    have remaining : g.Reads (forest.tokens ++ rest) := fun token mem =>
      reads token (by rw [input']; exact List.mem_append_right _ mem)
    rcases tree.runs made free here next input' reads follows' with
      ⟨deep, none, early⟩ | ⟨target, runs, there⟩
    · exact .inl ⟨deep, (List.append_eq_nil_iff.mp none).2, early⟩
    · rcases forest.runs made free (m := m.past [target] (.cons tree .nil) (forest.tokens ++ rest))
          there remainder rfl remaining follows with
        ⟨deep, none, early⟩ | ⟨states, size, runs', there'⟩
      · exact .inl ⟨deep, none, early.of_runs runs (by simp [Configuration.past])⟩
      · rw [m.past_past] at runs'
        refine .inr ⟨states ++ [target], by simp [size], runs.append runs', ?_⟩
        simpa [Configuration.past, Nat.add_assoc, Nat.add_comm 1] using there'

end

end Runs

end CanonicalLR
