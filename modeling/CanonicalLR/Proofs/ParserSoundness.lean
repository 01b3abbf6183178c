import CanonicalLR.Proofs.TreeRuns
import CanonicalLR.Value

/-!
Soundness of the parser. At every moment the values on the stack are those of trees:
the symbols at their roots lead from the initial state to the state on top, their
leaves are the tokens read so far, their handlers are the ones called so far, and their
moves are those of the machine. A shift adds a leaf; a reduction makes the last trees
the children of a new one, since the item it is for fits the string of the roots.
-/
namespace CanonicalLR

variable {V : Type} [SemanticValue V] {g : Grammar V} {c : Collection} {T : Table} {rule : Rule V}

omit [SemanticValue V] in
/-- The end of input is in nothing that is derived from the start symbol. -/
theorem Grammar.WellFormed.eos_not_mem_of_derives (wf : g.WellFormed) {s : List Symbol}
    (h : Derives g.rules [.nonTerminal g.start] s) : Symbol.terminal g.eos ∉ s := by
  have free := h.forall_mem (P := fun x => x ≠ .terminal g.eos)
    (fun r mem x hx same => wf.eos_not_mem_body r mem (same ▸ hx)) (by simp)
  exact fun mem => free _ mem rfl

omit [SemanticValue V] in
/-- Before the end of input the head of the rule ends what is derived. -/
theorem Item.Fits.at_end (wf : g.WellFormed) {string : List Symbol} {i : Item}
    (h : i.Fits g string) (last : i.lookahead = g.eos) :
    ∃ (rule : Rule V) (left : List Symbol), g.rule? i.rule = some rule ∧
      i.position ≤ rule.length ∧ string = left ++ rule.body.take i.position ∧
      Derives g.rules [.nonTerminal g.start] (left ++ [.nonTerminal rule.head]) := by
  obtain ⟨rule, left, right, found, bound, split, derives, follows⟩ := h
  have none : right = [] := by
    cases right with
    | nil => rfl
    | cons x right =>
      have eos : x = .terminal g.eos := by simpa [last] using follows
      exact absurd (by simp [eos]) (wf.eos_not_mem_of_derives derives)
  subst none
  exact ⟨rule, left, found, bound, split, derives⟩

omit [SemanticValue V] in
/-- A final item has the whole body before its dot. -/
theorem Item.take_body_of_final {i : Item} {rule : Rule V} (found : g.rule? i.rule = some rule)
    (final : i.symbol? g = none) : rule.body.take i.position = rule.body := by
  have bound := List.getElem?_eq_none_iff.mp final
  rw [Grammar.body, found] at bound
  exact List.take_of_length_le bound

namespace Machine

/-- The values are those of these trees over the tokens read so far. -/
structure Holds (c : Collection) (tokens : List (Token V)) {string : List Symbol}
    (forest : Forest g.rules string) (m : Configuration V) : Prop where
  path : c.Path m.states string.reverse
  values : m.values = forest.values.reverse
  calls : m.calls = forest.calls
  read : tokens = forest.tokens ++ m.input
  free : ∀ token ∈ forest.tokens, token.1 ≠ g.eos

/-- The values are those of trees over the tokens read so far. -/
structure Parsed (g : Grammar V) (c : Collection) (tokens : List (Token V))
    (m : Configuration V) : Prop where
  trees : ∃ (string : List Symbol) (forest : Forest g.rules string), Holds c tokens forest m

theorem holds_start (tokens : List (Token V)) (initial : T.initial = 0) :
    Holds c tokens (.nil : Forest g.rules []) (.start T.tabular tokens) := by
  refine ⟨?_, rfl, rfl, rfl, by simp [Forest.tokens]⟩
  have zero : (Configuration.start T.tabular tokens).states = [0] := by
    change [T.initial] = [0]
    rw [initial]
  rw [zero]
  exact .start

/-- A shift adds a leaf. -/
theorem Holds.shift (made : T.Made g rule c) {tokens : List (Token V)} {m m' : Configuration V}
    {token : Token V} {string : List Symbol} {forest : Forest g.rules string}
    (h : Holds c tokens forest m) (step : Does g T.tabular (.shift token) m m') :
    Holds c tokens (forest.append (.cons (.leaf token) .nil)) m' := by
  cases step with
  | shift top input owned act =>
    have edge := made.follows.of_shift made.built act
    have inner : token.1 ≠ g.eos := by
      intro same
      obtain ⟨r, mem, inside⟩ := made.built.mem_body_of_target? edge
      exact made.wf.eos_not_mem_body r mem (same ▸ inside)
    refine ⟨?_, ?_, ?_, ?_, ?_⟩
    · have path := h.path
      rw [List.reverse_append]
      rw [top] at path ⊢
      exact .push path edge
    · simp [h.values, Forest.values, Tree.value]
    · rw [Forest.calls_append, ← h.calls]
      simp [Configuration.calls, Forest.calls, Tree.calls]
    · rw [h.read, input]
      simp [Forest.tokens, Tree.tokens]
    · simp only [Forest.tokens_append, Forest.tokens, Tree.tokens, List.append_nil,
        List.mem_append, List.mem_singleton]
      rintro t (mem | rfl)
      · exact h.free t mem
      · exact inner

omit [SemanticValue V] in
/-- At a final item the string on the path ends with the body of the item's rule. -/
theorem exists_left_of_final (made : T.Made g rule c) {string : List Symbol} {id : StateId}
    {below : List StateId} {state : State} {i : Item} {r : Rule V}
    (path : c.Path (id :: below) string.reverse) (hs : c.state? id = some state)
    (hi : i ∈ state.items) (final : i.symbol? g = none) (found : g.rule? i.rule = some r) :
    ∃ left, string = left ++ r.body := by
  have fits := path.fits made.wf made.start_mem made.built rfl hs i hi
  obtain ⟨r', left, _, found', _, split, _⟩ := fits
  rw [found] at found'
  cases found'
  rw [List.reverse_reverse, Item.take_body_of_final found final] at split
  exact ⟨left, split⟩

/-- A reduction makes the last trees the children of a new one. -/
theorem Holds.reduce (made : T.Made g rule c) {tokens : List (Token V)}
    {m m' : Configuration V} {r : Rule V} {string : List Symbol} {forest : Forest g.rules string}
    (h : Holds c tokens forest m) (step : Does g T.tabular (.reduce r) m m') :
    ∃ (left : List Symbol) (first : Forest g.rules left) (mem : r ∈ g.rules)
      (children : Forest g.rules r.body), string = left ++ r.body ∧
      forest ≍ first.append children ∧
      Holds c tokens (first.append (.cons (.node r mem children) .nil)) m' := by
  obtain ⟨path, values, calls, read, free⟩ := h
  cases step with
  | @reduce _ state base target below under id _ top owned act found enough uncovered goto =>
    obtain ⟨state, hs, i, hi, final, rfl, _⟩ := made.follows.of_reduce made.built act
    rw [top] at path
    obtain ⟨left, rfl⟩ := exists_left_of_final made path hs hi final found
    obtain ⟨first, children, rfl⟩ := forest.exists_append
    have mem := made.wf.mem_of_rule? found
    have lower : c.Path (base :: under) left.reverse := by
      have h := path.drop_append
      rwa [← top, ← Rule.length, uncovered] at h
    have size : children.values.reverse.length = r.length := by simp [Rule.length]
    have split : m.values = children.values.reverse ++ first.values.reverse := by
      rw [values, Forest.values_append, List.reverse_append]
    refine ⟨left, first, mem.1, children, rfl, .rfl, ?_, ?_, ?_, ?_, ?_⟩
    · rw [List.reverse_append]
      exact .push lower ((made.follows.goto base r.head).symm.trans goto)
    · simp only [Configuration.reduced, split, List.take_left' size, List.drop_left' size,
        List.reverse_reverse, Forest.values_append, Forest.values, Tree.value, List.reverse_append]
      rfl
    · rw [Forest.calls_append] at calls ⊢
      simp only [Forest.calls, Tree.calls, List.append_nil, ← List.append_assoc, ← calls, mem.2,
        Configuration.calls, Configuration.reduced]
      split <;> simp
    · rw [read]
      simp [Forest.tokens, Tree.tokens, Configuration.reduced]
    · simpa [Forest.tokens, Tree.tokens] using free

/-- With every move the trees have that move more. -/
theorem Holds.does (made : T.Made g rule c) {tokens : List (Token V)} {m m' : Configuration V}
    {move : Move V} {string : List Symbol} {forest : Forest g.rules string}
    (h : Holds c tokens forest m) (step : Does g T.tabular move m m') :
    ∃ (string' : List Symbol) (forest' : Forest g.rules string'),
      Holds c tokens forest' m' ∧ forest'.moves = forest.moves ++ [move] := by
  cases move with
  | shift token => exact ⟨_, _, h.shift made step, by simp [Forest.moves, Tree.moves]⟩
  | reduce r =>
    obtain ⟨left, first, mem, children, rfl, same, holds⟩ := h.reduce made step
    cases same
    exact ⟨_, _, holds, by simp [Forest.moves, Tree.moves]⟩

/-- After a run the trees have the moves of the run more. -/
theorem Holds.runs (made : T.Made g rule c) {tokens : List (Token V)} {moves : List (Move V)}
    {m m' : Configuration V} {string : List Symbol} {forest : Forest g.rules string}
    (h : Holds c tokens forest m) (runs : Runs g T.tabular moves m m') :
    ∃ (string' : List Symbol) (forest' : Forest g.rules string'),
      Holds c tokens forest' m' ∧ forest'.moves = forest.moves ++ moves := by
  induction runs generalizing string with
  | nil => exact ⟨string, forest, h, (List.append_nil _).symm⟩
  | cons first _ ih =>
    obtain ⟨_, _, h', first⟩ := h.does made first
    obtain ⟨string', forest', h'', rest⟩ := ih h'
    exact ⟨string', forest', h'', by rw [rest, first, List.append_assoc, List.singleton_append]⟩

/-- Whatever the machine does, the values are those of trees over the tokens read so far, and the
moves it has made are those of the trees. -/
theorem Runs.exists_holds (made : T.Made g rule c) {tokens : List (Token V)}
    {moves : List (Move V)} {m : Configuration V}
    (runs : Runs g T.tabular moves (.start T.tabular tokens) m) :
    ∃ (string : List Symbol) (forest : Forest g.rules string),
      Holds c tokens forest m ∧ forest.moves = moves :=
  (holds_start tokens made.follows.initial).runs made runs

theorem Runs.parsed (made : T.Made g rule c) {tokens : List (Token V)} {moves : List (Move V)}
    {m : Configuration V} (runs : Runs g T.tabular moves (.start T.tabular tokens) m) :
    Parsed g c tokens m :=
  have ⟨_, _, holds, _⟩ := runs.exists_holds made
  ⟨_, _, holds⟩

/-- Where the table accepts, the values are those of a forest that ends with the body of the start
rule, and the symbols before that come before the start symbol in some derivation. -/
theorem Parsed.of_accepts (made : T.Made g rule c) {tokens : List (Token V)}
    {m : Configuration V} (h : Parsed g c tokens m) (accepts : Accepts g T.tabular m) :
    ∃ (left : List Symbol) (forest : Forest g.rules (left ++ rule.body)),
      Derives g.rules [.nonTerminal g.start] (left ++ [.nonTerminal g.start]) ∧
        m.values = forest.values.reverse ∧ m.calls = forest.calls ∧
        tokens = forest.tokens ++ m.input ∧ (∀ token ∈ forest.tokens, token.1 ≠ g.eos) ∧
        g.nextOf m.input = g.eos := by
  obtain ⟨id, below, top, _, act⟩ := accepts
  obtain ⟨string, forest, path, values, calls, read, free⟩ := h
  obtain ⟨next, state, hs, i, hi, final, last, head⟩ := made.follows.of_accept made.built act
  rw [top] at path
  obtain ⟨r, left, found, _, split, derives⟩ :=
    (path.fits made.wf made.start_mem made.built rfl hs i hi).at_end made.wf last
  rw [found, Option.map_some, Option.some.injEq] at head
  have only := made.eq_of_head (made.wf.mem_of_rule? found).1 head
  subst only
  rw [List.reverse_reverse, Item.take_body_of_final found final] at split
  subst split
  exact ⟨left, forest, head ▸ derives, values, calls, read, free, next⟩

end Machine

omit [SemanticValue V] in
/-- Where no body holds the start symbol, it derives nothing that ends with itself. -/
theorem Grammar.StartOnlyAtTop.eq_nil_of_derives (h : g.StartOnlyAtTop) {left : List Symbol}
    (derives : Derives g.rules [.nonTerminal g.start] (left ++ [.nonTerminal g.start])) :
    left = [] := by
  have bodies : ∀ r ∈ g.rules, ∀ x ∈ r.body, x ≠ .nonTerminal g.start :=
    fun r mem x hx same => h r mem (same ▸ hx)
  rcases derives.eq_or_forall_mem bodies with same | free
  · simpa using congrArg List.length same
  · exact absurd rfl (free (.nonTerminal g.start) (by simp))

/-- A sequence of tokens that is parsed is a sentence, with the end of input after it or not. Its
value and the calls of handlers are those of a tree of the sentence, unless rules go back to the
start symbol. -/
theorem Machine.parses_sound {b : Builder V} (authored : b.Authored) {T : Table}
    (table : b.build.table? = .ok T) {tokens : List (Token V)} {v : V} {calls : List RuleId}
    (parsed : Parses b.build T.tabular tokens (.ok v) calls) :
    ∃ w : List (Token V), (tokens = w ∨ ∃ x, tokens = w ++ [(b.build.eos, x)]) ∧
      (∀ token ∈ w, token.1 ≠ b.build.eos) ∧ b.build.Sentence (w.map Prod.fst) ∧
      (b.build.StartOnlyAtTop →
        ∃ rule n, b.build.rulesOf b.build.start = [rule] ∧ rule.body = [.nonTerminal n] ∧
          ∃ tree : Tree b.build.rules (.nonTerminal n),
            tree.tokens = w ∧ tree.value = v ∧ tree.calls = calls) := by
  obtain ⟨c, rule, _, made⟩ := Grammar.of_table? authored.wellFormed.build table
  obtain ⟨moves, m, runs, last⟩ := parses_iff.mp parsed
  obtain ⟨accepts, short, value, rfl⟩ := step_eq_ok.mp last
  obtain ⟨left, forest, derives, values, calls, read, free, next⟩ :=
    (runs.parsed made).of_accepts made accepts
  refine ⟨forest.tokens, ?_, free, ?_, fun top => ?_⟩
  · match hm : m.input, short, next with
    | [], _, _ => exact .inl (by simpa [hm] using read)
    | [(t, x)], _, next =>
      have : t = b.build.eos := next
      exact .inr ⟨x, by rw [read, hm, this]⟩
  · obtain ⟨mem, head⟩ := b.build.mem_rulesOf.mp made.start_mem
    have opened := derives.trans
      (Derives.concat (.refl : Derives _ left left) (head ▸ Derives.of_rule mem))
    exact opened.trans forest.derives
  · have none := top.eq_nil_of_derives derives
    obtain ⟨n, body⟩ := made.body
    obtain ⟨tree, tokens, root, handlers⟩ := forest.exists_tree (x := .nonTerminal n)
      (by rw [none, body]; rfl)
    rw [values, root] at value
    exact ⟨rule, n, made.start, body, tree, tokens, by simpa using value,
      handlers.trans calls.symm⟩

/-! ### Differences of numbers, which associativity makes unambiguous -/

namespace Subtraction

def builder : Builder Value :=
  Command.runAll
    [.terminal "-", .terminal "n", .nonTerminal "E", .setStart (.name "E") {},
      .rule (.name "E") [.name "E", .name "-", .name "E"]
        { priority := some 1, associativity := some .left, handler := some Value.list },
      .rule (.name "E") [.name "n"] {}]
    ⟨⟨⟨0⟩, [⟨Builder.defaultStart, .start⟩, ⟨Builder.defaultEos, .eos⟩]⟩, []⟩

theorem authored : builder.Authored :=
  ⟨⟨0⟩, Builder.defaultStart, Builder.defaultEos, _, _, rfl, rfl⟩

def table : Table := builder.build.table?.toOption.getD ⟨0, [], [], []⟩

def minus : Token Value := (⟨⟨0⟩, 2⟩, .leaf "-")

def number : Token Value := (⟨⟨0⟩, 3⟩, .leaf "n")

theorem startOnlyAtTop : builder.build.StartOnlyAtTop := by
  unfold Grammar.StartOnlyAtTop
  decide +kernel

/-- Two differences in a row group to the left, and the tree that says so has all the tokens. -/
theorem nested_sound :
    ∃ w, ([number, minus, number, minus, number] = w ∨
        ∃ x, [number, minus, number, minus, number] = w ++ [(builder.build.eos, x)]) ∧
      (∀ token ∈ w, token.1 ≠ builder.build.eos) ∧ builder.build.Sentence (w.map Prod.fst) ∧
      ∃ rule n, builder.build.rulesOf builder.build.start = [rule] ∧
        rule.body = [.nonTerminal n] ∧
        ∃ tree : Tree builder.build.rules (.nonTerminal n), tree.tokens = w ∧
          tree.value = .list [.list [.vec [number.2], minus.2, .vec [number.2]], minus.2,
            .vec [number.2]] ∧
          tree.calls = [1, 1] := by
  have parsed : Machine.Parses builder.build table.tabular [number, minus, number, minus, number]
      (.ok (.list [.list [.vec [number.2], minus.2, .vec [number.2]], minus.2, .vec [number.2]]))
      [1, 1] := ⟨12, rfl⟩
  obtain ⟨w, whole, free, sentence, tree⟩ := Machine.parses_sound authored rfl parsed
  exact ⟨w, whole, free, sentence, tree startOnlyAtTop⟩

end Subtraction

end CanonicalLR
