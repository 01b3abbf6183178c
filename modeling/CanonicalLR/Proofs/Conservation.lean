import CanonicalLR.Proofs.AuthoringFrames
import CanonicalLR.Proofs.EmbeddedCollections
import CanonicalLR.Proofs.TableContents
import CanonicalLR.Proofs.TreeRuns

/-!
Combinators are conservative. What a combinator adds, also where it fails on the way,
changes nothing of what there was: the earlier non-terminals have the same derivation
trees, derive the empty string and start as before, and from a proper start rule come
the same collection and the same rows, or the same ambiguity in the same words.
-/
namespace CanonicalLR

variable {V : Type}

/-! ### Trees over more rules -/

section

variable {rules rules' : List (Rule V)} (more : rules ⊆ rules')

mutual

/-- A tree of rules is a tree of more rules. -/
def Tree.widen : {s : Symbol} → Tree rules s → Tree rules' s
  | _, .leaf token => .leaf token
  | _, .node rule mem children => .node rule (more mem) children.widen

def Forest.widen : {string : List Symbol} → Forest rules string → Forest rules' string
  | _, .nil => .nil
  | _, .cons tree rest => .cons tree.widen rest.widen

end

mutual

@[simp] theorem Tree.moves_widen : ∀ {s : Symbol} (tree : Tree rules s),
    (tree.widen more).moves = tree.moves
  | _, .leaf _ => rfl
  | _, .node _ _ children => by simp only [Tree.widen, Tree.moves, children.moves_widen]

theorem Forest.moves_widen : ∀ {string : List Symbol} (forest : Forest rules string),
    (forest.widen more).moves = forest.moves
  | _, .nil => rfl
  | _, .cons tree rest => by
    simp only [Forest.widen, Forest.moves, tree.moves_widen, rest.moves_widen]

end

mutual

theorem Tree.value_widen [SemanticValue V] : ∀ {s : Symbol} (tree : Tree rules s),
    (tree.widen more).value = tree.value
  | _, .leaf _ => rfl
  | _, .node _ _ children => by simp only [Tree.widen, Tree.value, children.values_widen]

theorem Forest.values_widen [SemanticValue V] : ∀ {string : List Symbol}
    (forest : Forest rules string), (forest.widen more).values = forest.values
  | _, .nil => rfl
  | _, .cons tree rest => by
    simp only [Forest.widen, Forest.values, tree.value_widen, rest.values_widen]

end

theorem Tree.widen_injective {s : Symbol} :
    Function.Injective (Tree.widen more : Tree rules s → Tree rules' s) := by
  intro tree tree' same
  refine Tree.eq_of_moves_eq ?_
  rw [← tree.moves_widen more, same, tree'.moves_widen]

variable {P : Symbol → Prop}

mutual

/-- If the rules that are more have other heads, trees from symbols that have no such rules have
none of them. -/
theorem Tree.exists_widen (bodies : ∀ rule ∈ rules, ∀ x ∈ rule.body, P x)
    (old : ∀ rule ∈ rules', P (.nonTerminal rule.head) → rule ∈ rules) :
    ∀ {s : Symbol} (tree' : Tree rules' s), P s → ∃ tree : Tree rules s, tree.widen more = tree'
  | _, .leaf token, _ => ⟨.leaf token, rfl⟩
  | _, .node rule mem children, root => by
    have mem' := old rule mem root
    obtain ⟨children', same⟩ := children.exists_widen bodies old (bodies rule mem')
    exact ⟨.node rule mem' children', by rw [Tree.widen, same]⟩

theorem Forest.exists_widen (bodies : ∀ rule ∈ rules, ∀ x ∈ rule.body, P x)
    (old : ∀ rule ∈ rules', P (.nonTerminal rule.head) → rule ∈ rules) :
    ∀ {string : List Symbol} (forest' : Forest rules' string), (∀ x ∈ string, P x) →
      ∃ forest : Forest rules string, forest.widen more = forest'
  | _, .nil, _ => ⟨.nil, rfl⟩
  | _, .cons tree rest, roots => by
    obtain ⟨tree', same⟩ := tree.exists_widen bodies old (roots _ List.mem_cons_self)
    obtain ⟨rest', same'⟩ :=
      rest.exists_widen bodies old fun x hx => roots x (List.mem_cons_of_mem _ hx)
    exact ⟨.cons tree' rest', by rw [Forest.widen, same, same']⟩

end

end

/-! ### Grammars with more rules -/

variable {g g' : Grammar V}

theorem Grammar.identity_string {s : List Symbol} (owned : ∀ x ∈ s, g.symbols.owns x = true) :
    (Renaming.identity g.id).string s = s :=
  Renaming.identity_string fun x hx => SymbolTable.grammar_of_owns (owned x hx)

theorem Grammar.identity_renumber {r : Rule V} (head : g.symbols.owns (.nonTerminal r.head) = true)
    (body : ∀ x ∈ r.body, g.symbols.owns x = true) : (Renaming.identity g.id).renumber r = r :=
  Renaming.identity_renumber (SymbolTable.grammar_of_owns head) fun x hx =>
    SymbolTable.grammar_of_owns (body x hx)

namespace Candidate

variable {cs : List Candidate} (priority : ∀ c ∈ cs, c.priority? g' = c.priority? g)
include priority

theorem highest_congr : highest g' cs = highest g cs := by
  have all : (cs.all fun c => (c.priority? g').isSome) =
      cs.all fun c => (c.priority? g).isSome := by
    rw [Bool.eq_iff_iff, List.all_eq_true, List.all_eq_true]
    exact forall₂_congr fun c mem => by rw [priority c mem]
  have kept :
      (cs.filter fun c => cs.all fun d => (d.priority? g').getD 0 ≤ (c.priority? g').getD 0) =
        cs.filter fun c => cs.all fun d => (d.priority? g).getD 0 ≤ (c.priority? g).getD 0 := by
    refine List.filter_congr fun c mem => ?_
    rw [Bool.eq_iff_iff, List.all_eq_true, List.all_eq_true]
    exact forall₂_congr fun d mem' => by rw [priority c mem, priority d mem']
  rw [highest, highest, all, kept]

variable (associativity : ∀ c ∈ cs, c.associativity? g' = c.associativity? g)
include associativity

theorem breakTie_congr : breakTie g' cs = breakTie g cs := by
  cases cs with
  | nil => rfl
  | cons c cs =>
    have all (p : Int) (side : Associativity) :
        ((c :: cs).all fun d => d.priority? g' = some p ∧ d.associativity? g' = some side) =
          (c :: cs).all fun d => d.priority? g = some p ∧ d.associativity? g = some side := by
      rw [Bool.eq_iff_iff, List.all_eq_true, List.all_eq_true]
      exact forall₂_congr fun d mem => by rw [priority d mem, associativity d mem]
    have first := priority c List.mem_cons_self
    have second := associativity c List.mem_cons_self
    simp only [breakTie, List.head?_cons, Option.bind_eq_bind, Option.bind_some, first, second, all]

/-- What is settled on depends on the priorities and associativities of the candidates alone. -/
theorem settle_congr : settle g' cs = settle g cs := by
  match cs, priority, associativity with
  | [], _, _ => rfl
  | [_], _, _ => rfl
  | c :: d :: cs, priority, associativity =>
    simp only [settle, highest_congr priority]
    split
    · rfl
    · rw [breakTie_congr (fun e mem => priority e (mem_of_mem_highest mem))
        fun e mem => associativity e (mem_of_mem_highest mem)]

end Candidate

/-! The second grammar has all of the first, under the same handles and numbers. -/

namespace Grammar.Embeds

variable (E : g.Embeds (.identity g.id) g') (wf : g.WellFormed) (wf' : g'.WellFormed)
include E wf wf'

section

variable {n : NonTerminal} (owned : g.symbols.owns (.nonTerminal n) = true)
include owned

theorem isNullable_eq : g'.isNullable n = g.isNullable n := by
  have single : ∀ x ∈ [Symbol.nonTerminal n], g.symbols.owns x = true := by simpa using owned
  have same := E.nullableString_eq wf wf' single
  rw [identity_string single] at same
  simpa [nullableString, Analysis.nullableString, Analysis.nullableSymbol, isNullable] using same

theorem first_eq : g'.first n = g.first n := by
  have single : ∀ x ∈ [Symbol.nonTerminal n], g.symbols.owns x = true := by simpa using owned
  have alone (g : Grammar V) (t : Terminal) :
      t ∈ g.firstOfString [.nonTerminal n] ↔ t ∈ g.first n := by
    rw [firstOfString, Analysis.mem_firstOfString_nonTerminal]
    simp [Analysis.firstOfString, first]
  have home {t : Terminal} (mem : t ∈ g.first n) : t.grammar = g.id := by
    have fact := Fact.mem_about.mp mem
    rw [wf.analysis] at fact
    obtain ⟨r, hr, mem⟩ := Analysis.mem_bodyTerminals.mp (Analysis.firstOf_terminal fact)
    exact SymbolTable.grammar_of_owns (wf.body_owned r hr _ mem)
  refine OrderedSet.ext fun t' => ?_
  have members := @Grammar.Embeds.mem_firstOfString V g g' _ E wf wf' _ single t'
  rw [identity_string single] at members
  simp only [alone] at members
  rw [members]
  constructor
  · rintro ⟨t, mem, rfl⟩
    rwa [Renaming.identity_terminal (home mem)]
  · exact fun mem => ⟨t', mem, (Renaming.identity_terminal (home mem)).symm⟩

end

theorem rule?_eq_of_mem_items {i : Item} (hi : i ∈ g.items) : g'.rule? i.rule = g.rule? i.rule := by
  have same := E.rule?_item wf wf' hi
  change g'.rule? i.rule = _ at same
  rw [same]
  cases found : g.rule? i.rule with
  | none => rfl
  | some r =>
    have mem := (wf.mem_of_rule? found).1
    exact congrArg some (identity_renumber (E.head_owned r mem) (wf.body_owned r mem))

theorem proposalsOf_eq {items : ItemSet} (inside : ∀ i ∈ items, i ∈ g.items)
    {edges : List (Symbol × StateId)} (owned : ∀ edge ∈ edges, g.symbols.owns edge.1 = true) :
    State.proposalsOf g' items edges = State.proposalsOf g items edges := by
  refine List.filterMap_congr fun i mem => ?_
  have home : ∀ edge ∈ edges, edge.1.grammar = g.id := fun edge he =>
    SymbolTable.grammar_of_owns (owned edge he)
  have mine := wf.grammar_of_mem_items (inside i mem)
  have same := E.proposal?_item wf wf' (inside i mem) owned
  rw [Renaming.identity_transitions home, Renaming.identity_item mine] at same
  rw [same]
  cases proposes : State.proposal? g edges i with
  | none => rfl
  | some p =>
    have under : p.terminal.grammar = g.id :=
      SymbolTable.grammar_of_owns (wf.proposal_owned (inside i mem) proposes)
    rw [Option.map_some, Renaming.identity_proposal under]
    rw [State.item_of_proposal? proposes]
    exact mine

/-- Matching collections that are built are the same. -/
theorem collection_eq {c c' : Collection} (m : c.Matches (.identity g.id) c') {rule rule' : Rule V}
    (built : c.Built g rule) (built' : c'.Built g' rule') : c' = c := by
  refine built'.eq_of_state? built.toIndexed fun id => ?_
  cases hs : c.state? id with
  | none => exact m.state?_eq_none hs
  | some state =>
    obtain ⟨state', hs', items, matching⟩ := m.states E wf wf' built built' hs
    have inside := built.inside hs wf
    have transitions := matching.transitions
    rw [Renaming.identity_items fun i mem => wf.grammar_of_mem_items (inside i mem)] at items
    rw [Renaming.identity_transitions matching.keys] at transitions
    have proposals : state'.proposals = state.proposals := by
      rw [(built'.visited id state' hs').proposals, (built.visited id state hs).proposals, items,
        transitions]
      exact E.proposalsOf_eq wf wf' inside fun _ he => built.transition_owned hs wf he
    have number : state'.id = state.id := (built'.id_eq hs').trans (built.id_eq hs).symm
    rw [hs']
    obtain ⟨_, _, _, _⟩ := state
    obtain ⟨_, _, _, _⟩ := state'
    simp only at number items transitions proposals
    rw [number, items, transitions, proposals]

section

variable {c : Collection} {rule : Rule V} (built : c.Built g rule) {id : StateId} {state : State}
  (hs : c.state? id = some state)
include built hs

theorem settle_eq (number : StateId) (t : Terminal) :
    state.settle g' number t = state.settle g number t := by
  have same : ∀ d ∈ state.candidates t, g'.rule? d.item.rule = g.rule? d.item.rule := fun d mem =>
    E.rule?_eq_of_mem_items wf wf' (built.candidate_inside hs wf mem)
  rw [State.settle, State.settle, Candidate.settle_congr]
  · intro d mem
    rw [Candidate.priority?, Candidate.priority?, priority?, priority?, same d mem]
  · intro d mem
    rw [Candidate.associativity?, Candidate.associativity?, associativity?, associativity?,
      same d mem]

theorem rowOf_eq : Table.rowOf g' state = Table.rowOf g state := by
  have cells : Table.cell g' state = Table.cell g state := by
    funext t
    rw [Table.cell, Table.cell, E.settle_eq wf wf' built hs state.id t]
  rw [Table.rowOf, Table.rowOf, cells]

omit hs

theorem rowsOf_eq : Table.rowsOf g' c = Table.rowsOf g c := by
  refine mapM_congr fun state mem => ?_
  obtain ⟨_, hs⟩ := List.mem_iff_getElem?.mp mem
  exact E.rowOf_eq wf wf' built hs

end

/-! ### Texts -/

omit wf wf'

theorem name?_eq {x : Symbol} (owned : g.symbols.owns x = true) :
    g'.symbols.name? x = g.symbols.name? x := by
  have same := E.name?_symbol owned
  have home : x.grammar = g.id := SymbolTable.grammar_of_owns owned
  rwa [Renaming.identity_symbol home] at same

theorem names?_eq {s : List Symbol} (owned : ∀ x ∈ s, g.symbols.owns x = true) :
    g'.symbols.names? s = g.symbols.names? s :=
  mapM_congr fun x mem => E.name?_eq (owned x mem)

include wf wf'

theorem text?_item {i : Item} (hi : i ∈ g.items) : i.text? g' = i.text? g := by
  rw [Item.text?, Item.text?, E.rule?_eq_of_mem_items wf wf' hi,
    E.name?_eq (wf.lookahead_owned hi)]
  cases found : g.rule? i.rule with
  | none => rfl
  | some r =>
    have mem := (wf.mem_of_rule? found).1
    simp only [Option.bind_eq_bind, Option.bind_some, E.names?_eq (wf.body_owned r mem),
      E.name?_eq (E.head_owned r mem)]

/-- The first ambiguity is told in the same words. -/
theorem message?_eq {c : Collection} {rule : Rule V} (built : c.Built g rule) {a : Ambiguity}
    (first : a.IsFirst g c) : a.message? g' = a.message? g := by
  obtain ⟨⟨state, hs, fails, _⟩, _⟩ := first
  have proposed : a.terminal ∈ state.terminals := by
    by_contra absent
    rw [State.settle_of_not_mem absent] at fails
    cases fails
  have texts : ∀ d ∈ a.candidates, d.text? g' = d.text? g := fun d mem => by
    have hi := built.candidate_inside hs wf (State.mem_candidates_of_settle_error fails mem)
    rw [Candidate.text?, Candidate.text?, E.text?_item wf wf' hi]
  rw [Ambiguity.message?, Ambiguity.message?, E.name?_eq (built.terminal_owned hs wf proposed),
    mapM_congr texts]

end Grammar.Embeds

/-! ### Builders -/

namespace Builder.Augments

variable {b b' : Builder V} (h : b.Augments b')
include h

/-- A rule for a non-terminal that was there before was there before. -/
theorem mem_of_owns {rule : Rule V} (mem : rule ∈ b'.rules)
    (owned : b.symbols.owns (.nonTerminal rule.head) = true) : rule ∈ b.rules := by
  obtain ⟨added, split⟩ := h.rules
  rw [← split] at mem
  rcases List.mem_append.mp mem with old | new
  · exact old
  · have fresh := h.fresh rule (by rwa [← split, List.drop_left])
    have bound : rule.head.index < b.symbols.size := SymbolTable.index_lt_of_owns owned
    omega

theorem embeds (wf : b.WellFormed) : b.build.Embeds (.identity b.build.id) b'.build where
  grammar := h.grammar
  declarations := h.declarations
  head_owned := wf.head_owned
  rule r mem := by
    rw [Grammar.identity_renumber (wf.head_owned r mem) (wf.body_owned r mem)]
    exact h.rules.subset mem
  only r mem n owned head := by
    have home : n.grammar = b.build.id := SymbolTable.grammar_of_owns owned
    rw [Renaming.identity_nonTerminal home] at head
    have old := h.mem_of_owns mem (head ▸ owned)
    refine ⟨r, old, (Grammar.identity_renumber (wf.head_owned r old) ?_).symm⟩
    exact wf.body_owned r old

theorem widen_bijective (wf : b.WellFormed) {x : Symbol} (owned : b.symbols.owns x = true) :
    Function.Bijective (Tree.widen h.rules.subset : Tree b.rules x → Tree b'.rules x) :=
  ⟨Tree.widen_injective _, fun tree' =>
    tree'.exists_widen (P := fun x => b.symbols.owns x = true) _ wf.body_owned
      (fun _ mem owned => h.mem_of_owns mem owned) owned⟩

end Builder.Augments

theorem Grammar.map_rows_table? {c : Collection} (found : g.collection? = .ok c) :
    g.table?.map Table.rows = (Table.rowsOf g c).mapError .ambiguous := by
  rw [table?_eq_of_collection? found]
  unfold Table.ofCollection
  cases Table.rowsOf g c <;> rfl

theorem Grammar.isFirst_of_table? {c : Collection} (found : g.collection? = .ok c)
    (indexed : c.Indexed) {a : Ambiguity} (fails : g.table? = .error (.ambiguous a)) :
    a.IsFirst g c := by
  rw [table?_eq_of_collection? found] at fails
  refine (Table.ofCollection_eq_error_iff indexed).mp ?_
  cases made : Table.ofCollection g c with
  | error a' =>
    rw [made] at fails
    cases fails
    rfl
  | ok T =>
    rw [made] at fails
    cases fails

/-- A combinator is conservative, whether it succeeds or fails on the way. The symbols and rules
that were there stay as they are, and every rule that is added is for a non-terminal that the call
has declared. So the earlier non-terminals have the same derivation trees, with the same values, and
they are nullable and start as before; and if the start rule was a proper one, it still is, the
collection is the same, and the table has the same rows or there is the same ambiguity, told in the
same words. -/
theorem Grammar.combinators_conserve [SemanticValue V] {b b' : Builder V} (authored : b.Authored)
    {command : Command V} (combinator : command.isCombinator = true)
    (ran : (command.run b).2 = b') :
    b.Extends b' ∧
    (∀ rule ∈ b'.rules.drop b.rules.length,
      b'.symbols.owns (.nonTerminal rule.head) = true ∧
        b.symbols.owns (.nonTerminal rule.head) = false) ∧
    (∃ more : b.rules ⊆ b'.rules, ∀ n, b.symbols.owns (.nonTerminal n) = true →
      Function.Bijective
        (Tree.widen more : Tree b.rules (.nonTerminal n) → Tree b'.rules (.nonTerminal n)) ∧
      ∀ tree : Tree b.rules (.nonTerminal n),
        (tree.widen more).moves = tree.moves ∧ (tree.widen more).value = tree.value) ∧
    (∀ n, b.symbols.owns (.nonTerminal n) = true →
      b'.build.isNullable n = b.build.isNullable n ∧ b'.build.first n = b.build.first n) ∧
    ∀ start, b.build.checkStart = .ok start →
      b'.build.checkStart = .ok start ∧
      b'.build.collection? = b.build.collection? ∧
      b'.build.table?.map Table.rows = b.build.table?.map Table.rows ∧
      ∀ a, b.build.table? = .error (.ambiguous a) → a.message? b'.build = a.message? b.build := by
  have augments : b.Augments b' := ran ▸ command.augments combinator b
  have wfb := authored.wellFormed
  have wfb' : b'.WellFormed := ran ▸ Builder.stepwise_wellFormed.run command b wfb
  have E := augments.embeds wfb
  have wf := wfb.build
  have wf' := wfb'.build
  refine ⟨augments.toExtends, fun rule mem => ⟨wfb'.head_owned rule (List.mem_of_mem_drop mem), ?_⟩,
    ⟨augments.rules.subset, fun n owned => ⟨augments.widen_bijective wfb owned, fun tree =>
      ⟨tree.moves_widen _, tree.value_widen _⟩⟩⟩,
    fun n owned => ⟨E.isNullable_eq wf wf' owned, E.first_eq wf wf' owned⟩,
    fun start checked => ?_⟩
  · rw [← Bool.not_eq_true]
    intro owned
    have bound : rule.head.index < b.symbols.size := SymbolTable.index_lt_of_owns owned
    exact absurd (augments.fresh rule mem) (Nat.not_le.mpr bound)
  · obtain ⟨c, c', found, found', m, built, built'⟩ := E.exists_collections wf wf' checked
    cases E.collection_eq wf wf' m built built'
    obtain ⟨only, _⟩ := of_checkStart checked
    have mem : start ∈ b.rules := by
      have among : start ∈ b.build.rulesOf b.build.start := by simp [only]
      exact (b.build.mem_rulesOf.mp among).1
    have checked' := E.checkStart_eq wf wf' checked
    rw [identity_renumber (wfb.head_owned start mem) (wfb.body_owned start mem)] at checked'
    refine ⟨checked', found'.trans found.symm, ?_, fun a fails => ?_⟩
    · rw [map_rows_table? found, map_rows_table? found', E.rowsOf_eq wf wf' built]
    · exact E.message?_eq wf wf' built (isFirst_of_table? found built.toIndexed fails)

namespace Leftover

/-- Sums of numbers. -/
def builder : Builder Value :=
  Command.runAll
    [.terminal "n", .terminal "+", .nonTerminal "E", .setStart (.name "E") {},
      .rule (.name "E") [.name "E", .name "+", .name "n"] {}, .rule (.name "E") [.name "n"] {}]
    ⟨⟨⟨0⟩, [⟨Builder.defaultStart, .start⟩, ⟨Builder.defaultEos, .eos⟩]⟩, []⟩

theorem authored : builder.Authored :=
  ⟨⟨0⟩, Builder.defaultStart, Builder.defaultEos, _, _, rfl, rfl⟩

/-- The end of input cannot be repeated; the call fails when the empty list is already written. -/
def command : Command Value := .plus (.name Builder.defaultEos)

set_option maxRecDepth 2000 in
theorem checked :
    builder.build.checkStart = .ok ⟨{}, 0, builder.build.start, [.nonTerminal ⟨⟨0⟩, 4⟩]⟩ := rfl

set_option maxRecDepth 2000 in
theorem fails : (command.run builder).1 = .error (.eosInRule Builder.defaultEos) := rfl

set_option maxRecDepth 2000 in
theorem leaves_rule : (command.run builder).2.rules.length = builder.rules.length + 1 := rfl

theorem combinator : command.isCombinator = true := rfl

/-- The rule that is left behind does not show. -/
theorem leftover_conserves :
    (command.run builder).1 = .error (.eosInRule Builder.defaultEos) ∧
      (command.run builder).2.rules.length = builder.rules.length + 1 ∧
      builder.Extends (command.run builder).2 ∧
      (command.run builder).2.build.collection? = builder.build.collection? ∧
      (command.run builder).2.build.table?.map Table.rows =
        builder.build.table?.map Table.rows := by
  obtain ⟨kept, _, _, _, built⟩ := Grammar.combinators_conserve authored combinator rfl
  obtain ⟨_, collection, rows, _⟩ := built _ checked
  exact ⟨fails, leaves_rule, kept, collection, rows⟩

end Leftover

end CanonicalLR
