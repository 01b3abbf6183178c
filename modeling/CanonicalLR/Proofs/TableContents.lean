import CanonicalLR.Proofs.BreadthFirst
import CanonicalLR.Proofs.Settling
import CanonicalLR.Value

/-!
What becomes of the items of a collection in its table. The candidates of a state are
just the actions that its items ask for, and each of them has all the items that ask
for it. The table has in every cell what is settled on; if something is not settled
there is no table, and the first such cell is reported, by state and terminal.
-/
namespace CanonicalLR

variable {V : Type} {g : Grammar V}

/-! ### What items ask for -/

/-- In a state with these items, one of them asks for the action under the terminal: to shift the
terminal after the dot into the state of the items reached over it, or at the end of its rule to
reduce under its lookahead, which for a start rule before the end of input is to accept. -/
inductive Item.Asks (g : Grammar V) (c : Collection) (items : ItemSet) (i : Item) :
    Terminal → Action → Prop where
  | shift {t : Terminal} {target : StateId} (next : i.symbol? g = some (.terminal t))
    (there : c.find? (items.goto g (.terminal t)) = some target) :
    Asks g c items i t (.shift target)
  | accept (exhausted : i.symbol? g = none)
    (start : (g.rule? i.rule).map Rule.head = some g.start) (ends : i.lookahead = g.eos) :
    Asks g c items i g.eos .accept
  | reduce (exhausted : i.symbol? g = none)
    (other : (g.rule? i.rule).map Rule.head = some g.start → i.lookahead ≠ g.eos) :
    Asks g c items i i.lookahead (.reduce i.rule)

instance (c : Collection) (items : ItemSet) (i : Item) (t : Terminal) (a : Action) :
    Decidable (i.Asks g c items t a) :=
  match a with
  | .shift target =>
    decidable_of_iff (i.symbol? g = some (.terminal t) ∧
        c.find? (items.goto g (.terminal t)) = some target)
      ⟨fun h => .shift h.1 h.2, fun | .shift next there => ⟨next, there⟩⟩
  | .accept =>
    decidable_of_iff (i.symbol? g = none ∧ (g.rule? i.rule).map Rule.head = some g.start ∧
        i.lookahead = g.eos ∧ t = g.eos)
      ⟨fun ⟨exhausted, start, ends, same⟩ => same ▸ .accept exhausted start ends,
        fun | .accept exhausted start ends => ⟨exhausted, start, ends, rfl⟩⟩
  | .reduce rule =>
    decidable_of_iff (i.symbol? g = none ∧
        ((g.rule? i.rule).map Rule.head = some g.start → i.lookahead ≠ g.eos) ∧
        t = i.lookahead ∧ rule = i.rule)
      ⟨fun ⟨exhausted, other, under, same⟩ => under ▸ same ▸ .reduce exhausted other,
        fun | .reduce exhausted other => ⟨exhausted, other, rfl, rfl⟩⟩
  | .error => isFalse nofun

namespace Collection

variable {c : Collection} {rule : Rule V} {id : StateId} {state : State} {i : Item} {t : Terminal}
  {a : Action} (built : c.Built g rule)
include built

/-- A state goes on over the symbol after a dot to the state with the items reached over it. -/
theorem Built.target?_eq_some_iff (hs : c.state? id = some state) (hi : i ∈ state.items)
    {x : Symbol} (next : i.symbol? g = some x) {target : StateId} :
    state.target? x = some target ↔ c.find? (state.items.goto g x) = some target := by
  -- one of the two gives the other, since over the symbol after a dot there is always a target
  have there (target : StateId) (edge : c.target? id x = some target) :
      c.find? (state.items.goto g x) = some target := by
    obtain ⟨_, _, hs', ht, items⟩ := built.of_target? edge
    cases hs.symm.trans hs'
    rw [built.find?_eq_some_iff, ht, Option.map_some, items]
  have here : c.target? id x = state.target? x := by
    rw [target?, hs]
    rfl
  rw [← here]
  refine ⟨there target, fun found => ?_⟩
  obtain ⟨other, edge⟩ := built.exists_target hs hi next
  rw [edge, ← there other edge, found]

theorem Built.proposal?_eq_some_iff (hs : c.state? id = some state) (hi : i ∈ state.items) :
    State.proposal? g state.transitions i = some ⟨t, i, a⟩ ↔ i.Asks g c state.items t a := by
  rw [State.proposal?_eq_some]
  constructor
  · rintro (⟨_, target, next, edge, same⟩ | ⟨exhausted, start, same⟩ | ⟨exhausted, other, same⟩)
    · cases same
      exact .shift next ((built.target?_eq_some_iff hs hi next).mp edge)
    · cases same
      rw [start.2]
      exact .accept exhausted start.1 start.2
    · cases same
      exact .reduce exhausted fun start ends => other ⟨start, ends⟩
  · intro asks
    cases asks with
    | shift next there =>
      exact .inl ⟨_, _, next, (built.target?_eq_some_iff hs hi next).mpr there, rfl⟩
    | accept exhausted start ends =>
      exact .inr (.inl ⟨exhausted, ⟨start, ends⟩, by rw [ends]⟩)
    | reduce exhausted other =>
      exact .inr (.inr ⟨exhausted, fun start => other start.1 start.2, rfl⟩)

/-- The items reached over the terminal after a dot are those of a state, so the item before that dot
asks for a shift. -/
theorem Built.exists_asks_shift (hs : c.state? id = some state) (hi : i ∈ state.items)
    (next : i.symbol? g = some (.terminal t)) :
    ∃ target, c.find? (state.items.goto g (.terminal t)) = some target ∧
      i.Asks g c state.items t (.shift target) := by
  obtain ⟨target, edge⟩ := built.exists_target hs hi next
  have here : state.target? (.terminal t) = some target := by
    rw [Collection.target?, hs] at edge
    exact edge
  have there := (built.target?_eq_some_iff hs hi next).mp here
  exact ⟨target, there, .shift next there⟩

/-- What is proposed in a state is what its items ask for. -/
theorem Built.mem_proposals_iff (hs : c.state? id = some state) {p : Proposal} :
    p ∈ state.proposals ↔
      p.item ∈ state.items ∧ p.item.Asks g c state.items p.terminal p.action := by
  rw [(built.visited id state hs).proposals, State.mem_proposalsOf]
  constructor
  · rintro ⟨i, hi, proposes⟩
    have same := State.item_of_proposal? proposes
    subst same
    exact ⟨hi, (built.proposal?_eq_some_iff hs hi).mp proposes⟩
  · rintro ⟨hi, asks⟩
    exact ⟨p.item, hi, (built.proposal?_eq_some_iff hs hi).mpr asks⟩

/-- The items of the proposals are items of the state, in the same order. -/
theorem Built.sublist_items (hs : c.state? id = some state) :
    (state.proposals.map Proposal.item).Sublist state.items.toList := by
  rw [(built.visited id state hs).proposals, State.proposalsOf]
  generalize state.items.toList = items
  induction items with
  | nil => exact .slnil
  | cons i items ih =>
    cases proposes : State.proposal? g state.transitions i with
    | none =>
      rw [List.filterMap_cons_none proposes]
      exact ih.cons i
    | some p =>
      rw [List.filterMap_cons_some proposes, List.map_cons, State.item_of_proposal? proposes]
      exact ih.cons_cons i

end Collection

/-- The candidates of a state are the actions that its items ask for, and each has all the items
that do so, in order. No terminal after a dot is left out: the items reached over it are those of a
state, and to shift it into that state is a candidate. -/
structure State.Records (g : Grammar V) (c : Collection) (state : State) : Prop where
  distinct : ∀ t, ((state.candidates t).map Candidate.action).Nodup
  actions : ∀ t a, a ∈ (state.candidates t).map Candidate.action ↔
    ∃ i ∈ state.items, i.Asks g c state.items t a
  items : ∀ t, ∀ d ∈ state.candidates t, ∀ i,
    i ∈ d.items ↔ i ∈ state.items ∧ i.Asks g c state.items t d.action
  order : ∀ t, ∀ d ∈ state.candidates t, d.items.Sublist state.items.toList
  shifts : ∀ i ∈ state.items, ∀ t, i.symbol? g = some (.terminal t) →
    ∃ target, c.find? (state.items.goto g (.terminal t)) = some target ∧
      Action.shift target ∈ (state.candidates t).map Candidate.action

theorem Collection.Built.records {c : Collection} {rule : Rule V} (built : c.Built g rule)
    {id : StateId} {state : State} (hs : c.state? id = some state) : state.Records g c where
  distinct := state.nodup_candidates
  actions t a := by
    rw [State.mem_candidate_actions]
    constructor
    · rintro ⟨p, mem, rfl, rfl⟩
      exact ⟨p.item, (built.mem_proposals_iff hs).mp mem⟩
    · rintro ⟨i, asks⟩
      exact ⟨⟨t, i, a⟩, (built.mem_proposals_iff hs).mpr asks, rfl, rfl⟩
  items t d mem i := by
    rw [Candidate.mem_items_ofProposals mem]
    constructor
    · rintro ⟨p, among, same, rfl⟩
      obtain ⟨among, under⟩ := List.mem_filter.mp among
      rw [← same, ← of_decide_eq_true under]
      exact (built.mem_proposals_iff hs).mp among
    · intro asks
      refine ⟨⟨t, i, d.action⟩, List.mem_filter.mpr ⟨?_, by simp⟩, rfl, rfl⟩
      exact (built.mem_proposals_iff hs).mpr asks
  order t d mem := by
    rw [Candidate.items_of_mem_ofProposals mem]
    exact ((List.filter_sublist.trans List.filter_sublist).map _).trans (built.sublist_items hs)
  shifts i hi t next := by
    obtain ⟨target, there, asks⟩ := built.exists_asks_shift hs hi next
    refine ⟨target, there, State.mem_candidate_actions.mpr ⟨⟨t, i, .shift target⟩, ?_, rfl, rfl⟩⟩
    exact (built.mem_proposals_iff hs).mpr ⟨hi, asks⟩

/-- No item asks for an error, so that is settled on only where nothing is asked for. -/
theorem State.Records.error_iff {c : Collection} {state : State} (h : state.Records g c)
    {id : StateId} {t : Terminal} {verdict : Verdict}
    (settled : state.settle g id t = .ok verdict) :
    verdict.action = .error ↔ state.candidates t = [] := by
  constructor
  · intro silent
    rcases Candidate.settle_cases (State.settle_eq_ok_iff.mp settled) with
      ⟨none, _⟩ | ⟨d, mem, does⟩
    · exact none
    · have asked := (h.actions t _).mp (List.mem_map_of_mem mem)
      rw [← does, silent] at asked
      obtain ⟨_, _, asks⟩ := asked
      cases asks
  · intro none
    rw [State.settle, none] at settled
    cases settled
    rfl

/-! ### What is not settled -/

/-- Of a list in strict order, the least element that fails decides the error. -/
theorem mapM_eq_error_iff {α β ε : Type} {f : α → Except ε β} {before : α → α → Prop}
    (asymm : ∀ a b, before a b → ¬before b a) {l : List α} (ordered : l.Pairwise before) {e : ε} :
    l.mapM f = .error e ↔
      ∃ a ∈ l, f a = .error e ∧ ∀ b ∈ l, before b a → ∃ m, f b = .ok m := by
  induction l with
  | nil => simp [pure, Except.pure]
  | cons a l ih =>
    obtain ⟨first, rest⟩ := List.pairwise_cons.mp ordered
    have irrefl : ¬before a a := fun h => asymm a a h h
    rw [List.mapM_cons]
    cases ha : f a with
    | error e' =>
      constructor
      · intro same
        cases same
        refine ⟨a, List.mem_cons_self, ha, fun b mem earlier => ?_⟩
        rcases List.mem_cons.mp mem with rfl | mem
        · exact absurd earlier irrefl
        · exact absurd earlier (asymm a b (first b mem))
      · rintro ⟨b, mem, fails, fine⟩
        rcases List.mem_cons.mp mem with rfl | mem
        · cases ha.symm.trans fails
          rfl
        · obtain ⟨m, ok⟩ := fine a List.mem_cons_self (first b mem)
          cases ha.symm.trans ok
    | ok m =>
      have tail : ((Except.ok m : Except ε β) >>= fun m => l.mapM f >>= fun ms =>
          pure (m :: ms)) = .error e ↔ l.mapM f = .error e := by
        cases l.mapM f <;> simp [bind, Except.bind, pure, Except.pure]
      rw [tail, ih rest]
      constructor
      · rintro ⟨b, mem, fails, fine⟩
        refine ⟨b, List.mem_cons_of_mem a mem, fails, fun d hd earlier => ?_⟩
        rcases List.mem_cons.mp hd with rfl | hd
        · exact ⟨m, ha⟩
        · exact fine d hd earlier
      · rintro ⟨b, mem, fails, fine⟩
        rcases List.mem_cons.mp mem with rfl | mem
        · cases ha.symm.trans fails
        · exact ⟨b, mem, fails, fun d hd => fine d (List.mem_cons_of_mem a hd)⟩

/-- The first ambiguity of a collection: nothing is left open in the states before it, nor in its
state under the terminals before it. -/
structure Ambiguity.IsFirst (g : Grammar V) (c : Collection) (e : Ambiguity) : Prop where
  here : ∃ state, c.state? e.state = some state ∧
    state.settle g e.state e.terminal = .error e ∧
    ∀ t, compare t e.terminal = .lt → ∃ verdict, state.settle g e.state t = .ok verdict
  before : ∀ id < e.state, ∀ state, c.state? id = some state → ∀ t,
    ∃ verdict, state.settle g id t = .ok verdict

namespace Table

variable {c : Collection} {T : Table} {state : State} {id : StateId} {t : Terminal} {e : Ambiguity}

theorem of_settle_eq_error (h : state.settle g id t = .error e) :
    e.state = id ∧ e.terminal = t := by
  unfold State.settle at h
  cases hc : Candidate.settle g (state.candidates t) with
  | error cs =>
    rw [hc] at h
    cases h
    exact ⟨rfl, rfl⟩
  | ok verdict => simp [hc, Except.mapError] at h

theorem cell_eq_error_iff : cell g state t = .error e ↔ state.settle g state.id t = .error e := by
  unfold cell
  cases state.settle g state.id t <;> simp [Except.map]

/-- What a row fails with is the ambiguity under the least terminal that is not settled. -/
theorem rowOf_eq_error_iff : rowOf g state = .error e ↔
    e.state = state.id ∧ state.settle g state.id e.terminal = .error e ∧
      ∀ t, compare t e.terminal = .lt → ∃ verdict, state.settle g state.id t = .ok verdict := by
  have cells : rowOf g state = .error e ↔
      state.terminals.toList.mapM (cell g state) = .error e := by
    unfold rowOf
    cases state.terminals.toList.mapM (cell g state) <;>
      simp [bind, Except.bind, pure, Except.pure]
  have asymm (a b : Terminal) (h : compare a b = .lt) : ¬compare b a = .lt := fun h' =>
    OrderedSet.compare_ne_lt_self a (Std.TransCmp.lt_trans h h')
  rw [cells, mapM_eq_error_iff asymm state.terminals.ascending]
  constructor
  · rintro ⟨t, mem, fails, fine⟩
    rw [cell_eq_error_iff] at fails
    obtain ⟨same, rfl⟩ := of_settle_eq_error fails
    refine ⟨same, fails, fun t earlier => ?_⟩
    by_cases proposed : t ∈ state.terminals
    · obtain ⟨entry, ok⟩ := fine t proposed earlier
      obtain ⟨verdict, settled, _⟩ := settle_of_cell ok
      exact ⟨verdict, settled⟩
    · exact ⟨.nothing, State.settle_of_not_mem proposed _⟩
  · rintro ⟨_, fails, fine⟩
    have proposed : e.terminal ∈ state.terminals := by
      by_contra absent
      rw [State.settle_of_not_mem absent] at fails
      cases fails
    refine ⟨e.terminal, proposed, cell_eq_error_iff.mpr fails, fun t _ earlier => ?_⟩
    obtain ⟨verdict, settled⟩ := fine t earlier
    exact ⟨(t, verdict.action), by rw [cell, settled]; rfl⟩

theorem ofCollection_eq_error_iff (indexed : c.Indexed) :
    ofCollection g c = .error e ↔ e.IsFirst g c := by
  have rows : ofCollection g c = .error e ↔ rowsOf g c = .error e := by
    unfold ofCollection
    cases rowsOf g c <;> simp [bind, Except.bind, pure, Except.pure]
  have ordered : c.states.Pairwise fun p q => p.id < q.id := by
    refine List.Pairwise.of_map State.id (fun _ _ h => h) ?_
    rw [indexed.ids]
    exact List.pairwise_lt_range
  rw [rows, rowsOf, mapM_eq_error_iff (fun _ _ h => Nat.lt_asymm h) ordered]
  constructor
  · rintro ⟨state, mem, fails, fine⟩
    obtain ⟨same, fails, below⟩ := rowOf_eq_error_iff.mp fails
    rw [← same] at fails below
    refine ⟨⟨state, same ▸ indexed.state?_id mem, fails, below⟩, fun id earlier state' hs t => ?_⟩
    rw [← indexed.id_eq hs, same] at earlier
    obtain ⟨row, made⟩ := fine state' (List.mem_of_getElem? hs) earlier
    obtain ⟨verdict, settled, _⟩ := action_of_rowOf made t
    exact ⟨verdict, State.settle_eq_ok_of_eq_ok id settled⟩
  · rintro ⟨⟨state, hs, fails, below⟩, earlier⟩
    have same := indexed.id_eq hs
    rw [← same] at fails below earlier
    refine ⟨state, List.mem_of_getElem? hs,
      rowOf_eq_error_iff.mpr ⟨same.symm, fails, below⟩, fun state' mem before => ?_⟩
    exact exists_rowOf (earlier state'.id before state' (indexed.state?_id mem))

/-! ### What the table holds -/

theorem isOk_ofCollection_iff : (∃ T, ofCollection g c = .ok T) ↔
    ∀ id state, c.state? id = some state → ∀ t, state.candidates t ≠ [] →
      ∃ verdict, state.settle g id t = .ok verdict := by
  constructor
  · rintro ⟨T, made⟩ id state hs t _
    obtain ⟨verdict, settled, _⟩ := (follows_ofCollection made).action id state hs t
    exact ⟨verdict, settled⟩
  · intro settles
    refine exists_ofCollection fun id state hs t => ?_
    by_cases none : state.candidates t = []
    · exact ⟨.nothing, by rw [State.settle, none]; rfl⟩
    · exact settles id state hs t none

/-- The cells of the table are what the states settle on and where they go; all numbers in it are
those of states and rules, and an error is nowhere written down. -/
structure Settled (g : Grammar V) (c : Collection) (T : Table) : Prop extends T.Follows g c where
  size : T.size = c.size
  error : ∀ id state, c.state? id = some state → ∀ t,
    T.action id t = .error ↔ state.candidates t = []
  written : ∀ row ∈ T.rows, ∀ entry ∈ row.actions, entry.2 ≠ .error
  shift : ∀ id t target, T.action id t = .shift target → target < T.size
  goto_lt : ∀ id n target, T.goto? id n = some target → target < T.size
  reduce : ∀ id t r, T.action id t = .reduce r → ∃ rule, g.rule? r = some rule

theorem size_ofCollection (h : ofCollection g c = .ok T) : T.size = c.size := by
  have same (id : StateId) : T.row? id = none ↔ c.state? id = none := by
    rcases row?_cases h id with ⟨none, none'⟩ | ⟨_, _, some, some', _⟩ <;> simp_all
  refine Nat.le_antisymm ?_ ?_
  · exact List.getElem?_eq_none_iff.mp ((same _).mpr (List.getElem?_eq_none (Nat.le_refl _)))
  · exact List.getElem?_eq_none_iff.mp ((same _).mp (List.getElem?_eq_none (Nat.le_refl _)))

theorem written_ofCollection (h : ofCollection g c = .ok T) {row : Row} (mem : row ∈ T.rows)
    {entry : Terminal × Action} (he : entry ∈ row.actions) : entry.2 ≠ .error := by
  obtain ⟨id, found⟩ := List.mem_iff_getElem?.mp mem
  rcases row?_cases h id with ⟨_, none⟩ | ⟨state, row', _, some, made⟩
  · cases none.symm.trans found
  · cases some.symm.trans found
    obtain ⟨_, _, cells⟩ := of_rowOf made
    obtain ⟨verdict, _, entries⟩ := cells entry.1
    exact ((entries entry.2).mp he).2

theorem settled_ofCollection {rule : Rule V} (made : c.Made g rule)
    (h : ofCollection g c = .ok T) : T.Settled g c := by
  have follows := follows_ofCollection h
  have size := size_ofCollection h
  have inside {id : StateId} {x : Symbol} {target : StateId} (edge : c.target? id x = some target) :
      target < T.size := by
    obtain ⟨_, _, _, ht, _⟩ := made.built.of_target? edge
    rw [size]
    exact (List.getElem?_eq_some_iff.mp ht).1
  refine { follows with
    size := size
    error := fun id state hs t => ?_
    written := fun row mem entry he => written_ofCollection h mem he
    shift := fun id t target act => inside (follows.of_shift made.built act)
    goto_lt := fun id n target found => inside (follows.goto id n ▸ found)
    reduce := fun id t r act => ?_ }
  · obtain ⟨verdict, settled, same⟩ := follows.action id state hs t
    rw [same]
    exact (made.built.records hs).error_iff settled
  · obtain ⟨state, hs, i, hi, _, rfl, _⟩ := follows.of_reduce made.built act
    have canonical := made.built.reached state.items (List.mem_map_of_mem (List.mem_of_getElem? hs))
    obtain ⟨r, mem, same, _⟩ := Grammar.mem_items.mp (canonical.inside made.wf i hi)
    exact ⟨r, same ▸ made.wf.rule?_of_mem mem⟩

end Table

/-- A grammar with a proper start rule has a table just if every state settles under every terminal
for which it has candidates. The table then says what is settled on, and otherwise the first failure
is reported. -/
theorem Grammar.table_or_first_ambiguity [SemanticValue V] {b : Builder V} (authored : b.Authored)
    {start : Rule V} (checked : b.build.checkStart = .ok start) :
    ∃ c, b.build.collection? = .ok c ∧
      (∀ state ∈ c.states, state.Records b.build c) ∧
      ((∃ T, Table.ofCollection b.build c = .ok T) ↔
        ∀ id state, c.state? id = some state → ∀ t, state.candidates t ≠ [] →
          ∃ verdict, state.settle b.build id t = .ok verdict) ∧
      (∀ T, Table.ofCollection b.build c = .ok T → T.Settled b.build c) ∧
      ∀ e, Table.ofCollection b.build c = .error e ↔ e.IsFirst b.build c := by
  obtain ⟨c, found, made⟩ := Grammar.exists_collection? authored.wellFormed.build checked
  refine ⟨c, found, fun state mem => ?_, Table.isOk_ofCollection_iff,
    fun T table => Table.settled_ofCollection made table,
    fun e => Table.ofCollection_eq_error_iff made.built.toIndexed⟩
  obtain ⟨id, hs⟩ := List.mem_iff_getElem?.mp mem
  exact made.built.records hs

namespace Brackets

def builder : Builder Value :=
  Command.runAll
    [.terminal "(", .terminal ")", .terminal "n", .nonTerminal "E", .setStart (.name "E") {},
      .rule (.name "E") [.name "(", .name Builder.defaultStart, .name ")"] {},
      .rule (.name "E") [.name "n"] {}]
    ⟨⟨⟨0⟩, [⟨Builder.defaultStart, .start⟩, ⟨Builder.defaultEos, .eos⟩]⟩, []⟩

theorem authored : builder.Authored :=
  ⟨⟨0⟩, Builder.defaultStart, Builder.defaultEos, _, _, rfl, rfl⟩

def startRule : Rule Value := ⟨{}, 0, builder.build.start, [.nonTerminal ⟨⟨0⟩, 5⟩]⟩

def collection : Collection := builder.build.collection?.toOption.getD .empty

set_option maxRecDepth 2000 in
theorem checked : builder.build.checkStart = .ok startRule := rfl

theorem collection?_eq : builder.build.collection? = .ok collection := by
  obtain ⟨c, found, _⟩ := Grammar.exists_collection? authored.wellFormed.build checked
  rw [collection, found]
  rfl

/-- Inside the brackets the start rule is at its end before a bracket, and the end of input is not
accepted there. -/
theorem inner_end_not_accepted :
    builder.build.collection? = .ok collection ∧
      ∃ state ∈ collection.states,
        (∃ i ∈ state.items, i.symbol? builder.build = none ∧
          (builder.build.rule? i.rule).map Rule.head = some builder.build.start) ∧
        Action.accept ∉ (state.candidates builder.build.eos).map Candidate.action := by
  have inner : ∃ state ∈ collection.states,
      (⟨0, 1, ⟨⟨0⟩, 3⟩⟩ : Item) ∈ state.items ∧
        Action.accept ∉ (state.candidates builder.build.eos).map Candidate.action := by
    decide +kernel
  obtain ⟨state, mem, hi, never⟩ := inner
  exact ⟨collection?_eq, state, mem, ⟨_, hi, by decide +kernel, by decide +kernel⟩, never⟩

def closing : Terminal := ⟨⟨0⟩, 3⟩

def number : Terminal := ⟨⟨0⟩, 4⟩

def expression : NonTerminal := ⟨⟨0⟩, 5⟩

/-- All cells of the table are settled. In the initial state a number is shifted, and nothing is to
be done at the end of input. There the number is reduced, and what it is reduced to is accepted; but
before a closing bracket the start rule is reduced. -/
theorem table_settled :
    ∃ c, builder.build.collection? = .ok c ∧
      (∀ state ∈ c.states, state.Records builder.build c) ∧
      ∃ T, Table.ofCollection builder.build c = .ok T ∧ T.Settled builder.build c ∧
        T.action 0 number = .shift 2 ∧ T.action 0 builder.build.eos = .error ∧
        T.action 2 builder.build.eos = .reduce 2 ∧ T.goto? 0 expression = some 3 ∧
        T.action 3 builder.build.eos = .accept ∧ T.action 7 closing = .reduce 0 := by
  obtain ⟨c, found, records, _, settled, _⟩ :=
    Grammar.table_or_first_ambiguity authored checked
  have same : collection = c := Except.ok.inj (collection?_eq.symm.trans found)
  have cells : (Table.ofCollection builder.build collection).toOption.map (fun T =>
      ([T.action 0 number, T.action 0 builder.build.eos, T.action 2 builder.build.eos,
        T.action 3 builder.build.eos, T.action 7 closing], T.goto? 0 expression)) =
      some ([.shift 2, .error, .reduce 2, .accept, .reduce 0], some 3) := by
    decide +kernel
  cases made : Table.ofCollection builder.build collection with
  | error e => simp [made, Except.toOption] at cells
  | ok T =>
    simp only [made, Except.toOption, Option.map_some, Option.some.injEq, Prod.mk.injEq,
      List.cons.injEq] at cells
    obtain ⟨⟨shifted, blank, reduced, accepted, inner, _⟩, goto⟩ := cells
    rw [same] at made
    exact ⟨c, found, records, T, made, settled T made, shifted, blank, reduced, goto, accepted,
      inner⟩

end Brackets

end CanonicalLR
