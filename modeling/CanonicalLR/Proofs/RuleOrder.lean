import CanonicalLR.Proofs.EmbeddedCollections
import CanonicalLR.Proofs.TableContents

/-!
The order in which the rules of a grammar are added decides nothing but their numbers.
Grammars with the same symbols and the same rules in different orders have the same
states with the same transitions, the items renumbered, and conflicts in the same
states; where there are none, the tables are the same up to the numbers of the rules.
-/
namespace CanonicalLR

variable {V : Type} {g g' : Grammar V} {ρ : Renaming}

/-! ### Permuted lists -/

/-- The permutation of the numbers behind zero, zero being kept. -/
def shifted (σ : Equiv.Perm Nat) : Equiv.Perm Nat where
  toFun
    | 0 => 0
    | n + 1 => σ n + 1
  invFun
    | 0 => 0
    | n + 1 => σ.symm n + 1
  left_inv n := by cases n <;> simp
  right_inv n := by cases n <;> simp

/-- In a permuted list the entries stand at permuted places. -/
theorem exists_places_of_perm {α : Type} {l l' : List α} (h : l.Perm l') :
    ∃ σ : Equiv.Perm Nat, ∀ i, l'[σ i]? = l[i]? := by
  induction h with
  | nil => exact ⟨Equiv.refl Nat, fun _ => rfl⟩
  | cons a _ ih =>
    obtain ⟨σ, places⟩ := ih
    refine ⟨shifted σ, fun i => ?_⟩
    cases i with
    | zero => rfl
    | succ i => exact places i
  | swap a b l =>
    refine ⟨Equiv.swap 0 1, fun i => ?_⟩
    match i with
    | 0 => rfl
    | 1 => rfl
    | i + 2 => rw [Equiv.swap_apply_of_ne_of_ne (by omega) (by omega)]; rfl
  | trans _ _ ih ih' =>
    obtain ⟨σ, places⟩ := ih
    obtain ⟨τ, places'⟩ := ih'
    exact ⟨σ.trans τ, fun i => (places' (σ i)).trans (places i)⟩

/-! ### Reordered rules -/

/-- What the author wrote of a rule, for the grammar with this identity: all but its number. -/
def Rule.content (grammar : GrammarId) (r : Rule V) :
    Decoration V × NonTerminal × List Symbol :=
  (r.toDecoration, (Renaming.identity grammar).nonTerminal r.head,
    (Renaming.identity grammar).string r.body)

/-- The second builder has the rules of the first, under their new numbers. -/
structure Builder.Renumbers (ρ : Renaming) (b b' : Builder V) : Prop where
  grammar : ρ.grammar = b'.symbols.grammar
  rules : ∀ id, b'.rules[ρ.rule id]? = (b.rules[id]?).map ρ.renumber

namespace Builder

variable {b b' : Builder V}

theorem renumber_eq_of_content (wf : b.WellFormed) (wf' : b'.WellFormed) {σ : Equiv.Perm RuleId}
    {id : RuleId} {r r' : Rule V} (at_ : b.rules[id]? = some r) (at_' : b'.rules[σ id]? = some r')
    (same : r'.content b'.symbols.grammar = r.content b'.symbols.grammar) :
    r' = Renaming.renumber ⟨b'.symbols.grammar, σ⟩ r := by
  have mem := List.mem_of_getElem? at_'
  have home := SymbolTable.grammar_of_owns (wf'.head_owned r' mem)
  have all : (Renaming.identity b'.symbols.grammar).string r'.body = r'.body :=
    Renaming.identity_string fun x hx => SymbolTable.grammar_of_owns (wf'.body_owned r' mem x hx)
  have first := wf.rule_id id r at_
  have second := wf'.rule_id (σ id) r' at_'
  obtain ⟨decoration, number, head, body⟩ := r'
  simp only [Rule.content, Prod.mk.injEq] at same
  obtain ⟨rfl, heads, bodies⟩ := same
  rw [all] at bodies
  have head' : (Renaming.identity b'.symbols.grammar).nonTerminal head = head := by
    cases head
    cases home
    rfl
  rw [head'] at heads
  subst heads bodies
  simp only at second
  rw [second, Renaming.renumber, ← first]
  rfl

/-- The same rules in another order are the same under new numbers. -/
theorem exists_renumbers (wf : b.WellFormed) (wf' : b'.WellFormed)
    (permuted : (b.rules.map (Rule.content b'.symbols.grammar)).Perm
      (b'.rules.map (Rule.content b'.symbols.grammar))) : ∃ ρ, Renumbers ρ b b' := by
  obtain ⟨σ, places⟩ := exists_places_of_perm permuted
  refine ⟨⟨b'.symbols.grammar, σ⟩, rfl, fun id => ?_⟩
  have place := places id
  rw [List.getElem?_map, List.getElem?_map] at place
  change b'.rules[σ id]? = _
  cases at_ : b.rules[id]? with
  | none =>
    rw [at_, Option.map_none, Option.map_eq_none_iff] at place
    rw [place, Option.map_none]
  | some r =>
    rw [at_, Option.map_some] at place
    obtain ⟨r', at_', same⟩ := Option.map_eq_some_iff.mp place
    rw [at_', Option.map_some, renumber_eq_of_content wf wf' at_ at_' same]

/-- With the same symbols each of two such grammars lies in the other. -/
theorem Renumbers.embeds (h : Renumbers ρ b b') (wf : b.WellFormed)
    (declarations : b'.symbols.declarations = b.symbols.declarations) :
    b.build.Embeds ρ b'.build where
  grammar := h.grammar
  declarations := by
    change b.symbols.declarations <+: b'.symbols.declarations
    rw [declarations]
  head_owned := wf.head_owned
  rule r mem := by
    obtain ⟨id, at_⟩ := List.mem_iff_getElem?.mp mem
    refine List.mem_of_getElem? (i := ρ.rule id) ?_
    change b'.rules[ρ.rule id]? = _
    rw [h.rules id, show b.rules[id]? = some r from at_, Option.map_some]
  only r' mem n _ _ := by
    obtain ⟨id, at_'⟩ := List.mem_iff_getElem?.mp mem
    have place := h.rules (ρ.rule.symm id)
    rw [Equiv.apply_symm_apply, show b'.rules[id]? = some r' from at_'] at place
    obtain ⟨r, at_, same⟩ := Option.map_eq_some_iff.mp place.symm
    exact ⟨r, List.mem_of_getElem? at_, same.symm⟩

end Builder

/-! ### Tables without conflicts -/

theorem Item.Asks.ne_error {c : Collection} {items : ItemSet} {i : Item} {t : Terminal} {a : Action}
    (asks : i.Asks g c items t a) : a ≠ .error := by
  cases asks <;> nofun

namespace Table

variable {c c' : Collection} {state state' : State} {row row' : Row}

/-- A state without conflicts settles under every terminal, on what is proposed there. -/
theorem settle_of_hasConflicts (free : state.hasConflicts = false) (id : StateId) (t : Terminal) :
    ∃ verdict, state.settle g id t = .ok verdict ∧
      ∀ p ∈ state.proposals, p.terminal = t → verdict.action = p.action := by
  by_cases proposed : ∃ p ∈ state.proposals, p.terminal = t
  · obtain ⟨p, hp, under⟩ := proposed
    have few := State.length_candidates_le (t := t) free
    have only : ∀ q ∈ state.proposals, q.terminal = t → q.action = p.action := by
      intro q hq there
      have first := State.mem_candidate_actions.mpr ⟨p, hp, under, rfl⟩
      have second := State.mem_candidate_actions.mpr ⟨q, hq, there, rfl⟩
      match hc : state.candidates t, few with
      | [], _ => simp [hc] at first
      | [d], _ =>
        rw [hc] at first second
        simp only [List.map_cons, List.map_nil, List.mem_singleton] at first second
        exact second.trans first.symm
    obtain ⟨verdict, settled, does⟩ := State.settle_of_forall (g := g) only id
    refine ⟨verdict, settled, fun q hq there => ?_⟩
    exact (does ⟨p, hp, under⟩).trans (only q hq there).symm
  · refine ⟨.nothing, ?_, fun p hp under => absurd ⟨p, hp, under⟩ proposed⟩
    exact State.settle_of_not_mem (fun mem => proposed (State.mem_terminals.mp mem)) id

/-- Without conflicts a row has just what is proposed. -/
theorem mem_actions_of_rowOf (free : state.hasConflicts = false)
    (written : ∀ p ∈ state.proposals, p.action ≠ .error) (h : rowOf g state = .ok row)
    {t : Terminal} {a : Action} :
    (t, a) ∈ row.actions ↔ ∃ p ∈ state.proposals, p.terminal = t ∧ p.action = a := by
  obtain ⟨_, _, cells⟩ := of_rowOf h
  obtain ⟨verdict, settled, entry⟩ := cells t
  obtain ⟨verdict', settled', does⟩ := settle_of_hasConflicts (g := g) free state.id t
  cases settled.symm.trans settled'
  rw [entry]
  constructor
  · rintro ⟨rfl, ne⟩
    exact State.exists_proposal_of_settle settled ne
  · rintro ⟨p, hp, under, rfl⟩
    exact ⟨(does p hp under).symm, written p hp⟩

/-- Entries by ascending terminals are determined by which there are. -/
theorem eq_of_mem_entries {l m : List (Terminal × Action)}
    (hl : (l.map Prod.fst).Pairwise fun a b => compare a b = .lt)
    (hm : (m.map Prod.fst).Pairwise fun a b => compare a b = .lt)
    (same : ∀ e, e ∈ l ↔ e ∈ m) : l = m := by
  have nodup {l : List (Terminal × Action)}
      (h : (l.map Prod.fst).Pairwise fun a b => compare a b = .lt) : l.Nodup :=
    List.Nodup.of_map _ (nodup_of_ascending h)
  have perm : l.Perm m := (List.perm_ext_iff_of_nodup (nodup hl) (nodup hm)).mpr same
  refine perm.eq_of_pairwise (fun a b _ _ less more => ?_) (List.pairwise_map.mp hl)
    (List.pairwise_map.mp hm)
  exact absurd (Std.TransCmp.lt_trans less more) (OrderedSet.compare_ne_lt_self a.1)

/-- The rows of matching states without conflicts are the same up to the renaming. -/
theorem row_eq_of_matches (m : state.Matches ρ g state') (free : state.hasConflicts = false)
    (written : ∀ p ∈ state.proposals, p.action ≠ .error) (h : rowOf g state = .ok row)
    (h' : rowOf g' state' = .ok row') : row' = ρ.row row := by
  obtain ⟨gotos, ascending, _⟩ := of_rowOf h
  obtain ⟨gotos', ascending', _⟩ := of_rowOf h'
  have free' : state'.hasConflicts = false := m.hasConflicts_eq.trans free
  have written' : ∀ p' ∈ state'.proposals, p'.action ≠ .error := by
    intro p' hp' silent
    obtain ⟨p, hp, rfl⟩ := (m.proposals p').mp hp'
    exact written p hp (ρ.action_injective silent)
  have entry := @mem_actions_of_rowOf V g state row free written h
  have home (e : Terminal × Action) (he : e ∈ row.actions) : e.1.grammar = g.id := by
    obtain ⟨p, hp, same, _⟩ := entry.mp he
    exact same ▸ m.home p hp
  have actions : row'.actions = (ρ.row row).actions := by
    refine eq_of_mem_entries ascending' ?_ fun entry' => ?_
    · rw [Renaming.row, List.map_map]
      have pairs := List.pairwise_map.mp ascending
      refine List.pairwise_map.mpr (pairs.imp_of_mem fun ha hb less => ?_)
      exact (ρ.compare_terminal ((home _ ha).trans (home _ hb).symm)).trans less
    · obtain ⟨t', a'⟩ := entry'
      rw [mem_actions_of_rowOf free' written' h', Renaming.row, List.mem_map]
      constructor
      · rintro ⟨_, hp', rfl, rfl⟩
        obtain ⟨p, hp, rfl⟩ := (m.proposals _).mp hp'
        exact ⟨(p.terminal, p.action), entry.mpr ⟨p, hp, rfl, rfl⟩, rfl⟩
      · rintro ⟨⟨t, a⟩, he, same⟩
        obtain ⟨p, hp, rfl, rfl⟩ := entry.mp he
        cases same
        exact ⟨ρ.proposal p, (m.proposals _).mpr ⟨p, hp, rfl⟩, rfl, rfl⟩
  obtain ⟨actions₀, gotos₀⟩ := row
  obtain ⟨actions₁, gotos₁⟩ := row'
  simp only [Renaming.row] at gotos gotos' actions
  rw [Renaming.row, actions, gotos', gotos, m.gotos_eq]

theorem goto?_eq_of_matches (m : state.Matches ρ g state') (h : rowOf g state = .ok row)
    (h' : rowOf g' state' = .ok row') {n : NonTerminal} (home : n.grammar = g.id) :
    row'.goto? (ρ.nonTerminal n) = row.goto? n := by
  rw [Row.goto?, Row.goto?, (of_rowOf h).1, (of_rowOf h').1, State.lookup_gotos,
    State.lookup_gotos]
  exact m.target?_eq (x := .nonTerminal n) home

/-- What a table has beside its rows. -/
theorem of_ofCollection {T : Table} (h : ofCollection g c = .ok T) :
    T.initial = 0 ∧ T.terminals = named g .terminal g.symbols.terminals ∧
      T.nonTerminals = named g .nonTerminal (g.symbols.nonTerminals.filter fun n =>
        n ≠ g.start ∨ T.rows.any fun row => (row.goto? g.start).isSome) := by
  unfold ofCollection at h
  cases hr : rowsOf g c with
  | error e => simp [hr, bind, Except.bind] at h
  | ok rows =>
    simp only [hr, bind, Except.bind, pure, Except.pure, Except.ok.injEq] at h
    subst h
    exact ⟨rfl, rfl, rfl⟩

/-- Renamed columns keep their names. -/
theorem named_map (E : g.Embeds ρ g') {α : Type} (wrap : α → Symbol) {move : α → α}
    (moved : ∀ a, wrap (move a) = ρ.symbol (wrap a)) {columns : List α}
    (owned : ∀ a ∈ columns, g.symbols.owns (wrap a) = true) :
    named g' wrap (columns.map move) =
      (named g wrap columns).map fun (a, name) => (move a, name) := by
  rw [named, named, List.map_map, List.map_map]
  refine List.map_congr_left fun a mem => ?_
  simp only [Function.comp, moved a, E.name?_symbol (owned a mem)]

section

variable (E : g.Embeds ρ g') (declarations : g'.symbols.declarations = g.symbols.declarations)
include E declarations

theorem symbols_eq : g'.symbols.symbols = g.symbols.symbols.map ρ.symbol := by
  rw [SymbolTable.symbols, SymbolTable.symbols, declarations, List.map_map]
  refine List.map_congr_left fun declared _ => ?_
  have home : ρ.grammar = g'.symbols.grammar := E.grammar
  simp only [Function.comp, SymbolTable.handle]
  split <;> simp [Renaming.symbol, Renaming.terminal, Renaming.nonTerminal, home]

theorem named_terminals_eq : named g' .terminal g'.symbols.terminals =
    (named g .terminal g.symbols.terminals).map fun (t, name) => (ρ.terminal t, name) := by
  have columns : g'.symbols.terminals = g.symbols.terminals.map ρ.terminal := by
    rw [SymbolTable.terminals, SymbolTable.terminals, symbols_eq E declarations,
      List.filterMap_map, List.map_filterMap]
    exact List.filterMap_congr fun x _ => by cases x <;> rfl
  rw [columns]
  exact named_map E .terminal (fun _ => rfl) fun _ => SymbolTable.owned_of_mem_terminals

theorem named_nonTerminals_eq {shows : Bool} :
    named g' .nonTerminal
        (g'.symbols.nonTerminals.filter fun n => n ≠ g'.start ∨ shows = true) =
      (named g .nonTerminal
        (g.symbols.nonTerminals.filter fun n => n ≠ g.start ∨ shows = true)).map
          fun (n, name) => (ρ.nonTerminal n, name) := by
  have columns : g'.symbols.nonTerminals = g.symbols.nonTerminals.map ρ.nonTerminal := by
    rw [SymbolTable.nonTerminals, SymbolTable.nonTerminals, symbols_eq E declarations,
      List.filterMap_map, List.map_filterMap]
    exact List.filterMap_congr fun x _ => by cases x <;> rfl
  have kept : g'.symbols.nonTerminals.filter (fun n => n ≠ g'.start ∨ shows = true) =
      (g.symbols.nonTerminals.filter fun n => n ≠ g.start ∨ shows = true).map ρ.nonTerminal := by
    rw [columns, List.filter_map, ← E.start_eq]
    congr 1
    refine List.filter_congr fun n mem => ?_
    have home : n.grammar = g.start.grammar :=
      SymbolTable.grammar_of_owns (SymbolTable.owned_of_mem_nonTerminals mem)
    simp only [Function.comp, ne_eq, ρ.nonTerminal_inj home]
  rw [kept]
  exact named_map E .nonTerminal (fun _ => rfl) fun _ mem =>
    SymbolTable.owned_of_mem_nonTerminals (List.mem_of_mem_filter mem)

end

section

variable (E : g.Embeds ρ g') (wf : g.WellFormed) (wf' : g'.WellFormed) (m : c.Matches ρ c')
  {rule rule' : Rule V} (built : c.Built g rule) (built' : c'.Built g' rule')
include E wf wf' m built built'

theorem conflictFree_of_matches (free : c.ConflictFree) : c'.ConflictFree := by
  intro state' mem'
  obtain ⟨id, hs'⟩ := List.mem_iff_getElem?.mp mem'
  cases hs : c.state? id with
  | none => cases (m.state?_eq_none hs).symm.trans hs'
  | some state =>
    obtain ⟨_, hs'', _, matching⟩ := m.states E wf wf' built built' hs
    cases hs'.symm.trans hs''
    rw [matching.hasConflicts_eq]
    exact free state (List.mem_of_getElem? hs)

/-- Row by row the tables of matching collections without conflicts are the same up to the
renaming. -/
theorem row?_of_matches (free : c.ConflictFree) {T T' : Table} (made : ofCollection g c = .ok T)
    (made' : ofCollection g' c' = .ok T') {id : StateId} {row : Row} (here : T.row? id = some row) :
    T'.row? id = some (ρ.row row) ∧ (ρ.row row).goto? g'.start = row.goto? g.start := by
  rcases row?_cases made id with ⟨_, none⟩ | ⟨state, _, hs, there, of⟩
  · cases none.symm.trans here
  · cases there.symm.trans here
    obtain ⟨state', hs', _, matching⟩ := m.states E wf wf' built built' hs
    rcases row?_cases made' id with ⟨none, _⟩ | ⟨_, row', hs'', here', of'⟩
    · cases none.symm.trans hs'
    · cases hs''.symm.trans hs'
      have written : ∀ p ∈ state.proposals, p.action ≠ .error := fun p hp =>
        ((built.mem_proposals_iff hs).mp hp).2.ne_error
      have same := row_eq_of_matches matching (free state (List.mem_of_getElem? hs)) written of of'
      have start := goto?_eq_of_matches matching of of' (n := g.start) rfl
      rw [E.start_eq, same] at start
      exact ⟨same ▸ here', start⟩

/-- Matching collections without conflicts have tables, and these are the same up to the renaming
if the grammars have the same symbols. -/
theorem exists_tables (declarations : g'.symbols.declarations = g.symbols.declarations)
    (free : c.ConflictFree) :
    ∃ T, ofCollection g c = .ok T ∧ ofCollection g' c' = .ok (ρ.table T) := by
  have free' := conflictFree_of_matches E wf wf' m built built' free
  obtain ⟨T, made⟩ := exists_ofCollection (g := g) (c := c) fun id state hs t =>
    (settle_of_hasConflicts (free state (List.mem_of_getElem? hs)) id t).imp fun _ h => h.1
  obtain ⟨T', made'⟩ := exists_ofCollection (g := g') (c := c') fun id state hs t =>
    (settle_of_hasConflicts (free' state (List.mem_of_getElem? hs)) id t).imp fun _ h => h.1
  have each {id : StateId} {row : Row} (here : T.row? id = some row) :=
    row?_of_matches E wf wf' m built built' free made made' here
  have size : T'.size = T.size := by
    rw [size_ofCollection made', size_ofCollection made, m.size_eq]
  have rows : T'.rows = T.rows.map ρ.row := by
    refine List.ext_getElem? fun id => ?_
    rw [List.getElem?_map]
    change T'.row? id = (T.row? id).map ρ.row
    cases here : T.row? id with
    | none => exact List.getElem?_eq_none (size.le.trans (List.getElem?_eq_none_iff.mp here))
    | some row => exact (each here).1
  have shows : (T'.rows.any fun row => (row.goto? g'.start).isSome) =
      T.rows.any fun row => (row.goto? g.start).isSome := by
    rw [rows, List.any_map, Bool.eq_iff_iff, List.any_eq_true, List.any_eq_true]
    refine exists_congr fun row => and_congr_right fun mem => ?_
    obtain ⟨id, here⟩ := List.mem_iff_getElem?.mp mem
    rw [Function.comp, (each here).2]
  have same : T' = ρ.table T := by
    obtain ⟨initial, terminals, nonTerminals⟩ := of_ofCollection made
    obtain ⟨initial', terminals', nonTerminals'⟩ := of_ofCollection made'
    rw [shows, named_nonTerminals_eq E declarations, ← nonTerminals] at nonTerminals'
    rw [named_terminals_eq E declarations, ← terminals] at terminals'
    obtain ⟨_, _, _, _⟩ := T'
    simp only at initial' rows terminals' nonTerminals'
    subst initial' rows terminals' nonTerminals'
    rw [Renaming.table, initial]
  exact ⟨T, made, same ▸ made'⟩

end

end Table

/-! ### Grammars -/

/-- The order in which rules are added decides only their numbers. Of two grammars with the same
symbols and the same rules, added in any order, the second has its rules from the first under new
numbers. Whatever these are, if the first has a proper start rule then so has the second, the two
collections have the same states with the same transitions and conflicts and the items renumbered,
and if there are no conflicts both have tables, the same but for the numbers of the rules. -/
theorem Grammar.rule_order_only_renumbers [SemanticValue V] {b b' : Builder V}
    (authored : b.Authored) (authored' : b'.Authored)
    (declarations : b'.symbols.declarations = b.symbols.declarations)
    (permuted : (b.rules.map (Rule.content b'.symbols.grammar)).Perm
      (b'.rules.map (Rule.content b'.symbols.grammar)))
    {start : Rule V} (checked : b.build.checkStart = .ok start) :
    (∃ ρ, Builder.Renumbers ρ b b') ∧
      ∀ ρ, Builder.Renumbers ρ b b' →
        b'.build.checkStart = .ok (ρ.renumber start) ∧
        ∃ c c', b.build.collection? = .ok c ∧ b'.build.collection? = .ok c' ∧
          c'.size = c.size ∧
          (∀ id state, c.state? id = some state → ∃ state', c'.state? id = some state' ∧
            state'.items = ρ.items state.items ∧
            state'.transitions = state.transitions.map ρ.transition ∧
            state'.hasConflicts = state.hasConflicts) ∧
          (c.ConflictFree →
            ∃ T, b.build.table? = .ok T ∧ b'.build.table? = .ok (ρ.table T)) := by
  refine ⟨Builder.exists_renumbers authored.wellFormed authored'.wellFormed permuted,
    fun ρ renumbers => ?_⟩
  have E := renumbers.embeds authored.wellFormed declarations
  have wf := authored.wellFormed.build
  have wf' := authored'.wellFormed.build
  obtain ⟨c, c', found, found', m, built, built'⟩ := E.exists_collections wf wf' checked
  refine ⟨E.checkStart_eq wf wf' checked, c, c', found, found', m.size_eq, fun id state hs => ?_,
    fun free => ?_⟩
  · obtain ⟨state', hs', items, matching⟩ := m.states E wf wf' built built' hs
    exact ⟨state', hs', items, matching.transitions, matching.hasConflicts_eq⟩
  · obtain ⟨T, made, made'⟩ := Table.exists_tables E wf wf' m built built' declarations free
    refine ⟨T, ?_, ?_⟩
    · rw [table?_eq_of_collection? found, made]
      rfl
    · rw [table?_eq_of_collection? found', made']
      rfl

namespace Reordered

/-- Sums, written from the top. -/
def topDown : Builder Value :=
  Command.runAll
    [.terminal "n", .terminal "+", .nonTerminal "E", .setStart (.name "E") {},
      .rule (.name "E") [.name "E", .name "+", .name "n"] {}, .rule (.name "E") [.name "n"] {}]
    ⟨⟨⟨0⟩, [⟨Builder.defaultStart, .start⟩, ⟨Builder.defaultEos, .eos⟩]⟩, []⟩

/-- The same sums, written from the bottom. -/
def bottomUp : Builder Value :=
  Command.runAll
    [.terminal "n", .terminal "+", .nonTerminal "E", .rule (.name "E") [.name "n"] {},
      .rule (.name "E") [.name "E", .name "+", .name "n"] {}, .setStart (.name "E") {}]
    ⟨⟨⟨1⟩, [⟨Builder.defaultStart, .start⟩, ⟨Builder.defaultEos, .eos⟩]⟩, []⟩

theorem topDown_authored : topDown.Authored :=
  ⟨⟨0⟩, Builder.defaultStart, Builder.defaultEos, _, _, rfl, rfl⟩

theorem bottomUp_authored : bottomUp.Authored :=
  ⟨⟨1⟩, Builder.defaultStart, Builder.defaultEos, _, _, rfl, rfl⟩

def collection : Collection := topDown.build.collection?.toOption.getD .empty

set_option maxRecDepth 2000 in
theorem checked :
    topDown.build.checkStart = .ok ⟨{}, 0, topDown.build.start, [.nonTerminal ⟨⟨0⟩, 4⟩]⟩ := rfl

theorem permuted : (topDown.rules.map (Rule.content ⟨1⟩)).Perm
    (bottomUp.rules.map (Rule.content ⟨1⟩)) := by
  have reversed : bottomUp.rules.map (Rule.content ⟨1⟩) =
      (topDown.rules.map (Rule.content ⟨1⟩)).reverse := rfl
  rw [reversed]
  exact (List.reverse_perm _).symm

theorem sums_renumbered :
    (topDown.rules.map (Rule.content ⟨1⟩)).Perm (bottomUp.rules.map (Rule.content ⟨1⟩)) ∧
      ∃ ρ T, Builder.Renumbers ρ topDown bottomUp ∧ topDown.build.table? = .ok T ∧
        bottomUp.build.table? = .ok (ρ.table T) := by
  obtain ⟨⟨ρ, renumbers⟩, same⟩ :=
    Grammar.rule_order_only_renumbers topDown_authored bottomUp_authored rfl permuted checked
  obtain ⟨_, c, _, found, _, _, _, tables⟩ := same ρ renumbers
  have here : c = collection := by
    rw [collection, found]
    rfl
  have free : collection.ConflictFree := by decide +kernel
  obtain ⟨T, made, made'⟩ := tables (here ▸ free)
  exact ⟨permuted, ρ, T, renumbers, made, made'⟩

end Reordered

end CanonicalLR
