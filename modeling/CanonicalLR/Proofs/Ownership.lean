import CanonicalLR.Proofs.TableContents

/-!
What the collection of a grammar is made of belongs to the grammar: the items of its
states are among those that the rules allow, and the symbols before and after the dots,
the lookaheads and the terminals under which something is proposed are declared in it.
-/
namespace CanonicalLR

variable {V : Type} {g : Grammar V}

namespace SymbolTable

variable {table : SymbolTable}

theorem grammar_of_owns {x : Symbol} (h : table.owns x = true) : x.grammar = table.grammar := by
  obtain ⟨d, _, same⟩ := owns_iff_declared.mp h
  rw [← same, grammar_handle]

theorem owned_of_mem_terminals {t : Terminal} (h : t ∈ table.terminals) :
    table.owns (.terminal t) = true := by
  obtain ⟨x, hx, same⟩ := List.mem_filterMap.mp h
  exact table.owns_iff.mpr (Symbol.terminal?_eq_some.mp same ▸ hx)

theorem owned_of_mem_nonTerminals {n : NonTerminal} (h : n ∈ table.nonTerminals) :
    table.owns (.nonTerminal n) = true := by
  obtain ⟨x, hx, same⟩ := List.mem_filterMap.mp h
  exact table.owns_iff.mpr (Symbol.nonTerminal?_eq_some.mp same ▸ hx)

end SymbolTable

/-! ### Items -/

namespace Grammar.WellFormed

variable (wf : g.WellFormed)
include wf

theorem owned_of_mem_body {id : RuleId} : ∀ x ∈ g.body id, g.symbols.owns x = true := by
  intro x hx
  obtain ⟨r, mem, hx⟩ := g.exists_rule_of_mem_body hx
  exact wf.body_owned r mem x hx

/-- The lookaheads that can appear are terminals of the grammar. -/
theorem lookahead_owned {i : Item} (hi : i ∈ g.items) :
    g.symbols.owns (.terminal i.lookahead) = true := by
  have inBody {t : Terminal} (h : t ∈ Analysis.bodyTerminals g.rules) :
      g.symbols.owns (.terminal t) = true := by
    obtain ⟨r, hr, mem⟩ := Analysis.mem_bodyTerminals.mp h
    exact wf.body_owned r hr _ mem
  obtain ⟨_, _, _, _, mem⟩ := Grammar.mem_items.mp hi
  rcases List.mem_cons.mp mem with ends | mem
  · rw [ends]
    exact wf.eos_owned
  · rcases List.mem_append.mp mem with mem | mem
    · obtain ⟨f, hf, same⟩ := List.mem_map.mp mem
      rw [wf.analysis] at hf
      exact same ▸ inBody (Analysis.firstOf_terminal hf)
    · exact inBody mem

theorem grammar_of_mem_items {i : Item} (hi : i ∈ g.items) : i.lookahead.grammar = g.id :=
  SymbolTable.grammar_of_owns (wf.lookahead_owned hi)

theorem nextSymbols_owned {s : ItemSet} {x : Symbol} (h : x ∈ s.nextSymbols g) :
    g.symbols.owns x = true := by
  obtain ⟨i, _, next⟩ := ItemSet.mem_nextSymbols.mp h
  exact wf.owned_of_mem_body x (List.mem_of_getElem? next)

/-- What an item proposes it proposes under a terminal of the grammar. -/
theorem proposal_owned {i : Item} (hi : i ∈ g.items) {edges : List (Symbol × StateId)}
    {p : Proposal} (proposes : State.proposal? g edges i = some p) :
    g.symbols.owns (.terminal p.terminal) = true := by
  rcases State.proposal?_eq_some.mp proposes with
    ⟨t, _, next, _, rfl⟩ | ⟨_, _, rfl⟩ | ⟨_, _, rfl⟩
  · exact wf.owned_of_mem_body _ (List.mem_of_getElem? next)
  · exact wf.lookahead_owned hi
  · exact wf.lookahead_owned hi

end Grammar.WellFormed

theorem Grammar.close_mem_items {s : ItemSet} (inside : ∀ i ∈ s, i ∈ g.items) :
    ∀ i ∈ s.close g, i ∈ g.items := fun _ hi =>
  ItemSet.close_induction g inside (fun _ hi _ => expansion_mem_items hi) hi

/-- The items whose dots have moved over the symbol. -/
theorem Grammar.WellFormed.moved_mem_items (wf : g.WellFormed) {s : ItemSet}
    (inside : ∀ i ∈ s, i ∈ g.items) (x : Symbol) :
    ∀ i ∈ OrderedSet.ofList (s.toList.filterMap fun i => i.advance? g x), i ∈ g.items := by
  intro j hj
  obtain ⟨i, hi, hj⟩ := List.mem_filterMap.mp (OrderedSet.mem_ofList.mp hj)
  obtain ⟨next, rfl⟩ := Item.advance?_eq_some.mp hj
  exact wf.advance_mem_items (inside i hi) next

/-- The item at the beginning of a rule, before the end of input. -/
theorem Grammar.seed_mem_items {rule : Rule V} (mem : rule ∈ g.rules) :
    ∀ i ∈ (OrderedSet.ofList [⟨rule.id, 0, g.eos⟩] : ItemSet), i ∈ g.items := by
  intro i hi
  have seed : i = ⟨rule.id, 0, g.eos⟩ := by simpa using hi
  rw [seed]
  exact mem_items.mpr ⟨rule, mem, rfl, Nat.zero_le _, by simp [lookaheads]⟩

/-! ### Collections -/

namespace Collection

variable {c : Collection}

/-- All items of the states are among those that the grammar can have. -/
def Inside (g : Grammar V) (c : Collection) : Prop := ∀ s ∈ c.itemSets, ∀ i ∈ s, i ∈ g.items

theorem Sound.inside (wf : g.WellFormed) (sound : Sound g c) : c.Inside g :=
  fun s hs => (sound.reached s hs).inside wf

theorem Inside.of_state? (inside : c.Inside g) {id : StateId} {state : State}
    (at_ : c.state? id = some state) : ∀ i ∈ state.items, i ∈ g.items :=
  inside state.items (List.mem_map_of_mem (List.mem_of_getElem? at_))

/-- Interning a set of items that the grammar can have adds no others. -/
theorem Inside.intern {items : ItemSet} (inside : c.Inside g) (hi : ∀ i ∈ items, i ∈ g.items) :
    (c.intern items).2.Inside g := by
  intro s hs
  rcases mem_itemSets_intern rfl s hs with old | rfl
  · exact inside s old
  · exact hi

namespace Built

variable {rule : Rule V} (built : c.Built g rule) {id : StateId} {state : State}
  (hs : c.state? id = some state)
include built hs

variable (wf : g.WellFormed)
include wf

theorem inside : ∀ i ∈ state.items, i ∈ g.items :=
  (built.reached state.items (List.mem_map_of_mem (List.mem_of_getElem? hs))).inside wf

theorem transition_owned {edge : Symbol × StateId} (he : edge ∈ state.transitions) :
    g.symbols.owns edge.1 = true := by
  have key := List.mem_map_of_mem (f := Prod.fst) he
  rw [(built.visited id state hs).keys] at key
  exact wf.nextSymbols_owned key

/-- Whatever is proposed is proposed under a terminal of the grammar. -/
theorem terminal_owned {t : Terminal} (ht : t ∈ state.terminals) :
    g.symbols.owns (.terminal t) = true := by
  obtain ⟨p, hp, rfl⟩ := State.mem_terminals.mp ht
  rw [(built.visited id state hs).proposals] at hp
  obtain ⟨i, mem, proposes⟩ := State.mem_proposalsOf.mp hp
  exact wf.proposal_owned (built.inside hs wf i mem) proposes

theorem candidate_inside {t : Terminal} {d : Candidate} (mem : d ∈ state.candidates t) :
    d.item ∈ g.items :=
  built.inside hs wf d.item (((built.records hs).items t d mem d.item).mp List.mem_cons_self).1

end Built

end Collection

/-- One that wins over others is among the candidates. -/
theorem State.mem_candidates_of_settle {state : State} {id : StateId} {t : Terminal}
    {verdict : Verdict} (settled : state.settle g id t = .ok verdict) {d : Candidate}
    (won : verdict = .byPriority d ∨ verdict = .byAssociativity d) : d ∈ state.candidates t := by
  have settles := Candidate.settles_of_eq (State.settle_eq_ok_iff.mp settled)
  generalize state.candidates t = cs at settles
  cases settles with
  | nothing => rcases won with won | won <;> cases won
  | unopposed => rcases won with won | won <;> cases won
  | byPriority _ only =>
    obtain won | won := won <;> cases won
    exact Candidate.mem_of_mem_highest (only ▸ List.mem_singleton_self d)
  | byAssociativity _ _ tie =>
    obtain won | won := won <;> cases won
    exact Candidate.mem_of_mem_highest (Candidate.breakTie_mem tie)

/-- Those between which it is open are among the candidates. -/
theorem State.mem_candidates_of_settle_error {state : State} {id : StateId} {t : Terminal}
    {a : Ambiguity} (fails : state.settle g id t = .error a) {d : Candidate}
    (mem : d ∈ a.candidates) : d ∈ state.candidates t := by
  rw [State.settle] at fails
  generalize state.candidates t = cs at fails
  cases found : Candidate.settle g cs with
  | ok verdict =>
    rw [found] at fails
    cases fails
  | error open_ =>
    rw [found] at fails
    cases fails
    cases Candidate.settles_of_eq found
    exact Candidate.mem_of_mem_highest mem

end CanonicalLR
