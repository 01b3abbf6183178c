import CanonicalLR.Proofs.Representatives
import CanonicalLR.Proofs.Texts

/-!
Under a terminal with several actions a state either has a reason to do one of them, or
reports an ambiguity and does nothing. What counts are the representatives of the
actions. Those remain that have the highest priority, or all if one has none, and of
these one has to be alone or beyond all others. An ambiguity shows all that remain,
each with the number of the other items that ask for the same.
-/
namespace CanonicalLR

variable {V : Type} {g : Grammar V} {c : Collection} {items : ItemSet} {i : Item} {t : Terminal}
  {a : Action}

/-! ### Which items decide -/

/-- All rules of representatives have priorities. -/
def ItemSet.Prioritized (g : Grammar V) (c : Collection) (items : ItemSet) (t : Terminal) : Prop :=
  ∀ (i : Item) (a : Action), i.Represents g c items t a → ∃ p, g.priority? i.rule = some p

/-- The item represents the action, and no other representative has a higher priority if all of
them have one. -/
structure Item.Remains (g : Grammar V) (c : Collection) (items : ItemSet) (i : Item)
    (t : Terminal) (a : Action) : Prop where
  represents : i.Represents g c items t a
  highest : items.Prioritized g c t → ∃ p, g.priority? i.rule = some p ∧
    ∀ (j : Item) (b : Action), j.Represents g c items t b → ∃ q ≤ p, g.priority? j.rule = some q

/-- All representatives have priorities, and of those that remain this one is alone, or they all
have one associativity, by which its dot is beyond the others. -/
structure Item.Prevails (g : Grammar V) (c : Collection) (items : ItemSet) (i : Item)
    (t : Terminal) (a : Action) : Prop where
  remains : i.Remains g c items t a
  prioritized : items.Prioritized g c t
  preferred : (∀ (j : Item) (b : Action), j.Remains g c items t b → b = a) ∨
    ∃ side, (∀ (j : Item) (b : Action), j.Remains g c items t b →
        g.associativity? j.rule = some side) ∧
      ∀ (j : Item) (b : Action), j.Remains g c items t b → b ≠ a →
        side.Beyond i.position j.position

/-- How many items other than this one ask for the action. -/
def ItemSet.others (g : Grammar V) (c : Collection) (items : ItemSet) (i : Item) (t : Terminal)
    (a : Action) : Nat :=
  items.toList.countP fun j => j ≠ i ∧ j.Asks g c items t a

/-- The ambiguity is that of the state with this number under the terminal: it has all actions whose
representatives remain, once each and in the order of these, and shows how many other items ask for
the same. -/
structure Ambiguity.Reports (g : Grammar V) (c : Collection) (id : StateId) (items : ItemSet)
    (t : Terminal) (e : Ambiguity) : Prop where
  state : e.state = id
  terminal : e.terminal = t
  named : ∃ name, g.symbols.name? (.terminal t) = some name
  several : 1 < e.candidates.length
  remaining : ∀ (i : Item) (a : Action),
    (∃ d ∈ e.candidates, d.item = i ∧ d.action = a) ↔ i.Remains g c items t a
  distinct : (e.candidates.map Candidate.action).Nodup
  ordered : (e.candidates.map Candidate.item).Pairwise fun i j => compare i j = .lt
  shown : ∀ d ∈ e.candidates, ∃ item, d.item.text? g = some item ∧
    let others := items.others g c d.item t d.action
    d.text? g = some (item ++ " => " ++ d.action.text ++
      if others = 0 then "" else " (+" ++ toString others ++ " duplicate)")

/-! ### The order of the candidates -/

namespace Candidate

theorem map_item_add (cs : List Candidate) (p : Proposal) :
    (add cs p).map item = cs.map item ∨ (add cs p).map item = cs.map item ++ [p.item] := by
  induction cs with
  | nil => exact .inr rfl
  | cons d cs ih =>
    unfold add
    split
    · exact .inl rfl
    · simpa using ih

/-- The candidates stand in the order of their items among the proposals. -/
theorem map_item_sublist (ps : List Proposal) :
    ((ofProposals ps).map item).Sublist (ps.map Proposal.item) := by
  induction ps using List.reverseRecOn with
  | nil => exact .slnil
  | append_singleton ps p ih =>
    rw [ofProposals_concat, List.map_append]
    rcases map_item_add (ofProposals ps) p with same | more
    · rw [same]
      exact ih.trans (List.sublist_append_left _ _)
    · rw [more]
      exact ih.append (List.Sublist.refl _)

end Candidate

/-! ### Candidates and representatives -/

namespace State.Records

variable {state : State} (h : state.Records g c)
include h

theorem represents_iff : i.Represents g c state.items t a ↔
    ∃ d ∈ state.candidates t, d.item = i ∧ d.action = a := by
  constructor
  · intro rep
    obtain ⟨d, mem, same, rep'⟩ := h.exists_candidate rep.mem rep.asks
    exact ⟨d, mem, rep'.unique rep, same⟩
  · rintro ⟨d, mem, rfl, rfl⟩
    exact h.represents mem

theorem prioritized_iff :
    state.items.Prioritized g c t ↔ Candidate.Prioritized g (state.candidates t) := by
  constructor
  · exact fun ranked d mem => ranked d.item d.action (h.represents mem)
  · intro ranked i a rep
    obtain ⟨d, mem, rfl, _⟩ := h.represents_iff.mp rep
    exact ranked d mem

theorem remains_iff : i.Remains g c state.items t a ↔
    ∃ d ∈ Candidate.highest g (state.candidates t), d.item = i ∧ d.action = a := by
  constructor
  · rintro ⟨rep, above⟩
    obtain ⟨d, mem, rfl, rfl⟩ := h.represents_iff.mp rep
    refine ⟨d, Candidate.mem_highest_iff.mpr ⟨mem, fun ranked => ?_⟩, rfl, rfl⟩
    obtain ⟨p, hp, above⟩ := above (h.prioritized_iff.mpr ranked)
    exact ⟨p, hp, fun e he => above e.item e.action (h.represents he)⟩
  · rintro ⟨d, mem, rfl, rfl⟩
    obtain ⟨mem, above⟩ := Candidate.mem_highest_iff.mp mem
    refine ⟨h.represents mem, fun ranked => ?_⟩
    obtain ⟨p, hp, above⟩ := above (h.prioritized_iff.mp ranked)
    refine ⟨p, hp, fun j b rep => ?_⟩
    obtain ⟨e, he, rfl, _⟩ := h.represents_iff.mp rep
    exact above e he

theorem prevails_iff : i.Prevails g c state.items t a ↔
    ∃ d, Candidate.Prevails g (state.candidates t) d ∧ d.item = i ∧ d.action = a := by
  -- among the candidates of the state an action stands for its candidate
  have same {d e : Candidate} (hd : d ∈ Candidate.highest g (state.candidates t))
      (he : e ∈ Candidate.highest g (state.candidates t)) : e = d ↔ e.action = d.action :=
    ⟨congrArg _, List.inj_on_of_nodup_map (h.distinct t) (Candidate.mem_of_mem_highest he)
      (Candidate.mem_of_mem_highest hd)⟩
  constructor
  · rintro ⟨remains, ranked, preferred⟩
    obtain ⟨d, mem, rfl, rfl⟩ := h.remains_iff.mp remains
    have left {e : Candidate} (he : e ∈ Candidate.highest g (state.candidates t)) :
        e.item.Remains g c state.items t e.action := h.remains_iff.mpr ⟨e, he, rfl, rfl⟩
    refine ⟨d, ⟨mem, h.prioritized_iff.mp ranked, ?_⟩, rfl, rfl⟩
    rcases preferred with alone | ⟨side, sided, beyond⟩
    · exact .inl fun e he => (same mem he).mpr (alone e.item e.action (left he))
    · refine .inr ⟨side, fun e he => sided e.item e.action (left he), fun e he other => ?_⟩
      exact beyond e.item e.action (left he) (mt (same mem he).mpr other)
  · rintro ⟨d, ⟨mem, ranked, preferred⟩, rfl, rfl⟩
    refine ⟨h.remains_iff.mpr ⟨d, mem, rfl, rfl⟩, h.prioritized_iff.mpr ranked, ?_⟩
    rcases preferred with alone | ⟨side, sided, beyond⟩
    · refine .inl fun j b remains => ?_
      obtain ⟨e, he, rfl, rfl⟩ := h.remains_iff.mp remains
      rw [alone e he]
    · refine .inr ⟨side, fun j b remains => ?_, fun j b remains other => ?_⟩
      · obtain ⟨e, he, rfl, rfl⟩ := h.remains_iff.mp remains
        exact sided e he
      · obtain ⟨e, he, rfl, rfl⟩ := h.remains_iff.mp remains
        exact beyond e he (mt (same mem he).mp other)

/-- The duplicates of a candidate are the other items that ask for its action. -/
theorem length_duplicates {d : Candidate} (mem : d ∈ state.candidates t) :
    d.duplicates.length = state.items.others g c d.item t d.action := by
  have distinct : (d.item :: d.duplicates).Nodup := state.items.nodup.sublist (h.order t d mem)
  obtain ⟨apart, rest⟩ := List.nodup_cons.mp distinct
  rw [ItemSet.others, List.countP_eq_length_filter]
  refine List.Perm.length_eq ((List.perm_ext_iff_of_nodup rest (state.items.nodup.filter _)).mpr
    fun j => ?_)
  have asks : j = d.item ∨ j ∈ d.duplicates ↔
      j ∈ state.items ∧ j.Asks g c state.items t d.action :=
    List.mem_cons.symm.trans (h.items t d mem j)
  simp only [List.mem_filter, decide_eq_true_eq]
  constructor
  · intro dup
    obtain ⟨here, same⟩ := asks.mp (.inr dup)
    exact ⟨here, fun first => apart (first ▸ dup), same⟩
  · rintro ⟨here, other, same⟩
    exact (asks.mpr ⟨here, same⟩).resolve_left other

end State.Records

namespace Collection.Built

variable {rule : Rule V} {id : StateId} {state : State} (built : c.Built g rule)
  (hs : c.state? id = some state)
include built hs

/-- The candidates of a state stand in the order of their items. -/
theorem ordered_candidates :
    ((state.candidates t).map Candidate.item).Pairwise fun i j => compare i j = .lt := by
  refine state.items.ascending.sublist ((Candidate.map_item_sublist _).trans ?_)
  exact (List.filter_sublist.map _).trans (built.sublist_items hs)

/-- Between several actions a state does just the one whose representative prevails. -/
theorem settle_eq_ok_iff (opposed : state.items.Opposed g c t) :
    (state.settle g id t).map Verdict.action = .ok a ↔
      ∃ i : Item, i.Prevails g c state.items t a := by
  have records := built.records hs
  have several := records.several_of_opposed opposed
  have distinct := state.distinct_candidates t
  have settles {d : Candidate} (wins : Candidate.Prevails g (state.candidates t) d) :
      (state.settle g id t).map Verdict.action = .ok d.action := by
    obtain ⟨verdict, settled, does⟩ := wins.settle distinct several
    rw [State.settle_eq_ok_iff.mpr settled, ← does]
    rfl
  constructor
  · intro done
    by_cases decided : ∃ d, Candidate.Prevails g (state.candidates t) d
    · obtain ⟨d, wins⟩ := decided
      cases (settles wins).symm.trans done
      exact ⟨d.item, records.prevails_iff.mpr ⟨d, wins, rfl, rfl⟩⟩
    · have fails := (Candidate.settle_eq_error distinct several (not_exists.mp decided)).1
      rw [State.settle, fails] at done
      cases done
  · rintro ⟨i, prevails⟩
    obtain ⟨d, wins, _, rfl⟩ := records.prevails_iff.mp prevails
    exact settles wins

variable (wf : g.WellFormed) (heads : ∀ r ∈ g.rules, g.symbols.owns (.nonTerminal r.head) = true)
include wf heads

/-- A candidate is shown with the number of the other items that ask for its action. -/
theorem exists_text?_candidate {d : Candidate} (mem : d ∈ state.candidates t) :
    ∃ item, d.item.text? g = some item ∧
      let others := state.items.others g c d.item t d.action
      d.text? g = some (item ++ " => " ++ d.action.text ++
        if others = 0 then "" else " (+" ++ toString others ++ " duplicate)") := by
  obtain ⟨item, shown⟩ := Item.exists_text? wf heads (built.candidate_inside hs wf mem)
  refine ⟨item, shown, ?_⟩
  rw [Candidate.text?, shown, (built.records hs).length_duplicates mem]
  rfl

/-- Where none prevails the state reports the ambiguity. -/
theorem exists_reports (opposed : state.items.Opposed g c t)
    (undecided : ¬∃ (i : Item) (a : Action), i.Prevails g c state.items t a) :
    ∃ e, state.settle g id t = .error e ∧ e.Reports g c id state.items t := by
  have records := built.records hs
  obtain ⟨fails, several⟩ := Candidate.settle_eq_error
    (state.distinct_candidates t) (records.several_of_opposed opposed)
    fun d wins => undecided ⟨d.item, d.action, records.prevails_iff.mpr ⟨d, wins, rfl, rfl⟩⟩
  have left : (Candidate.highest g (state.candidates t)).Sublist (state.candidates t) :=
    Candidate.highest_sublist
  obtain ⟨i, hi, _, _, a, _, asks, _, _⟩ := opposed
  have proposed : t ∈ state.terminals :=
    State.mem_terminals.mpr ⟨⟨t, i, a⟩, (built.mem_proposals_iff hs).mpr ⟨hi, asks⟩, rfl⟩
  refine ⟨⟨id, t, Candidate.highest g (state.candidates t)⟩, by rw [State.settle, fails]; rfl, ?_⟩
  exact
    { state := rfl
      terminal := rfl
      named := SymbolTable.exists_name? (built.terminal_owned hs wf proposed)
      several := several
      remaining := fun i a => records.remains_iff.symm
      distinct := (records.distinct t).sublist (left.map _)
      ordered := (built.ordered_candidates hs).sublist (left.map _)
      shown := fun d mem => built.exists_text?_candidate hs wf heads (left.subset mem) }

end Collection.Built

/-- In a state of a collection that is built once, where more than one action is asked for under a
terminal, an action is done just if its representative prevails. In every other case the state
reports an ambiguity with all that remain. -/
theorem Grammar.settles_or_reports [SemanticValue V] {b : Builder V} (authored : b.Authored)
    {initial c : Collection} (first : b.build.initialCollection? = .ok initial)
    (once : c = initial.build b.build) {id : StateId} {state : State}
    (hs : c.state? id = some state) {t : Terminal} (opposed : state.items.Opposed b.build c t) :
    (∀ a, (state.settle b.build id t).map Verdict.action = .ok a ↔
      ∃ i : Item, i.Prevails b.build c state.items t a) ∧
    ((¬∃ (i : Item) (a : Action), i.Prevails b.build c state.items t a) →
      ∃ e, state.settle b.build id t = .error e ∧ e.Reports b.build c id state.items t) := by
  have wf := authored.wellFormed.build
  obtain ⟨rule, head, rfl⟩ := Grammar.initialCollection?_eq_ok_iff.mp first
  have built : c.Built b.build rule := once ▸ Collection.built_initial wf head
  exact ⟨fun a => built.settle_eq_ok_iff hs opposed,
    built.exists_reports hs wf authored.wellFormed.head_owned opposed⟩

namespace Undecided

/-- Sums whose rule has a priority, but no associativity. -/
def builder : Builder Value :=
  Command.runAll
    [.terminal "+", .terminal "n", .nonTerminal "E", .setStart (.name "E") {},
      .rule (.name "E") [.name "E", .name "+", .name "E"] { priority := some 0 },
      .rule (.name "E") [.name "n"] {}]
    ⟨⟨⟨0⟩, [⟨Builder.defaultStart, .start⟩, ⟨Builder.defaultEos, .eos⟩]⟩, []⟩

theorem authored : builder.Authored :=
  ⟨⟨0⟩, Builder.defaultStart, Builder.defaultEos, _, _, rfl, rfl⟩

def startRule : Rule Value := ⟨{}, 0, builder.build.start, [.nonTerminal ⟨⟨0⟩, 4⟩]⟩

def initial : Collection := .initial builder.build startRule

def collection : Collection := initial.build builder.build

def state : State := (collection.state? 4).getD (.ofItems 4 ∅)

def plus : Terminal := ⟨⟨0⟩, 2⟩

/-- The state after `E + E`. -/
theorem state?_eq : collection.state? 4 = some state := by
  have there : (collection.state? 4).isSome := by decide +kernel
  exact (Option.some_get there).symm.trans (congrArg some (Option.get_eq_getD _))

theorem opposed : state.items.Opposed builder.build collection plus :=
  ⟨⟨1, 1, plus⟩, by decide +kernel, ⟨1, 3, plus⟩, by decide +kernel, .shift 3, .reduce 1,
    by decide +kernel, by decide +kernel, nofun⟩

/-- To shift is asked for before the end of input and before a `+`, to reduce only before a `+`. -/
def ambiguity : Ambiguity :=
  ⟨4, plus, [⟨⟨1, 1, builder.build.eos⟩, .shift 3, [⟨1, 1, plus⟩]⟩, ⟨⟨1, 3, plus⟩, .reduce 1, []⟩]⟩

theorem settled : state.settle builder.build 4 plus = .error ambiguity := by
  decide +kernel

theorem sum_reported :
    ambiguity.Reports builder.build collection 4 state.items plus ∧
      ambiguity.candidates.mapM (Candidate.text? builder.build) =
        some ["[(1) E -> E • + E, <eos>] => s3 (+1 duplicate)", "[(1) E -> E + E •, +] => r1"] := by
  obtain ⟨done, reports⟩ := Grammar.settles_or_reports authored rfl rfl state?_eq opposed
  have undecided : ¬∃ (i : Item) (a : Action),
      i.Prevails builder.build collection state.items plus a := by
    rintro ⟨i, a, prevails⟩
    have wins := (done a).mpr ⟨i, prevails⟩
    rw [settled] at wins
    cases wins
  obtain ⟨e, fails, report⟩ := reports undecided
  cases settled.symm.trans fails
  exact ⟨report, by decide +kernel⟩

end Undecided

end CanonicalLR
