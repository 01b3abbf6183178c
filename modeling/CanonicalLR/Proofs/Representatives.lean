import CanonicalLR.Proofs.TableContents

/-!
Of the items of a state that ask for one action the least speaks for all of them. The
candidate for the action has its rule, so its priority is the one that counts; what
others that ask for the same have is not looked at.
-/
namespace CanonicalLR

variable {V : Type} {g : Grammar V} {c : Collection} {items : ItemSet} {i j : Item}
  {t : Terminal} {a : Action}

/-- The item is the least of those that ask for the action. -/
structure Item.Represents (g : Grammar V) (c : Collection) (items : ItemSet) (i : Item)
    (t : Terminal) (a : Action) : Prop where
  mem : i ∈ items
  asks : i.Asks g c items t a
  least : ∀ j ∈ items, j.Asks g c items t a → j = i ∨ compare i j = .lt

/-- Different actions are asked for under the terminal. -/
def ItemSet.Opposed (g : Grammar V) (c : Collection) (items : ItemSet) (t : Terminal) : Prop :=
  ∃ i ∈ items, ∃ j ∈ items, ∃ a b, i.Asks g c items t a ∧ j.Asks g c items t b ∧ a ≠ b

/-- Whatever asks for an action under the terminal has a rule with a priority. -/
def ItemSet.Ranked (g : Grammar V) (c : Collection) (items : ItemSet) (t : Terminal) : Prop :=
  ∀ i ∈ items, ∀ a, i.Asks g c items t a → ∃ p, g.priority? i.rule = some p

theorem Item.Represents.unique (hi : i.Represents g c items t a) (hj : j.Represents g c items t a) :
    i = j := by
  rcases hi.least j hj.mem hj.asks with same | less
  · exact same.symm
  · rcases hj.least i hi.mem hi.asks with same | more
    · exact same
    · exact absurd (Std.TransCmp.lt_trans less more) (OrderedSet.compare_ne_lt_self i)

namespace State.Records

variable {state : State} (h : state.Records g c)
include h

/-- The item of a candidate represents its action. -/
theorem represents {d : Candidate} (mem : d ∈ state.candidates t) :
    d.item.Represents g c state.items t d.action := by
  obtain ⟨here, asks⟩ := (h.items t d mem d.item).mp List.mem_cons_self
  refine ⟨here, asks, fun j hj asks => ?_⟩
  have ascending := state.items.ascending.sublist (h.order t d mem)
  rcases List.mem_cons.mp ((h.items t d mem j).mpr ⟨hj, asks⟩) with same | later
  · exact .inl same
  · exact .inr ((List.pairwise_cons.mp ascending).1 j later)

/-- Each action that is asked for has one item that represents it, that of its candidate. -/
theorem exists_candidate (hi : i ∈ state.items) (asks : i.Asks g c state.items t a) :
    ∃ d ∈ state.candidates t, d.action = a ∧ d.item.Represents g c state.items t a := by
  obtain ⟨d, mem, rfl⟩ := List.mem_map.mp ((h.actions t a).mpr ⟨i, hi, asks⟩)
  exact ⟨d, mem, rfl, h.represents mem⟩

theorem several_of_opposed (opposed : state.items.Opposed g c t) :
    1 < (state.candidates t).length := by
  obtain ⟨i, hi, j, hj, a, b, ask, ask', different⟩ := opposed
  obtain ⟨d, hd, rfl, _⟩ := h.exists_candidate hi ask
  obtain ⟨e, he, rfl, _⟩ := h.exists_candidate hj ask'
  exact one_lt_length_of_mem hd he fun same => different (congrArg Candidate.action same)

/-- What is settled on against other actions is asked for by an item whose priority no other
representative exceeds. -/
theorem representative_of_settle (opposed : state.items.Opposed g c t)
    (ranked : state.items.Ranked g c t) {id : StateId} {verdict : Verdict}
    (settled : state.settle g id t = .ok verdict) :
    ∃ (i : Item) (p : Int), i.Represents g c state.items t verdict.action ∧
      g.priority? i.rule = some p ∧ ∀ (j : Item) (a : Action),
        j.Represents g c state.items t a → ∃ q ≤ p, g.priority? j.rule = some q := by
  have priorities : ∀ d ∈ state.candidates t, ∃ p, d.priority? g = some p := fun d hd =>
    have rep := h.represents hd
    ranked d.item rep.mem d.action rep.asks
  obtain ⟨d, wins, does⟩ := Candidate.exists_prevails_of_settle (state.distinct_candidates t)
    (h.several_of_opposed opposed) (State.settle_eq_ok_iff.mp settled)
  obtain ⟨p, hp, above⟩ := Candidate.le_of_mem_highest priorities wins.mem
  refine ⟨d.item, p, does ▸ h.represents (Candidate.mem_of_mem_highest wins.mem), hp, fun j a hj => ?_⟩
  obtain ⟨e, he, _, rep⟩ := h.exists_candidate hj.mem hj.asks
  rw [hj.unique rep]
  exact above e he

end State.Records

/-- In a state of a collection that is built once, where more than one action is asked for under a
terminal, and only by items whose rules have priorities: if the state settles, the least item that
asks for what it settles on has the highest priority among the least items that ask for one action
each. It has the highest priority of all items that ask for something if none has a higher priority
than the least item that asks for the same. -/
theorem Grammar.representative_has_highest_priority [SemanticValue V] {b : Builder V}
    (authored : b.Authored) {initial c : Collection}
    (first : b.build.initialCollection? = .ok initial) (once : c = initial.build b.build)
    {id : StateId} {state : State} (hs : c.state? id = some state) {t : Terminal}
    (opposed : state.items.Opposed b.build c t) (ranked : state.items.Ranked b.build c t)
    {verdict : Verdict} (settled : state.settle b.build id t = .ok verdict) :
    ∃ (i : Item) (p : Int), i.Represents b.build c state.items t verdict.action ∧
      b.build.priority? i.rule = some p ∧
      (∀ (j : Item) (a : Action), j.Represents b.build c state.items t a →
        ∃ q ≤ p, b.build.priority? j.rule = some q) ∧
      ((∀ (j : Item) (a : Action), j.Represents b.build c state.items t a →
          ∀ k ∈ state.items, k.Asks b.build c state.items t a → ∀ q r,
            b.build.priority? j.rule = some q → b.build.priority? k.rule = some r → r ≤ q) →
        ∀ k ∈ state.items, ∀ a, k.Asks b.build c state.items t a →
          ∃ q ≤ p, b.build.priority? k.rule = some q) := by
  have wf := authored.wellFormed.build
  obtain ⟨rule, head, rfl⟩ := Grammar.initialCollection?_eq_ok_iff.mp first
  have built : c.Built b.build rule := once ▸ Collection.built_initial wf head
  have records := built.records hs
  obtain ⟨i, p, rep, hp, above⟩ := records.representative_of_settle opposed ranked settled
  refine ⟨i, p, rep, hp, above, fun none k hk a asks => ?_⟩
  obtain ⟨d, _, _, rep'⟩ := records.exists_candidate hk asks
  obtain ⟨q, le, hq⟩ := above d.item a rep'
  obtain ⟨r, hr⟩ := ranked k hk a asks
  exact ⟨r, (none d.item a rep' k hk asks q r hq hr).trans le, hr⟩

namespace Merged

/-- After an `a` two rules ask to shift a `t`, the first with the lowest priority and the second with
the highest, and one with a priority in between asks to reduce. -/
def builder : Builder Value :=
  Command.runAll
    [.terminal "a", .terminal "t", .terminal "u", .nonTerminal "S", .nonTerminal "C",
      .setStart (.name "S") {},
      .rule (.name "S") [.name "a", .name "t"] { priority := some 0 },
      .rule (.name "S") [.name "a", .name "t", .name "u"] { priority := some 5 },
      .rule (.name "S") [.name "C", .name "t"] {},
      .rule (.name "C") [.name "a"] { priority := some 3 }]
    ⟨⟨⟨0⟩, [⟨Builder.defaultStart, .start⟩, ⟨Builder.defaultEos, .eos⟩]⟩, []⟩

theorem authored : builder.Authored :=
  ⟨⟨0⟩, Builder.defaultStart, Builder.defaultEos, _, _, rfl, rfl⟩

def initial : Collection := builder.build.initialCollection?.toOption.getD .empty

def collection : Collection := initial.build builder.build

def state : State := (collection.state? 1).getD (.ofItems 1 ∅)

def next : Terminal := ⟨⟨0⟩, 3⟩

def shorter : Item := ⟨1, 1, builder.build.eos⟩

def longer : Item := ⟨2, 1, builder.build.eos⟩

def reduced : Item := ⟨4, 1, next⟩

theorem initial_eq : builder.build.initialCollection? = .ok initial := by
  have made : builder.build.initialCollection?.isOk := by decide +kernel
  obtain ⟨c, found⟩ := exists_eq_ok made
  rw [initial, found]
  rfl

theorem state?_eq : collection.state? 1 = some state := by
  have there : (collection.state? 1).isSome := by decide +kernel
  obtain ⟨s, found⟩ := Option.isSome_iff_exists.mp there
  rw [state, found]
  rfl

theorem proposals_eq : state.proposals.filter (fun p => p.terminal = next) =
    [⟨next, shorter, .shift 4⟩, ⟨next, longer, .shift 4⟩, ⟨next, reduced, .reduce 4⟩] := by
  decide +kernel

/-- What is asked for under `t`. -/
theorem asks_iff {i : Item} {a : Action} :
    i ∈ state.items ∧ i.Asks builder.build collection state.items next a ↔
      (i = shorter ∧ a = .shift 4) ∨ (i = longer ∧ a = .shift 4) ∨ i = reduced ∧ a = .reduce 4 := by
  have wf := authored.wellFormed.build
  obtain ⟨rule, head, same⟩ := Grammar.initialCollection?_eq_ok_iff.mp initial_eq
  have built : collection.Built builder.build rule := by
    rw [collection, same]
    exact Collection.built_initial wf head
  have mem : (⟨next, i, a⟩ : Proposal) ∈ state.proposals ↔
      (⟨next, i, a⟩ : Proposal) ∈ state.proposals.filter fun p => p.terminal = next := by
    simp [List.mem_filter]
  rw [← built.mem_proposals_iff state?_eq (p := ⟨next, i, a⟩), mem, proposals_eq]
  simp

theorem opposed : state.items.Opposed builder.build collection next := by
  obtain ⟨mem, asks⟩ := asks_iff.mpr (.inl ⟨rfl, rfl⟩)
  obtain ⟨mem', asks'⟩ := asks_iff.mpr (.inr (.inr ⟨rfl, rfl⟩))
  exact ⟨_, mem, _, mem', _, _, asks, asks', nofun⟩

theorem priorities :
    builder.build.priority? shorter.rule = some 0 ∧ builder.build.priority? longer.rule = some 5 ∧
      builder.build.priority? reduced.rule = some 3 := by
  decide +kernel

theorem ranked : state.items.Ranked builder.build collection next := by
  intro i hi a asks
  rcases asks_iff.mp ⟨hi, asks⟩ with ⟨rfl, _⟩ | ⟨rfl, _⟩ | ⟨rfl, _⟩
  · exact ⟨0, priorities.1⟩
  · exact ⟨5, priorities.2.1⟩
  · exact ⟨3, priorities.2.2⟩

theorem settled :
    state.settle builder.build 1 next = .ok (.byPriority ⟨reduced, .reduce 4, []⟩) := by
  decide +kernel

/-- The reduction is settled on, which only the rule in between asks for. -/
theorem highest_priority_loses :
    builder.Authored ∧ builder.build.initialCollection? = .ok initial ∧
    collection = initial.build builder.build ∧ collection.state? 1 = some state ∧
    state.items.Opposed builder.build collection next ∧
    state.items.Ranked builder.build collection next ∧
    ∃ verdict, state.settle builder.build 1 next = .ok verdict ∧
      ¬∃ i ∈ state.items, i.Asks builder.build collection state.items next verdict.action ∧
        ∃ p, builder.build.priority? i.rule = some p ∧
          ∀ j ∈ state.items, ∀ a, j.Asks builder.build collection state.items next a →
            ∃ q ≤ p, builder.build.priority? j.rule = some q := by
  refine ⟨authored, initial_eq, rfl, state?_eq, opposed, ranked, _, settled, ?_⟩
  rintro ⟨i, hi, asks, p, hp, above⟩
  have only : i = reduced := by
    rcases asks_iff.mp ⟨hi, asks⟩ with ⟨_, same⟩ | ⟨_, same⟩ | ⟨same, _⟩
    · cases same
    · cases same
    · exact same
  obtain ⟨mem, asks'⟩ := asks_iff.mpr (.inr (.inl ⟨rfl, rfl⟩))
  obtain ⟨q, le, hq⟩ := above longer mem _ asks'
  rw [only, priorities.2.2] at hp
  rw [priorities.2.1] at hq
  cases hp
  cases hq
  exact absurd le (by decide)

/-- The priority that counts for the shift is that of the shorter rule. -/
theorem reduction_represents :
    ∃ (i : Item) (p : Int), i.Represents builder.build collection state.items next (.reduce 4) ∧
      builder.build.priority? i.rule = some p ∧
      ∀ (j : Item) (a : Action), j.Represents builder.build collection state.items next a →
        ∃ q ≤ p, builder.build.priority? j.rule = some q := by
  obtain ⟨i, p, rep, hp, above, _⟩ := Grammar.representative_has_highest_priority authored
    initial_eq rfl state?_eq opposed ranked settled
  exact ⟨i, p, rep, hp, above⟩

end Merged

end CanonicalLR
