import CanonicalLR.Proofs.Preferences

/-!
When conflicts are settled. All that counts of a candidate is its bid: the rule, the
place of the dot, and the action. Where two bids are made under a terminal, one of them
is done just if it beats the other by priority, or by associativity and the place of the
dot. If everything is settled in every state there is a table.
-/
namespace CanonicalLR

variable {V : Type} {g : Grammar V}

/-- The action that an item asks for, with what decides whether it is preferred to others. -/
structure Bid where
  rule : RuleId
  position : Nat
  action : Action

def Proposal.bid (p : Proposal) : Bid := ⟨p.item.rule, p.item.position, p.action⟩

/-- All items that ask for the action. -/
def Candidate.items (c : Candidate) : List Item := c.item :: c.duplicates

def Candidate.bid (c : Candidate) : Bid := ⟨c.item.rule, c.item.position, c.action⟩

/-- The first bid is preferred to the second: its rule has the higher priority, or both rules have
the same priority and the same associativity, and by this the place in the first is preferred. -/
def Bid.Beats (g : Grammar V) (a b : Bid) : Prop :=
  ∃ p q, g.priority? a.rule = some p ∧ g.priority? b.rule = some q ∧
    (q < p ∨ q = p ∧ ∃ side, g.associativity? a.rule = some side ∧
      g.associativity? b.rule = some side ∧ side.Beyond a.position b.position)

namespace Candidate

variable {c d : Candidate} {p : Proposal} {cs : List Candidate} {ps : List Proposal}

/-! ### The candidates under a terminal -/

theorem nodup_add (distinct : (cs.map action).Nodup) : ((add cs p).map action).Nodup := by
  induction cs with
  | nil => simp [add]
  | cons c cs ih =>
    obtain ⟨fresh, rest⟩ := List.nodup_cons.mp distinct
    unfold add
    by_cases same : c.action = p.action
    · rw [if_pos same]
      exact distinct
    · rw [if_neg same]
      refine List.nodup_cons.mpr ⟨fun mem => ?_, ih rest⟩
      rcases mem_actions_add.mp mem with mem | mem
      · exact fresh mem
      · exact same mem

/-- There is one candidate for each action. -/
theorem nodup_ofProposals (ps : List Proposal) : ((ofProposals ps).map action).Nodup := by
  have general (cs : List Candidate) (distinct : (cs.map action).Nodup) :
      ((ps.foldl add cs).map action).Nodup := by
    induction ps generalizing cs with
    | nil => exact distinct
    | cons p ps ih => exact ih _ (nodup_add distinct)
  exact general [] List.nodup_nil

/-- Counting a proposal leaves the candidates for other actions as they are. Its item goes behind
those of the candidate for its own action, or becomes a candidate if there is none. -/
theorem mem_add (distinct : (cs.map action).Nodup) (mem : c ∈ add cs p) :
    (c ∈ cs ∧ c.action ≠ p.action) ∨
      (∃ d ∈ cs, d.action = p.action ∧ c = { d with duplicates := d.duplicates ++ [p.item] }) ∨
      (p.action ∉ cs.map action ∧ c = ⟨p.item, p.action, []⟩) := by
  induction cs with
  | nil => exact .inr (.inr ⟨by simp, List.mem_singleton.mp mem⟩)
  | cons d cs ih =>
    obtain ⟨fresh, rest⟩ := List.nodup_cons.mp distinct
    unfold add at mem
    split at mem
    · rename_i same
      rcases List.mem_cons.mp mem with rfl | mem
      · exact .inr (.inl ⟨d, List.mem_cons_self, same, rfl⟩)
      · refine .inl ⟨List.mem_cons_of_mem d mem, fun equal => fresh ?_⟩
        rw [same, ← equal]
        exact List.mem_map_of_mem mem
    · rename_i other
      rcases List.mem_cons.mp mem with rfl | mem
      · exact .inl ⟨List.mem_cons_self, other⟩
      · rcases ih rest mem with ⟨old, apart⟩ | ⟨e, old, same, rfl⟩ | ⟨new, rfl⟩
        · exact .inl ⟨List.mem_cons_of_mem d old, apart⟩
        · exact .inr (.inl ⟨e, List.mem_cons_of_mem d old, same, rfl⟩)
        · refine .inr (.inr ⟨?_, rfl⟩)
          rw [List.map_cons, List.mem_cons, not_or]
          exact ⟨Ne.symm other, new⟩

theorem ofProposals_concat (ps : List Proposal) (p : Proposal) :
    ofProposals (ps ++ [p]) = add (ofProposals ps) p := by
  simp [ofProposals]

/-- A candidate has the items of all proposals of its action, in their order. -/
theorem items_of_mem_ofProposals (mem : c ∈ ofProposals ps) :
    c.items = (ps.filter fun p => p.action = c.action).map Proposal.item := by
  induction ps using List.reverseRecOn generalizing c with
  | nil => cases mem
  | append_singleton ps p ih =>
    rw [ofProposals_concat] at mem
    rw [List.filter_append, List.map_append]
    rcases mem_add (nodup_ofProposals ps) mem with ⟨old, apart⟩ | ⟨d, old, same, rfl⟩ | ⟨new, rfl⟩
    · rw [ih old]
      simp [Ne.symm apart]
    · change d.items ++ [p.item] = _
      rw [ih old]
      simp [same]
    · have none : ps.filter (fun q => q.action = p.action) = [] := by
        refine List.filter_eq_nil_iff.mpr fun q among same => new ?_
        rw [mem_actions_ofProposals, ← of_decide_eq_true same]
        exact List.mem_map_of_mem among
      simp [items, none]

theorem mem_items_ofProposals (mem : c ∈ ofProposals ps) {i : Item} :
    i ∈ c.items ↔ ∃ p ∈ ps, p.action = c.action ∧ p.item = i := by
  simp [items_of_mem_ofProposals mem, and_assoc]

/-- A candidate makes the bid of a proposal. -/
theorem bid_of_mem_ofProposals (mem : c ∈ ofProposals ps) : ∃ p ∈ ps, p.bid = c.bid := by
  obtain ⟨p, among, does, item⟩ := (mem_items_ofProposals mem).mp List.mem_cons_self
  exact ⟨p, among, by simp [Proposal.bid, Candidate.bid, item, does]⟩

/-! ### The candidate that prevails -/

/-- A bid that beats another one of no lower priority does so by its place. -/
theorem place_of_beats {m n : Int} (beats : c.bid.Beats g d.bid) (hc : c.priority? g = some m)
    (hd : d.priority? g = some n) (le : m ≤ n) :
    ∃ side, c.associativity? g = some side ∧ d.associativity? g = some side ∧
      side.Beyond c.item.position d.item.position := by
  obtain ⟨m', n', hc', hd', below | ⟨_, side, places⟩⟩ := beats
  · cases hc.symm.trans hc'
    cases hd.symm.trans hd'
    exact absurd below (Int.not_lt.mpr le)
  · exact ⟨side, places⟩

theorem Prevails.beats (h : Prevails g cs c) (hd : d ∈ cs) (other : d ≠ c) :
    c.bid.Beats g d.bid := by
  obtain ⟨p, hp, above⟩ := le_of_mem_highest h.prioritized h.mem
  obtain ⟨q, le, hq⟩ := above d hd
  refine ⟨p, q, hp, hq, ?_⟩
  rcases Int.lt_or_eq_of_le le with below | level
  · exact .inl below
  · -- with the same priority the other one is left as well
    have left : d ∈ highest g cs := mem_highest_iff.mpr ⟨hd, fun _ => ⟨q, hq, level ▸ above⟩⟩
    rcases h.preferred with alone | ⟨side, sided, beyond⟩
    · exact absurd (alone d left) other
    · exact .inr ⟨level, side, sided c h.mem, sided d left, beyond d left other⟩

theorem prevails_of_beats (mem : c ∈ cs) (others : ∃ d ∈ cs, d ≠ c)
    (beats : ∀ d ∈ cs, d ≠ c → c.bid.Beats g d.bid) : Prevails g cs c := by
  obtain ⟨d, hd, other⟩ := others
  obtain ⟨p, _, hp, _⟩ := beats d hd other
  have above (e : Candidate) (he : e ∈ cs) : ∃ q ≤ p, e.priority? g = some q := by
    by_cases same : e = c
    · exact ⟨p, le_rfl, same ▸ hp⟩
    · obtain ⟨p', q, hp', hq, better⟩ := beats e he same
      cases hp.symm.trans hp'
      exact ⟨q, better.elim Int.le_of_lt fun h => h.1.le, hq⟩
  have ranked : Prioritized g cs := fun e he => (above e he).imp fun _ h => h.2
  have tied (e : Candidate) (he : e ∈ highest g cs) (apart : e ≠ c) :
      ∃ side, c.associativity? g = some side ∧ e.associativity? g = some side ∧
        side.Beyond c.item.position e.item.position := by
    obtain ⟨q, hq, above'⟩ := le_of_mem_highest ranked he
    obtain ⟨p', le, hp'⟩ := above' c mem
    exact place_of_beats (beats e (mem_of_mem_highest he) apart) hp' hq le
  refine ⟨mem_highest_iff.mpr ⟨mem, fun _ => ⟨p, hp, above⟩⟩, ranked, ?_⟩
  by_cases alone : ∀ e ∈ highest g cs, e = c
  · exact .inl alone
  · push Not at alone
    obtain ⟨e, he, apart⟩ := alone
    obtain ⟨side, hs, _⟩ := tied e he apart
    refine .inr ⟨side, fun f hf => ?_, fun f hf apart => ?_⟩
    · by_cases same : f = c
      · exact same ▸ hs
      · obtain ⟨side', hs', sided, _⟩ := tied f hf same
        cases hs.symm.trans hs'
        exact sided
    · obtain ⟨side', hs', _, beyond⟩ := tied f hf apart
      cases hs.symm.trans hs'
      exact beyond

/-- A candidate prevails just if it beats every other one. -/
theorem prevails_iff_beats (distinct : cs.Nodup) (several : 1 < cs.length) :
    Prevails g cs c ↔ c ∈ cs ∧ ∀ d ∈ cs, d ≠ c → c.bid.Beats g d.bid := by
  constructor
  · exact fun h => ⟨mem_of_mem_highest h.mem, fun d hd other => h.beats hd other⟩
  · rintro ⟨mem, beats⟩
    refine prevails_of_beats mem ?_ beats
    refine ((distinct.ne_singleton_iff c).mp fun only => ?_).resolve_left (List.ne_nil_of_mem mem)
    simp [only] at several

end Candidate

/-! ### What a state does under a terminal -/

namespace State

variable {state : State} {t : Terminal}

theorem bid_of_mem_candidates {c : Candidate} (mem : c ∈ state.candidates t) :
    ∃ p ∈ state.proposals, p.terminal = t ∧ p.bid = c.bid := by
  obtain ⟨p, among, same⟩ := Candidate.bid_of_mem_ofProposals mem
  obtain ⟨among, under⟩ := List.mem_filter.mp among
  exact ⟨p, among, of_decide_eq_true under, same⟩

theorem nodup_candidates (state : State) (t : Terminal) :
    ((state.candidates t).map Candidate.action).Nodup :=
  Candidate.nodup_ofProposals _

theorem distinct_candidates (state : State) (t : Terminal) : (state.candidates t).Nodup :=
  List.Nodup.of_map _ (nodup_candidates state t)

/-- No two candidates make one bid. -/
theorem eq_of_bid {c d : Candidate} (hc : c ∈ state.candidates t) (hd : d ∈ state.candidates t)
    (same : c.bid = d.bid) : c = d :=
  List.inj_on_of_nodup_map (nodup_candidates state t) hc hd (congrArg Bid.action same)

/-- Where all proposals under a terminal are for one action, that is done if there are any. -/
theorem settle_of_forall {a : Action}
    (only : ∀ p ∈ state.proposals, p.terminal = t → p.action = a) (id : StateId) :
    ∃ verdict, state.settle g id t = .ok verdict ∧
      ((∃ p ∈ state.proposals, p.terminal = t) → verdict.action = a) := by
  have same : ∀ b ∈ (state.candidates t).map Candidate.action, b = a := fun b mem => by
    obtain ⟨p, among, under, does⟩ := mem_candidate_actions.mp mem
    exact does.symm.trans (only p among under)
  have distinct := nodup_candidates state t
  match hc : state.candidates t with
  | [] =>
    refine ⟨.nothing, settle_eq_ok_iff.mpr (by rw [hc]; rfl), fun ⟨p, among, under⟩ => ?_⟩
    have mem := mem_candidate_actions.mpr ⟨p, among, under, rfl⟩
    rw [hc] at mem
    cases mem
  | [c] =>
    refine ⟨.unopposed c, settle_eq_ok_iff.mpr (by rw [hc]; rfl), fun _ => same c.action ?_⟩
    simp [hc]
  | c :: d :: rest =>
    rw [hc] at same distinct
    have equal : c.action = d.action := (same _ (by simp)).trans (same _ (by simp)).symm
    simp [equal] at distinct

/-- Two different actions are asked for under a terminal, by these bids and no others. -/
structure Contest (state : State) (t : Terminal) (a b : Bid) : Prop where
  different : a.action ≠ b.action
  first : ∃ p ∈ state.proposals, p.terminal = t ∧ p.bid = a
  second : ∃ p ∈ state.proposals, p.terminal = t ∧ p.bid = b
  only : ∀ p ∈ state.proposals, p.terminal = t → p.bid = a ∨ p.bid = b

namespace Contest

variable {a b : Bid}

theorem symm (h : Contest state t a b) : Contest state t b a :=
  ⟨h.different.symm, h.second, h.first, fun p mem under => (h.only p mem under).symm⟩

theorem bids (h : Contest state t a b) {c : Candidate} (mem : c ∈ state.candidates t) :
    c.bid = a ∨ c.bid = b := by
  obtain ⟨p, among, under, same⟩ := bid_of_mem_candidates mem
  exact same ▸ h.only p among under

/-- There is a candidate that makes the first bid, and by symmetry one that makes the second. -/
theorem exists_candidate (h : Contest state t a b) : ∃ c ∈ state.candidates t, c.bid = a := by
  obtain ⟨p, among, under, rfl⟩ := h.first
  obtain ⟨c, mem, same⟩ := List.mem_map.mp (mem_candidate_actions.mpr ⟨p, among, under, rfl⟩)
  exact ⟨c, mem, (h.bids mem).resolve_right fun bid =>
    h.different (same.symm.trans (congrArg Bid.action bid))⟩

theorem several (h : Contest state t a b) : 1 < (state.candidates t).length := by
  obtain ⟨c, hc, rfl⟩ := h.exists_candidate
  obtain ⟨d, hd, rfl⟩ := h.symm.exists_candidate
  exact one_lt_length_of_mem hc hd fun same => h.different (same ▸ rfl)

/-- A candidate with the first bid prevails just if this beats the second. -/
theorem prevails_iff (h : Contest state t a b) {c : Candidate} (hc : c ∈ state.candidates t)
    (bid : c.bid = a) : Candidate.Prevails g (state.candidates t) c ↔ a.Beats g b := by
  rw [Candidate.prevails_iff_beats (state.distinct_candidates t) h.several, bid]
  constructor
  · rintro ⟨_, beats⟩
    obtain ⟨d, hd, rfl⟩ := h.symm.exists_candidate
    exact beats d hd fun same => h.different (bid ▸ same ▸ rfl)
  · refine fun beats => ⟨hc, fun d hd other => ?_⟩
    rwa [(h.bids hd).resolve_left fun same => other (eq_of_bid hd hc (same.trans bid.symm))]

/-- The bid that beats the other one is done. -/
theorem settle (h : Contest state t a b) (beats : a.Beats g b) (id : StateId) :
    ∃ verdict, state.settle g id t = .ok verdict ∧ verdict.action = a.action := by
  obtain ⟨c, mem, bid⟩ := h.exists_candidate
  obtain ⟨verdict, settled, does⟩ := ((h.prevails_iff mem bid).mpr beats).settle
    (state.distinct_candidates t) h.several
  exact ⟨verdict, settle_eq_ok_iff.mpr settled, does.trans (congrArg Bid.action bid)⟩

/-- If one of them is done, it beats the other. -/
theorem beats (h : Contest state t a b) {id : StateId} {verdict : Verdict}
    (settled : state.settle g id t = .ok verdict) : a.Beats g b ∨ b.Beats g a := by
  obtain ⟨c, wins, _⟩ := Candidate.exists_prevails_of_settle
    (state.distinct_candidates t) h.several (settle_eq_ok_iff.mp settled)
  have mem := Candidate.mem_of_mem_highest wins.mem
  exact (h.bids mem).imp (fun bid => (h.prevails_iff mem bid).mp wins)
    fun bid => (h.symm.prevails_iff mem bid).mp wins

end Contest

/-- Of two bids one may be missing; what is left is settled if the one beats the other. -/
theorem exists_settle_of_or {a b : Bid} (different : a.action ≠ b.action)
    (only : ∀ p ∈ state.proposals, p.terminal = t → p.bid = a ∨ p.bid = b)
    (beats : a.Beats g b ∨ b.Beats g a) (id : StateId) :
    ∃ verdict, state.settle g id t = .ok verdict := by
  by_cases first : ∃ p ∈ state.proposals, p.terminal = t ∧ p.bid = a
  · by_cases second : ∃ p ∈ state.proposals, p.terminal = t ∧ p.bid = b
    · have contest : Contest state t a b := ⟨different, first, second, only⟩
      rcases beats with beats | beats
      · exact (contest.settle beats id).imp fun _ h => h.1
      · exact (contest.symm.settle beats id).imp fun _ h => h.1
    · refine (settle_of_forall (a := a.action) (fun p mem under => ?_) id).imp fun _ h => h.1
      have bid := (only p mem under).resolve_right fun bid => second ⟨p, mem, under, bid⟩
      exact congrArg Bid.action bid
  · refine (settle_of_forall (a := b.action) (fun p mem under => ?_) id).imp fun _ h => h.1
    have bid := (only p mem under).resolve_left fun bid => first ⟨p, mem, under, bid⟩
    exact congrArg Bid.action bid

end State

/-! ### Tables -/

namespace Table.Follows

variable {c : Collection} {T : Table} {id : StateId} {state : State} {t : Terminal}

/-- Where all proposals under a terminal are for one action, that is in the table. -/
theorem action_of_forall (h : T.Follows g c) (hs : c.state? id = some state) {a : Action}
    (proposed : ∃ p ∈ state.proposals, p.terminal = t)
    (only : ∀ p ∈ state.proposals, p.terminal = t → p.action = a) : T.action id t = a := by
  obtain ⟨verdict, settled, same⟩ := h.action id state hs t
  obtain ⟨verdict', settled', does⟩ := State.settle_of_forall (g := g) only id
  cases settled.symm.trans settled'
  exact same.trans (does proposed)

/-- The bid that beats the other one is in the table. -/
theorem action_of_beats (h : T.Follows g c) (hs : c.state? id = some state) {a b : Bid}
    (contest : state.Contest t a b) (beats : a.Beats g b) : T.action id t = a.action := by
  obtain ⟨verdict, settled, same⟩ := h.action id state hs t
  obtain ⟨verdict', settled', does⟩ := contest.settle beats id
  cases settled.symm.trans settled'
  exact same.trans does

end Table.Follows

theorem exists_mapM_eq_ok {α β ε : Type} {f : α → Except ε β} {l : List α}
    (h : ∀ a ∈ l, ∃ b, f a = .ok b) : ∃ m, l.mapM f = .ok m := by
  induction l with
  | nil => exact ⟨[], rfl⟩
  | cons a l ih =>
    obtain ⟨b, hb⟩ := h a List.mem_cons_self
    obtain ⟨m, hm⟩ := ih fun x mem => h x (List.mem_cons_of_mem a mem)
    refine ⟨b :: m, mapM_eq_ok_iff.mpr ?_⟩
    rw [List.map_cons, List.map_cons, hb, mapM_eq_ok_iff.mp hm]

theorem Table.exists_rowOf {state : State} {id : StateId}
    (settles : ∀ t, ∃ verdict, state.settle g id t = .ok verdict) :
    ∃ row, rowOf g state = .ok row := by
  have each : ∀ t ∈ state.terminals.toList, ∃ entry, cell g state t = .ok entry := by
    intro t _
    obtain ⟨verdict, settled⟩ := settles t
    refine ⟨(t, verdict.action), ?_⟩
    rw [cell, State.settle_eq_ok_of_eq_ok state.id settled]
    rfl
  obtain ⟨entries, he⟩ := exists_mapM_eq_ok each
  exact ⟨_, by rw [rowOf, he]; rfl⟩

/-- If every state settles under every terminal there is a table. -/
theorem Table.exists_ofCollection {c : Collection}
    (settles : ∀ (id : StateId) (state : State), c.state? id = some state → ∀ t,
      ∃ verdict, state.settle g id t = .ok verdict) : ∃ T, ofCollection g c = .ok T := by
  have rows : ∃ rows, rowsOf g c = .ok rows := by
    refine exists_mapM_eq_ok fun state mem => ?_
    obtain ⟨id, hs⟩ := List.mem_iff_getElem?.mp mem
    exact exists_rowOf (settles id state hs)
  obtain ⟨rows, hr⟩ := rows
  exact ⟨_, by rw [ofCollection, hr]; rfl⟩

/-- A proper start rule and states that settle are enough for a table. -/
theorem Grammar.exists_table? (wf : g.WellFormed) {rule : Rule V} {n : NonTerminal}
    (only : g.rulesOf g.start = [rule]) (body : rule.body = [.nonTerminal n])
    (settles : ∀ c : Collection, c.Built g rule → ∀ (id : StateId) (state : State),
      c.state? id = some state → ∀ t, ∃ verdict, state.settle g id t = .ok verdict) :
    ∃ T, g.table? = .ok T := by
  have checked : g.checkStart = .ok rule := by
    rw [checkStart, only]
    simp [body]
  obtain ⟨c, found, made⟩ := Grammar.exists_collection? wf checked
  obtain ⟨T, table⟩ := Table.exists_ofCollection (settles c made.built)
  exact ⟨T, by rw [table?, found]; simp [table, Except.mapError]⟩

end CanonicalLR
