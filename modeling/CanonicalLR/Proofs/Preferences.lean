import CanonicalLR.Proofs.TableCells
import Mathlib.Data.List.MinMax

/-!
Which of several candidates is done. Those of the highest priority remain, if all have
one; of these one must be alone, or by the associativity they share its dot must be
beyond the dots of the others. Then it is done, and otherwise all that remain are given
back, which are several.
-/
namespace CanonicalLR

variable {V : Type} {g : Grammar V}

theorem eq_singleton_iff_of_nodup {α : Type} {l : List α} {a : α} (distinct : l.Nodup) :
    l = [a] ↔ ∀ x, x ∈ l ↔ x = a := by
  rw [← List.perm_singleton, List.perm_ext_iff_of_nodup distinct (List.nodup_singleton a)]
  simp only [List.mem_singleton]

theorem one_lt_length_of_mem {α : Type} {l : List α} {a b : α} (ha : a ∈ l) (hb : b ∈ l)
    (apart : a ≠ b) : 1 < l.length := by
  match l with
  | [] => cases ha
  | [x] => exact absurd ((List.mem_singleton.mp ha).trans (List.mem_singleton.mp hb).symm) apart
  | x :: y :: rest => simp

/-! ### Places -/

/-- Of two places in rules the one that is preferred to the other. -/
def Associativity.Beyond : Associativity → Nat → Nat → Prop
  | .left, m, n => n < m
  | .right, m, n => m < n

namespace Associativity.Beyond

variable {side : Associativity} {m n : Nat}

theorem irrefl : ¬side.Beyond m m := by
  cases side <;> exact Nat.lt_irrefl m

theorem asymm (h : side.Beyond m n) : ¬side.Beyond n m := by
  cases side <;> exact Nat.lt_asymm h

theorem of_not (h : ¬side.Beyond n m) (apart : n ≠ m) : side.Beyond m n := by
  cases side with
  | left => exact (Nat.lt_or_gt_of_ne apart).resolve_right h
  | right => exact (Nat.lt_or_gt_of_ne apart).resolve_left h

end Associativity.Beyond

/-! ### Ties -/

namespace Candidate

variable {cs : List Candidate} {d : Candidate}

theorem isExtreme_iff {side : Associativity} :
    isExtreme cs d side = true ↔ ∀ e ∈ cs, ¬side.Beyond e.item.position d.item.position := by
  cases side <;> simp [isExtreme, Associativity.Beyond]

/-- One candidate is left at the extreme just if its dot is beyond all others. -/
theorem filter_isExtreme_eq_singleton_iff (distinct : cs.Nodup) {side : Associativity} :
    cs.filter (fun e => isExtreme cs e side) = [d] ↔
      d ∈ cs ∧ ∀ e ∈ cs, e ≠ d → side.Beyond d.item.position e.item.position := by
  rw [eq_singleton_iff_of_nodup (distinct.filter _)]
  simp only [List.mem_filter, isExtreme_iff]
  constructor
  · intro only
    obtain ⟨mem, extreme⟩ := (only d).mpr rfl
    refine ⟨mem, fun e he other => .of_not (extreme e he) fun level => other ?_⟩
    -- a candidate at the place of the extreme one is as extreme
    exact (only e).mp ⟨he, by rwa [level]⟩
  · rintro ⟨mem, beyond⟩ e
    constructor
    · rintro ⟨he, extreme⟩
      by_contra other
      exact extreme d mem (beyond e he other)
    · rintro rfl
      refine ⟨mem, fun e' he' before => ?_⟩
      by_cases same : e' = e
      · exact Associativity.Beyond.irrefl (same ▸ before)
      · exact (beyond e' he' same).asymm before

theorem breakTie_eq_some_iff (distinct : cs.Nodup) :
    breakTie g cs = some d ↔ d ∈ cs ∧ ∃ p side,
      (∀ e ∈ cs, e.priority? g = some p ∧ e.associativity? g = some side) ∧
      ∀ e ∈ cs, e ≠ d → side.Beyond d.item.position e.item.position := by
  simp only [breakTie, Option.bind_eq_bind, Option.bind_eq_some_iff, Option.ite_none_right_eq_some,
    List.all_eq_true, decide_eq_true_eq]
  constructor
  · rintro ⟨first, -, p, -, side, -, agree, found⟩
    split at found
    · rename_i e only
      cases found
      obtain ⟨mem, beyond⟩ := (filter_isExtreme_eq_singleton_iff distinct).mp only
      exact ⟨mem, p, side, agree, beyond⟩
    · cases found
  · rintro ⟨mem, p, side, agree, beyond⟩
    obtain ⟨first, rest, rfl⟩ := List.exists_cons_of_ne_nil (List.ne_nil_of_mem mem)
    obtain ⟨hp, hs⟩ := agree first List.mem_cons_self
    refine ⟨first, rfl, p, hp, side, hs, agree, ?_⟩
    rw [(filter_isExtreme_eq_singleton_iff distinct).mpr ⟨mem, beyond⟩]

/-! ### Priorities -/

/-- All candidates have priorities. -/
def Prioritized (g : Grammar V) (cs : List Candidate) : Prop :=
  ∀ d ∈ cs, ∃ p, d.priority? g = some p

theorem all_isSome_iff :
    (cs.all fun d => (d.priority? g).isSome) = true ↔ Prioritized g cs := by
  simp only [List.all_eq_true, Option.isSome_iff_exists, Prioritized]

theorem highest_eq_self (unranked : ¬Prioritized g cs) : highest g cs = cs :=
  if_neg (mt all_isSome_iff.mp unranked)

/-- Where all have priorities, those remain whose priority no other exceeds. -/
theorem mem_highest_iff : d ∈ highest g cs ↔ d ∈ cs ∧ (Prioritized g cs →
    ∃ p, d.priority? g = some p ∧ ∀ e ∈ cs, ∃ q ≤ p, e.priority? g = some q) := by
  by_cases ranked : Prioritized g cs
  · rw [highest, if_pos (all_isSome_iff.mpr ranked), List.mem_filter, List.all_eq_true]
    refine and_congr_right fun mem => ?_
    obtain ⟨p, hp⟩ := ranked d mem
    have below {e : Candidate} (he : e ∈ cs) : (∃ q ≤ p, e.priority? g = some q) ↔
        decide ((e.priority? g).getD 0 ≤ (d.priority? g).getD 0) = true := by
      obtain ⟨q, hq⟩ := ranked e he
      simp [hp, hq]
    constructor
    · exact fun above _ => ⟨p, hp, fun e he => (below he).mpr (above e he)⟩
    · intro above e he
      obtain ⟨p', hp', above⟩ := above ranked
      cases hp.symm.trans hp'
      exact (below he).mp (above e he)
  · rw [highest_eq_self ranked]
    exact ⟨fun mem => ⟨mem, fun h => absurd h ranked⟩, And.left⟩

theorem le_of_mem_highest (ranked : Prioritized g cs) (mem : d ∈ highest g cs) :
    ∃ p, d.priority? g = some p ∧ ∀ e ∈ cs, ∃ q ≤ p, e.priority? g = some q :=
  (mem_highest_iff.mp mem).2 ranked

theorem highest_sublist : (highest g cs).Sublist cs := by
  unfold highest
  split
  · exact List.filter_sublist
  · exact List.Sublist.refl cs

theorem highest_ne_nil (nonempty : cs ≠ []) : highest g cs ≠ [] := by
  by_cases ranked : Prioritized g cs
  · obtain ⟨d, found⟩ := Option.ne_none_iff_exists'.mp
      (mt List.argmax_eq_none.mp nonempty : cs.argmax (fun d => (d.priority? g).getD 0) ≠ none)
    refine List.ne_nil_of_mem (a := d) (mem_highest_iff.mpr ⟨List.argmax_mem found, fun _ => ?_⟩)
    obtain ⟨p, hp⟩ := ranked d (List.argmax_mem found)
    refine ⟨p, hp, fun e he => ?_⟩
    obtain ⟨q, hq⟩ := ranked e he
    have le := List.le_of_mem_argmax he found
    simp only [hp, hq, Option.getD_some] at le
    exact ⟨q, le, hq⟩
  · rwa [highest_eq_self ranked]

/-- Those of the highest priority have one priority. -/
theorem exists_priority_of_highest (ranked : Prioritized g cs) (mem : d ∈ highest g cs) :
    ∃ p, ∀ e ∈ highest g cs, e.priority? g = some p := by
  obtain ⟨p, hp, above⟩ := le_of_mem_highest ranked mem
  refine ⟨p, fun e he => ?_⟩
  obtain ⟨q, hq, above'⟩ := le_of_mem_highest ranked he
  obtain ⟨q', le, same⟩ := above e (mem_of_mem_highest he)
  obtain ⟨p', le', same'⟩ := above' d (mem_of_mem_highest mem)
  cases hq.symm.trans same
  cases hp.symm.trans same'
  rw [hq, Int.le_antisymm le le']

/-! ### Settling -/

/-- Where all have priorities, the candidate is the only one that they leave, or its dot is beyond
the others that they leave. -/
structure Prevails (g : Grammar V) (cs : List Candidate) (d : Candidate) : Prop where
  mem : d ∈ highest g cs
  prioritized : Prioritized g cs
  preferred : (∀ e ∈ highest g cs, e = d) ∨
    ∃ side, (∀ e ∈ highest g cs, e.associativity? g = some side) ∧
      ∀ e ∈ highest g cs, e ≠ d → side.Beyond d.item.position e.item.position

theorem prevails_of_highest (several : 1 < cs.length) (only : highest g cs = [d]) :
    Prevails g cs d := by
  have ranked : Prioritized g cs := by
    -- otherwise none of the several would have been dropped
    by_contra unranked
    rw [highest_eq_self unranked] at only
    simp [only] at several
  refine ⟨only ▸ List.mem_singleton_self d, ranked, .inl fun e he => ?_⟩
  exact List.mem_singleton.mp (only ▸ he)

theorem prevails_of_breakTie (distinct : cs.Nodup) (tie : breakTie g (highest g cs) = some d) :
    Prevails g cs d := by
  obtain ⟨mem, p, side, agree, beyond⟩ :=
    (breakTie_eq_some_iff (distinct.sublist highest_sublist)).mp tie
  have ranked : Prioritized g cs := by
    -- otherwise all of them would agree in a priority
    by_contra unranked
    rw [highest_eq_self unranked] at agree
    exact unranked fun e he => ⟨p, (agree e he).1⟩
  exact ⟨mem, ranked, .inr ⟨side, fun e he => (agree e he).2, beyond⟩⟩

/-- What is settled on among several is the action of one that prevails. -/
theorem exists_prevails_of_settle {verdict : Verdict} (distinct : cs.Nodup)
    (several : 1 < cs.length) (settled : settle g cs = .ok verdict) :
    ∃ d, Prevails g cs d ∧ verdict.action = d.action := by
  cases settles_of_eq settled with
  | nothing => cases several
  | unopposed d => simp at several
  | byPriority _ only => exact ⟨_, prevails_of_highest several only, rfl⟩
  | byAssociativity _ _ tie => exact ⟨_, prevails_of_breakTie distinct tie, rfl⟩

/-- The candidate that prevails is done. -/
theorem Prevails.settle (h : Prevails g cs d) (distinct : cs.Nodup) (several : 1 < cs.length) :
    ∃ verdict, settle g cs = .ok verdict ∧ verdict.action = d.action := by
  have left : (highest g cs).Nodup := distinct.sublist highest_sublist
  have wins (more : ∀ e, highest g cs ≠ [e]) : breakTie g (highest g cs) = some d := by
    obtain ⟨p, agree⟩ := exists_priority_of_highest h.prioritized h.mem
    refine (breakTie_eq_some_iff left).mpr ⟨h.mem, p, ?_⟩
    rcases h.preferred with alone | ⟨side, sided, beyond⟩
    · refine absurd ((eq_singleton_iff_of_nodup left).mpr fun e => ?_) (more d)
      exact ⟨alone e, fun same => same ▸ h.mem⟩
    · exact ⟨side, fun e he => ⟨agree e he, sided e he⟩, beyond⟩
  cases found : Candidate.settle g cs with
  | ok verdict =>
    refine ⟨verdict, rfl, ?_⟩
    cases settles_of_eq found with
    | nothing => cases several
    | unopposed e => simp at several
    | byPriority _ only =>
      have same := List.mem_singleton.mp (only ▸ h.mem)
      exact congrArg Candidate.action same.symm
    | byAssociativity _ more tie =>
      exact congrArg Candidate.action (Option.some.inj (tie.symm.trans (wins more)))
  | error equals =>
    cases settles_of_eq found with
    | undecided _ more tie => cases tie.symm.trans (wins more)

/-- If none prevails all that the priorities leave are given back, and these are several. -/
theorem settle_eq_error (distinct : cs.Nodup) (several : 1 < cs.length)
    (undecided : ∀ d, ¬Prevails g cs d) :
    settle g cs = .error (highest g cs) ∧ 1 < (highest g cs).length := by
  cases found : settle g cs with
  | ok verdict =>
    obtain ⟨d, wins, _⟩ := exists_prevails_of_settle distinct several found
    exact absurd wins (undecided d)
  | error equals =>
    cases settles_of_eq found with
    | undecided _ more _ =>
      refine ⟨rfl, ?_⟩
      match left : highest g cs with
      | [] => exact absurd left (highest_ne_nil fun none => by simp [none] at several)
      | [d] => exact absurd left (more d)
      | d :: e :: rest => simp

end Candidate

end CanonicalLR
