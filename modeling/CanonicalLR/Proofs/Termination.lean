import CanonicalLR.Proofs.ErrorDetection
import CanonicalLR.Proofs.OpenRules
import Mathlib.Algebra.Order.BigOperators.Group.List
import Mathlib.Algebra.Order.Group.Nat
import Mathlib.Data.Finset.Card
import Mathlib.Tactic.Ring

/-!
Parsing comes to an end where no non-terminal is derived from itself alone and none
comes back behind symbols that derive nothing, whatever conflicts there were and
however they were settled. The moves of a run are those of its trees. Without the
first kind of recursion the trees of so many tokens have only so many moves; without the
second, only so many trees stand side by side.
-/
namespace CanonicalLR

open Machine Relation

variable {V : Type} {g : Grammar V} {c : Collection} {T : Table} {rule : Rule V}

/-- Numbers that never grow along the first relation, and fall along the second one wherever no
way leads back over it. -/
theorem exists_rank {α : Type} (weak strict : α → α → Prop) (values : List α)
    (sub : ∀ a b, strict a b → weak a b) (inside : ∀ a b, strict a b → b ∈ values) :
    ∃ rank : α → Nat, (∀ a, rank a ≤ values.length) ∧ (∀ a b, weak a b → rank b ≤ rank a) ∧
      ∀ a b, strict a b → (¬∃ d, ReflTransGen weak b d ∧ strict d b) → rank b < rank a := by
  classical
  let ahead (a : α) : Finset α :=
    values.toFinset.filter fun b => ∃ d, ReflTransGen weak a d ∧ strict d b
  have shrinks {a b : α} (h : weak a b) : ahead b ⊆ ahead a := by
    intro x hx
    obtain ⟨mem, d, way, last⟩ := Finset.mem_filter.mp hx
    exact Finset.mem_filter.mpr ⟨mem, d, .head h way, last⟩
  refine ⟨fun a => (ahead a).card, fun a => ?_, fun a b h => Finset.card_le_card (shrinks h),
    fun a b h none => Finset.card_lt_card ?_⟩
  · exact (Finset.card_filter_le _ _).trans values.toFinset_card_le
  · refine (Finset.ssubset_iff_of_subset (shrinks (sub a b h))).mpr ⟨b, ?_, fun mem => ?_⟩
    · exact Finset.mem_filter.mpr ⟨List.mem_toFinset.mpr (inside a b h), a, .refl, h⟩
    · exact none (Finset.mem_filter.mp mem).2

/-- A rule of the one non-terminal has the other behind these symbols and before those. -/
def Grammar.Calls (g : Grammar V) (n m : NonTerminal) (front back : List Symbol) : Prop :=
  ∃ r ∈ g.rules, r.head = n ∧ r.body = front ++ .nonTerminal m :: back

theorem Grammar.Calls.derives {n m : NonTerminal} {front back : List Symbol}
    (h : g.Calls n m front back) {string : List Symbol} (left right : List Symbol)
    (before : Derives g.rules string (left ++ .nonTerminal n :: right)) :
    TransGen (Produces g.rules) string (left ++ front ++ .nonTerminal m :: (back ++ right)) := by
  obtain ⟨r, mem, rfl, body⟩ := h
  have step := Produces.step r mem left right
  rw [body] at step
  simpa using TransGen.trans_right before (.single step)

theorem Grammar.Calls.mem {n m : NonTerminal} {front back : List Symbol}
    (h : g.Calls n m front back) :
    m ∈ g.rules.flatMap fun r => r.body.filterMap Symbol.nonTerminal? := by
  obtain ⟨r, mem, _, body⟩ := h
  refine List.mem_flatMap.mpr ⟨r, mem, ?_⟩
  simp [body]

/-! ### Trees without cycles -/

namespace Grammar

/-- No non-terminal that the start symbol leads to is derived from itself by one replacement or
more. -/
def Acyclic (g : Grammar V) : Prop :=
  ∀ n, g.Reaches (.nonTerminal n) → ¬TransGen (Produces g.rules) [.nonTerminal n] [.nonTerminal n]

/-- The rules of the one non-terminal turn it into the other and symbols that derive nothing. -/
def Becomes (g : Grammar V) (n m : NonTerminal) : Prop :=
  ∃ front back, g.Calls n m front back ∧ Derives g.rules front [] ∧ Derives g.rules back []

theorem Becomes.transGen {n m : NonTerminal} (h : g.Becomes n m) :
    TransGen (Produces g.rules) [.nonTerminal n] [.nonTerminal m] := by
  obtain ⟨front, back, calls, before, behind⟩ := h
  have opened := calls.derives [] [] .refl
  have alone : Derives g.rules [.nonTerminal m] [.nonTerminal m] := .refl
  have rest := before.concat (alone.concat (behind.concat (.refl : Derives _ [] [])))
  exact opened.trans_left rest

/-- Ranks of non-terminals below a height, which fall wherever a rule leaves just one symbol, and a
width that is above the lengths of all bodies. -/
structure Graded (g : Grammar V) (rank : NonTerminal → Nat) (width height : Nat) : Prop where
  positive : 0 < width
  width : ∀ r ∈ g.rules, r.body.length < width
  height : ∀ n, rank n + 1 < height
  falls : ∀ n m, g.Reaches (.nonTerminal m) → g.Becomes n m → rank m < rank n

theorem exists_width (g : Grammar V) :
    ∃ width, 0 < width ∧ ∀ r ∈ g.rules, r.body.length < width :=
  ⟨(g.rules.map fun r => r.body.length).sum + 1, Nat.succ_pos _,
    fun _ mem => Nat.lt_succ_of_le (List.le_sum_of_mem (List.mem_map_of_mem mem))⟩

theorem Acyclic.exists_graded (acyclic : g.Acyclic) :
    ∃ rank width height, g.Graded rank width height := by
  obtain ⟨width, positive, hw⟩ := g.exists_width
  obtain ⟨rank, bound, _, falls⟩ := exists_rank g.Becomes g.Becomes
    (g.rules.flatMap fun r => r.body.filterMap Symbol.nonTerminal?) (fun _ _ h => h)
    (fun _ _ ⟨_, _, calls, _⟩ => calls.mem)
  refine ⟨rank, width, _, positive, hw, fun n => Nat.lt_succ_of_le (Nat.succ_le_succ (bound n)),
    fun n m reach h => falls n m h ?_⟩
  rintro ⟨d, way, last⟩
  have there : ReflTransGen (Produces g.rules) [.nonTerminal m] [.nonTerminal d] := by
    clear last
    induction way with
    | refl => exact .refl
    | tail _ step ih => exact ih.trans step.transGen.to_reflTransGen
  exact acyclic m reach (TransGen.trans_right there last.transGen)

/-- The rank of the root, leaves below all nodes. -/
def level (rank : NonTerminal → Nat) : Symbol → Nat
  | .terminal _ => 0
  | .nonTerminal n => rank n + 1

variable {rank : NonTerminal → Nat} {width height : Nat}

/-- A tree in the body of a rule is on a lower level than the rule, as it has less of its tokens or
else nothing beside it. -/
theorem Graded.level_le (graded : g.Graded rank width height) {r : Rule V} (mem : r ∈ g.rules)
    (reach : g.Reaches (.nonTerminal r.head)) {front back : List Symbol} {x : Symbol}
    (body : r.body = front ++ x :: back) (inner : Nat) {before behind : Nat}
    (first : before = 0 → Derives g.rules front []) (last : behind = 0 → Derives g.rules back []) :
    inner * height + level rank x ≤ (before + inner + behind) * height + rank r.head := by
  cases x with
  | terminal t =>
    have more : inner * height ≤ (before + inner + behind) * height :=
      Nat.mul_le_mul_right _ (by omega)
    simp only [level]
    omega
  | nonTerminal n =>
    simp only [level]
    by_cases alone : before = 0 ∧ behind = 0
    · have falls := graded.falls r.head n (reach.of_body mem (by simp [body]))
        ⟨front, back, ⟨r, mem, rfl, body⟩, first alone.1, last alone.2⟩
      have same : before + inner + behind = inner := by omega
      rw [same]
      omega
    · have more : (inner + 1) * height ≤ (before + inner + behind) * height :=
        Nat.mul_le_mul_right _ (by omega)
      have high := graded.height n
      rw [Nat.succ_mul] at more
      omega

end Grammar

section Trees

variable {rank : NonTerminal → Nat} {width height : Nat}

theorem Forest.derives_nil {string : List Symbol} (forest : Forest g.rules string)
    (none : forest.tokens.length = 0) : Derives g.rules string [] := by
  have h := forest.derives
  rwa [Forest.yield, List.eq_nil_of_length_eq_zero none] at h

mutual

/-- The number of moves of a tree is bounded by its tokens and the rank of its root. -/
theorem Tree.length_moves_le (graded : g.Graded rank width height) :
    ∀ {x : Symbol} (tree : Tree g.rules x), g.Reaches x →
      tree.moves.length ≤ width ^ (tree.tokens.length * height + Grammar.level rank x)
  | _, .leaf token, _ => Nat.pow_pos graded.positive
  | _, .node r mem children, reach => by
    have below := children.length_moves_le graded [] 0 mem reach rfl fun _ => .refl
    rw [Nat.zero_add] at below
    have one : 1 ≤ width ^ (children.tokens.length * height + rank r.head) :=
      Nat.pow_pos graded.positive
    calc
      (children.moves ++ [Move.reduce r]).length
        = children.moves.length + 1 := by simp
      _ ≤ (r.body.length + 1) * width ^ (children.tokens.length * height + rank r.head) := by
        rw [Nat.succ_mul]
        exact Nat.add_le_add below one
      _ ≤ width * width ^ (children.tokens.length * height + rank r.head) :=
        Nat.mul_le_mul_right _ (graded.width r mem)
      _ = width ^ (children.tokens.length * height + (rank r.head + 1)) := by
        rw [← Nat.add_assoc, Nat.pow_succ']

/-- The trees in the body of a rule have no more moves than so many trees below its rank. -/
theorem Forest.length_moves_le (graded : g.Graded rank width height) :
    ∀ {string : List Symbol} (forest : Forest g.rules string) {r : Rule V} (front : List Symbol)
      (before : Nat), r ∈ g.rules → g.Reaches (.nonTerminal r.head) →
      r.body = front ++ string → (before = 0 → Derives g.rules front []) →
      forest.moves.length ≤
        string.length * width ^ ((before + forest.tokens.length) * height + rank r.head)
  | _, .nil, _, _, _, _, _, _, _ => Nat.zero_le _
  | x :: string, .cons tree rest, r, front, before, mem, reach, body, first => by
    have here := tree.length_moves_le graded (reach.of_body mem (by simp [body]))
    have lower := graded.level_le mem reach body tree.tokens.length first
      rest.derives_nil
    have later := rest.length_moves_le graded (front ++ [x]) (before + tree.tokens.length) mem
      reach (by simp [body]) fun none => by
        have alone : Derives g.rules [x] [] :=
          (Forest.cons tree .nil).derives_nil (by simp only [Forest.tokens, List.append_nil]; omega)
        exact (first (by omega)).concat alone
    have size : (Forest.cons tree rest).tokens.length =
        tree.tokens.length + rest.tokens.length := List.length_append
    rw [size, ← Nat.add_assoc]
    have first := here.trans (Nat.pow_le_pow_right graded.positive lower)
    calc
      (tree.moves ++ rest.moves).length
        = tree.moves.length + rest.moves.length := List.length_append
      _ ≤ _ := Nat.add_le_add first later
      _ = _ := by rw [List.length_cons, Nat.succ_mul, Nat.add_comm]

end

end Trees

/-! ### Stacks without hidden left recursion -/

namespace Grammar

/-- No non-terminal that the start symbol leads to comes back behind symbols that derive nothing. -/
def NoHiddenLeftRecursion (g : Grammar V) : Prop :=
  ∀ n, g.Reaches (.nonTerminal n) → ∀ front back, front ≠ [] → Derives g.rules front [] →
    ¬Derives g.rules [.nonTerminal n] (front ++ .nonTerminal n :: back)

/-- The rules of the one non-terminal have the other behind symbols that derive nothing. -/
def Begins (g : Grammar V) (n m : NonTerminal) : Prop :=
  ∃ front back, g.Calls n m front back ∧ Derives g.rules front []

/-- The rules of the one non-terminal have the other behind some symbols, which derive nothing. -/
def BeginsHidden (g : Grammar V) (n m : NonTerminal) : Prop :=
  ∃ front back, g.Calls n m front back ∧ Derives g.rules front [] ∧ front ≠ []

theorem exists_derives_of_begins {n m : NonTerminal} (way : ReflTransGen g.Begins n m) :
    ∃ front back, Derives g.rules front [] ∧
      Derives g.rules [.nonTerminal n] (front ++ .nonTerminal m :: back) := by
  induction way with
  | refl => exact ⟨[], [], .refl, .refl⟩
  | tail _ step ih =>
    obtain ⟨front, back, vanishes, derives⟩ := ih
    obtain ⟨front', back', calls, vanishes'⟩ := step
    exact ⟨front ++ front', back' ++ back, vanishes.concat vanishes',
      (calls.derives _ _ derives).to_reflTransGen⟩

/-- Ranks of non-terminals up to a height, which never grow where a rule begins with what derives
nothing, and fall where there is something of that kind. -/
structure LeftGraded (g : Grammar V) (rank : NonTerminal → Nat) (width height : Nat) : Prop where
  width : ∀ r ∈ g.rules, r.body.length < width
  height : ∀ n, rank n ≤ height
  keeps : ∀ n m, g.Begins n m → rank m ≤ rank n
  falls : ∀ n m, g.Reaches (.nonTerminal m) → g.BeginsHidden n m → rank m < rank n

theorem NoHiddenLeftRecursion.exists_leftGraded (none : g.NoHiddenLeftRecursion) :
    ∃ rank width height, g.LeftGraded rank width height := by
  obtain ⟨width, _, hw⟩ := g.exists_width
  obtain ⟨rank, bound, keeps, falls⟩ := exists_rank g.Begins g.BeginsHidden
    (g.rules.flatMap fun r => r.body.filterMap Symbol.nonTerminal?)
    (fun _ _ ⟨front, back, calls, vanishes, _⟩ => ⟨front, back, calls, vanishes⟩)
    (fun _ _ ⟨_, _, calls, _⟩ => calls.mem)
  refine ⟨rank, width, _, hw, bound, keeps, fun n m reach h => falls n m h ?_⟩
  rintro ⟨d, way, front, back, calls, vanishes, some⟩
  obtain ⟨front', back', vanishes', derives⟩ := exists_derives_of_begins way
  exact none m reach (front' ++ front) (back ++ back') (by simp [some])
    (vanishes'.concat vanishes) (calls.derives _ _ derives).to_reflTransGen

/-- Only so many symbols stand before a rule that begins: either they have tokens, or they derive
nothing and the rank of the rule is the lower. -/
theorem Opens.length_le {rank : NonTerminal → Nat} {width height : Nat}
    (graded : g.LeftGraded rank width height) {string : List Symbol} {r : Rule V} {a : Terminal}
    (opens : g.Opens string r a) (forest : Forest g.rules string) :
    string.length + width * rank r.head ≤
      width * (forest.tokens.length * (height + 1) + height) := by
  induction opens with
  | start mem =>
    rw [List.length_nil, Nat.zero_add]
    exact Nat.mul_le_mul_left _ ((graded.height _).trans (Nat.le_add_left _ _))
  | @inside string front back outer inner _ _ opens body mem _ ih =>
    obtain ⟨first, second, rfl⟩ := forest.exists_append
    have before := ih first
    have wide : front.length ≤ width := by
      have h := graded.width outer opens.mem
      simp only [body, List.length_append] at h
      omega
    rw [Forest.tokens_append, List.length_append, List.length_append]
    have calls : g.Calls outer.head inner.head front back := ⟨outer, opens.mem, rfl, body⟩
    by_cases read : second.tokens.length = 0
    · have vanishes := second.derives_nil read
      rw [read, Nat.add_zero]
      by_cases empty : front = []
      · have keeps := Nat.mul_le_mul_left width
          (graded.keeps _ _ ⟨front, back, calls, vanishes⟩)
        rw [empty, List.length_nil]
        omega
      · have reach : g.Reaches (.nonTerminal inner.head) :=
          opens.reaches_head.of_body opens.mem (by simp [body])
        have falls := Nat.mul_le_mul_left width
          (graded.falls _ _ reach ⟨front, back, calls, vanishes, empty⟩)
        rw [Nat.mul_succ] at falls
        omega
    · have low := Nat.mul_le_mul_left width (graded.height inner.head)
      have more : (first.tokens.length + 1) * (height + 1) ≤
          (first.tokens.length + second.tokens.length) * (height + 1) :=
        Nat.mul_le_mul_right _ (by omega)
      calc
        string.length + front.length + width * rank inner.head
          ≤ width * (first.tokens.length * (height + 1) + height) + width + width * height := by
            omega
        _ = width * ((first.tokens.length + 1) * (height + 1) + height) := by ring
        _ ≤ _ := Nat.mul_le_mul_left _ (Nat.add_le_add_right more _)

end Grammar

/-! ### Bounded runs -/

/-- Trees side by side that the start symbol leads to have no more moves than so many of the
highest rank. -/
theorem Forest.length_moves_le_of_reaches {rank : NonTerminal → Nat} {width height : Nat}
    (graded : g.Graded rank width height) {string : List Symbol} (forest : Forest g.rules string)
    (reach : ∀ x ∈ string, g.Reaches x) {n : Nat} (tokens : forest.tokens.length ≤ n) :
    forest.moves.length ≤ string.length * width ^ ((n + 1) * height) := by
  induction string with
  | nil =>
    cases forest
    exact Nat.zero_le _
  | cons x string ih =>
    cases forest with
    | cons tree rest =>
      rw [Forest.tokens, List.length_append] at tokens
      have later := ih rest (fun y hy => reach y (List.mem_cons_of_mem x hy)) (by omega)
      have level : Grammar.level rank x ≤ height := by
        cases x with
        | terminal t => exact Nat.zero_le _
        | nonTerminal n => exact (graded.height n).le
      have here : tree.moves.length ≤ width ^ ((n + 1) * height) := by
        refine (tree.length_moves_le graded (reach x (by simp))).trans
          (Nat.pow_le_pow_right graded.positive ?_)
        have h := Nat.mul_le_mul_right height (show tree.tokens.length ≤ n by omega)
        rw [Nat.succ_mul]
        omega
      rw [Forest.moves, List.length_append, List.length_cons, Nat.succ_mul, Nat.add_comm]
      exact Nat.add_le_add later here

section

variable [SemanticValue V]

/-- A machine that makes no more than so many moves comes to an end. -/
theorem Machine.exists_parses_of_bound {table : Tabular} {tokens : List (Token V)} {bound : Nat}
    (h : ∀ moves m, Runs g table moves (.start table tokens) m → moves.length ≤ bound) :
    ∃ result calls, Parses g table tokens result calls := by
  cases last : run g table (bound + 1) (.start table tokens) with
  | halt result calls => exact ⟨result, calls, bound + 1, last⟩
  | «continue» m =>
    obtain ⟨moves, size, runs⟩ := Runs.of_run_continue last
    have := h moves m runs
    omega

/-- Without cycles and without hidden left recursion, there is a bound on the runs over as many
tokens. -/
theorem Machine.Runs.exists_bound (made : T.Made g rule c) (acyclic : g.Acyclic)
    (direct : g.NoHiddenLeftRecursion) (tokens : List (Token V)) :
    ∃ bound, ∀ moves m, Runs g T.tabular moves (.start T.tabular tokens) m →
      moves.length ≤ bound := by
  obtain ⟨rank, width, height, graded⟩ := acyclic.exists_graded
  obtain ⟨rank', width', height', leftGraded⟩ := direct.exists_leftGraded
  let n := tokens.length
  refine ⟨(width' * (n * (height' + 1) + height') + width') * width ^ ((n + 1) * height),
    fun moves m runs => ?_⟩
  obtain ⟨string, forest, holds, rfl⟩ := runs.exists_holds made
  have read : forest.tokens.length ≤ n := by
    change _ ≤ tokens.length
    rw [holds.read, List.length_append]
    exact Nat.le_add_right _ _
  obtain ⟨i, _, began⟩ := holds.path.exists_open made.collection
  rw [List.reverse_reverse] at began
  have reach := began.reaches
  refine (forest.length_moves_le_of_reaches graded reach read).trans (Nat.mul_le_mul_right _ ?_)
  obtain ⟨r, left, front, back, _, body, _, rfl, opens⟩ := began
  obtain ⟨first, second, rfl⟩ := forest.exists_append
  have before := opens.length_le leftGraded first
  have wide := leftGraded.width r opens.mem
  have few : first.tokens.length * (height' + 1) ≤ n * (height' + 1) :=
    Nat.mul_le_mul_right _ (by simp at read; omega)
  have more := Nat.mul_le_mul_left width' (Nat.add_le_add_right few height')
  simp only [body, List.length_append] at wide ⊢
  omega

/-- Where no non-terminal is derived from itself alone or comes back behind what derives nothing,
parsing comes to an end, whatever conflicts were settled and whatever the tokens. -/
theorem Machine.parses_of_acyclic {b : Builder V} (authored : b.Authored) {T : Table}
    (table : b.build.table? = .ok T) (acyclic : b.build.Acyclic)
    (direct : b.build.NoHiddenLeftRecursion) (tokens : List (Token V)) :
    ∃ result calls, Parses b.build T.tabular tokens result calls := by
  obtain ⟨c, rule, _, made⟩ := Grammar.of_table? authored.wellFormed.build table
  obtain ⟨bound, h⟩ := Runs.exists_bound made acyclic direct tokens
  exact exists_parses_of_bound h

/-- A machine that always goes on to where it still goes on gives no result. -/
theorem Machine.not_parses_of_goes_on {table : Tabular} {P : Configuration V → Prop}
    (step : ∀ m, P m → ∃ m', step g table m = .continue m' ∧ P m') {tokens : List (Token V)}
    (fuel : Nat) {m : Configuration V}
    (run : Machine.run g table fuel (.start table tokens) = .continue m) (here : P m)
    (result : Except ParseError V) (calls : List RuleId) : ¬Parses g table tokens result calls := by
  have on (more : Nat) {m : Configuration V} (here : P m) :
      ∃ m', Machine.run g table more m = .continue m' := by
    induction more generalizing m with
    | zero => exact ⟨m, rfl⟩
    | succ more ih =>
      obtain ⟨m', next, there⟩ := step m here
      rw [Machine.run, next]
      exact ih there
  rintro ⟨enough, halt⟩
  have later := run_of_le (Nat.le_add_left enough fuel) halt
  obtain ⟨m', still⟩ := on enough here
  rw [run_add, run] at later
  cases still.symm.trans later

end

/-! ### Grammars without empty bodies -/

section

variable {rules : List (Rule V)} (solid : ∀ r ∈ rules, r.body ≠ [])

include solid

theorem Produces.length_le {s t : List Symbol} (h : Produces rules s t) :
    s.length ≤ t.length := by
  cases h with
  | step r mem left right =>
    have := List.length_pos_of_ne_nil (solid r mem)
    simp only [List.length_append, List.length_cons]
    omega

theorem Derives.length_le {s t : List Symbol} (h : Derives rules s t) : s.length ≤ t.length := by
  induction h with
  | refl => exact Nat.le_refl _
  | tail _ step ih => exact ih.trans (step.length_le solid)

/-- What produces a single symbol is a single non-terminal. -/
theorem Produces.exists_rule {s : List Symbol} {x : Symbol} (h : Produces rules s [x]) :
    ∃ r ∈ rules, s = [.nonTerminal r.head] ∧ r.body = [x] := by
  have short := h.length_le solid
  generalize one : [x] = t at h short
  cases h with
  | step r mem left right =>
    have size := congrArg List.length one
    have some := List.length_pos_of_ne_nil (solid r mem)
    simp only [List.length_append, List.length_cons, List.length_nil] at size
    have before : left = [] := List.eq_nil_of_length_eq_zero (by omega)
    have behind : right = [] := List.eq_nil_of_length_eq_zero (by omega)
    subst before behind
    exact ⟨r, mem, rfl, by simp⟩

end

theorem Grammar.noHiddenLeftRecursion_of_solid (solid : ∀ r ∈ g.rules, r.body ≠ []) :
    g.NoHiddenLeftRecursion := by
  intro _ _ front _ some vanishes
  exact absurd (List.eq_nil_of_length_eq_zero (Nat.le_zero.mp (vanishes.length_le solid))) some

/-- Where the rules that only rename a non-terminal lead down, there are no cycles. -/
theorem Grammar.acyclic_of_solid (solid : ∀ r ∈ g.rules, r.body ≠ []) (rank : NonTerminal → Nat)
    (falls : ∀ r ∈ g.rules, r.body.length = 1 → ∀ x ∈ r.body, level rank x ≤ rank r.head) :
    g.Acyclic := by
  have renames {r : Rule V} (mem : r ∈ g.rules) {m : NonTerminal}
      (body : r.body = [.nonTerminal m]) : rank m < rank r.head :=
    falls r mem (by simp [body]) (.nonTerminal m) (by simp [body])
  have below {n : NonTerminal} {s : List Symbol}
      (h : TransGen (Produces g.rules) [.nonTerminal n] s) :
      ∀ m, s = [.nonTerminal m] → rank m < rank n := by
    induction h with
    | single step =>
      rintro m rfl
      obtain ⟨r, mem, same, body⟩ := step.exists_rule solid
      cases same
      exact renames mem body
    | tail _ step ih =>
      rintro m rfl
      obtain ⟨r, mem, same, body⟩ := step.exists_rule solid
      exact (renames mem body).trans (ih r.head same)
  exact fun n _ cycle => Nat.lt_irrefl _ (below cycle n rfl)

namespace Subtraction

theorem solid : ∀ r ∈ builder.build.rules, r.body ≠ [] := by
  decide +kernel

theorem acyclic : builder.build.Acyclic :=
  Grammar.acyclic_of_solid solid (fun n => if n = builder.build.start then 1 else 0)
    (by decide +kernel)

/-- Parsing two differences in a row comes to an end. -/
theorem nested_parses :
    ∃ result calls, Parses builder.build table.tabular [number, minus, number, minus, number]
      result calls :=
  Machine.parses_of_acyclic authored rfl acyclic (Grammar.noHiddenLeftRecursion_of_solid solid) _

end Subtraction

/-! ### Priorities that make the machine go round -/

namespace UnitCycle

/-- The start symbol is `seq`, which only becomes `X`; and `X` is rather `seq` than finished. -/
def builder : Builder Value :=
  Command.runAll
    [.terminal "n", .nonTerminal "X", .seq [.name "X"] (some Combinator.absent),
      .setStart (.name "seq") { priority := some 1 },
      .rule (.name "X") [.name "seq"] { priority := some 2 }, .rule (.name "X") [.name "n"] {}]
    ⟨⟨⟨0⟩, [⟨Builder.defaultStart, .start⟩, ⟨Builder.defaultEos, .eos⟩]⟩, []⟩

def table : Table := builder.build.table?.toOption.getD ⟨0, [], [], []⟩

theorem authored : builder.Authored :=
  ⟨⟨0⟩, Builder.defaultStart, Builder.defaultEos, _, _, rfl, rfl⟩

theorem productive : builder.build.Productive :=
  Grammar.productive_of_rank authored.wellFormed.build
    (fun n => if n = builder.build.start then 2 else n.index - 3) (by decide +kernel)

/-- Reading `n` never ends. -/
theorem not_parses (result : Except ParseError Value) (calls : List RuleId) :
    ¬Parses builder.build table.tabular [(⟨⟨0⟩, 2⟩, .leaf "n")] result calls := by
  refine Machine.not_parses_of_goes_on
    (P := fun m => ∃ v handled, m = ⟨[2, 0], [v], [], handled⟩ ∨ m = ⟨[3, 0], [v], [], handled⟩)
    ?_ 2 rfl ⟨.vec [.leaf "n"], [], .inl rfl⟩ result calls
  rintro m ⟨v, handled, rfl | rfl⟩
  · exact ⟨_, rfl, .none, 0 :: handled, .inr rfl⟩
  · exact ⟨_, rfl, .vec [v], handled, .inl rfl⟩

end UnitCycle

namespace EmptyPrefix

/-- Before `t` an empty `X` is preferred. -/
def builder : Builder Value :=
  Command.runAll
    [.terminal "t", .nonTerminal "A", .nonTerminal "X", .setStart (.name "A") {},
      .rule (.name "X") [] { priority := some 2 },
      .rule (.name "A") [.name "X", .name "A"] {},
      .rule (.name "A") [.name "t"] { priority := some 1 }]
    ⟨⟨⟨0⟩, [⟨Builder.defaultStart, .start⟩, ⟨Builder.defaultEos, .eos⟩]⟩, []⟩

def table : Table := builder.build.table?.toOption.getD ⟨0, [], [], []⟩

theorem authored : builder.Authored :=
  ⟨⟨0⟩, Builder.defaultStart, Builder.defaultEos, _, _, rfl, rfl⟩

theorem productive : builder.build.Productive :=
  Grammar.productive_of_rank authored.wellFormed.build
    (fun n => if n = builder.build.start then 1 else 0) (by decide +kernel)

set_option maxRecDepth 2000 in
/-- Before `t` the machine makes more and more of the empty symbols. -/
theorem not_parses (result : Except ParseError Value) (calls : List RuleId) :
    ¬Parses builder.build table.tabular [(⟨⟨0⟩, 2⟩, .leaf "t")] result calls := by
  refine Machine.not_parses_of_goes_on
    (P := fun m => ∃ below values, m = ⟨3 :: below, values, [(⟨⟨0⟩, 2⟩, .leaf "t")], []⟩)
    ?_ 1 rfl ⟨[0], [.vec []], rfl⟩ result calls
  rintro m ⟨below, values, rfl⟩
  exact ⟨_, rfl, 3 :: below, .vec [] :: values, rfl⟩

end EmptyPrefix

/-- Neither kind of recursion may be left in: of each there is a grammar whose non-terminals all
derive something, with a table that priorities make, by which some parsing never ends. -/
theorem priorities_go_round :
    (UnitCycle.builder.Authored ∧ UnitCycle.builder.build.Productive ∧
      UnitCycle.builder.build.table? = .ok UnitCycle.table ∧
      ∀ result calls, ¬Parses UnitCycle.builder.build UnitCycle.table.tabular
        [(⟨⟨0⟩, 2⟩, .leaf "n")] result calls) ∧
    (EmptyPrefix.builder.Authored ∧ EmptyPrefix.builder.build.Productive ∧
      EmptyPrefix.builder.build.table? = .ok EmptyPrefix.table ∧
      ∀ result calls, ¬Parses EmptyPrefix.builder.build EmptyPrefix.table.tabular
        [(⟨⟨0⟩, 2⟩, .leaf "t")] result calls) :=
  ⟨⟨UnitCycle.authored, UnitCycle.productive, rfl, UnitCycle.not_parses⟩,
    ⟨EmptyPrefix.authored, EmptyPrefix.productive, rfl, EmptyPrefix.not_parses⟩⟩

end CanonicalLR
