import CanonicalLR.Proofs.Grouping
import CanonicalLR.Proofs.OpenRules
import CanonicalLR.Proofs.Settling

/-!
The tables of grammars of binary operators. The stack holds operators that wait for
their right operand, each with its left one below it, and maybe an operand on top; this
says all that is asked for in the state. A conflict is only between two operators, one
waiting with its right operand on top and one that comes next; so there is a table just
if all operators are decided.
-/
namespace CanonicalLR

open Machine

variable {V : Type} {g : Grammar V} {o : Operators V}

namespace Operators

/-! ### The rules -/

namespace Describes

variable (h : o.Describes g)
include h

theorem top_mem : o.top ∈ g.rules := (h.rules _).mpr (.inl rfl)

theorem atom_mem : o.atom ∈ g.rules := (h.rules _).mpr (.inr (.inl rfl))

theorem binary_mem (i : Fin o.count) : o.binary i ∈ g.rules :=
  (h.rules _).mpr (.inr (.inr ⟨i, rfl⟩))

/-- The rules for expressions are those for an operand alone and for the operators. -/
theorem of_head {r : Rule V} (mem : r ∈ g.rules) (head : r.head = o.expression) :
    r = o.atom ∨ ∃ i, r = o.binary i := by
  refine ((h.rules r).mp mem).resolve_left ?_
  rintro rfl
  exact h.inner (head.symm.trans h.top_head)

theorem eq_top {r : Rule V} (mem : r ∈ g.rules) (head : r.head = g.start) : r = o.top := by
  refine ((h.rules r).mp mem).resolve_right ?_
  rintro (rfl | ⟨i, rfl⟩)
  · exact h.inner (h.atom_head.symm.trans head)
  · exact h.inner ((h.binary_head i).symm.trans head)

theorem rulesOf_start (wf : g.WellFormed) : g.rulesOf g.start = [o.top] := by
  have mem : o.top ∈ g.rulesOf g.start := g.mem_rulesOf.mpr ⟨h.top_mem, h.top_head⟩
  have only : ∀ r ∈ g.rulesOf g.start, r = o.top := fun r mem =>
    (g.mem_rulesOf.mp mem).elim h.eq_top
  have distinct : (g.rulesOf g.start).Nodup := wf.nodup_rules.filter _
  match hr : g.rulesOf g.start with
  | [] => simp [hr] at mem
  | [r] => rw [only r (by simp [hr])]
  | r :: r' :: rest =>
    have same : r = r' := (only r (by simp [hr])).trans (only r' (by simp [hr])).symm
    simp [hr, same] at distinct

theorem operator_ne_eos (wf : g.WellFormed) (i : Fin o.count) : o.operator i ≠ g.eos := by
  intro same
  refine wf.eos_not_mem_body _ (h.binary_mem i) ?_
  simp [h.binary_body, same]

end Describes

/-! ### Places -/

/-- Expressions each with an operator behind it, the latest in front. -/
def waiting (o : Operators V) : List (Fin o.count) → List Symbol
  | [] => []
  | i :: is => .terminal (o.operator i) :: .nonTerminal o.expression :: o.waiting is

/-- Where the parser can be, behind operators that wait for their right operands, the latest in
front. -/
inductive Place (o : Operators V) where
  /-- An operand has to come. -/
  | before (is : List (Fin o.count))
  /-- There is an operand that is not an expression yet. -/
  | operand (is : List (Fin o.count))
  /-- There is an expression. -/
  | after (is : List (Fin o.count))

/-- The symbols on the stack, the latest in front. -/
def Place.stack : Place o → List Symbol
  | before is => o.waiting is
  | operand is => .terminal o.operand :: o.waiting is
  | after is => .nonTerminal o.expression :: o.waiting is

/-- The latest of what is waiting is an operator. -/
theorem waiting_ne {is : List (Fin o.count)} {n : NonTerminal} {string : List Symbol} :
    o.waiting is ≠ .nonTerminal n :: string := by
  cases is <;> exact nofun

theorem waiting_injective (distinct : Function.Injective o.operator) {is js : List (Fin o.count)}
    (same : o.waiting is = o.waiting js) : is = js := by
  induction is generalizing js with
  | nil => cases js with
    | nil => rfl
    | cons j js => cases same
  | cons i is ih => cases js with
    | nil => cases same
    | cons j js =>
      simp only [waiting, List.cons.injEq, Symbol.terminal.injEq, true_and] at same
      rw [distinct same.1, ih same.2]

/-- The stack tells the place. -/
theorem Place.stack_injective (distinct : Function.Injective o.operator) {place place' : Place o}
    (same : place.stack = place'.stack) : place = place' := by
  -- an operator may be the same terminal as an operand, but it has an expression below it
  have half {is js : List (Fin o.count)} : o.waiting is ≠ .terminal o.operand :: o.waiting js := by
    cases is with
    | nil => exact nofun
    | cons i is => exact fun same => waiting_ne (List.cons.inj same).2.symm
  cases place with
  | before is => cases place' with
    | before js => exact congrArg before (waiting_injective distinct same)
    | operand js => exact absurd same half
    | after js => exact absurd same waiting_ne
  | operand is => cases place' with
    | before js => exact absurd same.symm half
    | operand js => exact congrArg operand (waiting_injective distinct (List.cons.inj same).2)
    | after js => cases same
  | after is => cases place' with
    | before js => exact absurd same.symm waiting_ne
    | operand js => cases same
    | after js => exact congrArg after (waiting_injective distinct (List.cons.inj same).2)

/-- The terminals that can come behind an expression. -/
def Follows (o : Operators V) (g : Grammar V) (a : Terminal) : Prop :=
  a = g.eos ∨ ∃ i, a = o.operator i

namespace Describes

variable (h : o.Describes g)
include h

/-- Behind all waiting operators every expression can begin, with whatever can come behind it. -/
theorem opens_of_head {r : Rule V} (mem : r ∈ g.rules) (head : r.head = o.expression) {a : Terminal}
    (follows : o.Follows g a) (is : List (Fin o.count)) :
    g.Opens (o.waiting is).reverse r a := by
  have start : g.Opens [] o.top g.eos := .start (g.mem_rulesOf.mpr ⟨h.top_mem, h.top_head⟩)
  -- at the very beginning
  have first {r : Rule V} (mem : r ∈ g.rules) (head : r.head = o.expression) :
      g.Opens [] r g.eos :=
    .inside start (by rw [h.top_body, head]; rfl : o.top.body = [] ++ .nonTerminal r.head :: [])
      mem (by simp)
  induction is generalizing r with
  | nil =>
    rcases follows with rfl | ⟨i, rfl⟩
    · exact first mem head
    · have body : (o.binary i).body = [] ++ .nonTerminal r.head ::
          [.terminal (o.operator i), .nonTerminal o.expression] := by
        rw [h.binary_body, head]
        rfl
      exact .inside (first (h.binary_mem i) (h.binary_head i)) body mem (by simp)
  | cons i is ih =>
    have outer := ih (h.binary_mem i) (h.binary_head i)
    have body : (o.binary i).body = [.nonTerminal o.expression, .terminal (o.operator i)] ++
        .nonTerminal r.head :: [] := by
      rw [h.binary_body, head]
      rfl
    have inner := Grammar.Opens.inside (b := a) outer body mem (by simp)
    simpa [waiting] using inner

/-- Nothing else begins anywhere. -/
theorem of_opens {string : List Symbol} {r : Rule V} {a : Terminal} (opens : g.Opens string r a) :
    (r = o.top ∧ string = [] ∧ a = g.eos) ∨
      r.head = o.expression ∧ o.Follows g a ∧ ∃ is, string = (o.waiting is).reverse := by
  induction opens with
  | start mem =>
    have ⟨among, head⟩ := g.mem_rulesOf.mp mem
    exact .inl ⟨h.eq_top among head, rfl, rfl⟩
  | @inside string front back outer inner a b opens body mem follows ih =>
    refine .inr ?_
    rcases ih with ⟨rfl, rfl, rfl⟩ | ⟨head, before, is, rfl⟩
    · rw [h.top_body] at body
      cases front with
      | nil =>
        obtain ⟨head, rfl⟩ := List.cons.inj body
        exact ⟨(Symbol.nonTerminal.inj head).symm, .inl (by simpa using follows), [], rfl⟩
      | cons x front => simp at body
    · rcases h.of_head opens.mem head with rfl | ⟨i, rfl⟩
      · rw [h.atom_body] at body
        cases front <;> simp at body
      · rw [h.binary_body] at body
        match front with
        | [] =>
          obtain ⟨head, rfl⟩ := List.cons.inj body
          exact ⟨(Symbol.nonTerminal.inj head).symm, .inr ⟨i, by simpa using follows⟩, is,
            List.append_nil _⟩
        | [x] => simp at body
        | [x, y] =>
          simp only [List.cons_append, List.nil_append, List.cons.injEq,
            Symbol.nonTerminal.injEq] at body
          obtain ⟨rfl, rfl, head, rfl⟩ := body
          refine ⟨head.symm, ?_, i :: is, by simp [waiting]⟩
          rwa [g.mem_firstWith_nil.mp follows]
        | x :: y :: z :: front => simp at body

end Describes

/-! ### What is asked for -/

/-- To be done with an operator that has its right operand. -/
def reduceBid (o : Operators V) (i : Fin o.count) : Bid :=
  ⟨(o.binary i).id, 3, .reduce (o.binary i).id⟩

/-- To read an operator. -/
def shiftBid (o : Operators V) (i : Fin o.count) (target : StateId) : Bid :=
  ⟨(o.binary i).id, 1, .shift target⟩

theorem action_ne (i k : Fin o.count) (target : StateId) :
    (o.reduceBid i).action ≠ (o.shiftBid k target).action := nofun

/-- What is asked for at a place under a terminal, in the state with this number. -/
inductive Asks (o : Operators V) (g : Grammar V) (c : Collection) (id : StateId) :
    Place o → Terminal → Bid → Prop where
  | operand {is : List (Fin o.count)} {a : Terminal} {target : StateId} (next : a = o.operand)
    (edge : c.target? id (.terminal a) = some target) :
    Asks o g c id (.before is) a ⟨o.atom.id, 0, .shift target⟩
  | atom {is : List (Fin o.count)} {a : Terminal} (follows : o.Follows g a) :
    Asks o g c id (.operand is) a ⟨o.atom.id, 1, .reduce o.atom.id⟩
  | top {a : Terminal} (next : a = g.eos) : Asks o g c id (.after []) a ⟨o.top.id, 1, .accept⟩
  | operator {is : List (Fin o.count)} {i : Fin o.count} {a : Terminal} {target : StateId}
    (next : a = o.operator i) (edge : c.target? id (.terminal a) = some target) :
    Asks o g c id (.after is) a (o.shiftBid i target)
  | binary {is : List (Fin o.count)} {i : Fin o.count} {a : Terminal} (follows : o.Follows g a) :
    Asks o g c id (.after (i :: is)) a (o.reduceBid i)

namespace Describes

variable (h : o.Describes g) {c : Collection} {T : Table} {id : StateId} {below : List StateId}
  {state : State}
include h

/-- An item before a terminal asks to shift an operand or an operator. -/
theorem asks_of_terminal {i : Item} {r : Rule V} {left front back : List Symbol} {t : Terminal}
    {target : StateId} (opens : g.Opens left r i.lookahead) (number : i.rule = r.id)
    (body : r.body = front ++ .terminal t :: back) (size : front.length = i.position)
    (edge : c.target? id (.terminal t) = some target) :
    ∃ place : Place o, place.stack = (left ++ front).reverse ∧
      o.Asks g c id place t ⟨i.rule, i.position, .shift target⟩ := by
  rw [number, ← size]
  rcases h.of_opens opens with ⟨rfl, _⟩ | ⟨head, _, is, rfl⟩
  · rw [h.top_body] at body
    cases front <;> simp at body
  · rcases h.of_head opens.mem head with rfl | ⟨k, rfl⟩
    · rw [h.atom_body] at body
      cases front with
      | nil =>
        have same : t = o.operand := by simpa [eq_comm] using (List.cons.inj body).1
        exact ⟨.before is, by simp [Place.stack], .operand same edge⟩
      | cons x front => simp at body
    · rw [h.binary_body] at body
      match front with
      | [] => simp at body
      | [x] =>
        obtain ⟨rfl, rest⟩ := List.cons.inj body
        have same : t = o.operator k := by simpa [eq_comm] using (List.cons.inj rest).1
        exact ⟨.after is, by simp [Place.stack], .operator same edge⟩
      | [x, y] => simp at body
      | x :: y :: z :: front => simp at body

/-- The item at the end of the start rule asks to accept, and one at the end of another rule to
reduce. -/
theorem asks_of_final (c : Collection) (id : StateId) {i : Item} {r : Rule V} {left : List Symbol}
    (opens : g.Opens left r i.lookahead) (number : i.rule = r.id)
    (size : r.body.length = i.position) :
    ∃ place : Place o, place.stack = (left ++ r.body).reverse ∧
      ((r.head = g.start ∧ i.lookahead = g.eos →
        o.Asks g c id place i.lookahead ⟨i.rule, i.position, .accept⟩) ∧
      (¬(r.head = g.start ∧ i.lookahead = g.eos) →
        o.Asks g c id place i.lookahead ⟨i.rule, i.position, .reduce i.rule⟩)) := by
  rw [number, ← size]
  rcases h.of_opens opens with ⟨rfl, rfl, ends⟩ | ⟨head, follows, is, rfl⟩
  · rw [h.top_body]
    exact ⟨.after [], rfl, fun _ => .top ends, fun inner => absurd ⟨h.top_head, ends⟩ inner⟩
  · have inner : ¬(r.head = g.start ∧ i.lookahead = g.eos) := fun start =>
      h.inner (head.symm.trans start.1)
    rcases h.of_head opens.mem head with rfl | ⟨k, rfl⟩
    · rw [h.atom_body]
      exact ⟨.operand is, by simp [Place.stack], fun start => absurd start inner,
        fun _ => .atom follows⟩
    · rw [h.binary_body]
      exact ⟨.after (k :: is), by simp [Place.stack, waiting], fun start => absurd start inner,
        fun _ => .binary follows⟩

/-- All proposals of a state are for what is asked at the place to which the path leads. -/
theorem asks_of_mem (wf : g.WellFormed) (built : c.Built g o.top) {string : List Symbol}
    (path : c.Path (id :: below) string) (hs : c.state? id = some state) {p : Proposal}
    (mem : p ∈ state.proposals) :
    ∃ place : Place o, place.stack = string ∧ o.Asks g c id place p.terminal p.bid := by
  rw [(built.visited id state hs).proposals] at mem
  obtain ⟨i, hi, proposes⟩ := State.mem_proposalsOf.mp mem
  have start : o.top ∈ g.rulesOf g.start := g.mem_rulesOf.mpr ⟨h.top_mem, h.top_head⟩
  obtain ⟨r, left, front, back, found, body, size, split, opens⟩ :=
    path.open wf start built rfl hs i hi
  have number := (wf.mem_of_rule? found).2.symm
  have next := i.symbol?_eq_head? found body size
  rw [← string.reverse_reverse, split]
  rcases State.proposal?_eq_some.mp proposes with
    ⟨t, target, dot, edge, rfl⟩ | ⟨final, top, rfl⟩ | ⟨final, other, rfl⟩
  · obtain ⟨back, rfl⟩ := List.head?_eq_some_iff.mp (next.symm.trans dot)
    have edge' : c.target? id (.terminal t) = some target := by
      rw [Collection.target?, hs]
      exact edge
    exact h.asks_of_terminal opens number body size edge'
  all_goals
    have none : back = [] := List.head?_eq_none_iff.mp (next.symm.trans final)
    rw [none, List.append_nil] at body
    subst body
    obtain ⟨place, stack, accepts, reduces⟩ := h.asks_of_final c id opens number size
  · exact ⟨place, stack, accepts (by simpa [found] using top)⟩
  · exact ⟨place, stack, reduces (by simpa [found] using other)⟩

/-- The item of a rule for expressions that began behind operators that wait. -/
theorem open_of_head (wf : g.WellFormed) {r : Rule V} (mem : r ∈ g.rules)
    (head : r.head = o.expression) {a : Terminal} (follows : o.Follows g a)
    (is : List (Fin o.count)) {front back : List Symbol} (body : r.body = front ++ back) :
    Item.Open g ((o.waiting is).reverse ++ front) ⟨r.id, front.length, a⟩ :=
  ⟨r, _, front, back, wf.rule?_of_mem mem, body, rfl, rfl, h.opens_of_head mem head follows is⟩

/-- From before a terminal in the body of a rule for expressions there is a transition over it. -/
theorem exists_target (made : T.Made g o.top c) {r : Rule V} (mem : r ∈ g.rules)
    (head : r.head = o.expression) (is : List (Fin o.count)) (front : List Symbol)
    {back : List Symbol} {t : Terminal} (body : r.body = front ++ .terminal t :: back)
    (path : c.Path (id :: below) ((o.waiting is).reverse ++ front).reverse) :
    ∃ target, c.target? id (.terminal t) = some target :=
  (h.open_of_head made.wf mem head (.inl rfl) is body).exists_target made.collection path
    (Item.symbol?_eq_head? ⟨r.id, front.length, g.eos⟩ (made.wf.rule?_of_mem mem) body rfl)

/-- Before a terminal in the body of a rule for expressions, it is proposed to shift. -/
theorem mem_of_terminal (made : T.Made g o.top c) {r : Rule V} (mem : r ∈ g.rules)
    (head : r.head = o.expression) (is : List (Fin o.count)) (front : List Symbol)
    {back : List Symbol} {t : Terminal} (body : r.body = front ++ .terminal t :: back)
    (path : c.Path (id :: below) ((o.waiting is).reverse ++ front).reverse)
    (hs : c.state? id = some state) {target : StateId}
    (edge : c.target? id (.terminal t) = some target) :
    ∃ p ∈ state.proposals, p.terminal = t ∧ p.bid = ⟨r.id, front.length, .shift target⟩ := by
  have here := h.open_of_head made.wf mem head (.inl rfl) is body
  rw [Collection.target?, hs] at edge
  have next := Item.symbol?_eq_head? ⟨r.id, front.length, g.eos⟩ (made.wf.rule?_of_mem mem) body rfl
  exact ⟨_, here.mem_proposals made.collection path hs
    (State.proposal?_eq_some.mpr (.inl ⟨t, target, next, edge, rfl⟩)), rfl, rfl⟩

/-- Behind the body of a rule for expressions, it is proposed to reduce. -/
theorem mem_of_end (made : T.Made g o.top c) {r : Rule V} (mem : r ∈ g.rules)
    (head : r.head = o.expression) (is : List (Fin o.count)) {a : Terminal}
    (follows : o.Follows g a)
    (path : c.Path (id :: below) ((o.waiting is).reverse ++ r.body).reverse)
    (hs : c.state? id = some state) :
    ∃ p ∈ state.proposals, p.terminal = a ∧ p.bid = ⟨r.id, r.body.length, .reduce r.id⟩ := by
  have body : r.body = r.body ++ [] := (List.append_nil _).symm
  have found := made.wf.rule?_of_mem mem
  have here := h.open_of_head made.wf mem head follows is body
  have final := Item.symbol?_eq_head? ⟨r.id, r.body.length, a⟩ found body rfl
  have inner : (g.rule? r.id).map Rule.head ≠ some g.start := by
    rw [found, Option.map_some, head]
    exact fun same => h.inner (Option.some.inj same)
  exact ⟨_, here.mem_proposals made.collection path hs
    (State.proposal?_eq_some.mpr (.inr (.inr ⟨final, fun start => inner start.1, rfl⟩))), rfl, rfl⟩

/-- Whatever is asked at the place to which the path leads, the state has a proposal for. -/
theorem mem_of_asks (made : T.Made g o.top c) {place : Place o}
    (path : c.Path (id :: below) place.stack) (hs : c.state? id = some state) {a : Terminal}
    {b : Bid} (asks : o.Asks g c id place a b) :
    ∃ p ∈ state.proposals, p.terminal = a ∧ p.bid = b := by
  cases asks with
  | @operand is a target next edge =>
    exact next ▸ h.mem_of_terminal made h.atom_mem h.atom_head is [] h.atom_body
      (by simpa [Place.stack] using path) hs (next ▸ edge)
  | @atom is a follows =>
    have there := h.mem_of_end made h.atom_mem h.atom_head is follows
      (by simpa [Place.stack, h.atom_body] using path) hs
    rwa [h.atom_body] at there
  | @top a next =>
    have body : o.top.body = [.nonTerminal o.expression] ++ [] := h.top_body
    have found := made.wf.rule?_of_mem h.top_mem
    have here : Item.Open g [.nonTerminal o.expression] ⟨o.top.id, 1, g.eos⟩ :=
      ⟨o.top, [], _, [], found, body, rfl, rfl, .start made.start_mem⟩
    have final := Item.symbol?_eq_head? ⟨o.top.id, 1, g.eos⟩ found body rfl
    exact ⟨_, here.mem_proposals made.collection path hs
      (State.proposal?_eq_some.mpr (.inr (.inl ⟨final, ⟨by simp [found, h.top_head], rfl⟩, rfl⟩))),
      next.symm, rfl⟩
  | @operator is i a target next edge =>
    exact next ▸ h.mem_of_terminal made (h.binary_mem i) (h.binary_head i) is
      [.nonTerminal o.expression] (h.binary_body i)
      (by simpa [Place.stack] using path) hs (next ▸ edge)
  | @binary is i a follows =>
    have there := h.mem_of_end made (h.binary_mem i) (h.binary_head i) is follows
      (by simpa [Place.stack, waiting, h.binary_body] using path) hs
    rwa [h.binary_body] at there

/-- At a place all proposals are for what is asked there. -/
theorem asks_at (wf : g.WellFormed) (built : c.Built g o.top) {place : Place o}
    (path : c.Path (id :: below) place.stack) (hs : c.state? id = some state) {p : Proposal}
    (mem : p ∈ state.proposals) : o.Asks g c id place p.terminal p.bid := by
  obtain ⟨place', same, asks⟩ := h.asks_of_mem wf built path hs mem
  exact place'.stack_injective h.distinct same ▸ asks

/-! ### Conflicts -/

/-- Two different bids at a place are those of a waiting operator and of one that comes next. -/
theorem eq_or_conflict (wf : g.WellFormed) {place : Place o} {a : Terminal} {b b' : Bid}
    (first : o.Asks g c id place a b) (second : o.Asks g c id place a b') :
    b = b' ∨ ∃ i is k target, place = .after (i :: is) ∧ a = o.operator k ∧
      c.target? id (.terminal (o.operator k)) = some target := by
  cases first with
  | operand _ edge => cases second with
    | operand _ edge' =>
      cases edge.symm.trans edge'
      exact .inl rfl
  | atom _ => cases second with
    | atom _ => exact .inl rfl
  | top next => cases second with
    | top _ => exact .inl rfl
    | operator next' _ => exact absurd (next'.symm.trans next) (h.operator_ne_eos wf _)
  | operator next edge => cases second with
    | top next' => exact absurd (next.symm.trans next') (h.operator_ne_eos wf _)
    | operator next' edge' =>
      cases h.distinct (next.symm.trans next')
      cases edge.symm.trans edge'
      exact .inl rfl
    | binary _ => exact .inr ⟨_, _, _, _, rfl, next, next ▸ edge⟩
  | binary _ => cases second with
    | operator next edge => exact .inr ⟨_, _, _, _, rfl, next, next ▸ edge⟩
    | binary _ => exact .inl rfl

/-- Behind the right operand of a waiting operator there are only these two bids. -/
theorem eq_of_asks {i k : Fin o.count} {is : List (Fin o.count)} {target : StateId}
    (edge : c.target? id (.terminal (o.operator k)) = some target) {b : Bid}
    (asks : o.Asks g c id (.after (i :: is)) (o.operator k) b) :
    b = o.reduceBid i ∨ b = o.shiftBid k target := by
  cases asks with
  | operator next edge' =>
    cases h.distinct next
    cases edge.symm.trans edge'
    exact .inr rfl
  | binary _ => exact .inl rfl

theorem priority?_binary (wf : g.WellFormed) (i : Fin o.count) :
    g.priority? (o.binary i).id = (o.binary i).priority := by
  simp [Grammar.priority?, wf.rule?_of_mem (h.binary_mem i)]

theorem associativity?_binary (wf : g.WellFormed) (i : Fin o.count) :
    g.associativity? (o.binary i).id = (o.binary i).associativity := by
  simp [Grammar.associativity?, wf.rule?_of_mem (h.binary_mem i)]

variable {i k : Fin o.count}

/-- Whatever the operator that comes next may have for its left operand is finished first. -/
theorem reduceBid_beats (wf : g.WellFormed) (decided : o.Decided) (groups : o.Groups k i .left)
    (target : StateId) : (o.reduceBid i).Beats g (o.shiftBid k target) := by
  obtain ⟨p, q, hp, hq, above⟩ := groups
  refine ⟨q, p, (h.priority?_binary wf i).trans hq, (h.priority?_binary wf k).trans hp, ?_⟩
  refine above.imp_right fun ⟨same, left⟩ => ⟨same.symm, .left, ?_, ?_, ?_⟩
  · have agree := decided.agree i k (by rw [hp, hq, same])
    exact (h.associativity?_binary wf i).trans (agree.trans left)
  · exact (h.associativity?_binary wf k).trans left
  · exact (by decide : 1 < 3)

/-- What the waiting operator may have for its right operand is read on. -/
theorem shiftBid_beats (wf : g.WellFormed) (decided : o.Decided) (groups : o.Groups i k .right)
    (target : StateId) : (o.shiftBid k target).Beats g (o.reduceBid i) := by
  obtain ⟨p, q, hp, hq, above⟩ := groups
  refine ⟨q, p, (h.priority?_binary wf k).trans hq, (h.priority?_binary wf i).trans hp, ?_⟩
  refine above.imp_right fun ⟨same, right⟩ => ⟨same.symm, .right, ?_, ?_, ?_⟩
  · have agree := decided.agree k i (by rw [hp, hq, same])
    exact (h.associativity?_binary wf k).trans (agree.trans right)
  · exact (h.associativity?_binary wf i).trans right
  · exact (by decide : 1 < 3)

/-- Where one of the two bids of every pair of operators beats the other, all are decided. -/
theorem decided_of_beats (wf : g.WellFormed)
    (beats : ∀ i k, ∃ target, (o.reduceBid i).Beats g (o.shiftBid k target) ∨
      (o.shiftBid k target).Beats g (o.reduceBid i)) : o.Decided := by
  -- both bids say the same of the rules
  have known (i k : Fin o.count) : ∃ p q, (o.binary i).priority = some p ∧
      (o.binary k).priority = some q ∧ (p = q → ∃ side, (o.binary i).associativity = some side ∧
        (o.binary k).associativity = some side) := by
    rw [← h.priority?_binary wf, ← h.priority?_binary wf, ← h.associativity?_binary wf,
      ← h.associativity?_binary wf]
    obtain ⟨target, ⟨p, q, hp, hq, above⟩ | ⟨p, q, hp, hq, above⟩⟩ := beats i k
    · refine ⟨p, q, hp, hq, fun same => ?_⟩
      obtain ⟨_, side, hi, hk, _⟩ := above.resolve_left (by omega)
      exact ⟨side, hi, hk⟩
    · refine ⟨q, p, hq, hp, fun same => ?_⟩
      obtain ⟨_, side, hk, hi, _⟩ := above.resolve_left (by omega)
      exact ⟨side, hi, hk⟩
  refine ⟨fun i => ?_, fun i => ?_, fun i k same => ?_⟩
  · obtain ⟨p, _, hp, _⟩ := known i i
    simp [hp]
  · obtain ⟨p, q, hp, hq, side⟩ := known i i
    obtain ⟨side, hs, _⟩ := side (Option.some.inj (hp.symm.trans hq))
    simp [hs]
  · obtain ⟨p, q, hp, hq, side⟩ := known i k
    obtain ⟨side, hi, hk⟩ := side (Option.some.inj (hp.symm.trans (same.trans hq)))
    rw [hi, hk]

/-! ### Tables -/

/-- Where all operators are decided every state settles under every terminal. -/
theorem settles (wf : g.WellFormed) (decided : o.Decided) (built : c.Built g o.top)
    (hs : c.state? id = some state) (t : Terminal) :
    ∃ verdict, state.settle g id t = .ok verdict := by
  obtain ⟨below, string, path⟩ := built.exists_path (h.rulesOf_start wf) hs
  have agree (a : Action) (only : ∀ p ∈ state.proposals, p.terminal = t → p.action = a) :
      ∃ verdict, state.settle g id t = .ok verdict :=
    (State.settle_of_forall only id).imp fun _ settled => settled.1
  by_cases some : ∃ p ∈ state.proposals, p.terminal = t
  · obtain ⟨p, mem, rfl⟩ := some
    obtain ⟨place, rfl, asks⟩ := h.asks_of_mem wf built path hs mem
    have others {q : Proposal} (mem : q ∈ state.proposals) (under : q.terminal = p.terminal) :
        o.Asks g c id place p.terminal q.bid := under ▸ h.asks_at wf built path hs mem
    by_cases conflict : ∃ i is k target, place = .after (i :: is) ∧ p.terminal = o.operator k ∧
        c.target? id (.terminal (o.operator k)) = some target
    · obtain ⟨i, is, k, target, rfl, next, edge⟩ := conflict
      have beats : (o.reduceBid i).Beats g (o.shiftBid k target) ∨
          (o.shiftBid k target).Beats g (o.reduceBid i) :=
        (decided.groups_or k i).imp (fun groups => h.reduceBid_beats wf decided groups target)
          (fun groups => h.shiftBid_beats wf decided groups target)
      refine State.exists_settle_of_or (action_ne i k target) (fun q mem under => ?_) beats id
      exact h.eq_of_asks edge (next ▸ others mem under)
    · refine agree p.action fun q mem under => ?_
      have same := (h.eq_or_conflict wf (others mem under) asks).resolve_right conflict
      exact congrArg Bid.action same
  · exact agree .error fun p mem under => absurd ⟨p, mem, under⟩ some

variable {is : List (Fin o.count)}

/-- Behind the right operand of a waiting operator, that operator contests with the next one. -/
theorem exists_contest (made : T.Made g o.top c)
    (path : c.Path (id :: below) (Place.after (i :: is)).stack) (hs : c.state? id = some state)
    (k : Fin o.count) :
    ∃ target, state.Contest (o.operator k) (o.reduceBid i) (o.shiftBid k target) := by
  obtain ⟨target, edge⟩ := h.exists_target made (h.binary_mem k) (h.binary_head k) (i :: is)
    [.nonTerminal o.expression] (h.binary_body k) (by simpa [Place.stack] using path)
  refine ⟨target, action_ne i k target, ?_, ?_, fun p mem under => ?_⟩
  · exact h.mem_of_asks made path hs (.binary (.inr ⟨k, rfl⟩))
  · exact h.mem_of_asks made path hs (.operator rfl edge)
  · exact h.eq_of_asks edge (under ▸ h.asks_at made.wf made.built path hs mem)

/-- A table is made only if all operators are decided. -/
theorem decided_of_made (made : T.Made g o.top c) : o.Decided := by
  refine h.decided_of_beats made.wf fun i k => ?_
  have opens := h.opens_of_head (h.binary_mem i) (h.binary_head i) (.inl rfl) []
  obtain ⟨ids, path⟩ := opens.exists_path made.collection (List.append_nil _).symm
  have place : ((o.waiting []).reverse ++ (o.binary i).body).reverse =
      (Place.after [i] : Place o).stack := by
    rw [h.binary_body]
    rfl
  rw [place] at path
  obtain ⟨id, below, rfl⟩ := path.exists_top
  obtain ⟨state, _, hs, _⟩ := path.exists_close made.built
  obtain ⟨target, contest⟩ := h.exists_contest made path hs k
  obtain ⟨verdict, settled, _⟩ := made.follows.action id state hs (o.operator k)
  exact ⟨target, contest.beats settled⟩

theorem of_table? (wf : g.WellFormed) (table : g.table? = .ok T) : ∃ c, T.Made g o.top c := by
  obtain ⟨c, rule, _, made⟩ := g.of_table? wf table
  cases made.start.symm.trans (h.rulesOf_start wf)
  exact ⟨c, made⟩

/-- There is a table just if all operators are decided. -/
theorem exists_table?_iff (wf : g.WellFormed) : (∃ T, g.table? = .ok T) ↔ o.Decided := by
  constructor
  · rintro ⟨T, table⟩
    obtain ⟨c, made⟩ := h.of_table? wf table
    exact h.decided_of_made made
  · intro decided
    exact g.exists_table? wf (h.rulesOf_start wf) h.top_body fun c built id state hs t =>
      h.settles wf decided built hs t

/-! ### Actions -/

/-- Where there is no conflict the table says what is asked for. -/
theorem action_of_asks (made : T.Made g o.top c) {place : Place o}
    (path : c.Path (id :: below) place.stack) {a : Terminal} {b : Bid}
    (asks : o.Asks g c id place a b)
    (clear : ∀ i is k, place = .after (i :: is) → a ≠ o.operator k) : T.action id a = b.action := by
  obtain ⟨state, _, hs, _⟩ := path.exists_close made.built
  obtain ⟨p, mem, rfl, rfl⟩ := h.mem_of_asks made path hs asks
  refine made.follows.action_of_forall hs ⟨p, mem, rfl⟩ fun q mem' under => ?_
  have asks' := under ▸ h.asks_at made.wf made.built path hs mem'
  refine congrArg Bid.action ((h.eq_or_conflict made.wf asks' asks).resolve_right ?_)
  rintro ⟨i, is, k, _, place, next, _⟩
  exact clear i is k place next

/-- An operand is shifted. -/
theorem shifts_operand (made : T.Made g o.top c)
    (path : c.Path (id :: below) (Place.before is).stack) :
    ∃ target, T.action id o.operand = .shift target := by
  obtain ⟨target, edge⟩ := h.exists_target made h.atom_mem h.atom_head is []
    h.atom_body (by simpa [Place.stack] using path)
  exact ⟨target, h.action_of_asks made path (.operand rfl edge) nofun⟩

/-- Behind an operand it is finished. -/
theorem reduces_atom (made : T.Made g o.top c)
    (path : c.Path (id :: below) (Place.operand is).stack) {a : Terminal}
    (follows : o.Follows g a) : T.action id a = .reduce o.atom.id :=
  h.action_of_asks made path (.atom follows) nofun

/-- Where no operator waits the end of input is accepted. -/
theorem accepts (made : T.Made g o.top c)
    (path : c.Path (id :: below) (Place.after [] : Place o).stack) :
    T.action id g.eos = .accept :=
  h.action_of_asks made path (.top rfl) nofun

/-- An operator is shifted if the one that waits may have it for its right operand. -/
theorem shifts_operator (made : T.Made g o.top c) (decided : o.Decided)
    (path : c.Path (id :: below) (Place.after is).stack)
    (groups : ∀ i ∈ is.head?, o.Groups i k .right) :
    ∃ target, T.action id (o.operator k) = .shift target := by
  cases is with
  | nil =>
    obtain ⟨target, edge⟩ := h.exists_target made (h.binary_mem k) (h.binary_head k) []
      [.nonTerminal o.expression] (h.binary_body k) path
    exact ⟨target, h.action_of_asks made path (.operator rfl edge) nofun⟩
  | cons i is =>
    obtain ⟨state, _, hs, _⟩ := path.exists_close made.built
    obtain ⟨target, contest⟩ := h.exists_contest made path hs k
    have beats := h.shiftBid_beats made.wf decided (groups i rfl) target
    exact ⟨target, made.follows.action_of_beats hs contest.symm beats⟩

/-- An operator that has its right operand is finished if the next one may have it for its left
operand, or the input ends. -/
theorem reduces_binary (made : T.Made g o.top c) (decided : o.Decided)
    (path : c.Path (id :: below) (Place.after (i :: is)).stack) {a : Terminal}
    (follows : o.Follows g a) (groups : ∀ k, a = o.operator k → o.Groups k i .left) :
    T.action id a = .reduce (o.binary i).id := by
  rcases follows with rfl | ⟨k, rfl⟩
  · refine h.action_of_asks made path (.binary (.inl rfl)) fun _ _ k _ same => ?_
    exact h.operator_ne_eos made.wf k same.symm
  · obtain ⟨state, _, hs, _⟩ := path.exists_close made.built
    obtain ⟨target, contest⟩ := h.exists_contest made path hs k
    have beats := h.reduceBid_beats made.wf decided (groups k rfl) target
    exact made.follows.action_of_beats hs contest beats

end Describes

end Operators

end CanonicalLR
