import CanonicalLR.Proofs.TreeRuns
import CanonicalLR.Proofs.ParserCompleteness

/-!
Which rules may begin after a string, and because of which other rules. Every item of
the state at the end of a path belongs to a rule that began somewhere on the path, so
behind the start rule there is a chain of rules, each begun inside the one before it.
-/
namespace CanonicalLR

open Machine

variable {V : Type} {g : Grammar V} {c : Collection} {rule : Rule V}

/-- After the string this rule may begin and this lookahead come behind it: the start rule at the
very beginning, and inside a rule that has begun every rule for the non-terminal that comes next. -/
inductive Grammar.Opens (g : Grammar V) : List Symbol → Rule V → Terminal → Prop where
  | start {rule : Rule V} (mem : rule ∈ g.rulesOf g.start) : Opens g [] rule g.eos
  | inside {string front back : List Symbol} {outer inner : Rule V} {a b : Terminal}
    (opens : Opens g string outer a) (body : outer.body = front ++ .nonTerminal inner.head :: back)
    (mem : inner ∈ g.rules) (follows : b ∈ g.firstWith back a) :
    Opens g (string ++ front) inner b

namespace Grammar.Opens

variable {string : List Symbol} {r : Rule V} {a : Terminal}

theorem mem (h : g.Opens string r a) : r ∈ g.rules := by
  cases h with
  | start mem => exact (g.mem_rulesOf.mp mem).1
  | inside _ _ mem _ => exact mem

/-- What a rule begins after, and its head behind that, begin something derived from the start
symbol. -/
theorem derives (h : g.Opens string r a) :
    ∃ right, Derives g.rules [.nonTerminal g.start] (string ++ .nonTerminal r.head :: right) := by
  induction h with
  | start mem =>
    refine ⟨[], ?_⟩
    rw [(g.mem_rulesOf.mp mem).2]
    exact .refl
  | @inside string front back outer inner _ _ opens body _ _ ih =>
    obtain ⟨right, derives⟩ := ih
    refine ⟨back ++ right, ?_⟩
    have opened := derives.open_rule opens.mem
    rw [body] at opened
    simpa using opened

end Grammar.Opens

/-- The symbol is in something derived from the start symbol. -/
def Grammar.Reaches (g : Grammar V) (x : Symbol) : Prop :=
  ∃ left right, Derives g.rules [.nonTerminal g.start] (left ++ x :: right)

theorem Grammar.Reaches.of_body {r : Rule V} (h : g.Reaches (.nonTerminal r.head))
    (mem : r ∈ g.rules) {x : Symbol} (inside : x ∈ r.body) : g.Reaches x := by
  obtain ⟨left, right, derives⟩ := h
  obtain ⟨front, back, body⟩ := List.mem_iff_append.mp inside
  refine ⟨left ++ front, back ++ right, ?_⟩
  have opened := derives.open_rule mem
  rw [body] at opened
  simpa using opened

theorem Grammar.Opens.reaches_head {string : List Symbol} {r : Rule V} {a : Terminal}
    (h : g.Opens string r a) : g.Reaches (.nonTerminal r.head) :=
  ⟨string, h.derives⟩

/-- A rule begins only after symbols that the start symbol leads to. -/
theorem Grammar.Opens.reaches {string : List Symbol} {r : Rule V} {a : Terminal}
    (h : g.Opens string r a) : ∀ x ∈ string, g.Reaches x := by
  induction h with
  | start _ => simp
  | inside opens body _ _ ih =>
    intro x hx
    rcases List.mem_append.mp hx with hx | hx
    · exact ih x hx
    · exact opens.reaches_head.of_body opens.mem (by rw [body]; exact List.mem_append_left _ hx)

/-- The symbol after the dot is the first behind what stands before it. -/
theorem Item.symbol?_eq_head? (i : Item) {r : Rule V} (found : g.rule? i.rule = some r)
    {front back : List Symbol} (body : r.body = front ++ back) (size : front.length = i.position) :
    i.symbol? g = back.head? := by
  have whole : g.body i.rule = front ++ back := by simp [Grammar.body, found, body]
  rw [symbol?, whole, ← size, List.getElem?_append_right (Nat.le_refl _), Nat.sub_self,
    List.head?_eq_getElem?]

/-- The string ends with what stands before the dot, and after the rest of it the rule of the item
may begin. -/
structure Item.Open (g : Grammar V) (string : List Symbol) (i : Item) : Prop where
  begins : ∃ (r : Rule V) (left front back : List Symbol), g.rule? i.rule = some r ∧
    r.body = front ++ back ∧ front.length = i.position ∧ string = left ++ front ∧
    g.Opens left r i.lookahead

namespace Item.Open

variable {string : List Symbol} {i j : Item}

theorem initial (wf : g.WellFormed) (mem : rule ∈ g.rulesOf g.start) :
    Open g [] ⟨rule.id, 0, g.eos⟩ :=
  ⟨rule, [], [], rule.body, wf.rule?_of_mem (g.mem_rulesOf.mp mem).1, rfl, rfl, rfl, .start mem⟩

theorem advance (h : Open g string i) {x : Symbol} (next : i.symbol? g = some x) :
    Open g (string ++ [x]) { i with position := i.position + 1 } := by
  obtain ⟨r, left, front, back, found, body, size, rfl, opens⟩ := h
  rw [symbol?_eq_head? i found body size] at next
  obtain ⟨back, rfl⟩ := List.head?_eq_some_iff.mp next
  exact ⟨r, left, front ++ [x], back, found, by simp [body], by simp [size], by simp, opens⟩

theorem expand (wf : g.WellFormed) (h : Open g string i) (called : j ∈ i.expansion g) :
    Open g string j := by
  obtain ⟨r, left, front, back, found, body, size, rfl, opens⟩ := h
  obtain ⟨n, next, inner, hr, b, hb, rfl⟩ := (i.mem_expansion g).mp called
  obtain ⟨mem, rfl⟩ := g.mem_rulesOf.mp hr
  have whole : g.body i.rule = r.body := by simp [Grammar.body, found]
  have split := body_eq_of_symbol? next
  have before : (g.body i.rule).take i.position = front := by
    rw [whole, body, ← size, List.take_left]
  rw [before, whole] at split
  exact ⟨inner, left ++ front, [], inner.body, wf.rule?_of_mem mem, rfl, rfl, by simp,
    .inside opens split mem hb⟩

end Item.Open

theorem Item.Open.reaches {string : List Symbol} {i : Item} (h : i.Open g string) :
    ∀ x ∈ string, g.Reaches x := by
  obtain ⟨r, left, front, back, found, body, size, rfl, opens⟩ := h
  intro x hx
  rcases List.mem_append.mp hx with hx | hx
  · exact opens.reaches x hx
  · exact opens.reaches_head.of_body opens.mem (by rw [body]; exact List.mem_append_left _ hx)

/-- Every item of the state at the end of a path belongs to a rule that began on the path. -/
theorem Collection.Path.open (wf : g.WellFormed) (start : rule ∈ g.rulesOf g.start)
    (built : c.Built g rule) {ids : List StateId} {string : List Symbol}
    (path : c.Path ids string) {id : StateId} {below : List StateId} (top : ids = id :: below)
    {state : State} (hs : c.state? id = some state) :
    ∀ i ∈ state.items, i.Open g string.reverse :=
  path.items_induction built (.initial wf start) (fun _ _ _ h next => h.advance next)
    (fun _ _ _ h called => h.expand wf called) top hs

/-- At the end of a path there is an item, and its rule began on the path. -/
theorem Collection.Path.exists_open (made : c.Made g rule) {ids : List StateId}
    {string : List Symbol} (path : c.Path ids string) :
    ∃ i, At c ids i ∧ i.Open g string.reverse := by
  have open_of_at {i : Item} (here : At c ids i) : i.Open g string.reverse := by
    obtain ⟨id, below, state, _, top, _, hs, hi⟩ := here
    exact path.open made.wf made.start_mem made.built top hs i hi
  cases path with
  | start => exact ⟨_, .initial made, open_of_at (.initial made)⟩
  | push path edge =>
    obtain ⟨state, hs, i, hi, next⟩ := made.built.exists_item_of_target? edge
    have here : At c _ i := ⟨_, _, state, _, rfl, path, hs, hi⟩
    obtain ⟨id, below, target, top, edge', there⟩ := here.push made next
    cases top
    cases edge.symm.trans edge'
    exact ⟨_, there, open_of_at there⟩

namespace Machine.At

/-- Along a path the dot moves over what the path spells. -/
theorem climb (made : c.Made g rule) {r : Rule V} (mem : r ∈ g.rules) {a : Terminal}
    {left front back : List Symbol} (body : r.body = front ++ back) {ids : List StateId}
    (path : c.Path ids (left ++ front).reverse)
    (base : At c (ids.drop front.length) ⟨r.id, 0, a⟩) : At c ids ⟨r.id, front.length, a⟩ := by
  induction front using List.reverseRecOn generalizing back ids with
  | nil => exact base
  | append_singleton front x ih =>
    rw [← List.append_assoc, List.reverse_append, List.reverse_singleton,
      List.singleton_append] at path
    cases path with
    | @push id target below _ _ path edge =>
      rw [List.append_assoc] at body
      have here := ih body path (by simpa using base)
      have next : Item.symbol? g ⟨r.id, front.length, a⟩ = some x := by
        simp [Item.symbol?, made.wf.body_of_mem mem, body]
      obtain ⟨id', below', target', top, edge', there⟩ := here.push made next
      cases top
      cases edge.symm.trans edge'
      simpa using there

/-- At the end of a path after which a rule may begin, the state has the item for that. -/
theorem of_opens (made : c.Made g rule) {string : List Symbol} {r : Rule V} {a : Terminal}
    (opens : g.Opens string r a) {ids : List StateId} (path : c.Path ids string.reverse) :
    At c ids ⟨r.id, 0, a⟩ := by
  induction opens generalizing ids with
  | @start r mem =>
    have only := made.eq_of_head (g.mem_rulesOf.mp mem).1 (g.mem_rulesOf.mp mem).2
    subst only
    cases path
    exact .initial made
  | @inside string front back outer inner a b opens body mem follows ih =>
    have here := climb made opens.mem body path (ih path.drop_append)
    have next : Item.symbol? g ⟨outer.id, front.length, a⟩ = some (.nonTerminal inner.head) := by
      simp [Item.symbol?, made.wf.body_of_mem opens.mem, body]
    have remainder : Item.remainder g ⟨outer.id, front.length, a⟩ = back := by
      simp [Item.remainder, made.wf.body_of_mem opens.mem, body]
    refine here.expand made ((Item.mem_expansion g _).mpr
      ⟨inner.head, next, inner, g.mem_rulesOf.mpr ⟨mem, rfl⟩, b, ?_, rfl⟩)
    rwa [remainder]

/-- At the end of a path the state has every item whose rule began on the path. -/
theorem of_open (made : c.Made g rule) {string : List Symbol} {i : Item} (h : i.Open g string)
    {ids : List StateId} (path : c.Path ids string.reverse) : At c ids i := by
  obtain ⟨r, left, front, back, found, body, size, rfl, opens⟩ := h
  have whole : i = ⟨r.id, front.length, i.lookahead⟩ := by
    rw [(made.wf.mem_of_rule? found).2, size]
  rw [whole]
  exact climb made opens.mem body path (of_opens made opens path.drop_append)

/-- Where a rule other than the start rule may begin, the state has the item that calls for it. -/
theorem exists_caller (made : c.Made g rule) {string : List Symbol} {r : Rule V} {a : Terminal}
    (opens : g.Opens string r a) (inner : ¬(r.head = g.start ∧ a = g.eos)) {ids : List StateId}
    (path : c.Path ids string.reverse) :
    ∃ i, At c ids i ∧ i.symbol? g = some (.nonTerminal r.head) ∧
      a ∈ g.firstWith (i.remainder g) i.lookahead := by
  cases opens with
  | start mem => exact absurd ⟨(g.mem_rulesOf.mp mem).2, rfl⟩ inner
  | @inside string front back outer inner a b opens body mem follows =>
    have whole := made.wf.body_of_mem opens.mem
    refine ⟨_, climb made opens.mem body path (of_opens made opens path.drop_append), ?_, ?_⟩
    · simp [Item.symbol?, whole, body]
    · simpa [Item.remainder, whole, body] using follows

end Machine.At

/-- From the end of a path there is a transition over what an item whose rule began on the path has
after its dot. -/
theorem Item.Open.exists_target (made : c.Made g rule) {string : List Symbol} {i : Item}
    (h : i.Open g string) {id : StateId} {below : List StateId}
    (path : c.Path (id :: below) string.reverse) {x : Symbol} (next : i.symbol? g = some x) :
    ∃ target, c.target? id x = some target := by
  obtain ⟨id', below', target, top, edge, _⟩ := (At.of_open made h path).push made next
  cases top
  exact ⟨target, edge⟩

/-- What an item whose rule began on the path proposes, the state at its end does. -/
theorem Item.Open.mem_proposals (made : c.Made g rule) {string : List Symbol} {i : Item}
    (h : i.Open g string) {id : StateId} {below : List StateId}
    (path : c.Path (id :: below) string.reverse) {state : State} (hs : c.state? id = some state)
    {p : Proposal} (proposes : State.proposal? g state.transitions i = some p) :
    p ∈ state.proposals := by
  obtain ⟨id', below', state', _, top, _, hs', hi⟩ := At.of_open made h path
  cases top
  cases hs.symm.trans hs'
  rw [(made.built.visited id state hs).proposals]
  exact State.mem_proposalsOf.mpr ⟨i, hi, proposes⟩

namespace Grammar.Opens

variable {string front back : List Symbol} {r : Rule V} {a : Terminal}

/-- From where a rule may begin there is a path on over its body. -/
theorem extend_path (made : c.Made g rule) (opens : g.Opens string r a)
    (body : r.body = front ++ back) {ids : List StateId} (path : c.Path ids string.reverse) :
    ∃ ids, c.Path ids (string ++ front).reverse := by
  induction front using List.reverseRecOn generalizing back with
  | nil => exact ⟨ids, by simpa using path⟩
  | append_singleton front x ih =>
    rw [List.append_assoc] at body
    obtain ⟨ids', path'⟩ := ih body
    have here := At.climb made opens.mem body path' (At.of_opens made opens path'.drop_append)
    have next : Item.symbol? g ⟨r.id, front.length, a⟩ = some x := by
      simp [Item.symbol?, made.wf.body_of_mem opens.mem, body]
    obtain ⟨id, below, target, rfl, edge, _⟩ := here.push made next
    exact ⟨target :: id :: below, by simpa using path'.push edge⟩

/-- There are paths to wherever a rule may begin, and on over its body. -/
theorem exists_path (made : c.Made g rule) (opens : g.Opens string r a)
    (body : r.body = front ++ back) : ∃ ids, c.Path ids (string ++ front).reverse := by
  induction opens generalizing front back with
  | start mem => exact extend_path made (.start mem) body .start
  | inside opens body' mem follows ih =>
    obtain ⟨ids, path⟩ := ih body'
    exact extend_path made (.inside opens body' mem follows) body path

end Grammar.Opens

end CanonicalLR
