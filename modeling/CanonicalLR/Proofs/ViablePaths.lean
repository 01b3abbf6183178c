import CanonicalLR.Proofs.TableCells

/-!
Paths through a canonical collection. The stack of states of the machine is such a
path, and the symbols on it are the ones that the values on the other stack stand for.
Every item of the state on top fits these symbols: the string ends with what stands
before the dot, and some derivation from the start symbol goes on with the lookahead.
-/
namespace CanonicalLR

variable {V : Type} {g : Grammar V}

namespace Collection

variable {c : Collection} {rule : Rule V} {id target : StateId} {state : State} {x : Symbol}

/-- A state goes on over every symbol that one of its items has after the dot. -/
theorem Built.exists_target (built : c.Built g rule) (hs : c.state? id = some state) {i : Item}
    (hi : i ∈ state.items) (next : i.symbol? g = some x) :
    ∃ target, c.target? id x = some target := by
  have key : x ∈ state.transitions.map Prod.fst := by
    rw [(built.visited id state hs).keys]
    exact ItemSet.mem_nextSymbols.mpr ⟨i, hi, next⟩
  obtain ⟨edge, mem, rfl⟩ := List.mem_map.mp key
  have found : (state.target? edge.1).isSome := List.lookup_isSome_iff.mpr ⟨edge, mem, by simp⟩
  rw [target?, hs]
  exact Option.isSome_iff_exists.mp found

theorem Built.of_target? (built : c.Built g rule) (edge : c.target? id x = some target) :
    ∃ state state', c.state? id = some state ∧ c.state? target = some state' ∧
      state'.items = state.items.goto g x := by
  obtain ⟨state, hs, found⟩ := Option.bind_eq_some_iff.mp edge
  obtain ⟨before, after, split, _⟩ := List.lookup_eq_some_iff.mp found
  have mem : (x, target) ∈ state.transitions := by
    rw [split]
    simp
  have items := (built.visited id state hs).targets _ mem
  obtain ⟨state', hs', same⟩ := getElem?_itemSets.mp items
  exact ⟨state, state', hs, hs', same⟩

/-- A state goes on only over symbols that one of its items has after the dot. -/
theorem Built.exists_item_of_target? (built : c.Built g rule)
    (edge : c.target? id x = some target) :
    ∃ state, c.state? id = some state ∧ ∃ i ∈ state.items, i.symbol? g = some x := by
  obtain ⟨state, hs, found⟩ := Option.bind_eq_some_iff.mp edge
  obtain ⟨before, after, split, _⟩ := List.lookup_eq_some_iff.mp found
  have key : x ∈ state.items.nextSymbols g := by
    rw [OrderedSet.mem_def, ← (built.visited id state hs).keys, split]
    simp
  exact ⟨state, hs, ItemSet.mem_nextSymbols.mp key⟩

/-- Only symbols of rule bodies are gone over. -/
theorem Built.mem_body_of_target? (built : c.Built g rule) (edge : c.target? id x = some target) :
    ∃ r ∈ g.rules, x ∈ r.body := by
  obtain ⟨_, _, i, _, next⟩ := built.exists_item_of_target? edge
  exact g.exists_rule_of_mem_body (List.mem_of_getElem? next)

/-- The state reached over a symbol has the items of the first with the dot moved. -/
theorem Built.mem_of_target? (built : c.Built g rule) (edge : c.target? id x = some target)
    (hs : c.state? id = some state) {i : Item} (hi : i ∈ state.items)
    (next : i.symbol? g = some x) :
    ∃ state', c.state? target = some state' ∧
      { i with position := i.position + 1 } ∈ state'.items := by
  obtain ⟨state₁, state', hs₁, hs', items⟩ := built.of_target? edge
  rw [hs] at hs₁
  cases hs₁
  refine ⟨state', hs', ?_⟩
  rw [items]
  exact ItemSet.mem_goto_of_mem hi next

/-- A path from the initial state: the states on it and the symbols between them, the latest in
front. -/
inductive Path (c : Collection) : List StateId → List Symbol → Prop where
  | start : Path c [0] []
  | push {id target : StateId} {below : List StateId} {x : Symbol} {string : List Symbol}
    (path : Path c (id :: below) string) (edge : c.target? id x = some target) :
    Path c (target :: id :: below) (x :: string)

namespace Path

variable {ids : List StateId} {string : List Symbol}

theorem exists_top (path : c.Path ids string) : ∃ id below, ids = id :: below := by
  cases path with
  | start => exact ⟨0, [], rfl⟩
  | push path edge => exact ⟨_, _, rfl⟩

theorem length_eq (path : c.Path ids string) : ids.length = string.length + 1 := by
  induction path with
  | start => rfl
  | push _ _ ih => simpa using ih

theorem drop (path : c.Path ids string) {n : Nat} (bound : n ≤ string.length) :
    c.Path (ids.drop n) (string.drop n) := by
  induction path generalizing n with
  | start =>
    have : n = 0 := by simpa using bound
    subst this
    exact .start
  | push path edge ih =>
    cases n with
    | zero => exact .push path edge
    | succ n =>
      rw [List.drop_succ_cons, List.drop_succ_cons]
      exact ih (by simpa using bound)

/-- A path over two strings goes over the first one before. -/
theorem drop_append {left front : List Symbol} (path : c.Path ids (left ++ front).reverse) :
    c.Path (ids.drop front.length) left.reverse := by
  have h := path.drop (n := front.length) (by simp)
  rwa [List.reverse_append, List.drop_left' (by simp)] at h

/-- The state at the end of a path is the closure of some items. -/
theorem exists_close (built : c.Built g rule) {below : List StateId}
    (path : c.Path (id :: below) string) :
    ∃ state s, c.state? id = some state ∧ state.items = ItemSet.close g s := by
  cases path with
  | start =>
    obtain ⟨state, hs, items⟩ := getElem?_itemSets.mp built.initial
    exact ⟨state, _, hs, items⟩
  | push path edge =>
    obtain ⟨_, state, _, hs, items⟩ := built.of_target? edge
    exact ⟨state, _, hs, items⟩

/-- Whatever an item of the state at the end of a path calls for is an item of that state. -/
theorem mem_of_expansion (built : c.Built g rule) {below : List StateId}
    (path : c.Path (id :: below) string) (hs : c.state? id = some state) {i j : Item}
    (hi : i ∈ state.items) (hj : j ∈ i.expansion g) : j ∈ state.items := by
  obtain ⟨state', s, hs', items⟩ := path.exists_close built
  rw [hs] at hs'
  cases hs'
  rw [items] at hi ⊢
  exact ItemSet.close_closed g hi j hj

/-- What holds of the first item before anything is read, and goes from an item over the symbol
after its dot and to what it calls for, holds of every item of the state at the end of a path. -/
theorem items_induction (built : c.Built g rule) {P : List Symbol → Item → Prop}
    (initial : P [] ⟨rule.id, 0, g.eos⟩)
    (advance : ∀ string i x, P string i → i.symbol? g = some x →
      P (string ++ [x]) { i with position := i.position + 1 })
    (expand : ∀ string i j, P string i → j ∈ i.expansion g → P string j)
    (path : c.Path ids string) {id : StateId} {below : List StateId} (top : ids = id :: below)
    {state : State} (hs : c.state? id = some state) : ∀ i ∈ state.items, P string.reverse i := by
  induction path generalizing id below state with
  | start =>
    cases top
    obtain ⟨state', hs', items⟩ := getElem?_itemSets.mp built.initial
    cases hs.symm.trans hs'
    rw [items]
    intro i hi
    refine ItemSet.close_induction g (fun i hi => ?_) (fun i h j called => expand _ i j h called) hi
    have seed : i = ⟨rule.id, 0, g.eos⟩ := by simpa using hi
    rw [seed]
    exact initial
  | push path edge ih =>
    cases top
    obtain ⟨before, state', hb, hs', items⟩ := built.of_target? edge
    cases hs.symm.trans hs'
    rw [items, List.reverse_cons]
    intro i hi
    exact ItemSet.goto_induction (fun j hj next => advance _ j _ (ih rfl hb j hj) next)
      (fun i h j called => expand _ i j h called) hi

end Path

/-- Where items are reached over a symbol, one of the first ones has it after the dot. -/
theorem exists_item_of_goto {s : ItemSet} {i : Item} (mem : i ∈ s.goto g x) :
    ∃ j ∈ s, j.symbol? g = some x := by
  by_contra none
  exact ItemSet.goto_induction (P := fun _ => False) (fun j hj next => none ⟨j, hj, next⟩)
    (fun _ h => h.elim) mem

/-- Every item set that is reached is that of a state at the end of some path. -/
theorem Built.exists_path_of_canonical (built : c.Built g rule)
    (first : (g.rulesOf g.start).head? = some rule) {s : ItemSet} (h : ItemSet.Canonical g s) :
    ∃ id below string, c.Path (id :: below) string ∧ c.itemSets[id]? = some s := by
  induction h with
  | initial r first' =>
    cases first.symm.trans first'
    exact ⟨0, [], [], .start, built.initial⟩
  | @goto s _ x i mem ih =>
    obtain ⟨id, below, string, path, items⟩ := ih
    obtain ⟨state, hs, rfl⟩ := getElem?_itemSets.mp items
    obtain ⟨j, hj, next⟩ := exists_item_of_goto mem
    obtain ⟨target, edge⟩ := built.exists_target hs hj next
    obtain ⟨state₁, state', hs₁, hs', same⟩ := built.of_target? edge
    cases hs.symm.trans hs₁
    exact ⟨target, _, _, .push path edge, getElem?_itemSets.mpr ⟨state', hs', same⟩⟩

/-- Every state is at the end of some path. -/
theorem Built.exists_path (built : c.Built g rule) (start : g.rulesOf g.start = [rule])
    (hs : c.state? id = some state) : ∃ below string, c.Path (id :: below) string := by
  have items : c.itemSets[id]? = some state.items := getElem?_itemSets.mpr ⟨state, hs, rfl⟩
  have first : (g.rulesOf g.start).head? = some rule := by rw [start]; rfl
  obtain ⟨id', below, string, path, items'⟩ :=
    built.exists_path_of_canonical first (built.reached _ (List.mem_of_getElem? items))
  have same : id' = id :=
    (List.getElem?_inj (List.getElem?_eq_some_iff.mp items').1 built.distinct).mp
      (items'.trans items.symm)
  exact ⟨below, string, same ▸ path⟩

end Collection

/-! ### Items that fit a string -/

namespace Item

/-- Some derivation from the start symbol comes to the rule of the item where the string ends with
what stands before the dot, and has the lookahead after the body. -/
def Fits (g : Grammar V) (string : List Symbol) (i : Item) : Prop :=
  ∃ (rule : Rule V) (left right : List Symbol), g.rule? i.rule = some rule ∧
    i.position ≤ rule.length ∧ string = left ++ rule.body.take i.position ∧
    Derives g.rules [.nonTerminal g.start] (left ++ .nonTerminal rule.head :: right) ∧
    (right ++ [Symbol.terminal g.eos]).head? = some (.terminal i.lookahead)

variable {string : List Symbol} {i j : Item}

theorem Fits.initial (wf : g.WellFormed) {rule : Rule V} (mem : rule ∈ g.rulesOf g.start) :
    Fits g [] ⟨rule.id, 0, g.eos⟩ := by
  obtain ⟨mem, head⟩ := g.mem_rulesOf.mp mem
  refine ⟨rule, [], [], wf.rule?_of_mem mem, Nat.zero_le _, rfl, ?_, rfl⟩
  rw [head]
  exact .refl

theorem Fits.advance (h : Fits g string i) {x : Symbol} (next : i.symbol? g = some x) :
    Fits g (string ++ [x]) { i with position := i.position + 1 } := by
  obtain ⟨rule, left, right, found, _, rfl, derives, follows⟩ := h
  have body : g.body i.rule = rule.body := by simp [Grammar.body, found]
  have inner := position_lt_of_symbol? next
  have more := take_succ_of_symbol? next
  rw [body] at inner more
  refine ⟨rule, left, right, found, inner, ?_, derives, follows⟩
  rw [more, List.append_assoc]

theorem Fits.expand (wf : g.WellFormed) (h : Fits g string i) (called : j ∈ i.expansion g) :
    Fits g string j := by
  obtain ⟨rule, left, right, found, _, rfl, derives, follows⟩ := h
  obtain ⟨n, next, r, hr, a, ha, rfl⟩ := (i.mem_expansion g).mp called
  obtain ⟨mem, rfl⟩ := g.mem_rulesOf.mp hr
  have body : g.body i.rule = rule.body := by simp [Grammar.body, found]
  have split := body_eq_of_symbol? next
  rw [body] at split
  have opened : Derives g.rules [.nonTerminal g.start]
      ((left ++ rule.body.take i.position ++ [.nonTerminal r.head]) ++ i.remainder g ++ right) := by
    have h := derives.open_rule (List.mem_of_getElem? found)
    rw [split] at h
    simpa using h
  rcases (Grammar.mem_firstWith_iff_derives wf).mp ha with ⟨rest, starts⟩ | ⟨vanishes, rfl⟩
  · refine ⟨r, left ++ rule.body.take i.position, .terminal a :: rest ++ right,
      wf.rule?_of_mem mem, Nat.zero_le _, by simp, ?_, rfl⟩
    simpa using opened.splice starts
  · refine ⟨r, left ++ rule.body.take i.position, right, wf.rule?_of_mem mem, Nat.zero_le _,
      by simp, ?_, follows⟩
    simpa using opened.splice vanishes

end Item

/-- Every item of the state at the end of a path fits the symbols on the path. -/
theorem Collection.Path.fits (wf : g.WellFormed) {c : Collection} {rule : Rule V}
    (start : rule ∈ g.rulesOf g.start) (built : c.Built g rule) {ids : List StateId}
    {string : List Symbol} (path : c.Path ids string) {id : StateId} {below : List StateId}
    (top : ids = id :: below) {state : State} (hs : c.state? id = some state) :
    ∀ i ∈ state.items, i.Fits g string.reverse :=
  path.items_induction built (.initial wf start) (fun _ _ _ fits next => fits.advance next)
    (fun _ _ _ fits called => fits.expand wf called) top hs

end CanonicalLR
