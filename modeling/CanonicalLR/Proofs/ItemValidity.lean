import CanonicalLR.Proofs.AcceptedValues
import CanonicalLR.Proofs.OpenRules

/-!
Which items a string leads to. The collection leads to an item just if the rule of the
item has begun on the string (`Collection.Made.reaches_iff`), and where every
non-terminal derives something that is so just if the item is valid for the string, in
terms of derivations at the last non-terminal alone. So the strings that lead to some
state are the viable prefixes.
-/
namespace CanonicalLR

open Machine

variable {V : Type} {g : Grammar V} {c : Collection} {rule : Rule V}

/-! ### Walks and paths -/

namespace Collection

theorem walk?_append (c : Collection) (id : StateId) (s t : List Symbol) :
    c.walk? id (s ++ t) = (c.walk? id s).bind fun target => c.walk? target t := by
  induction s generalizing id with
  | nil =>
    cases hs : c.state? id with
    | some state => simp [walk?, hs]
    | none =>
      -- a number without a state leads nowhere, not even over nothing
      cases t <;> simp [walk?, target?, hs]
  | cons x s ih => simp only [List.cons_append, walk?, ih, Option.bind_assoc]

theorem walk?_singleton (built : c.Built g rule) (id : StateId) (x : Symbol) :
    c.walk? id [x] = c.target? id x := by
  simp only [walk?]
  cases edge : c.target? id x with
  | none => rfl
  | some target =>
    obtain ⟨_, state, _, hs, _⟩ := built.of_target? edge
    simp [hs]

/-- What a walk from the initial state leads to is at the end of the path over the same string. -/
theorem Built.walk?_eq_some_iff (built : c.Built g rule) {string : List Symbol} {id : StateId} :
    c.walk? 0 string = some id ↔ ∃ below, c.Path (id :: below) string.reverse := by
  induction string using List.reverseRecOn generalizing id with
  | nil =>
    obtain ⟨state, hs, _⟩ := getElem?_itemSets.mp built.initial
    simp only [walk?, hs, Option.map_some, Option.some.injEq, List.reverse_nil]
    constructor
    · rintro rfl
      exact ⟨[], .start⟩
    · rintro ⟨below, path⟩
      cases path
      rfl
  | append_singleton string x ih =>
    rw [walk?_append, Option.bind_eq_some_iff, List.reverse_append, List.reverse_singleton,
      List.singleton_append]
    simp only [walk?_singleton built, ih]
    constructor
    · rintro ⟨before, ⟨below, path⟩, edge⟩
      exact ⟨before :: below, path.push edge⟩
    · rintro ⟨below, path⟩
      cases path with
      | push path edge => exact ⟨_, ⟨_, path⟩, edge⟩

/-- A string leads to a state with an item just if the rule of the item began on the string. -/
theorem Made.reaches_iff (made : c.Made g rule) {string : List Symbol} {i : Item} :
    c.Reaches string i ↔ i.Open g string := by
  constructor
  · rintro ⟨id, state, walk, hs, hi⟩
    obtain ⟨below, path⟩ := made.built.walk?_eq_some_iff.mp walk
    have opened := path.open made.wf made.start_mem made.built rfl hs i hi
    rwa [List.reverse_reverse] at opened
  · intro h
    obtain ⟨r, left, front, back, _, body, _, rfl, opens⟩ := id h
    obtain ⟨ids, path⟩ := opens.exists_path made body
    obtain ⟨id, below, state, _, rfl, _, hs, hi⟩ := At.of_open made h path
    exact ⟨id, state, made.built.walk?_eq_some_iff.mpr ⟨below, path⟩, hs, hi⟩

end Collection

/-! ### Rules that have begun and derivations at the last non-terminal -/

/-- What begins a string derived from the first one begins what is derived from that one. -/
theorem Grammar.firstWith_of_produces (wf : g.WellFormed) {s t : List Symbol}
    {lookahead a : Terminal}
    (h : Produces g.rules s t) (first : a ∈ g.firstWith t lookahead) :
    a ∈ g.firstWith s lookahead := by
  rw [mem_firstWith_iff_derives wf] at first ⊢
  rcases first with ⟨rest, begins⟩ | ⟨vanishes, same⟩
  · exact .inl ⟨rest, .head h begins⟩
  · exact .inr ⟨.head h vanishes, same⟩

theorem Grammar.headD_mem_firstWith (g : Grammar V) (right : List Terminal) (lookahead : Terminal) :
    right.headD lookahead ∈ g.firstWith (terminalString right) lookahead := by
  cases right with
  | nil => simp
  | cons t right => simp

/-- What begins a string with terminals behind it begins the string with the first of these. -/
theorem Grammar.firstWith_of_append {s : List Symbol} {right : List Terminal}
    {lookahead a : Terminal} (h : a ∈ g.firstWith (s ++ terminalString right) lookahead) :
    a ∈ g.firstWith s (right.headD lookahead) := by
  rw [mem_firstWith] at h ⊢
  simp only [nullableString, firstOfString, Analysis.mem_firstOfString_append,
    Analysis.nullableString_append, Bool.and_eq_true] at h ⊢
  cases right with
  | nil =>
    rcases h with (first | ⟨_, none⟩) | ⟨⟨vanishes, _⟩, same⟩
    · exact .inl first
    · exact absurd none (OrderedSet.not_mem_empty a)
    · exact .inr ⟨vanishes, same⟩
  | cons t right =>
    rcases h with (first | ⟨vanishes, same⟩) | ⟨⟨_, none⟩, _⟩
    · exact .inl first
    · exact .inr ⟨vanishes, by simpa [Analysis.firstOfString] using same⟩
    · cases none

/-- Wherever a non-terminal stands in a string derived at the last non-terminal each time, each of
its rules may begin after what stands before it. -/
theorem Grammar.opens_of_derivesLast (wf : g.WellFormed) {s left right : List Symbol} {r : Rule V}
    {a : Terminal} (h : DerivesLast g.rules [.nonTerminal g.start] s)
    (split : s = left ++ .nonTerminal r.head :: right) (mem : r ∈ g.rules)
    (first : a ∈ g.firstWith right g.eos) : g.Opens left r a := by
  induction h generalizing left right r a with
  | refl =>
    obtain ⟨rfl, tail⟩ := List.append_eq_singleton_iff.mp split.symm |>.resolve_right (by simp)
    obtain ⟨head, rfl⟩ := List.cons.inj tail
    rw [mem_firstWith_nil] at first
    rw [first]
    exact .start (g.mem_rulesOf.mpr ⟨mem, Symbol.nonTerminal.inj head⟩)
  | tail _ step ih =>
    cases step with
    | step outer among before behind =>
      rw [List.append_assoc] at split
      rcases exists_of_append_eq split with ⟨after, rfl, rfl⟩ | ⟨front, rfl, inner⟩
      · -- it stood before the non-terminal that was replaced
        have reopened : Produces g.rules (after ++ .nonTerminal outer.head :: terminalString behind)
            (after ++ outer.body ++ terminalString behind) := .step outer among _ _
        rw [← List.append_assoc] at first
        exact ih (List.append_assoc _ _ _) mem (firstWith_of_produces wf reopened first)
      · rcases exists_of_append_eq inner with ⟨back, body, rfl⟩ | ⟨_, rfl, late⟩
        · -- it came with the body
          have opens := ih rfl among (g.headD_mem_firstWith behind g.eos)
          exact .inside opens body mem (firstWith_of_append first)
        · -- behind the body there are only terminals
          have terminal : Symbol.nonTerminal r.head ∈ terminalString behind := by simp [late]
          simp [terminalString] at terminal

/-- Where every non-terminal derives something, what may come behind a symbol of a body does come
in a derivation at the last non-terminal. -/
theorem Grammar.exists_terminals_of_firstWith (wf : g.WellFormed) (productive : g.Productive)
    {s : List Symbol} (owned : ∀ x ∈ s, g.symbols.owns x = true) {lookahead a : Terminal}
    (h : a ∈ g.firstWith s lookahead) :
    ∃ ts, Derives g.rules s (terminalString ts) ∧ ∀ right : List Terminal,
      lookahead = right.headD g.eos → a = (ts ++ right).headD g.eos := by
  rcases (mem_firstWith_iff_derives wf).mp h with ⟨rest, begins⟩ | ⟨vanishes, rfl⟩
  · have later := begins.forall_mem wf.body_owned owned
    obtain ⟨ts, hts⟩ := productive.exists_terminals fun x hx => later x (List.mem_cons_of_mem _ hx)
    exact ⟨a :: ts, begins.trans (Derives.concat (.refl : Derives _ [.terminal a] _) hts),
      fun _ _ => rfl⟩
  · exact ⟨[], vanishes, fun _ same => same⟩

variable [SemanticValue V]

/-- Where a rule may begin, some derivation at the last non-terminal comes to its head. -/
theorem Grammar.Opens.derivesLast (wf : g.WellFormed) (productive : g.Productive)
    {string : List Symbol} {r : Rule V} {a : Terminal} (h : g.Opens string r a) :
    ∃ right : List Terminal, DerivesLast g.rules [.nonTerminal g.start]
      (string ++ .nonTerminal r.head :: terminalString right) ∧ a = right.headD g.eos := by
  induction h with
  | start mem =>
    refine ⟨[], ?_, rfl⟩
    rw [(g.mem_rulesOf.mp mem).2]
    exact .refl
  | @inside string front back outer inner a b opens body mem follows ih =>
    obtain ⟨right, derives, same⟩ := ih
    have owned : ∀ x ∈ back, g.symbols.owns x = true := fun x hx =>
      wf.body_owned outer opens.mem x (by simp [body, hx])
    obtain ⟨ts, hts, next⟩ := exists_terminals_of_firstWith wf productive owned follows
    obtain ⟨forest, tokens⟩ := Forest.exists_tokensFor hts
    have yield : forest.yield = ts := by rw [Forest.yield, tokens, terminals_tokensFor]
    have opened := derives.tail (.step outer opens.mem string right)
    have later := forest.derivesLast (string ++ front ++ [.nonTerminal inner.head]) right
    refine ⟨ts ++ right, ?_, next right same⟩
    rw [body] at opened
    rw [yield] at later
    simp only [List.append_assoc, List.cons_append] at opened later ⊢
    exact opened.trans later

/-- A rule has begun on the string just if the item is valid for it. -/
theorem Item.open_iff_valid (wf : g.WellFormed) (productive : g.Productive) {string : List Symbol}
    {i : Item} : i.Open g string ↔ i.Valid g string := by
  constructor
  · rintro ⟨r, left, front, back, found, body, size, rfl, opens⟩
    obtain ⟨right, derives, next⟩ := opens.derivesLast wf productive
    refine ⟨r, left, right, found, ?_, derives, ?_, next⟩
    · simp [body, ← size]
    · rw [body, ← size, List.take_left]
  · rintro ⟨r, left, right, found, bound, derives, rfl, next⟩
    have mem := (wf.mem_of_rule? found).1
    refine ⟨r, left, _, r.body.drop i.position, found, (List.take_append_drop _ _).symm,
      List.length_take_of_le bound, rfl, ?_⟩
    exact Grammar.opens_of_derivesLast wf derives rfl mem
      (next ▸ g.headD_mem_firstWith right g.eos)

/-- The strings that lead to a state are the viable prefixes. -/
theorem Collection.Made.isSome_walk?_iff (made : c.Made g rule) (productive : g.Productive)
    {string : List Symbol} : (c.walk? 0 string).isSome ↔ g.ViablePrefix string := by
  rw [Option.isSome_iff_exists]
  constructor
  · rintro ⟨id, walk⟩
    obtain ⟨below, path⟩ := made.built.walk?_eq_some_iff.mp walk
    obtain ⟨i, _, opened⟩ := path.exists_open made
    rw [List.reverse_reverse, Item.open_iff_valid made.wf productive] at opened
    obtain ⟨r, left, right, found, _, derives, rfl, _⟩ := opened
    exact ⟨r, left, right, (made.wf.mem_of_rule? found).1, derives,
      List.prefix_append_right_inj left |>.mpr (List.take_prefix _ _)⟩
  · rintro ⟨r, left, right, mem, derives, rest, whole⟩
    have opens := Grammar.opens_of_derivesLast made.wf derives rfl mem
      (g.headD_mem_firstWith right g.eos)
    obtain ⟨ids, path⟩ := opens.exists_path made (List.append_nil _).symm
    rw [← whole] at path
    obtain ⟨id, below, top⟩ := path.drop_append.exists_top
    exact ⟨id, made.built.walk?_eq_some_iff.mpr ⟨below, top ▸ path.drop_append⟩⟩

/-- In a grammar with a proper start rule whose non-terminals all derive something, a string leads
to a state with an item just if the item is valid for the string, and to some state just if it is a
viable prefix. -/
theorem Grammar.reaches_iff_valid {b : Builder V} (authored : b.Authored) {start : Rule V}
    (checked : b.build.checkStart = .ok start) (productive : b.build.Productive) :
    ∃ c, b.build.collection? = .ok c ∧
      (∀ string i, c.Reaches string i ↔ i.Valid b.build string) ∧
      ∀ string, (c.walk? 0 string).isSome ↔ b.build.ViablePrefix string := by
  have wf := authored.wellFormed.build
  obtain ⟨c, found, made⟩ := Grammar.exists_collection? wf checked
  refine ⟨c, found, fun string i => ?_, fun string => made.isSome_walk?_iff productive⟩
  rw [made.reaches_iff, Item.open_iff_valid wf productive]

/-- After a list and a comma a number is to come, since some derivation has all this at its end; and
no list begins with a comma. -/
theorem Listing.number_valid_after_comma :
    ∃ c, builder.build.collection? = .ok c ∧
      (c.Reaches [.nonTerminal ⟨⟨0⟩, 4⟩, .terminal ⟨⟨0⟩, 2⟩] ⟨1, 2, builder.build.eos⟩ ∧
        Item.Valid builder.build [.nonTerminal ⟨⟨0⟩, 4⟩, .terminal ⟨⟨0⟩, 2⟩]
          ⟨1, 2, builder.build.eos⟩) ∧
      ¬builder.build.ViablePrefix [.terminal ⟨⟨0⟩, 2⟩] := by
  obtain ⟨c, found, items, strings⟩ := Grammar.reaches_iff_valid authored rfl productive
  have same : c = collection := by
    rw [collection, found]
    rfl
  subst same
  have reached : collection.Reaches [.nonTerminal ⟨⟨0⟩, 4⟩, .terminal ⟨⟨0⟩, 2⟩]
      ⟨1, 2, builder.build.eos⟩ := by decide +kernel
  refine ⟨_, found, ⟨reached, (items _ _).mp reached⟩, ?_⟩
  rw [← strings]
  decide +kernel

end CanonicalLR
