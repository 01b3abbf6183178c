import CanonicalLR.Proofs.AcceptedValues
import CanonicalLR.Proofs.SafeDriving
import CanonicalLR.Proofs.Termination
import Mathlib.Data.List.TakeWhile

/-!
Without conflicts every terminal under which the machine reduces is read in the end,
provided that something can always come behind a non-terminal. On the way down to the
terminal the machine finishes only symbols that derive nothing; on the way up it ends
one rule after the other, each where the one around it goes on. So there is no endless
row of reductions, and parsing comes to an end.
-/
namespace CanonicalLR

open Machine

variable {V : Type} {g : Grammar V} {c : Collection} {T : Table} {rule : Rule V}

/-! ### What a string starts with -/

/-- The string derives something that starts with the terminal: it does, or its first symbol derives
nothing and the rest starts so, or a rule for its first symbol does. -/
inductive StartsWith (rules : List (Rule V)) (t : Terminal) : List Symbol → Prop where
  | here {rest : List Symbol} : StartsWith rules t (.terminal t :: rest)
  | skip {x : Symbol} {rest : List Symbol} (vanishes : Derives rules [x] [])
    (starts : StartsWith rules t rest) : StartsWith rules t (x :: rest)
  | enter {r : Rule V} {rest : List Symbol} (mem : r ∈ rules)
    (starts : StartsWith rules t r.body) : StartsWith rules t (.nonTerminal r.head :: rest)

namespace StartsWith

variable {rules : List (Rule V)} {t : Terminal} {s s' : List Symbol}

theorem derives (h : StartsWith rules t s) : ∃ rest, Derives rules s (.terminal t :: rest) := by
  induction h with
  | here => exact ⟨_, .refl⟩
  | skip vanishes _ ih =>
    obtain ⟨rest, derives⟩ := ih
    exact ⟨rest, vanishes.concat derives⟩
  | @enter r rest mem _ ih =>
    obtain ⟨more, derives⟩ := ih
    have whole : Derives rules rest rest := .refl
    have opened : Derives rules [.nonTerminal r.head] (.terminal t :: more) :=
      (Derives.of_rule mem).trans derives
    exact ⟨more ++ rest, opened.concat whole⟩

theorem append (h : StartsWith rules t s) : StartsWith rules t (s ++ s') := by
  induction h with
  | here => exact .here
  | skip vanishes _ ih => exact .skip vanishes ih
  | enter mem starts _ => exact .enter mem starts

theorem append_of_vanishes (vanishes : Derives rules s []) (h : StartsWith rules t s') :
    StartsWith rules t (s ++ s') := by
  induction s with
  | nil => exact h
  | cons x s ih =>
    obtain ⟨first, rest⟩ := Derives.nil_of_append (s := [x]) vanishes
    exact .skip first (ih rest)

/-- Two strings in a row start with what the first one does, or with what the second one does where
the first derives nothing. -/
theorem of_append (h : StartsWith rules t (s ++ s')) :
    StartsWith rules t s ∨ Derives rules s [] ∧ StartsWith rules t s' := by
  induction s with
  | nil => exact .inr ⟨.refl, h⟩
  | cons x s ih =>
    cases h with
    | here => exact .inl .here
    | skip vanishes starts =>
      rcases ih starts with starts | ⟨rest, starts⟩
      · exact .inl (.skip vanishes starts)
      · exact .inr ⟨vanishes.concat rest, starts⟩
    | enter mem starts => exact .inl (.enter mem starts)

theorem of_derives {rest : List Symbol} (h : Derives rules s (.terminal t :: rest)) :
    StartsWith rules t s := by
  induction h using Relation.ReflTransGen.head_induction_on with
  | refl => exact .here
  | head step _ ih =>
    cases step with
    | step r mem left right =>
      rcases ih.of_append with starts | ⟨vanishes, starts⟩
      · rcases starts.of_append with starts | ⟨vanishes, starts⟩
        · exact starts.append
        · exact .append_of_vanishes vanishes (.enter mem starts)
      · obtain ⟨before, empty⟩ := vanishes.nil_of_append
        exact .append_of_vanishes before (.skip ((Derives.of_rule mem).trans empty) starts)

end StartsWith

/-- In the rules that the start symbol leads to, whatever stands behind a non-terminal derives
nothing or something that starts with a terminal. -/
def Grammar.Followed (g : Grammar V) : Prop :=
  ∀ r ∈ g.rules, g.Reaches (.nonTerminal r.head) → ∀ front n back,
    r.body = front ++ .nonTerminal n :: back →
    Derives g.rules back [] ∨ ∃ t rest, Derives g.rules back (.terminal t :: rest)

/-- So there is always a lookahead for what a non-terminal calls for. -/
theorem Grammar.Followed.exists_lookahead (wf : g.WellFormed) (followed : g.Followed) {r : Rule V}
    (mem : r ∈ g.rules) (reach : g.Reaches (.nonTerminal r.head)) {front back : List Symbol}
    {n : NonTerminal} (body : r.body = front ++ .nonTerminal n :: back) (a : Terminal) :
    ∃ b, b ∈ g.firstWith back a := by
  rcases followed r mem reach front n back body with vanishes | ⟨t, rest, derives⟩
  · exact ⟨a, (Grammar.mem_firstWith_iff_derives wf).mpr (.inr ⟨vanishes, rfl⟩)⟩
  · exact ⟨t, (Grammar.mem_firstWith_iff_derives wf).mpr (.inl ⟨rest, derives⟩)⟩

/-- It can be read off the analysis that something comes behind every non-terminal. -/
theorem Grammar.followed_of_firstWith (wf : g.WellFormed)
    (h : ∀ r ∈ g.rules, ∀ k < r.body.length, ((r.body[k]?).bind Symbol.nonTerminal?).isSome →
      (g.firstWith (r.body.drop (k + 1)) g.eos).toList ≠ []) : g.Followed := by
  intro r mem _ front n back body
  have some := h r mem front.length (by simp [body]) (by simp [body, Symbol.nonTerminal?])
  have behind : r.body.drop (front.length + 1) = back := by simp [body]
  obtain ⟨t, ht⟩ := List.exists_mem_of_ne_nil _ some
  rw [behind] at ht
  rcases (Grammar.mem_firstWith_iff_derives wf).mp ht with ⟨rest, derives⟩ | ⟨vanishes, _⟩
  · exact .inr ⟨t, rest, derives⟩
  · exact .inl vanishes

/-- What derives nothing has a forest without tokens. -/
theorem Forest.exists_of_vanishes {rules : List (Rule V)} {string : List Symbol}
    (vanishes : Derives rules string []) : ∃ forest : Forest rules string, forest.tokens = [] :=
  Forest.exists_of_derives vanishes

/-! ### Down to the terminal -/

section

variable [SemanticValue V]

/-- The machine comes to a configuration that has read more, or in which the table accepts. -/
def Machine.Advances (g : Grammar V) (T : Table) (m : Configuration V) : Prop :=
  ∃ moves m', Runs g T.tabular moves m m' ∧
    (m'.input.length < m.input.length ∨ Accepts g T.tabular m')

theorem Machine.Advances.of_runs {m m₁ : Configuration V} {moves : List (Move V)}
    (runs : Runs g T.tabular moves m m₁) (h : Advances g T m₁)
    (read : m₁.input.length ≤ m.input.length) : Advances g T m := by
  obtain ⟨moves', m', runs', ends⟩ := h
  exact ⟨moves ++ moves', m', runs.append runs', ends.imp_left fun less => by omega⟩

omit [SemanticValue V] in
/-- The rule of an item is one that the start symbol leads to. -/
theorem Machine.At.exists_rule (made : T.Made g rule c) {ids : List StateId} {i : Item}
    (here : At c ids i) :
    ∃ r ∈ g.rules, g.Reaches (.nonTerminal r.head) ∧ r.id = i.rule ∧ g.body i.rule = r.body := by
  obtain ⟨id, below, state, string, top, path, hs, hi⟩ := here
  obtain ⟨r, _, _, _, found, _, _, _, opens⟩ :=
    (path.open made.wf made.start_mem made.built rfl hs i hi).begins
  exact ⟨r, opens.mem, opens.reaches_head, (made.wf.mem_of_rule? found).2,
    by simp [Grammar.body, found]⟩

/-- Before a string that starts with the terminal that comes next, the machine comes to read it. -/
theorem StartsWith.advances (made : T.Made g rule c) (free : c.ConflictFree)
    (followed : g.Followed) {t : Terminal} {s : List Symbol} (starts : StartsWith g.rules t s) :
    ∀ {m : Configuration V} {i : Item}, At c m.states i → (g.body i.rule).drop i.position = s →
      ∀ {token : Token V} {rest : List (Token V)}, m.input = token :: rest → token.1 = t →
      g.Reads m.input → Advances g T m := by
  induction starts with
  | here =>
    intro m i here ahead token rest input next reads
    have symbol : i.symbol? g = some (.terminal token.1) := by
      rw [Item.symbol?, ← List.head?_drop, ahead, next]
      rfl
    obtain ⟨target, does, _⟩ := here.shifts made free symbol input reads
    exact ⟨_, _, .single does, .inl (by simp [input])⟩
  | @skip x s vanishes starts ih =>
    intro m i here ahead token rest input next reads
    have symbol : i.symbol? g = some x := by
      rw [Item.symbol?, ← List.head?_drop, ahead]
      rfl
    have remainder : i.remainder g = s := by
      rw [Item.remainder, ← List.tail_drop, ahead]
      rfl
    obtain ⟨forest, none⟩ := Forest.exists_of_vanishes vanishes
    cases forest with
    | cons tree empty =>
      cases empty
      rw [Forest.tokens, Forest.tokens, List.append_nil] at none
      have follows : g.nextOf m.input ∈ g.firstWith (i.remainder g) i.lookahead := by
        rw [input, remainder, Grammar.nextOf, next]
        exact (Grammar.mem_firstWith_iff_derives made.wf).mpr (.inl starts.derives)
      rcases tree.runs made free here symbol (by rw [none]; rfl) reads follows with
        ⟨_, ended, _⟩ | ⟨target, runs, there⟩
      · rw [input] at ended
        cases ended
      · refine .of_runs runs (ih there ?_ input next reads) (Nat.le_refl _)
        exact remainder
  | @enter r s mem starts ih =>
    intro m i here ahead token rest input next reads
    obtain ⟨outer, outer_mem, reach, _, body⟩ := here.exists_rule made
    have symbol : i.symbol? g = some (.nonTerminal r.head) := by
      rw [Item.symbol?, ← List.head?_drop, ahead]
      rfl
    have split := Item.body_eq_of_symbol? symbol
    rw [body] at split
    obtain ⟨b, follows⟩ := followed.exists_lookahead made.wf outer_mem reach split i.lookahead
    have called : (⟨r.id, 0, b⟩ : Item) ∈ i.expansion g :=
      (i.mem_expansion g).mpr ⟨r.head, symbol, r, g.mem_rulesOf.mpr ⟨mem, rfl⟩, b, follows, rfl⟩
    exact ih (here.expand made.collection called) (made.wf.body_of_mem mem) input next reads

/-! ### Up to the terminal -/

/-- On these states the rule has begun, and the rules around it on the ones below. -/
inductive Machine.Begun (g : Grammar V) (c : Collection) :
    List StateId → Rule V → Terminal → Prop where
  | start {ids : List StateId} {rule : Rule V} (mem : rule ∈ g.rulesOf g.start) :
    Begun g c ids rule g.eos
  | inside {ids : List StateId} {outer inner : Rule V} {a b : Terminal} {front back : List Symbol}
    (begun : Begun g c (ids.drop front.length) outer a) (mem : outer ∈ g.rules)
    (body : outer.body = front ++ .nonTerminal inner.head :: back)
    (deep : front.length < ids.length) (here : At c ids ⟨outer.id, front.length, a⟩)
    (follows : b ∈ g.firstWith back a) : Begun g c ids inner b

omit [SemanticValue V] in
theorem Grammar.Opens.begun (made : T.Made g rule c) {string : List Symbol} {r : Rule V}
    {a : Terminal} (opens : g.Opens string r a) {ids : List StateId}
    (path : c.Path ids string.reverse) : Begun g c ids r a := by
  induction opens generalizing ids with
  | start mem => exact .start mem
  | @inside string front back outer inner a b opens body _ follows ih =>
    have lower := path.drop_append
    have deep := path.length_eq
    rw [List.length_reverse, List.length_append] at deep
    exact .inside (ih lower) opens.mem body (by omega)
      (At.climb made.collection opens.mem body path
        (At.of_opens made.collection opens lower)) follows

/-- At the end of a rule, with its lookahead next, the machine comes to read that or to accept. -/
theorem Machine.Begun.advances (made : T.Made g rule c) (free : c.ConflictFree)
    (followed : g.Followed) {ids : List StateId} {r : Rule V} {a : Terminal}
    (begun : Begun g c ids r a) : ∀ {m : Configuration V}, r ∈ g.rules →
      m.states.drop r.length = ids → m.values.length + 1 = m.states.length →
      r.length ≤ m.values.length → At c m.states ⟨r.id, r.length, a⟩ → g.nextOf m.input = a →
      g.Reads m.input → Advances g T m := by
  have accepts {r : Rule V} (mem : r ∈ g.rules) {m : Configuration V} {a : Terminal}
      (here : At c m.states ⟨r.id, r.length, a⟩) (next : g.nextOf m.input = a)
      (reads : g.Reads m.input) (head : r.head = g.start) (last : a = g.eos) :
      Advances g T m := by
    have final : Item.symbol? g ⟨r.id, r.length, a⟩ = none := by
      rw [Item.symbol?, made.wf.body_of_mem mem]
      exact List.getElem?_eq_none_iff.mpr (Nat.le_refl _)
    have found := made.wf.rule?_of_mem mem
    exact ⟨[], m, .nil m, .inr (here.accepts made free final last (by simp [found, head])
      (reads.eq_nil (next.trans last)))⟩
  induction begun with
  | start mem =>
    intro m mem' _ _ _ here next reads
    exact accepts mem' here next reads (g.mem_rulesOf.mp mem).2 rfl
  | @inside ids outer r a b front back _ outer_mem body deep below follows ih =>
    intro m mem uncovered level enough here next reads
    by_cases top : r.head = g.start ∧ b = g.eos
    · exact accepts mem here next reads top.1 top.2
    have whole := made.wf.body_of_mem outer_mem
    have symbol : Item.symbol? g ⟨outer.id, front.length, a⟩ = some (.nonTerminal r.head) := by
      simp [Item.symbol?, whole, body]
    have ahead : (g.body outer.id).drop (front.length + 1) = back := by
      simp [whole, body]
    have states : m.states = m.states.take r.length ++ ids := by
      rw [← uncovered, List.take_append_drop]
    have size : (m.states.take r.length).length = r.length := by
      rw [List.length_take]
      omega
    obtain ⟨target, does, there⟩ :=
      At.reduces mem (next ▸ here) made free states size enough (next ▸ top) reads below symbol
    refine .of_runs (.single does) ?_ (Nat.le_refl _)
    rcases (Grammar.mem_firstWith_iff_derives made.wf).mp follows with ⟨rest, derives⟩ |
      ⟨vanishes, rfl⟩
    · -- the terminal comes from what is left of the outer rule
      obtain ⟨token, tokens, input⟩ : ∃ token tokens, m.input = token :: tokens := by
        refine List.exists_cons_of_ne_nil fun none => ?_
        have last : b = g.eos := by rw [← next, none, Grammar.nextOf]
        have inner := derives.forall_mem (P := fun x => x ≠ .terminal g.eos)
          (fun r mem x hx same => made.wf.eos_not_mem_body r mem (same ▸ hx))
          (fun x hx same => made.wf.eos_not_mem_body outer outer_mem (same ▸ by simp [body, hx]))
        exact inner (.terminal b) (by simp) (by rw [last])
      rw [input] at next
      exact (StartsWith.of_derives derives).advances made free followed there ahead input next reads
    · -- it comes after the outer rule, whose rest derives nothing
      obtain ⟨forest, none⟩ := Forest.exists_of_vanishes vanishes
      have ends : g.nextOf m.input ∈ g.firstWith [] b :=
        (Grammar.mem_firstWith_iff_derives made.wf).mpr (.inr ⟨.refl, next⟩)
      rcases forest.runs made free (m := m.reduced r.id r (target :: ids)) there
          (ahead.trans (List.append_nil _).symm)
          (show m.input = forest.tokens ++ m.input by rw [none]; rfl) reads ends with
        ⟨_, _, moves, m', runs, accepts, _⟩ | ⟨states, size, runs, there'⟩
      · exact ⟨moves, m', runs, .inr accepts⟩
      · have long : outer.length = states.length + (front.length + 1) := by
          simp only [Rule.length, body, List.length_append, List.length_cons, size]
          omega
        have depth : ids.length = m.states.length - r.length := by
          rw [← uncovered, List.length_drop]
        refine .of_runs runs (ih outer_mem ?_ ?_ ?_ ?_ next reads) (Nat.le_refl _)
        · simp [Configuration.past, Configuration.reduced, long]
        · simp [Configuration.past, Configuration.reduced, size]
          omega
        · simp [Configuration.past, Configuration.reduced, long, size]
          omega
        · have position : front.length + 1 + back.length = outer.length := by
            rw [long, size]
            omega
          rw [← position]
          exact there'

/-! ### To the end -/

/-- The input up to the first token that is the end of input or is of another grammar. -/
def Grammar.readable (g : Grammar V) (input : List (Token V)) : List (Token V) :=
  input.takeWhile fun token => g.symbols.owns (.terminal token.1) && token.1 ≠ g.eos

omit [SemanticValue V] in
theorem Grammar.reads_readable (g : Grammar V) (input : List (Token V)) :
    g.Reads (g.readable input) := by
  intro token mem
  simpa using List.mem_takeWhile_imp mem

omit [SemanticValue V] in
/-- As long as a terminal of the grammar comes next, it is the same in what is readable. -/
theorem Grammar.nextOf_readable {input : List (Token V)}
    (owned : g.symbols.owns (.terminal (g.nextOf input)) = true) :
    g.nextOf (g.readable input) = g.nextOf input := by
  cases input with
  | nil => rfl
  | cons token rest =>
    change g.symbols.owns (.terminal token.1) = true at owned
    by_cases last : token.1 = g.eos
    · simp [readable, last, nextOf]
    · simp [readable, owned, last, nextOf]

namespace Machine

/-- What the machine does it also does if the input ends where it is not readable. -/
theorem Does.readable (made : T.Made g rule c) {move : Move V} {m m' : Configuration V}
    (h : Does g T.tabular move m m') :
    Does g T.tabular move { m with input := g.readable m.input }
      { m' with input := g.readable m'.input } := by
  cases h with
  | @shift _ state target below token rest top input owned act =>
    obtain ⟨r, mem, inside⟩ :=
      made.built.mem_body_of_target? (made.follows.of_shift made.built act)
    have inner : token.1 ≠ g.eos := fun same => made.wf.eos_not_mem_body r mem (same ▸ inside)
    refine .shift top ?_ owned act
    simp [input, Grammar.readable, owned, inner]
  | reduce top owned act found enough uncovered goto =>
    have same := Grammar.nextOf_readable owned
    rw [← same] at owned act
    exact .reduce (m := { m with input := g.readable m.input }) top owned act found enough
      uncovered goto

theorem Runs.readable (made : T.Made g rule c) {moves : List (Move V)} {m m' : Configuration V}
    (h : Runs g T.tabular moves m m') :
    Runs g T.tabular moves { m with input := g.readable m.input }
      { m' with input := g.readable m'.input } := by
  induction h with
  | nil => exact .nil _
  | cons first _ ih => exact .cons (first.readable made) ih

/-- If parsing what is readable comes to an end, so does parsing it all. -/
theorem exists_parses_of_readable (made : T.Made g rule c) {tokens : List (Token V)}
    (h : ∃ result calls, Parses g T.tabular (g.readable tokens) result calls) :
    ∃ result calls, Parses g T.tabular tokens result calls := by
  obtain ⟨result, calls, fuel, halt⟩ := h
  cases last : run g T.tabular fuel (.start T.tabular tokens) with
  | halt result calls => exact ⟨result, calls, fuel, last⟩
  | «continue» m =>
    obtain ⟨moves, rfl, runs⟩ := Runs.of_run_continue last
    have still := (runs.readable made).run_eq 0
    cases halt.symm.trans still

theorem Accepts.exists_halt {m : Configuration V} (h : Accepts g T.tabular m) :
    ∃ result calls, step g T.tabular m = .halt result calls := by
  obtain ⟨state, below, top, owned, act⟩ := h
  exact ⟨_, _, by rw [step_eq top owned, act]⟩

/-- Wherever the machine is, it comes to read more or to where it stops. -/
theorem Runs.advances (made : T.Made g rule c) (free : c.ConflictFree) (followed : g.Followed)
    {tokens : List (Token V)} {moves : List (Move V)} {m : Configuration V}
    (runs : Runs g T.tabular moves (.start T.tabular tokens) m) (reads : g.Reads m.input) :
    (∃ result calls, step g T.tabular m = .halt result calls) ∨ Advances g T m := by
  cases next : step g T.tabular m with
  | halt result calls => exact .inl ⟨result, calls, rfl⟩
  | «continue» m' =>
    obtain ⟨move, does⟩ := step_eq_continue.mp next
    right
    cases does with
    | shift top input owned act =>
      exact ⟨_, _, .single (.shift top input owned act), .inl (by simp [input])⟩
    | @reduce _ state base target below under id r top owned act found enough uncovered goto =>
      obtain ⟨string, path, size, _⟩ := (runs.safeAt made).path
      rw [← string.reverse_reverse] at path
      have reduced := (top ▸ path).opens_of_reduce made act
      obtain ⟨r', left, found', split, opens, _⟩ := reduced
      cases found.symm.trans found'
      have length := path.length_eq
      rw [split] at path
      have lower := path.drop_append
      refine (opens.begun made lower).advances made free followed opens.mem rfl ?_ enough ?_ rfl
        reads
      · simp at length
        omega
      · exact At.climb made.collection opens.mem (List.append_nil _).symm path
          (At.of_opens made.collection opens lower)

/-- Parsing tokens of the grammar comes to an end. -/
theorem exists_parses_of_followed (made : T.Made g rule c) (free : c.ConflictFree)
    (followed : g.Followed) {tokens : List (Token V)} (reads : g.Reads tokens) :
    ∃ result calls, Parses g T.tabular tokens result calls := by
  have ends : ∀ (n : Nat) (moves : List (Move V)) (m : Configuration V), m.input.length = n →
      Runs g T.tabular moves (.start T.tabular tokens) m →
      ∃ result calls, Parses g T.tabular tokens result calls := by
    intro n
    induction n using Nat.strong_induction_on with
    | _ n ih =>
      intro moves m size runs
      obtain ⟨_, forest, _, _, _, split, _⟩ := runs.parsed made
      have rest : g.Reads m.input := fun token mem => reads token (by simp [split, mem])
      rcases runs.advances made free followed rest with
        ⟨result, calls, halt⟩ | ⟨moves', m', runs', less | accepts⟩
      · exact ⟨result, calls, parses_iff.mpr ⟨moves, m, runs, halt⟩⟩
      · exact ih _ (size ▸ less) _ m' rfl (runs.append runs')
      · obtain ⟨result, calls, halt⟩ := accepts.exists_halt
        exact ⟨result, calls, parses_iff.mpr ⟨_, m', runs.append runs', halt⟩⟩
  exact ends _ [] _ rfl (.nil _)

/-- Without conflicts parsing comes to an end, whatever the tokens, where something can always come
behind a non-terminal, and also where no non-terminal is derived from itself alone or comes back
behind what derives nothing. -/
theorem parses_of_conflictFree {b : Builder V} (authored : b.Authored) {T : Table}
    (table : b.build.table? = .ok T) {c : Collection} (collection : b.build.collection? = .ok c)
    (free : c.ConflictFree)
    (h : b.build.Followed ∨ b.build.Acyclic ∧ b.build.NoHiddenLeftRecursion)
    (tokens : List (Token V)) : ∃ result calls, Parses b.build T.tabular tokens result calls := by
  obtain ⟨c', rule, found, made⟩ := Grammar.of_table? authored.wellFormed.build table
  cases collection.symm.trans found
  rcases h with followed | ⟨acyclic, direct⟩
  · exact exists_parses_of_readable made
      (exists_parses_of_followed made free followed (b.build.reads_readable tokens))
  · obtain ⟨bound, few⟩ := Runs.exists_bound made acyclic direct tokens
    exact exists_parses_of_bound few

end Machine

end

/-! ### A rule that can never be finished -/

namespace DeadEnd

/-- There is no rule for `U`. -/
def builder : Builder Value :=
  Command.runAll
    [.terminal "a", .nonTerminal "S", .nonTerminal "U", .setStart (.name "S") {},
      .rule (.name "S") [.name "a"] {}, .rule (.name "S") [.name "a", .name "U"] {}]
    ⟨⟨⟨0⟩, [⟨Builder.defaultStart, .start⟩, ⟨Builder.defaultEos, .eos⟩]⟩, []⟩

theorem authored : builder.Authored :=
  ⟨⟨0⟩, Builder.defaultStart, Builder.defaultEos, _, _, rfl, rfl⟩

def collection : Collection := builder.build.collection?.toOption.getD .empty

def table : Table := builder.build.table?.toOption.getD ⟨0, [], [], []⟩

theorem conflictFree : collection.ConflictFree := by
  decide +kernel

/-- Parsing ends, though a rule is begun that has no end. -/
theorem pair_parses :
    ∃ result calls, Parses builder.build table.tabular
      [(⟨⟨0⟩, 2⟩, Value.leaf "a"), (⟨⟨0⟩, 2⟩, .leaf "a")] result calls :=
  Machine.parses_of_conflictFree authored rfl (c := collection) rfl conflictFree
    (.inl (Grammar.followed_of_firstWith authored.wellFormed.build (by decide +kernel))) _

end DeadEnd

/-! ### Lookaheads that get lost -/

namespace LostCycle

/-- Nothing can come behind `C`, so `t` is not read where it is expected: `seq` becomes `Y` there,
and `Y` becomes `seq`. -/
def builder : Builder Value :=
  Command.runAll
    [.terminal "n", .terminal "t", .nonTerminal "A", .nonTerminal "B", .nonTerminal "C",
      .nonTerminal "U", .nonTerminal "Y", .seq [.name "Y"] (some Combinator.absent),
      .setStart (.name "A") {}, .rule (.name "A") [.name "seq", .name "B"] {},
      .rule (.name "Y") [.name "seq"] {}, .rule (.name "Y") [.name "n"] {},
      .rule (.name "B") [.name "C", .name "U"] {}, .rule (.name "C") [.name "t"] {}]
    ⟨⟨⟨0⟩, [⟨Builder.defaultStart, .start⟩, ⟨Builder.defaultEos, .eos⟩]⟩, []⟩

theorem authored : builder.Authored :=
  ⟨⟨0⟩, Builder.defaultStart, Builder.defaultEos, _, _, rfl, rfl⟩

def collection : Collection := builder.build.collection?.toOption.getD .empty

def table : Table := builder.build.table?.toOption.getD ⟨0, [], [], []⟩

theorem conflictFree : collection.ConflictFree := by
  decide +kernel

set_option maxRecDepth 2000 in
/-- Before `t` the machine goes round. -/
theorem not_parses (result : Except ParseError Value) (calls : List RuleId) :
    ¬Parses builder.build table.tabular [(⟨⟨0⟩, 2⟩, .leaf "n"), (⟨⟨0⟩, 3⟩, .leaf "t")]
      result calls := by
  refine Machine.not_parses_of_goes_on (P := fun m => ∃ v handled,
      m = ⟨[3, 0], [v], [(⟨⟨0⟩, 3⟩, .leaf "t")], handled⟩ ∨
        m = ⟨[4, 0], [v], [(⟨⟨0⟩, 3⟩, .leaf "t")], handled⟩)
    ?_ 2 rfl ⟨.vec [.leaf "n"], [], .inl rfl⟩ result calls
  rintro m ⟨v, handled, rfl | rfl⟩
  · exact ⟨_, rfl, .none, 0 :: handled, .inr rfl⟩
  · exact ⟨_, rfl, .vec [v], handled, .inl rfl⟩

end LostCycle

namespace LostPrefix

/-- Nothing can come behind `B`, so `t` is not read where it is expected, and there is only an empty
`X` to begin with. -/
def builder : Builder Value :=
  Command.runAll
    [.terminal "t", .nonTerminal "A", .nonTerminal "B", .nonTerminal "U", .nonTerminal "X",
      .setStart (.name "A") {}, .rule (.name "A") [.name "X", .name "A"] {},
      .rule (.name "A") [.name "B", .name "U"] {}, .rule (.name "X") [] {},
      .rule (.name "B") [.name "t"] {}]
    ⟨⟨⟨0⟩, [⟨Builder.defaultStart, .start⟩, ⟨Builder.defaultEos, .eos⟩]⟩, []⟩

theorem authored : builder.Authored :=
  ⟨⟨0⟩, Builder.defaultStart, Builder.defaultEos, _, _, rfl, rfl⟩

def collection : Collection := builder.build.collection?.toOption.getD .empty

def table : Table := builder.build.table?.toOption.getD ⟨0, [], [], []⟩

theorem conflictFree : collection.ConflictFree := by
  decide +kernel

set_option maxRecDepth 2000 in
/-- Before `t` the machine makes more and more of the empty symbols. -/
theorem not_parses (result : Except ParseError Value) (calls : List RuleId) :
    ¬Parses builder.build table.tabular [(⟨⟨0⟩, 2⟩, .leaf "t")] result calls := by
  refine Machine.not_parses_of_goes_on
    (P := fun m => ∃ below values, m = ⟨3 :: below, values, [(⟨⟨0⟩, 2⟩, .leaf "t")], []⟩)
    ?_ 1 rfl ⟨[0], [.vec []], rfl⟩ result calls
  rintro m ⟨below, values, rfl⟩
  exact ⟨_, rfl, 3 :: below, .vec [] :: values, rfl⟩

end LostPrefix

set_option maxRecDepth 4000 in
/-- Where lookaheads get lost neither kind of recursion may be left in: of each there is a grammar
without conflicts by which some parsing never ends. -/
theorem lost_lookaheads_go_round :
    (LostCycle.builder.Authored ∧
      LostCycle.builder.build.table? = .ok LostCycle.table ∧
      LostCycle.builder.build.collection? = .ok LostCycle.collection ∧
      LostCycle.collection.ConflictFree ∧
      ∀ result calls, ¬Parses LostCycle.builder.build LostCycle.table.tabular
        [(⟨⟨0⟩, 2⟩, .leaf "n"), (⟨⟨0⟩, 3⟩, .leaf "t")] result calls) ∧
    (LostPrefix.builder.Authored ∧
      LostPrefix.builder.build.table? = .ok LostPrefix.table ∧
      LostPrefix.builder.build.collection? = .ok LostPrefix.collection ∧
      LostPrefix.collection.ConflictFree ∧
      ∀ result calls, ¬Parses LostPrefix.builder.build LostPrefix.table.tabular
        [(⟨⟨0⟩, 2⟩, .leaf "t")] result calls) :=
  ⟨⟨LostCycle.authored, rfl, rfl, LostCycle.conflictFree, LostCycle.not_parses⟩,
    ⟨LostPrefix.authored, rfl, rfl, LostPrefix.conflictFree, LostPrefix.not_parses⟩⟩

end CanonicalLR
