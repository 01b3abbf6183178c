import CanonicalLR.Proofs.ErrorDetection

/-!
How many values there are when the table accepts: one more than symbols come before the
start symbol in some derivation from itself. So there is just one where the start symbol
derives nothing that ends with it but itself; otherwise, in a grammar without conflicts,
the machine accepts some sentence at an inner start symbol and leaves values behind.
-/
namespace CanonicalLR

open Machine

variable {V : Type} {g : Grammar V} {c : Collection} {T : Table} {rule : Rule V}

/-- The rules lead from the first symbol to the second one at the end, up to what derives nothing,
and the string is what they leave in front of it. -/
inductive Spine (rules : List (Rule V)) (last : Symbol) : Symbol → List Symbol → Prop where
  | stop : Spine rules last last []
  | node {r : Rule V} {front back string : List Symbol} {x : Symbol} (mem : r ∈ rules)
    (body : r.body = front ++ x :: back) (vanishes : Derives rules back [])
    (rest : Spine rules last x string) :
    Spine rules last (.nonTerminal r.head) (front ++ string)

theorem Derives.nil_of_append {rules : List (Rule V)} {s t : List Symbol}
    (h : Derives rules (s ++ t) []) : Derives rules s [] ∧ Derives rules t [] := by
  rw [← Analysis.nullableString_iff_derives, Analysis.nullableString_append,
    Bool.and_eq_true] at h
  exact ⟨Analysis.nullableString_iff_derives.mp h.1, Analysis.nullableString_iff_derives.mp h.2⟩

theorem Derives.eq_nil {rules : List (Rule V)} {s : List Symbol} (h : Derives rules [] s) :
    s = [] := by
  rcases Relation.ReflTransGen.cases_head h with same | ⟨_, step, _⟩
  · exact same.symm
  · generalize empty : ([] : List Symbol) = start at step
    cases step
    simp at empty

/-- A derived string ends with a symbol because a spine leads there. -/
theorem Spine.of_derives {rules : List (Rule V)} {last : Symbol} {s left : List Symbol}
    (h : Derives rules s (left ++ [last])) :
    ∃ front x back string, s = front ++ x :: back ∧ Derives rules back [] ∧
      Spine rules last x string ∧ Derives rules (front ++ string) left := by
  induction h using Relation.ReflTransGen.head_induction_on with
  | refl => exact ⟨left, last, [], [], rfl, .refl, .stop, by rw [List.append_nil]; exact .refl⟩
  | head step _ ih =>
    obtain ⟨front, x, back, string, split, vanishes, spine, derives⟩ := ih
    cases step with
    | step r mem l t =>
      rcases exists_of_append_eq split with ⟨after, within, rfl⟩ | ⟨before, rfl, rfl⟩
      · obtain ⟨inner, outer⟩ := vanishes.nil_of_append
        rcases exists_of_append_eq within with ⟨after', rfl, rfl⟩ | ⟨before, rfl, body⟩
        · -- in front of the rule
          refine ⟨front, x, after' ++ .nonTerminal r.head :: t, string, by simp, ?_, spine,
            derives⟩
          exact Relation.ReflTransGen.head (.step r mem after' t) vanishes
        · -- in the body of the rule
          refine ⟨l, .nonTerminal r.head, t, before ++ string, rfl, outer,
            .node mem body inner spine, ?_⟩
          rwa [← List.append_assoc]
      · -- behind the rule
        refine ⟨l ++ .nonTerminal r.head :: before, x, back, string, by simp, vanishes, spine, ?_⟩
        refine Relation.ReflTransGen.head ?_ derives
        simpa using Produces.step r mem l (before ++ string)

theorem Spine.of_derives_start {left : List Symbol}
    (h : Derives g.rules [.nonTerminal g.start] (left ++ [.nonTerminal g.start])) :
    ∃ string, Spine g.rules (.nonTerminal g.start) (.nonTerminal g.start) string ∧
      Derives g.rules string left := by
  obtain ⟨front, x, back, string, split, _, spine, rest⟩ := Spine.of_derives h
  cases front with
  | nil =>
    obtain ⟨rfl, _⟩ := List.cons.inj split
    exact ⟨string, spine, rest⟩
  | cons y front => simp at split

/-- A spine that leaves something in front of the start symbol begins with the start rule. -/
theorem Spine.of_start (made : T.Made g rule c) {n : NonTerminal}
    (body : rule.body = [.nonTerminal n]) {last x : Symbol} {string : List Symbol}
    (spine : Spine g.rules last x string) (top : x = .nonTerminal g.start) (more : string ≠ []) :
    Spine g.rules last (.nonTerminal n) string := by
  cases spine with
  | stop => exact absurd rfl more
  | @node r front back string x mem split vanishes rest =>
    have only := made.eq_of_head mem (Symbol.nonTerminal.inj top)
    rw [only, body] at split
    cases front with
    | nil =>
      cases split
      exact rest
    | cons y front => simp at split

section

variable [SemanticValue V]

/-- With the symbol after the dot and these terminals to read before the end, the machine comes to
where the table accepts, with more than so many new values. -/
def Machine.LeadsToAccept (g : Grammar V) (c : Collection) (T : Table) (x : Symbol)
    (ts : List Terminal) (count : Nat) : Prop :=
  ∀ {m : Configuration V} {i : Item}, At c m.states i → i.symbol? g = some x →
    m.input = tokensFor ts → g.eos ∈ g.firstWith (i.remainder g) i.lookahead →
    ∃ moves m', Runs g T.tabular moves m m' ∧ Accepts g T.tabular m' ∧
      m.values.length + count < m'.values.length

theorem Machine.leadsToAccept_start (made : T.Made g rule c) (free : c.ConflictFree)
    {w : List Terminal} (sentence : g.Sentence w) :
    LeadsToAccept g c T (.nonTerminal g.start) w 0 := by
  intro m i here next input follows
  obtain ⟨n, body⟩ := made.body
  rw [← terminals_tokensFor (V := V) w] at sentence
  obtain ⟨tree, ht⟩ := sentence.exists_tree made body
  have called : (⟨rule.id, 0, g.eos⟩ : Item) ∈ i.expansion g :=
    (i.mem_expansion g).mpr ⟨g.start, next, rule, made.start_mem, g.eos, follows, rfl⟩
  rcases tree.runs_to_accept made free body (here.expand made.collection called)
    (input.trans ht.symm) with
    ⟨_, _, moves, m', runs, accepts, _, more⟩ | ⟨target, runs, accepts⟩
  · exact ⟨moves, m', runs, accepts, more⟩
  · exact ⟨_, _, runs, accepts, by simp [Configuration.past, Forest.values]⟩

/-- The trees of a string for the terminals it derives. -/
theorem Forest.exists_tokensFor {rules : List (Rule V)} {string : List Symbol}
    {ts : List Terminal} (h : Derives rules string (terminalString ts)) :
    ∃ forest : Forest rules string, forest.tokens = tokensFor ts := by
  rw [← terminals_tokensFor (V := V) ts] at h
  exact Forest.exists_of_derives h

/-- If two strings in a row derive terminals, both of them do. -/
theorem Derives.exists_terminals_of_append {rules : List (Rule V)} {s t : List Symbol}
    {ts : List Terminal} (h : Derives rules (s ++ t) (terminalString ts)) :
    (∃ us, Derives rules s (terminalString us)) ∧ ∃ us, Derives rules t (terminalString us) := by
  obtain ⟨forest, _⟩ := Forest.exists_tokensFor h
  obtain ⟨first, second, _⟩ := forest.exists_append
  exact ⟨⟨_, first.derives⟩, ⟨_, second.derives⟩⟩

/-- At the top of a spine that ends with the start symbol, some terminals lead to where the table
accepts, with a value for each symbol in front. -/
theorem Spine.leadsToAccept (made : T.Made g rule c) (free : c.ConflictFree)
    {w : List Terminal} (sentence : g.Sentence w) (more : w ≠ []) {x : Symbol}
    {string : List Symbol} (spine : Spine g.rules (.nonTerminal g.start) x string)
    {leaves : List Terminal} (ends : Derives g.rules string (terminalString leaves)) :
    ∃ ts, Derives g.rules [x] (terminalString (ts ++ w)) ∧
      LeadsToAccept g c T x (ts ++ w) string.length := by
  induction spine generalizing leaves with
  | stop => exact ⟨[], sentence, leadsToAccept_start made free sentence⟩
  | @node r front back string x mem body vanishes _ ih =>
    obtain ⟨⟨ts, first⟩, _, later⟩ := Derives.exists_terminals_of_append ends
    obtain ⟨us, derives, leads⟩ := ih later
    refine ⟨ts ++ us, ?_, ?_⟩
    · have h := first.concat (derives.concat vanishes)
      rw [List.append_nil, ← terminalString_append, List.singleton_append, ← body] at h
      rw [List.append_assoc]
      exact (Derives.of_rule mem).trans h
    · intro m i here next input follows
      have called : (⟨r.id, 0, g.eos⟩ : Item) ∈ i.expansion g :=
        (i.mem_expansion g).mpr
          ⟨r.head, next, r, g.mem_rulesOf.mpr ⟨mem, rfl⟩, g.eos, follows, rfl⟩
      have whole : g.body r.id = front ++ x :: back := (made.wf.body_of_mem mem).trans body
      obtain ⟨forest, hf⟩ := Forest.exists_tokensFor first
      obtain ⟨later, hl⟩ := Forest.exists_tokensFor derives
      have split : m.input = forest.tokens ++ later.tokens := by
        rw [input, hf, hl, List.append_assoc, tokensFor_append]
      have reads : g.Reads m.input := by
        rw [split, ← Forest.tokens_append]
        refine (forest.append later).reads made.wf fun y hy => ⟨r, mem, ?_⟩
        rw [body]
        rcases List.mem_append.mp hy with hy | hy
        · exact List.mem_append_left _ hy
        · simp [List.mem_singleton.mp hy]
      have ends : g.nextOf ([] : List (Token V)) ∈ g.firstWith back g.eos :=
        (Grammar.mem_firstWith_iff_derives made.wf).mpr (.inr ⟨vanishes, rfl⟩)
      have comes := Grammar.nextOf_mem_firstWith made.wf later ends
      rw [List.append_nil, List.singleton_append] at comes
      rcases forest.runs made free (here.expand made.collection called)
          (show (g.body r.id).drop 0 = front ++ x :: back from whole) split reads comes with
        ⟨_, none, _⟩ | ⟨states, size, runs, there⟩
      · simp [hl, tokensFor, more] at none
      · have next' : Item.symbol? g ⟨r.id, 0 + front.length, g.eos⟩ = some x := by
          simp [Item.symbol?, whole]
        have remainder : Item.remainder g ⟨r.id, 0 + front.length, g.eos⟩ = back := by
          simp [Item.remainder, whole]
        obtain ⟨moves, m', runs', accepts, count⟩ := leads (m := m.past states forest later.tokens)
          there next' hl (remainder ▸ ends)
        refine ⟨_, m', runs.append runs', accepts, ?_⟩
        simp only [Configuration.past, List.length_append, List.length_reverse,
          Forest.length_values] at count ⊢
        omega

/-- Where the table accepts there is one value more than there are symbols before the start symbol
in something it derives. In a grammar without conflicts that has a sentence with a token in it,
there is therefore always just one value if and only if nothing that derives terminals comes before
the start symbol at the end of what it derives. -/
theorem Machine.accepts_one_value_iff {b : Builder V} (authored : b.Authored) {T : Table}
    (table : b.build.table? = .ok T) :
    (∀ (tokens : List (Token V)) (moves : List (Move V)) (m : Configuration V),
      Runs b.build T.tabular moves (.start T.tabular tokens) m → Accepts b.build T.tabular m →
      ∃ left ts, m.values.length = left.length + 1 ∧
        Derives b.build.rules [.nonTerminal b.build.start]
          (left ++ [.nonTerminal b.build.start]) ∧
        Derives b.build.rules left (terminalString ts)) ∧
    ∀ c, b.build.collection? = .ok c → c.ConflictFree →
      (∃ w, w ≠ [] ∧ b.build.Sentence w) →
      ((∀ (tokens : List (Token V)) (moves : List (Move V)) (m : Configuration V),
          Runs b.build T.tabular moves (.start T.tabular tokens) m → Accepts b.build T.tabular m →
          m.values.length = 1) ↔
        ∀ left ts, Derives b.build.rules [.nonTerminal b.build.start]
            (left ++ [.nonTerminal b.build.start]) →
          Derives b.build.rules left (terminalString ts) → left = []) := by
  obtain ⟨c, rule, found, made⟩ := Grammar.of_table? authored.wellFormed.build table
  obtain ⟨n, body⟩ := made.body
  have count (tokens : List (Token V)) (moves : List (Move V)) (m : Configuration V)
      (runs : Runs b.build T.tabular moves (.start T.tabular tokens) m)
      (accepts : Accepts b.build T.tabular m) :
      ∃ left ts, m.values.length = left.length + 1 ∧
        Derives b.build.rules [.nonTerminal b.build.start]
          (left ++ [.nonTerminal b.build.start]) ∧
        Derives b.build.rules left (terminalString ts) := by
    obtain ⟨left, forest, derives, values, _⟩ := (runs.parsed made).of_accepts made accepts
    obtain ⟨⟨ts, before⟩, _⟩ := Derives.exists_terminals_of_append forest.derives
    exact ⟨left, ts, by simp [values, body], derives, before⟩
  refine ⟨count, fun c' collection free ⟨w, more, sentence⟩ =>
    ⟨fun single left ts derives ends => ?_, fun none tokens moves m runs accepts => ?_⟩⟩
  · rw [collection] at found
    cases found
    by_contra front
    obtain ⟨string, spine, rest⟩ := Spine.of_derives_start derives
    have leaves : string ≠ [] := by
      rintro rfl
      exact front rest.eq_nil
    obtain ⟨ts, _, leads⟩ := (spine.of_start made body rfl leaves).leadsToAccept made free
      sentence more (rest.trans ends)
    have whole := (made.wf.body_of_mem (b.build.mem_rulesOf.mp made.start_mem).1).trans body
    have follows : b.build.eos ∈
        b.build.firstWith (Item.remainder b.build ⟨rule.id, 0, b.build.eos⟩) b.build.eos := by
      rw [Item.remainder, whole]
      exact (Grammar.mem_firstWith_iff_derives made.wf).mpr (.inr ⟨.refl, rfl⟩)
    obtain ⟨moves, m, runs, accepts, many⟩ :=
      leads (m := .start T.tabular (tokensFor (ts ++ w))) (.start made _)
        (by simp [Item.symbol?, whole]) rfl follows
    have one := single _ _ _ runs accepts
    have := List.length_pos_of_ne_nil leaves
    omega
  · obtain ⟨left, ts, size, derives, before⟩ := count tokens moves m runs accepts
    rw [size, none left ts derives before]
    rfl

end

/-! ### A rule that ends with the start symbol -/

namespace TailStart

def builder : Builder Value :=
  Command.runAll
    [.terminal "a", .terminal "b", .nonTerminal "E", .setStart (.name "E") {},
      .rule (.name "E") [.name "a", .name Builder.defaultStart] {},
      .rule (.name "E") [.name "b"] {}]
    ⟨⟨⟨0⟩, [⟨Builder.defaultStart, .start⟩, ⟨Builder.defaultEos, .eos⟩]⟩, []⟩

theorem authored : builder.Authored :=
  ⟨⟨0⟩, Builder.defaultStart, Builder.defaultEos, _, _, rfl, rfl⟩

def collection : Collection := builder.build.collection?.toOption.getD .empty

def table : Table := builder.build.table?.toOption.getD ⟨0, [], [], []⟩

theorem conflictFree : collection.ConflictFree := by
  decide +kernel

theorem derives_body : Derives builder.build.rules [.nonTerminal builder.build.start]
    [.nonTerminal ⟨⟨0⟩, 4⟩] :=
  Derives.of_rule (List.getElem_mem (l := builder.build.rules) (n := 0) (by decide +kernel))

theorem derives_tail : Derives builder.build.rules [.nonTerminal ⟨⟨0⟩, 4⟩]
    [.terminal ⟨⟨0⟩, 2⟩, .nonTerminal builder.build.start] :=
  Derives.of_rule (List.getElem_mem (l := builder.build.rules) (n := 1) (by decide +kernel))

theorem derives_single : Derives builder.build.rules [.nonTerminal ⟨⟨0⟩, 4⟩]
    (terminalString [⟨⟨0⟩, 3⟩]) :=
  Derives.of_rule (List.getElem_mem (l := builder.build.rules) (n := 2) (by decide +kernel))

/-- The value of the first token is not in the result. -/
theorem drops_first_value :
    Parses builder.build table.tabular
      [(⟨⟨0⟩, 2⟩, .leaf "a"), (⟨⟨0⟩, 3⟩, .leaf "b")] (.ok (Value.vec [.leaf "b"])) [] :=
  ⟨5, rfl⟩

/-- Somewhere the table accepts and there is not just one value. -/
theorem not_one_value :
    ¬∀ (tokens : List (Token Value)) (moves : List (Move Value)) (m : Configuration Value),
      Runs builder.build table.tabular moves (.start table.tabular tokens) m →
        Accepts builder.build table.tabular m → m.values.length = 1 := by
  intro single
  have iff := (Machine.accepts_one_value_iff authored (T := table) rfl).2 collection rfl
    conflictFree ⟨[⟨⟨0⟩, 3⟩], by simp, derives_body.trans derives_single⟩
  have none := iff.mp single [.terminal ⟨⟨0⟩, 2⟩] [⟨⟨0⟩, 2⟩] (derives_body.trans derives_tail) .refl
  cases none

end TailStart

end CanonicalLR
