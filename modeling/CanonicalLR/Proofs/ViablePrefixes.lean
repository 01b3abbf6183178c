import CanonicalLR.Proofs.ParserCompleteness
import CanonicalLR.Proofs.ParserSoundness

/-!
What the machine has read is always the beginning of a sentence. In a grammar whose
non-terminals all derive something, a terminal under which the table has an action may
come next in some sentence; without conflicts, the table has an action under every
terminal that may.
-/
namespace CanonicalLR

open Machine

variable {V : Type} {g : Grammar V} {c : Collection} {T : Table} {rule : Rule V}

/-! ### Continuing a string to a sentence -/

/-- The terminal may come next: with it behind, the string begins a sentence that has the end of
input behind it. -/
def Grammar.MayFollow (g : Grammar V) (w : List Terminal) (t : Terminal) : Prop :=
  ∃ s, g.Sentence s ∧ w ++ [t] <+: s ++ [g.eos]

theorem Grammar.mayFollow_iff {w : List Terminal} {t : Terminal} :
    g.MayFollow w t ↔ ∃ rest, g.Sentence (w ++ rest) ∧ (rest ++ [g.eos]).head? = some t := by
  constructor
  · rintro ⟨s, sentence, more, same⟩
    rw [List.append_assoc, List.append_eq_append_iff] at same
    rcases same with ⟨rest, rfl, same⟩ | ⟨rest, rfl, same⟩
    · exact ⟨rest, sentence, by rw [← same]; rfl⟩
    · obtain ⟨none, last⟩ : rest = [] ∧ t = g.eos := by
        cases rest with
        | nil =>
          have := congrArg List.head? same
          exact ⟨rfl, by simpa using this.symm⟩
        | cons x rest => simp at same
      subst none
      exact ⟨[], by simpa using sentence, by simp [last]⟩
  · rintro ⟨rest, sentence, next⟩
    refine ⟨w ++ rest, sentence, (rest ++ [g.eos]).tail, ?_⟩
    have split : t :: (rest ++ [g.eos]).tail = rest ++ [g.eos] :=
      List.cons_head?_tail next
    rw [List.append_assoc, List.append_assoc, List.singleton_append, split]

/-- A terminal that is not the end of input may come next just if with it the string still begins a
sentence. -/
theorem Grammar.MayFollow.sentenceStart {w : List Terminal} {t : Terminal}
    (h : g.MayFollow w t) (inner : t ≠ g.eos) : g.SentenceStart (w ++ [t]) := by
  obtain ⟨rest, sentence, next⟩ := Grammar.mayFollow_iff.mp h
  cases rest with
  | nil => exact absurd (by simpa using next.symm) inner
  | cons u rest =>
    have same : u = t := by simpa using next
    subst same
    exact ⟨rest, by simpa using sentence⟩

/-- The end of input may come next just if the string is a sentence. -/
theorem Grammar.mayFollow_eos (wf : g.WellFormed) {w : List Terminal} :
    g.MayFollow w g.eos ↔ g.Sentence w := by
  rw [mayFollow_iff]
  constructor
  · rintro ⟨rest, sentence, next⟩
    cases rest with
    | nil => simpa using sentence
    | cons u rest =>
      have same : u = g.eos := Option.some.inj next
      refine absurd ?_ (wf.eos_not_mem_of_derives sentence)
      exact mem_terminalString.mpr (by simp [same])
  · exact fun sentence => ⟨[], by simpa using sentence, rfl⟩

theorem Grammar.SentenceStart.of_prefix {w w' : List Terminal} (h : g.SentenceStart w')
    (begins : w <+: w') : g.SentenceStart w := by
  obtain ⟨more, rfl⟩ := begins
  obtain ⟨rest, sentence⟩ := h
  exact ⟨more ++ rest, by rwa [← List.append_assoc]⟩

theorem Grammar.WellFormed.owns_of_derives (wf : g.WellFormed) {s : List Symbol}
    (h : Derives g.rules [.nonTerminal g.start] s) : ∀ x ∈ s, g.symbols.owns x = true :=
  h.forall_mem wf.body_owned (by
    intro x hx
    rw [List.mem_singleton.mp hx]
    exact wf.start_owned)

/-- A string of symbols that all derive terminals derives terminals. -/
theorem Derives.exists_terminals {rules : List (Rule V)} {s : List Symbol}
    (each : ∀ n, Symbol.nonTerminal n ∈ s →
      ∃ ts, Derives rules [.nonTerminal n] (terminalString ts)) :
    ∃ ts, Derives rules s (terminalString ts) := by
  induction s with
  | nil => exact ⟨[], .refl⟩
  | cons x s ih =>
    obtain ⟨ts, hts⟩ := ih fun n hn => each n (List.mem_cons_of_mem x hn)
    cases x with
    | terminal t =>
      exact ⟨t :: ts, Derives.concat (.refl : Derives _ [.terminal t] [.terminal t]) hts⟩
    | nonTerminal n =>
      obtain ⟨us, hus⟩ := each n (by simp)
      refine ⟨us ++ ts, ?_⟩
      rw [terminalString_append]
      exact hus.concat hts

/-- A string of symbols that all derive something derives something. -/
theorem Grammar.Productive.exists_terminals (h : g.Productive) {s : List Symbol}
    (owned : ∀ x ∈ s, g.symbols.owns x = true) : ∃ ts, Derives g.rules s (terminalString ts) :=
  Derives.exists_terminals fun n hn => h n (owned _ hn)

/-- Where every non-terminal has a rule for a body of terminals and lower non-terminals, all of them
derive something. -/
theorem Grammar.productive_of_rank (wf : g.WellFormed) (rank : NonTerminal → Nat)
    (h : ∀ n ∈ g.symbols.nonTerminals, ∃ r ∈ g.rules, r.head = n ∧
      ∀ x ∈ r.body, ∀ m ∈ x.nonTerminal?, rank m < rank n) : g.Productive := by
  intro n
  induction hk : rank n using Nat.strong_induction_on generalizing n with
  | _ k ih =>
    intro owned
    obtain ⟨r, mem, rfl, lower⟩ := h n (List.mem_filterMap.mpr
      ⟨_, g.symbols.owns_iff.mp owned, rfl⟩)
    obtain ⟨ts, derives⟩ : ∃ ts, Derives g.rules r.body (terminalString ts) :=
      Derives.exists_terminals fun m hm =>
        ih _ (hk ▸ lower _ hm m rfl) m rfl (wf.body_owned r mem _ hm)
    exact ⟨ts, (Derives.of_rule mem).trans derives⟩

/-- After an item that proposes something under a terminal, that terminal may come next. -/
theorem Item.Fits.exists_next {string : List Symbol} {i : Item} (h : i.Fits g string)
    {transitions : List (Symbol × StateId)} {u : Terminal} {a : Action}
    (proposes : State.proposal? g transitions i = some ⟨u, i, a⟩) :
    ∃ rest, Derives g.rules [.nonTerminal g.start] (string ++ rest) ∧
      (rest ++ [Symbol.terminal g.eos]).head? = some (.terminal u) := by
  obtain ⟨rule, left, right, found, _, rfl, derives, follows⟩ := h
  have opened := derives.open_rule (List.mem_of_getElem? found)
  have body : g.body i.rule = rule.body := by simp [Grammar.body, found]
  have at_end (final : i.symbol? g = none) (last : i.lookahead = u) :
      ∃ rest, Derives g.rules [.nonTerminal g.start]
          (left ++ rule.body.take i.position ++ rest) ∧
        (rest ++ [Symbol.terminal g.eos]).head? = some (.terminal u) := by
    refine ⟨right, ?_, last ▸ follows⟩
    rw [Item.take_body_of_final found final]
    exact opened
  rcases State.proposal?_eq_some.mp proposes with
    ⟨t, target, next, _, same⟩ | ⟨final, _, same⟩ | ⟨final, _, same⟩
  · cases same
    have split := Item.body_eq_of_symbol? next
    rw [body] at split
    refine ⟨.terminal u :: (i.remainder g ++ right), ?_, rfl⟩
    rw [split] at opened
    simpa using opened
  · cases same
    exact at_end final rfl
  · cases same
    exact at_end final rfl

variable [SemanticValue V]

/-- Whatever terminal the table has an action under may come next after what has been read. -/
theorem Machine.Parsed.mayFollow (made : T.Made g rule c) (productive : g.Productive)
    {read : List (Token V)} {m : Configuration V} (h : Parsed g c (read ++ m.input) m)
    {id : StateId} {below : List StateId} (top : m.states = id :: below) {u : Terminal}
    (act : T.action id u ≠ .error) : g.MayFollow (read.map Prod.fst) u := by
  obtain ⟨string, forest, path, _, _, split, _⟩ := h
  have same : read = forest.tokens := List.append_cancel_right split
  rw [top] at path
  obtain ⟨state, hs, i, hi, proposes⟩ := made.follows.exists_proposal made.built rfl act
  obtain ⟨rest, derives, next⟩ :=
    (path.fits made.wf made.start_mem made.built rfl hs i hi).exists_next proposes
  rw [List.reverse_reverse] at derives
  have owned := made.wf.owns_of_derives derives
  obtain ⟨ts, hts⟩ := productive.exists_terminals (s := rest.tail) fun x hx =>
    owned x (List.mem_append_right _ (List.mem_of_mem_tail hx))
  rw [Grammar.mayFollow_iff, same]
  cases rest with
  | nil =>
    refine ⟨[], ?_, by simpa using next⟩
    rw [List.append_nil] at derives ⊢
    exact derives.trans forest.derives
  | cons x rest =>
    have first : x = .terminal u := by simpa using next
    subst first
    refine ⟨u :: ts, ?_, rfl⟩
    have later : Derives g.rules (.terminal u :: rest) (terminalString (u :: ts)) :=
      Derives.concat (.refl : Derives _ [.terminal u] [.terminal u]) hts
    have h := derives.trans (forest.derives.concat later)
    rwa [← terminalString_append] at h

/-! ### Runs over sentences -/

omit [SemanticValue V] in
/-- A tree with a non-terminal at its root is a node. -/
theorem Tree.exists_node {rules : List (Rule V)} {n : NonTerminal}
    (tree : Tree rules (.nonTerminal n)) :
    ∃ (rule : Rule V) (children : Forest rules rule.body), rule ∈ rules ∧ rule.head = n ∧
      tree.tokens = children.tokens := by
  cases tree with
  | node rule mem children => exact ⟨rule, children, mem, rfl, rfl⟩

omit [SemanticValue V] in
/-- The tokens of a sentence are those of a tree of the start rule's body. -/
theorem Grammar.Sentence.exists_tree (made : T.Made g rule c) {n : NonTerminal}
    (body : rule.body = [.nonTerminal n]) {tokens : List (Token V)}
    (h : g.Sentence (tokens.map Prod.fst)) :
    ∃ tree : Tree g.rules (.nonTerminal n), tree.tokens = tokens := by
  obtain ⟨forest, hf⟩ := Forest.exists_of_derives h
  cases forest with
  | cons root rest =>
    cases rest
    obtain ⟨r, children, mem, head, same⟩ := root.exists_node
    have only := made.eq_of_head mem head
    subst only
    obtain ⟨tree, ht⟩ : ∃ tree : Tree g.rules (.nonTerminal n), tree.tokens = children.tokens := by
      revert children
      rw [body]
      intro children _
      cases children with
      | cons tree rest =>
        cases rest
        exact ⟨tree, by simp [Forest.tokens]⟩
    refine ⟨tree, ?_⟩
    rw [ht, ← same, ← hf]
    simp [Forest.tokens]

/-- Without conflicts the machine reads a sentence to its end and accepts. -/
theorem Grammar.Sentence.runs (made : T.Made g rule c) (free : c.ConflictFree)
    {tokens : List (Token V)} (h : g.Sentence (tokens.map Prod.fst)) :
    ∃ moves m, Runs g T.tabular moves (.start T.tabular tokens) m ∧
      Accepts g T.tabular m ∧ m.input = [] ∧ m.values ≠ [] := by
  obtain ⟨n, body⟩ := made.body
  obtain ⟨tree, rfl⟩ := h.exists_tree made body
  rcases tree.runs_to_accept made free body (.start made tree.tokens) rfl with
    ⟨_, _, moves, m, runs, accepts, read, more⟩ | ⟨target, runs, accepts⟩
  · exact ⟨moves, m, runs, accepts, read, List.ne_nil_of_length_pos (by omega)⟩
  · exact ⟨_, _, runs, accepts, rfl, by simp [Configuration.past, Forest.values]⟩

/-- After the beginning of a sentence the table has an action under what comes next in it, and the
machine gets there before any other rest too. -/
theorem Machine.exists_run_to (made : T.Made g rule c) (free : c.ConflictFree)
    {front rest : List (Token V)} (h : g.Sentence ((front ++ rest).map Prod.fst)) :
    ∃ (m : Configuration V) (id : StateId) (below : List StateId), m.states = id :: below ∧
      T.action id (g.nextOf rest) ≠ .error ∧
      ∀ rest', ∃ moves, Runs g T.tabular moves (.start T.tabular (front ++ rest'))
        { m with input := rest' } := by
  obtain ⟨moves, last, runs, accepts, read, _⟩ := h.runs made free
  have whole : (Configuration.start T.tabular (front ++ rest)).input = front ++ rest := rfl
  obtain ⟨moves₁, moves₂, m, later, input, ahead⟩ := runs.change_rest whole (by simp [read])
  obtain ⟨id, below, top, act⟩ : ∃ id below, m.states = id :: below ∧
      T.action id (g.nextOf m.input) ≠ .error := by
    cases later with
    | nil =>
      obtain ⟨id, below, top, _, act⟩ := accepts
      exact ⟨id, below, top, by rw [show T.action id _ = .accept from act]; nofun⟩
    | cons first _ => exact first.exists_act
  rw [input] at act
  exact ⟨m, id, below, top, act, fun rest' => ⟨moves₁, ahead rest'⟩⟩

end CanonicalLR
