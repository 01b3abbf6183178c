import CanonicalLR.Proofs.ViablePrefixes
import CanonicalLR.Text

/-!
Errors are found as early as they can be. In a grammar without conflicts whose
non-terminals all derive something, the machine reads every beginning of a sentence;
with a terminal next that may not follow it makes no move at all, and the terminals it
reports as expected are just those that may.
-/
namespace CanonicalLR

open Machine

variable {V : Type} [SemanticValue V] {g : Grammar V} {c : Collection} {T : Table} {rule : Rule V}

/-- Tokens for the terminals. -/
def tokensFor (ts : List Terminal) : List (Token V) := ts.map fun t => (t, SemanticValue.none)

@[simp] theorem terminals_tokensFor (ts : List Terminal) :
    (tokensFor ts : List (Token V)).map Prod.fst = ts := by
  simp [tokensFor, Function.comp_def]

@[simp] theorem tokensFor_append (ts us : List Terminal) :
    (tokensFor (ts ++ us) : List (Token V)) = tokensFor ts ++ tokensFor us :=
  List.map_append

theorem Grammar.nextOf_tokensFor {ts : List Terminal} {t : Terminal}
    (next : (ts ++ [g.eos]).head? = some t) : g.nextOf (tokensFor ts) = t := by
  cases ts with
  | nil => exact Option.some.inj next
  | cons u ts => exact Option.some.inj next

/-! ### Where the machine stops -/

/-- The error in a state with this number, before the rest of the input. -/
def Machine.errorAt (g : Grammar V) (T : Table) (id : StateId) (rest : List (Token V)) :
    ParseError :=
  if g.nextOf rest = g.eos then .unexpectedEnd
  else .unexpectedSymbol id (g.nextOf rest) (T.expected id)

/-- The machine has come to where it reads what may not follow: the only configuration before the
rest of the input, from which it makes no move. -/
structure Machine.Stops (g : Grammar V) (T : Table) (front rest : List (Token V))
    (m : Configuration V) (id : StateId) : Prop where
  reached : ∃ moves, Runs g T.tabular moves (.start T.tabular (front ++ rest)) m
  input : m.input = rest
  only : ∀ moves m', Runs g T.tabular moves (.start T.tabular (front ++ rest)) m' →
    m'.input = rest → m' = m
  halt : step g T.tabular m = .halt (.error (errorAt g T id rest)) m.calls
  expected : ∀ u, T.action id u ≠ .error ↔ g.MayFollow (front.map Prod.fst) u

section Stops

variable {front rest : List (Token V)} {moves moves' : List (Move V)} {m m' : Configuration V}

theorem Machine.mayFollow_of_action (made : T.Made g rule c) (productive : g.Productive)
    (runs : Runs g T.tabular moves (.start T.tabular (front ++ rest)) m) (input : m.input = rest)
    {id : StateId} {below : List StateId} (top : m.states = id :: below) {u : Terminal}
    (act : T.action id u ≠ .error) : g.MayFollow (front.map Prod.fst) u := by
  have parsed : Parsed g c (front ++ m.input) m := by
    rw [input]
    exact runs.parsed made
  exact parsed.mayFollow made productive top act

/-- Before what may not follow the machine makes no move. -/
theorem Machine.halt_of_not_mayFollow (made : T.Made g rule c) (productive : g.Productive)
    (reads : g.Reads (front ++ rest)) (wrong : ¬g.MayFollow (front.map Prod.fst) (g.nextOf rest))
    (runs : Runs g T.tabular moves (.start T.tabular (front ++ rest)) m)
    (input : m.input = rest) :
    ∃ id below, m.states = id :: below ∧
      step g T.tabular m = .halt (.error (errorAt g T id rest)) m.calls := by
  obtain ⟨string, forest, path, _⟩ := runs.parsed made
  obtain ⟨id, below, top⟩ := path.exists_top
  have act : T.action id (g.nextOf rest) = .error := by
    by_contra act
    exact wrong (mayFollow_of_action made productive runs input top act)
  have owned : g.symbols.owns (.terminal (g.nextOf rest)) = true :=
    Grammar.Reads.owned made.wf fun token mem => reads token (List.mem_append_right _ mem)
  rw [← input] at act owned ⊢
  exact ⟨id, below, top, step_of_error top owned act⟩

theorem Machine.eq_of_not_mayFollow (made : T.Made g rule c) (productive : g.Productive)
    (reads : g.Reads (front ++ rest)) (wrong : ¬g.MayFollow (front.map Prod.fst) (g.nextOf rest))
    (runs : Runs g T.tabular moves (.start T.tabular (front ++ rest)) m)
    (runs' : Runs g T.tabular moves' (.start T.tabular (front ++ rest)) m')
    (input : m.input = rest) (input' : m'.input = rest) : m' = m := by
  obtain ⟨_, _, _, halt⟩ := halt_of_not_mayFollow made productive reads wrong runs input
  obtain ⟨_, _, _, halt'⟩ := halt_of_not_mayFollow made productive reads wrong runs' input'
  exact (runs'.unique runs (fun _ _ => not_does_of_halt halt') (fun _ _ => not_does_of_halt halt)).2

/-- After the beginning of a sentence and before what may not follow it, the machine stops. -/
theorem Machine.exists_stops (made : T.Made g rule c) (free : c.ConflictFree)
    (productive : g.Productive) (reads : g.Reads (front ++ rest))
    (begins : g.SentenceStart (front.map Prod.fst))
    (wrong : ¬g.MayFollow (front.map Prod.fst) (g.nextOf rest)) :
    ∃ m id, Stops g T front rest m id := by
  obtain ⟨more, sentence⟩ := begins
  rw [← terminals_tokensFor (V := V) more, ← List.map_append] at sentence
  obtain ⟨m, id, below, top, _, ahead⟩ := exists_run_to made free sentence
  obtain ⟨moves, runs⟩ := ahead rest
  have only (moves' : List (Move V)) (m' : Configuration V)
      (runs' : Runs g T.tabular moves' (.start T.tabular (front ++ rest)) m')
      (input' : m'.input = rest) : m' = { m with input := rest } :=
    eq_of_not_mayFollow made productive reads wrong runs runs' rfl input'
  obtain ⟨id', below', top', halt⟩ :=
    halt_of_not_mayFollow made productive reads wrong runs rfl
  cases top.symm.trans top'
  refine ⟨_, id, ⟨moves, runs⟩, rfl, only, halt, fun u => ⟨fun act => ?_, fun follows => ?_⟩⟩
  · exact mayFollow_of_action made productive runs rfl top act
  · obtain ⟨next, sentence', first⟩ := Grammar.mayFollow_iff.mp follows
    rw [← terminals_tokensFor (V := V) next, ← List.map_append] at sentence'
    obtain ⟨m', id', below', top', act, ahead'⟩ := exists_run_to made free sentence'
    obtain ⟨moves', runs'⟩ := ahead' rest
    have ids := congrArg Configuration.states (only moves' _ runs' rfl)
    simp only [top, top', List.cons.injEq] at ids
    rw [Grammar.nextOf_tokensFor first, ids.1] at act
    exact act

end Stops

/-! ### The first error -/

omit [SemanticValue V] in
/-- A sequence of terminals begins sentences as a whole, or up to some terminal that may not
follow. -/
theorem Grammar.sentenceStart_or_exists_wrong (productive : g.Productive) (wf : g.WellFormed)
    (w : List Terminal) :
    (∀ p, p <+: w → g.SentenceStart p) ∨
      ∃ k t, w[k]? = some t ∧ (∀ j ≤ k, g.SentenceStart (w.take j)) ∧
        ¬g.SentenceStart (w.take (k + 1)) := by
  by_cases whole : g.SentenceStart w
  · exact .inl fun p begins => whole.of_prefix begins
  · right
    have some : ∃ k, ¬g.SentenceStart (w.take k) := ⟨w.length, by rwa [List.take_length]⟩
    classical
    obtain ⟨wrong, least⟩ : ¬g.SentenceStart (w.take (Nat.find some)) ∧
        ∀ j < Nat.find some, g.SentenceStart (w.take j) :=
      ⟨Nat.find_spec some, fun j lt => by simpa using Nat.find_min some lt⟩
    cases first : Nat.find some with
    | zero =>
      rw [first] at wrong
      obtain ⟨ts, derives⟩ := productive g.start wf.start_owned
      exact absurd ⟨ts, derives⟩ wrong
    | succ k =>
      rw [first] at wrong least
      have bound : k < w.length := by
        by_contra out
        have same : w.take (k + 1) = w.take k := by
          rw [List.take_of_length_le (by omega), List.take_of_length_le (by omega)]
        exact wrong (same ▸ least k (Nat.lt_succ_self k))
      exact ⟨k, w[k], List.getElem?_eq_getElem bound, fun j le => least j (by omega), wrong⟩

/-- The result is an error at the token with this number: the ones before it begin a sentence, and
with it they do not. The error names the token and lists in order the terminals that may come
there, and the machine stops as soon as the token comes next. -/
structure Machine.DetectsAt (g : Grammar V) (T : Table) (tokens : List (Token V)) (k : Nat)
    (result : Except ParseError V) (calls : List RuleId) : Prop where
  before : ∀ j ≤ k, g.SentenceStart ((tokens.take j).map Prod.fst)
  wrong : ¬g.SentenceStart ((tokens.take (k + 1)).map Prod.fst)
  error : ∃ token state expecting, tokens[k]? = some token ∧
    result = .error (.unexpectedSymbol state token.1 expecting) ∧
    g.symbols.name? (.terminal token.1) = some (g.tokenName token.1) ∧
    g.symbols.terminalNames? expecting = some (expecting.map g.tokenName) ∧
    expecting.Pairwise (fun a b => compare a b = .lt) ∧
    ∀ u, u ∈ expecting ↔ g.MayFollow ((tokens.take k).map Prod.fst) u
  reached : ∃ moves m, Runs g T.tabular moves (.start T.tabular tokens) m ∧
    m.input = tokens.drop k
  immediate : ∀ moves m, Runs g T.tabular moves (.start T.tabular tokens) m →
    m.input = tokens.drop k → step g T.tabular m = .halt result calls

omit [SemanticValue V] in
theorem Grammar.name?_of_owns {t : Terminal} (owned : g.symbols.owns (.terminal t) = true) :
    g.symbols.name? (.terminal t) = some (g.tokenName t) := by
  obtain ⟨name, h⟩ := Option.isSome_iff_exists.mp ((g.symbols.isSome_name? _).trans owned)
  rw [tokenName, h]
  rfl

omit [SemanticValue V] in
theorem Grammar.terminalNames?_of_owns {ts : List Terminal}
    (owned : ∀ t ∈ ts, g.symbols.owns (.terminal t) = true) :
    g.symbols.terminalNames? ts = some (ts.map g.tokenName) := by
  unfold SymbolTable.terminalNames? SymbolTable.names?
  induction ts with
  | nil => rfl
  | cons t ts ih =>
    rw [List.map_cons, List.mapM_cons, g.name?_of_owns (owned t (by simp)),
      ih fun u hu => owned u (List.mem_cons_of_mem t hu)]
    rfl

omit [SemanticValue V] in
/-- What may follow is a terminal of the grammar. -/
theorem Grammar.MayFollow.owns (wf : g.WellFormed) {w : List Terminal} {t : Terminal}
    (h : g.MayFollow w t) : g.symbols.owns (.terminal t) = true := by
  obtain ⟨rest, sentence, next⟩ := Grammar.mayFollow_iff.mp h
  cases rest with
  | nil =>
    have same : g.eos = t := Option.some.inj next
    exact same ▸ wf.eos_owned
  | cons u rest =>
    have same : u = t := Option.some.inj next
    subst same
    exact wf.owns_of_derives sentence _ (mem_terminalString.mpr (by simp))

/-- The error at a token after which nothing is the beginning of a sentence. -/
theorem Machine.Stops.detectsAt (wf : g.WellFormed) (follows : T.Follows g c)
    {tokens : List (Token V)} {k : Nat} {token : Token V} (at_ : tokens[k]? = some token)
    (reads : g.Reads tokens) (before : ∀ j ≤ k, g.SentenceStart ((tokens.take j).map Prod.fst))
    (wrong : ¬g.SentenceStart ((tokens.take (k + 1)).map Prod.fst)) {m : Configuration V}
    {id : StateId} (h : Stops g T (tokens.take k) (tokens.drop k) m id) :
    step g T.tabular m = .halt (.error (.unexpectedSymbol id token.1 (T.expected id))) m.calls ∧
      DetectsAt g T tokens k (.error (.unexpectedSymbol id token.1 (T.expected id))) m.calls := by
  obtain ⟨bound, same⟩ := List.getElem?_eq_some_iff.mp at_
  have next : g.nextOf (tokens.drop k) = token.1 := by
    rw [List.drop_eq_getElem_cons bound, same]
    rfl
  have mem := reads token (List.mem_of_getElem? at_)
  have halt := h.halt
  rw [errorAt, next, if_neg mem.2] at halt
  have listed (u : Terminal) :
      u ∈ T.expected id ↔ g.MayFollow ((tokens.take k).map Prod.fst) u :=
    (follows.expected id u).trans (h.expected u)
  obtain ⟨moves, runs⟩ := h.reached
  have only := h.only
  rw [List.take_append_drop] at runs only
  refine ⟨halt, before, wrong, ⟨token, id, T.expected id, at_, rfl, g.name?_of_owns mem.1,
    g.terminalNames?_of_owns fun u hu => ((listed u).mp hu).owns wf, follows.ascending id,
    listed⟩, ⟨moves, m, runs, h.input⟩, fun moves' m' runs' input => ?_⟩
  rw [only moves' m' runs' input]
  exact halt

/-- In a grammar without conflicts whose non-terminals all derive something, parsing tokens of the
grammar ends: with a value for a sentence, with an unexpected end for what begins a sentence, and
otherwise with an error at the first token that cannot be there. -/
theorem Machine.parses_exact {b : Builder V} (authored : b.Authored) {T : Table}
    (table : b.build.table? = .ok T) {c : Collection} (collection : b.build.collection? = .ok c)
    (free : c.ConflictFree) (productive : b.build.Productive) {tokens : List (Token V)}
    (reads : b.build.Reads tokens) :
    ∃ result calls, Parses b.build T.tabular tokens result calls ∧
      ((∃ v, result = .ok v) ↔ b.build.Sentence (tokens.map Prod.fst)) ∧
      ((∃ p, p <+: tokens.map Prod.fst ∧ ¬b.build.SentenceStart p) →
        ∃ k, DetectsAt b.build T tokens k result calls) ∧
      ((∀ p, p <+: tokens.map Prod.fst → b.build.SentenceStart p) →
        ¬b.build.Sentence (tokens.map Prod.fst) → result = .error .unexpectedEnd) := by
  obtain ⟨c', rule, found, made⟩ := Grammar.of_table? authored.wellFormed.build table
  rw [collection] at found
  cases found
  by_cases sentence : b.build.Sentence (tokens.map Prod.fst)
  · obtain ⟨moves, m, runs, accepts, read, values⟩ := sentence.runs made free
    obtain ⟨v, below, top⟩ := List.exists_cons_of_ne_nil values
    refine ⟨.ok v, m.calls, parses_iff.mpr ⟨moves, m, runs, step_eq_ok.mpr
      ⟨accepts, by simp [read], by simp [top], rfl⟩⟩, by simp [sentence], ?_, ?_⟩
    · rintro ⟨p, begins, wrong⟩
      have whole : b.build.SentenceStart (tokens.map Prod.fst) := ⟨[], by simpa using sentence⟩
      exact absurd (whole.of_prefix begins) wrong
    · exact fun _ none => absurd sentence none
  · rcases Grammar.sentenceStart_or_exists_wrong productive made.wf (tokens.map Prod.fst) with
      begins | ⟨k, t, at_, before, wrong⟩
    · have last : ¬b.build.MayFollow (tokens.map Prod.fst) (b.build.nextOf ([] : List (Token V))) :=
        fun follows => sentence ((Grammar.mayFollow_eos made.wf).mp follows)
      obtain ⟨m, id, stops⟩ : ∃ m id, Stops b.build T tokens [] m id :=
        exists_stops made free productive (by simpa using reads) (begins _ (List.prefix_refl _))
          last
      obtain ⟨moves, runs⟩ := stops.reached
      rw [List.append_nil] at runs
      have ends : errorAt b.build T id ([] : List (Token V)) = .unexpectedEnd := if_pos rfl
      refine ⟨_, _, parses_iff.mpr ⟨moves, m, runs, stops.halt⟩, by simp [sentence], ?_,
        fun _ _ => by rw [ends]⟩
      rintro ⟨p, start, wrong⟩
      exact absurd (begins p start) wrong
    · rw [List.getElem?_map, Option.map_eq_some_iff] at at_
      obtain ⟨token, at_, rfl⟩ := at_
      simp only [← List.map_take] at before wrong
      obtain ⟨bound, same⟩ := List.getElem?_eq_some_iff.mp at_
      have unfit : ¬b.build.MayFollow ((tokens.take k).map Prod.fst)
          (b.build.nextOf (tokens.drop k)) := by
        rw [List.drop_eq_getElem_cons bound, same]
        intro follows
        have h := follows.sentenceStart (reads token (List.mem_of_getElem? at_)).2
        rw [← List.take_append_getElem bound, List.map_append, same] at wrong
        exact wrong h
      obtain ⟨m, id, stops⟩ := exists_stops made free productive
        (by rwa [List.take_append_drop]) (before k (Nat.le_refl k)) unfit
      obtain ⟨moves, runs⟩ := stops.reached
      rw [List.take_append_drop] at runs
      obtain ⟨halt, detects⟩ := stops.detectsAt made.wf made.follows at_ reads before wrong
      refine ⟨_, _, parses_iff.mpr ⟨moves, m, runs, halt⟩, by simp [sentence],
        fun _ => ⟨k, detects⟩, fun begins => absurd (begins _ ?_) wrong⟩
      rw [List.map_take]
      exact List.take_prefix _ _

namespace Listing

theorem productive : builder.build.Productive := by
  have single : Derives builder.build.rules [.nonTerminal ⟨⟨0⟩, 4⟩] (terminalString [⟨⟨0⟩, 3⟩]) :=
    Derives.of_rule (List.getElem_mem (l := builder.build.rules) (n := 2) (by decide +kernel))
  have top : Derives builder.build.rules [.nonTerminal ⟨⟨0⟩, 0⟩] [.nonTerminal ⟨⟨0⟩, 4⟩] :=
    Derives.of_rule (List.getElem_mem (l := builder.build.rules) (n := 0) (by decide +kernel))
  intro n owned
  have declared := builder.build.symbols.owns_iff.mp owned
  have symbols : builder.build.symbols.symbols = [.nonTerminal ⟨⟨0⟩, 0⟩, .terminal ⟨⟨0⟩, 1⟩,
      .terminal ⟨⟨0⟩, 2⟩, .terminal ⟨⟨0⟩, 3⟩, .nonTerminal ⟨⟨0⟩, 4⟩] := by
    decide +kernel
  simp only [symbols, List.mem_cons, Symbol.nonTerminal.injEq, reduceCtorEq, List.not_mem_nil,
    or_false, false_or] at declared
  rcases declared with rfl | rfl
  · exact ⟨_, top.trans single⟩
  · exact ⟨_, single⟩

/-- Two numbers in a row: the second one is an error, or the two are no sentence. -/
theorem twice_exact :
    ∃ result calls,
      Parses builder.build table.tabular [(⟨⟨0⟩, 3⟩, .none), (⟨⟨0⟩, 3⟩, .none)] result calls ∧
      ((∃ v, result = .ok v) ↔ builder.build.Sentence [⟨⟨0⟩, 3⟩, ⟨⟨0⟩, 3⟩]) ∧
      ((∃ p, p <+: [⟨⟨0⟩, 3⟩, ⟨⟨0⟩, 3⟩] ∧ ¬builder.build.SentenceStart p) →
        ∃ k, DetectsAt builder.build table [(⟨⟨0⟩, 3⟩, .none), (⟨⟨0⟩, 3⟩, .none)] k result calls) ∧
      ((∀ p, p <+: [⟨⟨0⟩, 3⟩, ⟨⟨0⟩, 3⟩] → builder.build.SentenceStart p) →
        ¬builder.build.Sentence [⟨⟨0⟩, 3⟩, ⟨⟨0⟩, 3⟩] → result = .error .unexpectedEnd) :=
  Machine.parses_exact authored rfl (c := collection) rfl conflictFree productive
    (by decide +kernel)

end Listing

end CanonicalLR
