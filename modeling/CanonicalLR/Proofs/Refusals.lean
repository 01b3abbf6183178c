import CanonicalLR.Loop
import CanonicalLR.Proofs.RuleBodies
import CanonicalLR.Value

/-!
When a combinator is refused. A fresh name is always free, so no declaration fails for it;
and as the arguments are looked up before anything is written, all that can stop a
combinator after that is the end of input among them. So whether it is refused, and for
which reason, depends on its arguments alone, and not on what the builder holds.
-/
namespace CanonicalLR

variable {V α : Type}

/-! ### The search for a free name -/

/-- The search goes past the numbers that are taken and ends at the first that is not. -/
theorem Loop.numbering_ends {table : SymbolTable} {stem : String} {k start : Nat}
    (before : ∀ m < k, table.containsName (Builder.numbered stem (start + m)) = true)
    (free : table.containsName (Builder.numbered stem (start + k)) = false) :
    Ends (numbering table stem) k start (start + k) := by
  induction k generalizing start with
  | zero => exact .stop (by simpa [numbering] using free)
  | succ k ih =>
    have here : numbering table stem start = some (start + 1) := by
      simpa [numbering] using before 0 (Nat.zero_lt_succ k)
    have place : start + (k + 1) = start + 1 + k := by omega
    rw [place] at free ⊢
    apply Ends.go here
    apply ih _ free
    intro m less
    have taken := before (m + 1) (by omega)
    rwa [show start + (m + 1) = start + 1 + m by omega] at taken

theorem Loop.numbering_ends_of_isLeast {table : SymbolTable} {stem : String} {start n : Nat}
    (least : IsLeast
      {n | start ≤ n ∧ table.containsName (Builder.numbered stem n) = false} n) :
    Ends (numbering table stem) (n - start) start n := by
  obtain ⟨⟨later, free⟩, lowest⟩ := least
  obtain ⟨k, rfl⟩ := Nat.exists_eq_add_of_le later
  rw [Nat.add_sub_cancel_left]
  apply numbering_ends _ free
  intro m less
  by_contra free'
  have bound := lowest ⟨Nat.le_add_right start m, by simpa using free'⟩
  omega

/-! ### References that lead nowhere -/

/-- Why a reference is refused that leads to no symbol. -/
def SymbolRef.missing : SymbolRef → AuthoringError
  | .name unknown => .unknownSymbol unknown
  | .handle x => .foreignSymbol x

namespace SymbolTable

/-- Whether no symbol of the table has the name, or the handle is of no symbol of the table. -/
def lacks (table : SymbolTable) : SymbolRef → Bool
  | .name name => !table.containsName name
  | .handle x => !table.owns x

variable {table : SymbolTable} {ref : SymbolRef} {refs : List SymbolRef} {symbols : List Symbol}

theorem find?_eq_none_iff {name : String} :
    table.find? name = none ↔ table.containsName name = false := by
  simp only [find?, containsName, Option.map_eq_none_iff, List.find?_eq_none, List.any_eq_false]
  constructor
  · intro none d mem
    obtain ⟨i, at_⟩ := List.mem_iff_getElem?.mp mem
    exact none (d, i) (List.mem_zipIdx_iff_getElem?.mpr at_)
  · rintro none ⟨d, i⟩ mem
    exact none d (List.mem_of_getElem? (List.mem_zipIdx_iff_getElem?.mp mem))

theorem resolve_of_lacks (lacks : table.lacks ref = true) :
    table.resolve ref = .error ref.missing := by
  cases ref with
  | name name =>
    have none := find?_eq_none_iff.mpr (by simpa [SymbolTable.lacks] using lacks)
    simp [resolve, none, SymbolRef.missing]
  | handle x =>
    have other : table.owns x = false := by simpa [SymbolTable.lacks] using lacks
    simp [resolve, other, SymbolRef.missing]

theorem exists_resolve (found : table.lacks ref = false) : ∃ x, table.resolve ref = .ok x := by
  cases ref with
  | name name =>
    have named : table.find? name ≠ none := by
      rw [Ne, find?_eq_none_iff]
      simpa [lacks] using found
    obtain ⟨x, named⟩ := Option.ne_none_iff_exists'.mp named
    exact ⟨x, resolve_name_eq_ok_iff.mpr named⟩
  | handle x => exact ⟨x, resolve_handle_eq_ok_iff.mpr ⟨by simpa [lacks] using found, rfl⟩⟩

theorem resolveAll_cons : table.resolveAll (ref :: refs) = do
    let x ← table.resolve ref
    let symbols ← table.resolveAll refs
    return x :: symbols :=
  List.mapM_cons

theorem resolveAll_of_lacks (first : refs.find? table.lacks = some ref) :
    table.resolveAll refs = .error ref.missing := by
  induction refs with
  | nil => cases first
  | cons ref' refs ih =>
    rw [resolveAll_cons]
    cases here : table.lacks ref' with
    | true =>
      rw [List.find?_cons_of_pos here, Option.some.injEq] at first
      rw [← first, resolve_of_lacks here]
      rfl
    | false =>
      rw [List.find?_cons_of_neg (by simp [here])] at first
      obtain ⟨x, resolved⟩ := exists_resolve here
      rw [resolved, ih first]
      rfl

theorem exists_resolveAll (found : ∀ ref ∈ refs, table.lacks ref = false) :
    ∃ symbols, table.resolveAll refs = .ok symbols := by
  induction refs with
  | nil => exact ⟨[], rfl⟩
  | cons ref refs ih =>
    obtain ⟨here, later⟩ := List.forall_mem_cons.mp found
    obtain ⟨x, resolved⟩ := exists_resolve here
    obtain ⟨symbols, all⟩ := ih later
    exact ⟨x :: symbols, by rw [resolveAll_cons, resolved, all]; rfl⟩

theorem mem_iff_of_resolveAll (all : table.resolveAll refs = .ok symbols) {x : Symbol} :
    x ∈ symbols ↔ ∃ ref ∈ refs, table.resolve ref = .ok x := by
  have answers := mapM_eq_ok_iff.mp all
  calc x ∈ symbols
      ↔ Except.ok x ∈ symbols.map (Except.ok : Symbol → Except AuthoringError Symbol) := by simp
    _ ↔ Except.ok x ∈ refs.map table.resolve := by rw [answers]
    _ ↔ ∃ ref ∈ refs, table.resolve ref = .ok x := List.mem_map

/-- If all the symbols are found the first is, and so are the later ones. -/
theorem exists_of_resolveAll_cons (all : table.resolveAll (ref :: refs) = .ok symbols) :
    ∃ x later, symbols = x :: later ∧ table.resolve ref = .ok x ∧
      table.resolveAll refs = .ok later := by
  rw [resolveAll_cons] at all
  cases resolved : table.resolve ref with
  | error e =>
    rw [resolved] at all
    cases all
  | ok x =>
    cases rest : table.resolveAll refs with
    | error e =>
      rw [resolved, rest] at all
      cases all
    | ok later =>
      rw [resolved, rest] at all
      cases all
      exact ⟨x, later, rfl, rfl, rfl⟩

theorem exists_of_resolveAll_singleton (all : table.resolveAll [ref] = .ok symbols) :
    ∃ x, symbols = [x] ∧ table.resolve ref = .ok x := by
  obtain ⟨x, later, rfl, resolved, none⟩ := exists_of_resolveAll_cons all
  cases none
  exact ⟨x, rfl, resolved⟩

end SymbolTable

/-! ### Commands -/

/-- The references in a command, in the order in which they are looked up. -/
def Command.references : Command V → List SymbolRef
  | .terminal _ | .nonTerminal _ => []
  | .rule head body _ => head :: body
  | .setStart symbol _ => [symbol]
  | .seq body _ => body
  | .optional symbol | .star symbol | .plus symbol => [symbol]
  | .oneOf first rest => first :: rest
  | .separated item separator _ => [item, separator]
  | .terminated item separator terminator _ _ => [item, separator, terminator]

section

variable {b : Builder V} {e : AuthoringError}

/-- A call that starts with a look-up fails with it or goes on to fail with the later ones. -/
theorem Combinator.resolve_fails {ref : SymbolRef} {refs : List SymbolRef}
    {next : Symbol → Authoring V α} (fails : b.symbols.resolveAll (ref :: refs) = .error e)
    (later : ∀ x, b.symbols.resolveAll refs = .error e → (next x).apply b = (.error e, b)) :
    (resolve ref >>= next).apply b = (.error e, b) := by
  rw [Authoring.apply_bind, apply_resolve]
  rw [SymbolTable.resolveAll_cons] at fails
  cases here : b.symbols.resolve ref with
  | error e' =>
    rw [here] at fails
    cases fails
    rfl
  | ok x =>
    apply later x
    cases rest : b.symbols.resolveAll refs with
    | error e' =>
      rw [here, rest] at fails
      exact fails
    | ok symbols =>
      rw [here, rest] at fails
      cases fails

theorem Combinator.resolveAll_fails {refs : List SymbolRef} {next : List Symbol → Authoring V α}
    (fails : b.symbols.resolveAll refs = .error e) :
    (resolveAll refs >>= next).apply b = (.error e, b) := by
  rw [Authoring.apply_bind, apply_resolveAll, fails]

variable [SemanticValue V] {command : Command V} (combinator : command.isCombinator = true)
include combinator

/-- Nothing is written before all the references are looked up. -/
theorem Command.run_of_resolveAll_eq_error
    (fails : b.symbols.resolveAll command.references = .error e) :
    command.run b = (.error e, b) := by
  -- The non-terminal of a combinator is only wrapped up as the answer.
  suffices stops : ∀ {call : Authoring V NonTerminal}, call.apply b = (.error e, b) →
      (call >>= fun n => pure (Answer.symbol (.nonTerminal n))).apply b = (.error e, b) by
    cases command with
    | terminal | nonTerminal | rule | setStart => cases combinator
    | seq body handler => exact stops (Combinator.resolveAll_fails fails)
    | optional symbol => exact stops (Combinator.resolve_fails fails nofun)
    | star symbol => exact stops (Combinator.resolve_fails fails nofun)
    | plus symbol => exact stops (Combinator.resolve_fails fails nofun)
    | oneOf first rest => exact stops (Combinator.resolveAll_fails fails)
    | separated item separator atLeastOne =>
      exact stops (Combinator.resolve_fails fails fun _ fails =>
        Combinator.resolve_fails fails nofun)
    | terminated item separator terminator terminatorOptional allowEmpty =>
      exact stops (Combinator.resolve_fails fails fun _ fails =>
        Combinator.resolve_fails fails fun _ fails => Combinator.resolve_fails fails nofun)
  intro call stopped
  rw [Authoring.apply_bind, stopped]

/-- Once all are looked up only the end of input among them matters. -/
theorem Command.outcome_of_resolveAll_eq_ok {symbols : List Symbol}
    (resolved : b.symbols.resolveAll command.references = .ok symbols) :
    Authoring.Outcome b symbols (fun _ _ => True) (command.run b) := by
  suffices wrapped : ∀ {call : Authoring V NonTerminal},
      Authoring.Writes b symbols call Authoring.Declared →
      Authoring.Outcome b symbols (fun _ _ => True)
        ((call >>= fun n => pure (Answer.symbol (.nonTerminal n))).apply b) by
    cases command with
    | terminal | nonTerminal | rule | setStart => cases combinator
    | seq body handler => exact wrapped (.seq resolved handler)
    | optional symbol =>
      obtain ⟨x, rfl, here⟩ := SymbolTable.exists_of_resolveAll_singleton resolved
      exact wrapped (.optional here)
    | star symbol =>
      obtain ⟨x, rfl, here⟩ := SymbolTable.exists_of_resolveAll_singleton resolved
      exact wrapped (.star here)
    | plus symbol =>
      obtain ⟨x, rfl, here⟩ := SymbolTable.exists_of_resolveAll_singleton resolved
      exact wrapped (.plus here)
    | oneOf first rest => exact wrapped (.oneOf resolved)
    | separated item separator atLeastOne =>
      obtain ⟨x, _, rfl, hereItem, later⟩ := SymbolTable.exists_of_resolveAll_cons resolved
      obtain ⟨y, rfl, hereSeparator⟩ := SymbolTable.exists_of_resolveAll_singleton later
      exact wrapped (.separated hereItem hereSeparator atLeastOne)
    | terminated item separator terminator terminatorOptional allowEmpty =>
      obtain ⟨x, _, rfl, hereItem, later⟩ := SymbolTable.exists_of_resolveAll_cons resolved
      obtain ⟨y, _, rfl, hereSeparator, later'⟩ := SymbolTable.exists_of_resolveAll_cons later
      obtain ⟨z, rfl, hereTerminator⟩ := SymbolTable.exists_of_resolveAll_singleton later'
      exact wrapped (.terminated hereItem hereSeparator hereTerminator terminatorOptional
        allowEmpty)
  intro call writes
  have answers : Authoring.Writes b symbols
      (call >>= fun n => pure (Answer.symbol (.nonTerminal n))) fun _ _ => True :=
    (writes.andThen fun _ => .pure fun _ _ => trivial).congr (by simp)
  exact answers b (.refl b)

theorem Command.run_of_lacks {ref : SymbolRef}
    (first : command.references.find? b.symbols.lacks = some ref) :
    command.run b = (.error ref.missing, b) :=
  run_of_resolveAll_eq_error combinator (SymbolTable.resolveAll_of_lacks first)

/-- If all arguments are found, a combinator is refused just if one of them is the end of input. -/
theorem Command.refused_or_answered
    (found : ∀ ref ∈ command.references, b.symbols.lacks ref = false) :
    (∃ ref ∈ command.references, b.symbols.resolve ref = .ok (.terminal b.eos)) ∧
        (∃ name, b.symbols.name? (.terminal b.eos) = some name ∧
          (command.run b).1 = .error (.eosInRule name)) ∨
      (¬∃ ref ∈ command.references, b.symbols.resolve ref = .ok (.terminal b.eos)) ∧
        ∃ answer, (command.run b).1 = .ok answer := by
  obtain ⟨symbols, all⟩ := SymbolTable.exists_resolveAll found
  have outcome := outcome_of_resolveAll_eq_ok combinator all
  rw [← SymbolTable.mem_iff_of_resolveAll all]
  generalize command.run b = result at outcome ⊢
  cases outcome with
  | @refused _ name grown mem named =>
    have owned := SymbolTable.owns_of_resolveAll all _ mem
    exact .inl ⟨mem, name, grown.name?_eq owned ▸ named, rfl⟩
  | @answered _ answer _ free _ => exact .inr ⟨free, answer, rfl⟩

end

/-- Fresh names never clash, whatever has been declared before. The name for a new non-terminal is
the stem if no symbol has that, else the stem with the least number from one on that no symbol has;
the search for it ends, at a number not greater than that of the symbols. So no combinator is ever
refused for a name that is taken, nor for a head that is no non-terminal. It is refused just if an
argument is unknown or foreign, and then the first such argument is the reason and the builder is
as before, or else if an argument is the end of input, and then that is the reason. -/
theorem Builder.fresh_names_never_clash [SemanticValue V] (b : Builder V) :
    (∀ stem,
      (b.symbols.containsName stem = false → b.uniqueName stem = stem) ∧
      (b.symbols.containsName stem = true →
        ∃ n ≤ b.symbols.size,
          IsLeast {n | 1 ≤ n ∧ b.symbols.containsName (numbered stem n) = false} n ∧
          Loop.Ends (Loop.numbering b.symbols stem) (n - 1) 1 n ∧
          b.uniqueName stem = numbered stem n)) ∧
    ∀ command : Command V, command.isCombinator = true →
      (∀ name, (command.run b).1 ≠ .error (.duplicateName name) ∧
        (command.run b).1 ≠ .error (.notANonTerminal name)) ∧
      ((∃ e, (command.run b).1 = .error e) ↔
        (∃ ref ∈ command.references, b.symbols.lacks ref = true) ∨
        (∀ ref ∈ command.references, b.symbols.lacks ref = false) ∧
          ∃ ref ∈ command.references, b.symbols.resolve ref = .ok (.terminal b.eos)) ∧
      ((∃ ref ∈ command.references, b.symbols.lacks ref = true) →
        ∃ ref, command.references.find? b.symbols.lacks = some ref ∧
          command.run b = (.error ref.missing, b)) ∧
      ((∀ ref ∈ command.references, b.symbols.lacks ref = false) →
        (∃ ref ∈ command.references, b.symbols.resolve ref = .ok (.terminal b.eos)) →
        ∃ name, b.symbols.name? (.terminal b.eos) = some name ∧
          (command.run b).1 = .error (.eosInRule name)) := by
  constructor
  · intro stem
    refine ⟨uniqueName_of_free, fun taken => ?_⟩
    obtain ⟨n, bound, least, same⟩ := exists_uniqueName_eq taken
    exact ⟨n, bound, least, Loop.numbering_ends_of_isLeast least, same⟩
  intro command combinator
  by_cases lacking : ∃ ref ∈ command.references, b.symbols.lacks ref = true
  · obtain ⟨ref, first⟩ := Option.isSome_iff_exists.mp (List.find?_isSome.mpr lacking)
    have ran := Command.run_of_lacks combinator first
    have reason (name : String) : ref.missing ≠ .duplicateName name ∧
        ref.missing ≠ .notANonTerminal name := by
      cases ref <;> exact ⟨nofun, nofun⟩
    rw [ran]
    refine ⟨fun name => ⟨?_, ?_⟩, iff_of_true ⟨_, rfl⟩ (.inl lacking), fun _ => ⟨ref, first, rfl⟩,
      fun found => ?_⟩
    · exact fun same => (reason name).1 (Except.error.inj same)
    · exact fun same => (reason name).2 (Except.error.inj same)
    · obtain ⟨ref', mem, lacks⟩ := lacking
      rw [found ref' mem] at lacks
      cases lacks
  · have found : ∀ ref ∈ command.references, b.symbols.lacks ref = false := by
      intro ref mem
      by_contra lacks
      exact lacking ⟨ref, mem, by simpa using lacks⟩
    rcases Command.refused_or_answered combinator found with
      ⟨refers, eos, named, ran⟩ | ⟨inner, answer, ran⟩
    · rw [ran]
      refine ⟨fun name => ⟨nofun, nofun⟩, iff_of_true ⟨_, rfl⟩ (.inr ⟨found, refers⟩),
        fun lacks => absurd lacks lacking, fun _ _ => ⟨eos, named, rfl⟩⟩
    · rw [ran]
      refine ⟨fun name => ⟨nofun, nofun⟩, iff_of_false nofun ?_, fun lacks => absurd lacks lacking,
        fun _ refers => absurd refers inner⟩
      rintro (lacks | ⟨_, refers⟩)
      · exact lacking lacks
      · exact inner refers

namespace Crowded

/-- The name of a repetition and its first numbered form are taken by the author, and the second by
a repetition of the end of input, which was refused when its name was already declared. -/
def builder : Builder Value :=
  Command.runAll
    [.terminal "a", .terminal "star", .terminal "star#1", .star (.name Builder.defaultEos)]
    ⟨⟨⟨0⟩, [⟨Builder.defaultStart, .start⟩, ⟨Builder.defaultEos, .eos⟩]⟩, []⟩

/-- The end of input is the separator here, and the terminator is of another grammar. -/
def foreign : Command Value :=
  .terminated (.name "a") (.name Builder.defaultEos) (.handle (.terminal ⟨⟨1⟩, 2⟩)) true true

def ended : Command Value := .plus (.name Builder.defaultEos)

theorem crowded_never_clash :
    builder.uniqueName "star" = "star#3" ∧
      Loop.Ends (Loop.numbering builder.symbols "star") 2 1 3 ∧
      foreign.run builder = (.error (.foreignSymbol (.terminal ⟨⟨1⟩, 2⟩)), builder) ∧
      (ended.run builder).1 = .error (.eosInRule Builder.defaultEos) := by
  obtain ⟨names, calls⟩ := Builder.fresh_names_never_clash builder
  obtain ⟨n, _, _, ends, same⟩ := (names "star").2 (by decide)
  obtain ⟨_, _, unchanged, _⟩ := calls foreign rfl
  obtain ⟨_, _, _, refused⟩ := calls ended rfl
  have third : builder.uniqueName "star" = Builder.numbered "star" 3 := by decide
  obtain rfl : 3 = n := Builder.numbered_injective "star" (third.symm.trans same)
  obtain ⟨ref, first, ran⟩ := unchanged ⟨.handle (.terminal ⟨⟨1⟩, 2⟩), by decide, by decide⟩
  obtain rfl : .handle (.terminal ⟨⟨1⟩, 2⟩) = ref := Option.some.inj first
  obtain ⟨name, named, ran'⟩ := refused (by decide) ⟨.name Builder.defaultEos, by decide, by decide⟩
  obtain rfl : Builder.defaultEos = name := Option.some.inj named
  exact ⟨same, ends, ran, ran'⟩

end Crowded

end CanonicalLR
