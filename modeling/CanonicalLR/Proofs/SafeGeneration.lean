import CanonicalLR.Checked
import CanonicalLR.Proofs.AuthoringFrames
import CanonicalLR.Proofs.GenerationEnds
import CanonicalLR.Proofs.Texts

/-!
No look-up that the generation makes for an authored grammar finds nothing, and no loop
goes on for ever: what is left with all look-ups made is the grammar, the answer about
the start rule, the collection and the table themselves. Rules are made of symbols of
the grammar and stand at their numbers, and so are the items that come of them.
-/
namespace CanonicalLR

variable {V : Type}

namespace Grammar

variable {g : Grammar V} {string : List Symbol} (owned : ∀ x ∈ string, g.symbols.owns x = true)
include owned

theorem firstOfString?_eq_ok : g.firstOfString? string = .ok (g.firstOfString string) := by
  induction string with
  | nil => rfl
  | cons x string ih =>
    obtain ⟨here, rest⟩ := List.forall_mem_cons.mp owned
    cases x with
    | terminal t => rfl
    | nonTerminal n =>
      have step : g.firstOfString (.nonTerminal n :: string) =
          if g.isNullable n then g.first n ∪ g.firstOfString string else g.first n := by
        simp [firstOfString, Analysis.firstOfString, isNullable, first]
      rw [firstOfString?, analysed, if_pos here, ih rest, step]
      simp only [bind, Except.bind]
      cases g.isNullable n <;> rfl

theorem firstWith?_eq_ok (lookahead : Terminal) :
    g.firstWith? string lookahead = .ok (g.firstWith string lookahead) := by
  rw [firstWith?, firstOfString?_eq_ok owned, firstWith]
  cases g.nullableString string <;> rfl

end Grammar

namespace Checked

/-! ### Loops -/

/-- A loop whose rounds find all they look up ends where the plain one does. -/
theorem run_of_ends {σ : Type} {round : Round σ} {plain : σ → Option σ}
    {I : σ → Prop} {n : Nat} {s t : σ} (ends : Loop.Ends plain n s t) (holds : I s)
    (same : ∀ s, I s → round s = some (plain s))
    (keeps : ∀ s s', I s → plain s = some s' → I s') : round.run s = some t := by
  induction ends with
  | stop last =>
    rw [Round.run, same _ holds, last]
    rfl
  | go next _ ih =>
    rw [Round.run, same _ holds, next]
    exact ih (keeps _ _ holds next)

theorem mapM_some {α β : Type} {f : α → Option β} {f' : α → β} {l : List α}
    (same : ∀ a ∈ l, f a = some (f' a)) : l.mapM f = some (l.map f') :=
  (mapM_congr same).trans List.mapM_pure

section

variable {α : Type} [Ord α] [Std.TransOrd α] [Std.LawfulEqOrd α]

theorem growing_eq (steps : List (OrderedSet α → List α)) (s : OrderedSet α × Bool) :
    growing (steps.map fun step t => some (step t)) s = some (Loop.growing steps s) := by
  obtain ⟨s, _ | _⟩ := s
  · rfl
  · have pass (state : OrderedSet α × Bool) :
        (steps.map fun step t => some (step t)).foldlM grow state =
          some (steps.foldl Loop.grow state) := by
      rw [List.foldlM_map]
      exact List.foldlM_pure
    rw [growing, pass]
    rfl

/-- Passes that find all they look up end where the plain ones do. -/
theorem run_growing {steps : List (OrderedSet α → List α)} {n : Nat} {s t : OrderedSet α × Bool}
    (ends : Loop.Ends (Loop.growing steps) n s t) :
    Round.run (growing (steps.map fun step t => some (step t))) s = some t :=
  run_of_ends (I := fun _ => True) ends trivial (fun s _ => growing_eq steps s)
    fun _ _ _ _ => trivial

end

/-! ### The analysis -/

section

variable {table : SymbolTable} {nullable : OrderedSet NonTerminal} {first : OrderedSet Fact}
  {rules : List (Rule V)}

theorem entry_eq {facts : OrderedSet Fact} {n : NonTerminal}
    (owned : table.owns (.nonTerminal n) = true) :
    entry table facts n = some (Fact.about facts n) :=
  if_pos owned

theorem firstOfString_eq {string : List Symbol} (owned : ∀ x ∈ string, table.owns x = true) :
    firstOfString table nullable first string =
      some (Analysis.firstOfString nullable first string) := by
  induction string with
  | nil => rfl
  | cons x string ih =>
    obtain ⟨here, rest⟩ := List.forall_mem_cons.mp owned
    cases x with
    | terminal t => rfl
    | nonTerminal n =>
      rw [firstOfString, entry_eq here, ih rest, Analysis.firstOfString]
      split <;> rfl

theorem followStepsOfBody_eq {head : NonTerminal} {string : List Symbol}
    (head_owned : table.owns (.nonTerminal head) = true)
    (owned : ∀ x ∈ string, table.owns x = true) :
    followStepsOfBody table nullable first head string =
      (Loop.followStepsOfBody nullable first head string).map fun step t => some (step t) := by
  induction string with
  | nil => rfl
  | cons x string ih =>
    obtain ⟨_, rest⟩ := List.forall_mem_cons.mp owned
    cases x with
    | terminal t => exact ih rest
    | nonTerminal n =>
      rw [followStepsOfBody, Loop.followStepsOfBody, List.map_cons, ih rest]
      congr 1
      funext follow
      rw [firstOfString_eq rest, entry_eq head_owned]
      cases Analysis.nullableString nullable string <;> rfl

variable (bodies : ∀ r ∈ rules, ∀ x ∈ r.body, table.owns x = true)
include bodies

theorem firstSteps_eq : firstSteps table nullable rules =
    (Loop.firstSteps rules nullable).map fun step t => some (step t) := by
  rw [firstSteps, Loop.firstSteps, List.map_map]
  refine List.map_congr_left fun r mem => ?_
  funext first
  rw [firstOfString_eq (bodies r mem)]
  simp [Analysis.firstFacts]

theorem followSteps_eq (heads : ∀ r ∈ rules, table.owns (.nonTerminal r.head) = true) :
    followSteps table nullable first rules =
      (Loop.followSteps rules nullable first).map fun step t => some (step t) := by
  rw [followSteps, Loop.followSteps, List.map_flatMap]
  exact List.flatMap_congr fun r mem => followStepsOfBody_eq (heads r mem) (bodies r mem)

end

/-- The nullable non-terminals are heads of rules, and have names as these do. -/
theorem build_eq {b : Builder V} (wf : b.WellFormed) : build b = some b.build := by
  obtain ⟨_, _, nullable⟩ := Analysis.nullable_ends b.rules
  obtain ⟨_, _, first⟩ := Analysis.first_ends b.rules
  obtain ⟨_, _, follow⟩ := Analysis.follow_ends b.rules b.start b.eos
  have empty : Round.run (fun s => some (Loop.growing (Loop.nullableSteps b.rules) s)) (∅, true) =
      some (Analysis.nullableOf b.rules, false) :=
    run_of_ends (I := fun _ => True) nullable trivial (fun _ _ => rfl) fun _ _ _ _ => trivial
  have named : ∀ x ∈ (Analysis.nullableOf b.rules).toList.map Symbol.nonTerminal,
      b.symbols.owns x = true := by
    intro x hx
    obtain ⟨n, hn, rfl⟩ := List.mem_map.mp hx
    obtain ⟨r, mem, rfl⟩ := Analysis.exists_rule_of_mem_nullableOf hn
    exact wf.head_owned r mem
  obtain ⟨names, named⟩ := SymbolTable.exists_names? named
  rw [build, empty]
  simp only [Option.bind_eq_bind, Option.bind_some, firstSteps_eq wf.body_owned,
    followSteps_eq wf.body_owned wf.head_owned, run_growing first, run_growing follow, named]
  rfl

/-! ### The collection -/

variable {g : Grammar V} (wf : g.WellFormed)
include wf

theorem rulesOf_eq (n : NonTerminal) : rulesOf g n = some (g.rulesOf n) := by
  have each : ∀ r ∈ g.rulesOf n, g.rule? r.id = some (id r) := fun r mem =>
    wf.rule?_of_mem (g.mem_rulesOf.mp mem).1
  rw [rulesOf, List.mapM_map]
  exact (mapM_some each).trans (congrArg some (List.map_id _))

theorem expansion_eq {i : Item} (hi : i ∈ g.items) : expansion g i = some (i.expansion g) := by
  obtain ⟨r, mem, same, _⟩ := Grammar.mem_items.mp hi
  have found := wf.rule?_of_mem mem
  rw [← same] at found
  have body : g.body i.rule = r.body := by rw [Grammar.body, found]; rfl
  have rest : ∀ x ∈ r.body.drop (i.position + 1), g.symbols.owns x = true := fun x hx =>
    wf.body_owned r mem x (List.mem_of_mem_drop hx)
  rw [expansion, Item.expansion, Item.symbol?, Item.remainder, found, body]
  simp only [Option.bind_eq_bind, Option.bind_some, Grammar.firstWith?_eq_ok rest, rulesOf_eq wf]
  cases r.body[i.position]? with
  | none => rfl
  | some x => cases x <;> rfl

theorem closing_eq {s : ItemSet} {stack : List Item} (inside : ∀ i ∈ stack, i ∈ g.items) :
    closing g (s, stack) = some (Loop.closing g (s, stack)) := by
  cases stack with
  | nil => rfl
  | cons i stack =>
    rw [closing, expansion_eq wf (inside i List.mem_cons_self)]
    rfl

theorem close_eq {s : ItemSet} (inside : ∀ i ∈ s, i ∈ g.items) :
    close g s = some (s.close g) := by
  have ended : Round.run (closing g) (s, s.toList.reverse) = some (s.close g, []) := by
    refine run_of_ends (I := fun state => ∀ i ∈ state.2, i ∈ g.items)
      (ItemSet.closing_ends g s) (fun i hi => inside i (List.mem_reverse.mp hi))
      (fun _ inside => closing_eq wf inside) ?_
    rintro ⟨s, _ | ⟨i, stack⟩⟩ s' inside next
    · cases next
    · cases next
      obtain ⟨_, later, _⟩ := ItemSet.foldl_push s stack (i.expansion g)
      intro j hj
      rcases (later j).mp hj with hj | ⟨hj, _⟩
      · exact inside j (List.mem_cons_of_mem i hj)
      · exact Grammar.expansion_mem_items (inside i List.mem_cons_self) hj
  rw [close, ended]
  rfl

theorem goto_eq {s : ItemSet} (inside : ∀ i ∈ s, i ∈ g.items) (x : Symbol) :
    goto g s x = some (s.goto g x) :=
  close_eq wf (wf.moved_mem_items inside x)

theorem reached_eq {s : ItemSet} (inside : ∀ i ∈ s, i ∈ g.items) :
    reached g s = some ((s.nextSymbols g).toList.map fun x => (x, s.goto g x)) :=
  mapM_some fun x _ => by rw [goto_eq wf inside x]; rfl

variable (heads : ∀ r ∈ g.rules, g.symbols.owns (.nonTerminal r.head) = true)
include heads

theorem intern_eq {c : Collection} {items : ItemSet} (inside : ∀ i ∈ items, i ∈ g.items) :
    intern g c items = some (c.intern items) := by
  obtain ⟨text, shown⟩ := ItemSet.exists_text? wf heads inside
  rw [intern, shown]
  split <;> rfl

theorem internAll_eq {source : StateId} {items : ItemSet} (inside : ∀ i ∈ items, i ∈ g.items)
    {symbols : List Symbol} {c : Collection} {state : State}
    (hs : c.state? source = some state) :
    internAll g source (symbols.map fun x => (x, items.goto g x)) c =
      some (Collection.internAll g items symbols c) := by
  induction symbols generalizing c with
  | nil => rfl
  | cons x symbols ih =>
    rcases interned : c.intern (items.goto g x) with ⟨target, c'⟩
    have there := (Collection.continues_intern interned).state? hs
    rw [List.map_cons, internAll, intern_eq wf heads (wf.goto_mem_items inside), interned,
      Collection.internAll, interned]
    simp only [Option.bind_eq_bind, Option.bind_some, there, ih there]
    rfl

theorem visit_eq {c : Collection} (inside : c.Inside g) {id : StateId} {state : State}
    (hs : c.state? id = some state) : visit g c id = some (c.visit g id) := by
  have items := inside.of_state? hs
  rcases interned : Collection.internAll g state.items (state.items.nextSymbols g).toList c
    with ⟨edges, c'⟩
  have there := (Collection.continues_internAll interned).state? hs
  rw [visit, hs, Collection.visit, hs]
  have modified (f : State → State) : c'.states.modify id f = c'.states.set id (f state) := by
    rw [List.modify_eq_set_getElem?, show c'.states[id]? = some state from there]
    rfl
  simp only [Option.bind_eq_bind, Option.bind_some, reached_eq wf items,
    internAll_eq wf heads items hs, interned, there, modified]
  rfl

theorem explore_eq {c : Collection} (sound : Collection.Sound g c) (filled : 0 < c.size) :
    explore g c = some (c.build g) := by
  have ended : Round.run (exploring g) (c, [0]) = some (c.build g, []) := by
    refine run_of_ends
      (I := fun s => Collection.Sound g s.1 ∧ ∀ id ∈ s.2, id < s.1.size)
      (Collection.exploring_ends wf sound) ⟨sound, by simpa using filled⟩ ?_ ?_
    · rintro ⟨c, _ | ⟨id, queue⟩⟩ ⟨sound, numbered⟩
      · rfl
      · have hs : c.state? id = some _ :=
          List.getElem?_eq_getElem (numbered id List.mem_cons_self)
        rw [exploring, visit_eq wf heads (sound.inside wf) hs]
        rfl
    · rintro ⟨c, _ | ⟨id, queue⟩⟩ s' ⟨sound, numbered⟩ next
      · cases next
      · cases next
        have grows := Collection.size_le_size_visit (g := g) c id
        refine ⟨sound.visit id, fun j hj => ?_⟩
        rcases List.mem_append.mp hj with hj | hj
        · exact (numbered j (List.mem_cons_of_mem id hj)).trans_le grows
        · obtain ⟨_, below⟩ := List.mem_range'_1.mp hj
          exact below.trans_eq (Nat.add_sub_of_le grows)
  rw [explore, ended]
  rfl

/-! ### The start rule -/

section

variable {ε α β : Type}

omit wf heads

theorem run_lift_bind {call : Option α} {a : α} (found : call = some a)
    (next : α → ExceptT ε Option β) :
    ((liftM call : ExceptT ε Option α) >>= next).run = (next a).run := by
  rw [found]
  rfl

/-- With everything found, a call that may be refused goes on where the one before it answers. -/
theorem run_bind {call : ExceptT ε Option α} {answer : Except ε α} (found : call.run = some answer)
    {next : α → ExceptT ε Option β} {next' : α → Except ε β}
    (then_ : ∀ a, answer = .ok a → (next a).run = some (next' a)) :
    (call >>= next).run = some (answer >>= next') := by
  rw [ExceptT.run_bind, found]
  cases answer with
  | error e => rfl
  | ok a => exact then_ a rfl

theorem run_adapt {ε' : Type} (f : ε → ε') {call : ExceptT ε Option α} {answer : Except ε α}
    (found : call.run = some answer) : (call.adapt f).run = some (answer.mapError f) := by
  change call.run.map (Except.mapError f) = _
  rw [found]
  rfl

theorem run_mapM {f : α → ExceptT ε Option β} {f' : α → Except ε β} {l : List α}
    (found : ∀ a ∈ l, (f a).run = some (f' a)) : (l.mapM f).run = some (l.mapM f') := by
  induction l with
  | nil => rfl
  | cons a l ih =>
    obtain ⟨here, rest⟩ := List.forall_mem_cons.mp found
    rw [List.mapM_cons, List.mapM_cons]
    exact run_bind here fun b _ => run_bind (ih rest) fun _ _ => rfl

end

theorem checkStart_eq : (checkStart g).run = some g.checkStart := by
  obtain ⟨name, named⟩ := SymbolTable.exists_name? wf.start_owned
  rw [checkStart, run_lift_bind named, run_lift_bind (rulesOf_eq wf g.start), Grammar.checkStart]
  cases starts : g.rulesOf g.start with
  | nil => rfl
  | cons rule rest =>
    cases rest with
    | cons other rest => rfl
    | nil =>
      have mem : rule ∈ g.rulesOf g.start := by simp [starts]
      obtain ⟨text, shown⟩ := Rule.exists_text? wf heads (g.mem_rulesOf.mp mem).1
      simp only [shown]
      match rule.body with
      | [] => rfl
      | [.terminal _] => rfl
      | [.nonTerminal _] => rfl
      | .terminal _ :: _ :: _ => rfl
      | .nonTerminal _ :: _ :: _ => rfl

theorem initialCollection_eq : (initialCollection g).run = some g.initialCollection? := by
  rw [initialCollection, run_lift_bind (rulesOf_eq wf g.start), Grammar.initialCollection?]
  cases starts : g.rulesOf g.start with
  | nil => rfl
  | cons rule rest =>
    have mem : rule ∈ g.rulesOf g.start := by simp [starts]
    have seed := Grammar.seed_mem_items (g.mem_rulesOf.mp mem).1
    simp only
    rw [run_lift_bind (close_eq wf seed),
      run_lift_bind (intern_eq wf heads (Grammar.close_mem_items seed))]
    rfl

theorem collection_eq : (collection g).run = some g.collection? := by
  refine run_bind (checkStart_eq wf heads) fun rule checked => ?_
  obtain ⟨only, _⟩ := g.of_checkStart checked
  have first : (g.rulesOf g.start).head? = some rule := by rw [only]; rfl
  have started := initialCollection_eq wf heads
  rw [Grammar.initialCollection?_eq_ok_iff.mpr ⟨rule, first, rfl⟩] at started
  have sound := Collection.Sound.initial first
  rw [ExceptT.run_bind, started]
  exact congrArg (Option.map Except.ok) (explore_eq wf heads sound Nat.one_pos)

/-! ### The table -/

section

variable {c : Collection} {rule : Rule V} (built : c.Built g rule) {id : StateId} {state : State}
  (hs : c.state? id = some state)
include built hs

theorem settle_eq {t : Terminal} (mem : t ∈ state.terminals) :
    (settle g state t).run = some (state.settle g state.id t) := by
  have owned := built.terminal_owned hs wf mem
  obtain ⟨name, named⟩ := SymbolTable.exists_name? owned
  have shown {d : Candidate} (hd : d ∈ state.candidates t) : ∃ text, d.text? g = some text :=
    Candidate.exists_text? wf heads (built.candidate_inside hs wf hd)
  have reported : ∃ text, report g t (state.settle g state.id t) = some text := by
    cases settled : state.settle g state.id t with
    | ok verdict =>
      cases verdict with
      | nothing => exact ⟨_, rfl⟩
      | unopposed d => exact ⟨_, rfl⟩
      | byPriority d =>
        obtain ⟨text, shown⟩ := shown (State.mem_candidates_of_settle settled (.inl rfl))
        exact ⟨_, by rw [report, named, shown]; rfl⟩
      | byAssociativity d =>
        obtain ⟨text, shown⟩ := shown (State.mem_candidates_of_settle settled (.inr rfl))
        exact ⟨_, by rw [report, named, shown]; rfl⟩
    | error a =>
      obtain ⟨_, same⟩ := Table.of_settle_eq_error settled
      refine Ambiguity.exists_message? wf heads (same ▸ owned) fun d hd => ?_
      exact built.candidate_inside hs wf (State.mem_candidates_of_settle_error settled hd)
  obtain ⟨text, reported⟩ := reported
  change (report g t (state.settle g state.id t)).bind _ = _
  rw [reported]
  rfl

theorem rowOf_eq : (rowOf g state).run = some (Table.rowOf g state) := by
  refine run_bind (run_mapM fun t mem => ?_) fun _ _ => rfl
  rw [ExceptT.run_bind, settle_eq wf heads built hs mem, Table.cell]
  cases state.settle g state.id t <;> rfl

omit hs

theorem rowsOf_eq : (c.states.mapM (rowOf g)).run = some (Table.rowsOf g c) := by
  refine run_mapM fun state mem => ?_
  obtain ⟨_, hs⟩ := List.mem_iff_getElem?.mp mem
  exact rowOf_eq wf heads built hs

end

omit wf heads in
theorem named_eq {α : Type} {wrap : α → Symbol} {columns : List α}
    (owned : ∀ a ∈ columns, g.symbols.owns (wrap a) = true) :
    named g wrap columns = some (Table.named g wrap columns) := by
  refine mapM_some fun a mem => ?_
  obtain ⟨name, found⟩ := SymbolTable.exists_name? (owned a mem)
  rw [found]
  rfl

theorem ofCollection_eq {c : Collection} {rule : Rule V} (built : c.Built g rule) :
    (ofCollection g c).run = some (Table.ofCollection g c) := by
  refine run_bind (rowsOf_eq wf heads built) fun rows _ => ?_
  rw [run_lift_bind (named_eq fun _ ht => SymbolTable.owned_of_mem_terminals ht),
    run_lift_bind (named_eq fun _ hn =>
      SymbolTable.owned_of_mem_nonTerminals (List.mem_of_mem_filter hn))]
  rfl

theorem table_eq : (table g).run = some g.table? := by
  have table : g.table? = g.collection?.mapError GenerationError.malformed >>= fun c =>
      (Table.ofCollection g c).mapError .ambiguous := by
    rw [Grammar.table?]
    cases g.collection? <;> rfl
  rw [table]
  refine run_bind (run_adapt _ (collection_eq wf heads)) fun c ok => ?_
  have found : g.collection? = .ok c := by
    cases answer : g.collection? with
    | error fault => simp [answer, Except.mapError] at ok
    | ok c' => simpa [answer, Except.mapError] using ok
  obtain ⟨rule, _, _, _, built⟩ := Grammar.of_collection? wf found
  exact run_adapt _ (ofCollection_eq wf heads built)

end Checked

/-- Whatever has been called on a builder, with whatever success: its names are distinct and lead
back to its symbols, the start symbol and the end of input are the first two, and its rules are
numbered in order and made of its symbols. A declaration or a rule that is refused changes nothing.
So finishing the grammar, checking the start rule, building the collection and generating the table
find everything that they look up, and come to an end. -/
theorem Builder.Authored.safe [SemanticValue V] {b : Builder V} (authored : b.Authored) :
    b.WellFormed ∧
    (∀ x, b.symbols.owns x = true →
      ∃ name, b.symbols.name? x = some name ∧ b.symbols.find? name = some x) ∧
    b.symbols.symbolAt? 0 = some (.nonTerminal b.start) ∧
    b.symbols.symbolAt? 1 = some (.terminal b.eos) ∧
    (∀ command : Command V, command.isCombinator = false → ∀ e,
      (command.run b).1 = .error e → (command.run b).2 = b) ∧
    Checked.build b = some b.build ∧
    (Checked.checkStart b.build).run = some b.build.checkStart ∧
    (Checked.collection b.build).run = some b.build.collection? ∧
    (Checked.table b.build).run = some b.build.table? := by
  have wf := authored.wellFormed
  have heads : ∀ r ∈ b.build.rules, b.build.symbols.owns (.nonTerminal r.head) = true :=
    wf.head_owned
  refine ⟨wf, fun x owned => ?_, of_decide_eq_true wf.build.start_owned,
    of_decide_eq_true wf.build.eos_owned,
    fun command single e fails => Command.run_of_error single fails, Checked.build_eq wf,
    Checked.checkStart_eq wf.build heads, Checked.collection_eq wf.build heads,
    Checked.table_eq wf.build heads⟩
  obtain ⟨name, named⟩ := SymbolTable.exists_name? owned
  exact ⟨name, named, SymbolTable.find?_of_name? wf.names_nodup named⟩

namespace Scrawl

/-- Calls of all kinds, of which several are refused: a name that is taken, a handle of another
grammar, a terminal for a head, and a repetition of the end of input, which leaves the rule for none
behind. -/
def builder : Builder Value :=
  Command.runAll
    [.terminal "n", .terminal "+", .nonTerminal "n", .nonTerminal "E",
      .rule (.name "E") [.handle (.terminal ⟨⟨1⟩, 2⟩)] {}, .rule (.name "n") [] {},
      .star (.name Builder.defaultEos), .setStart (.name "E") {},
      .rule (.name "E") [.name "E", .name "+", .name "E"]
        { priority := some 1, associativity := some .left },
      .rule (.name "E") [.name "n"] {}]
    ⟨⟨⟨0⟩, [⟨Builder.defaultStart, .start⟩, ⟨Builder.defaultEos, .eos⟩]⟩, []⟩

theorem authored : builder.Authored :=
  ⟨⟨0⟩, Builder.defaultStart, Builder.defaultEos, _, _, rfl, rfl⟩

set_option maxRecDepth 2000 in
/-- Another declaration of `n` changes nothing, and with all look-ups made there is a table. -/
theorem scrawl_safe :
    ((Command.terminal "n").run builder).2 = builder ∧
      ∃ T, Checked.build builder = some builder.build ∧
        (Checked.table builder.build).run = some (.ok T) := by
  obtain ⟨_, _, _, _, refused, built, _, _, tabled⟩ := Builder.Authored.safe authored
  have made : builder.build.table?.isOk := by decide +kernel
  obtain ⟨T, found⟩ := exists_eq_ok made
  exact ⟨refused _ rfl (.duplicateName "n") rfl, T, built, found ▸ tabled⟩

end Scrawl

end CanonicalLR
