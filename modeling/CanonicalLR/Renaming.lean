import CanonicalLR.Table
import Mathlib.Logic.Equiv.Defs

/-!
Renaming what a grammar is made of: its handles become those of another grammar, at the
same places, and its rules get other numbers. A grammar lies in another under a
renaming if its declarations stand in front there and the other has just its rules for
its non-terminals.
-/
namespace CanonicalLR

/-- The grammar to which handles are moved, and the new numbers of the rules. -/
structure Renaming where
  grammar : GrammarId
  rule : Equiv.Perm RuleId

namespace Renaming

variable {V : Type} (ρ : Renaming)

def terminal (t : Terminal) : Terminal := ⟨ρ.grammar, t.index⟩

def nonTerminal (n : NonTerminal) : NonTerminal := ⟨ρ.grammar, n.index⟩

def symbol : Symbol → Symbol
  | .terminal t => .terminal (ρ.terminal t)
  | .nonTerminal n => .nonTerminal (ρ.nonTerminal n)

def string (s : List Symbol) : List Symbol := s.map ρ.symbol

/-- The rule under its new number. -/
def renumber (r : Rule V) : Rule V :=
  { r with id := ρ.rule r.id, head := ρ.nonTerminal r.head, body := ρ.string r.body }

def item (i : Item) : Item := ⟨ρ.rule i.rule, i.position, ρ.terminal i.lookahead⟩

def items (s : ItemSet) : ItemSet := .ofList (s.toList.map ρ.item)

/-- States keep their numbers. -/
def action : Action → Action
  | .reduce r => .reduce (ρ.rule r)
  | .shift target => .shift target
  | .accept => .accept
  | .error => .error

def proposal (p : Proposal) : Proposal :=
  ⟨ρ.terminal p.terminal, ρ.item p.item, ρ.action p.action⟩

def transition (edge : Symbol × StateId) : Symbol × StateId := (ρ.symbol edge.1, edge.2)

def row (row : Row) : Row where
  actions := row.actions.map fun (t, a) => (ρ.terminal t, ρ.action a)
  gotos := row.gotos.map fun (n, target) => (ρ.nonTerminal n, target)

def table (T : Table) : Table where
  initial := T.initial
  rows := T.rows.map ρ.row
  terminals := T.terminals.map fun (t, name) => (ρ.terminal t, name)
  nonTerminals := T.nonTerminals.map fun (n, name) => (ρ.nonTerminal n, name)

@[simp] theorem grammar_symbol (x : Symbol) : (ρ.symbol x).grammar = ρ.grammar := by
  cases x <;> rfl

@[simp] theorem index_symbol (x : Symbol) : (ρ.symbol x).index = x.index := by
  cases x <;> rfl

@[simp] theorem rank_symbol (x : Symbol) : (ρ.symbol x).rank = x.rank := by
  cases x <;> rfl

@[simp] theorem string_cons (x : Symbol) (s : List Symbol) :
    ρ.string (x :: s) = ρ.symbol x :: ρ.string s := rfl

@[simp] theorem string_append (s t : List Symbol) :
    ρ.string (s ++ t) = ρ.string s ++ ρ.string t := List.map_append

@[simp] theorem mem_items {s : ItemSet} {i : Item} : i ∈ ρ.items s ↔ ∃ j ∈ s, ρ.item j = i := by
  rw [items, OrderedSet.mem_ofList, List.mem_map]
  rfl

/-- Different symbols of one grammar stay different. -/
theorem symbol_inj {x y : Symbol} (same : x.grammar = y.grammar) :
    ρ.symbol x = ρ.symbol y ↔ x = y := by
  refine ⟨fun h => Symbol.eq_of_rank_eq ?_ same ?_, congrArg _⟩
  · simpa using congrArg Symbol.rank h
  · simpa using congrArg Symbol.index h

theorem terminal_inj {t u : Terminal} (same : t.grammar = u.grammar) :
    ρ.terminal t = ρ.terminal u ↔ t = u := by
  refine ⟨fun h => ?_, congrArg _⟩
  obtain ⟨_, _⟩ := t
  obtain ⟨_, _⟩ := u
  cases same
  cases h
  rfl

theorem nonTerminal_inj {m n : NonTerminal} (same : m.grammar = n.grammar) :
    ρ.nonTerminal m = ρ.nonTerminal n ↔ m = n := by
  refine ⟨fun h => ?_, congrArg _⟩
  obtain ⟨_, _⟩ := m
  obtain ⟨_, _⟩ := n
  cases same
  cases h
  rfl

theorem item_inj {i j : Item} (same : i.lookahead.grammar = j.lookahead.grammar) :
    ρ.item i = ρ.item j ↔ i = j := by
  refine ⟨fun h => ?_, congrArg _⟩
  obtain ⟨rule, position, lookahead⟩ := i
  obtain ⟨rule', position', lookahead'⟩ := j
  simp only [item, Item.mk.injEq, EmbeddingLike.apply_eq_iff_eq] at h
  obtain ⟨rfl, rfl, h⟩ := h
  cases (ρ.terminal_inj same).mp h
  rfl

theorem action_injective : Function.Injective ρ.action := by
  intro a b h
  cases a <;> cases b <;> simp_all [action]

/-- The order of the symbols of one grammar stays the same. -/
theorem compare_symbol {x y : Symbol} (same : x.grammar = y.grammar) :
    compare (ρ.symbol x) (ρ.symbol y) = compare x y := by
  change (compare (ρ.symbol x).rank (ρ.symbol y).rank).then
      ((compare (ρ.symbol x).grammar (ρ.symbol y).grammar).then
        (compare (ρ.symbol x).index (ρ.symbol y).index)) =
    (compare x.rank y.rank).then ((compare x.grammar y.grammar).then (compare x.index y.index))
  simp [same]

theorem compare_terminal {t u : Terminal} (same : t.grammar = u.grammar) :
    compare (ρ.terminal t) (ρ.terminal u) = compare t u := by
  change (compare ρ.grammar ρ.grammar).then (compare t.index u.index) =
    (compare t.grammar u.grammar).then (compare t.index u.index)
  simp [same]

/-- A renaming that keeps the grammar and the numbers of the rules changes nothing. -/
def identity (grammar : GrammarId) : Renaming := ⟨grammar, Equiv.refl RuleId⟩

section

variable {id : GrammarId}

theorem identity_symbol {x : Symbol} (home : x.grammar = id) : (identity id).symbol x = x := by
  subst home
  cases x <;> rfl

theorem identity_string {s : List Symbol} (home : ∀ x ∈ s, x.grammar = id) :
    (identity id).string s = s :=
  (List.map_congr_left fun x hx => identity_symbol (home x hx)).trans (List.map_id s)

theorem identity_item {i : Item} (home : i.lookahead.grammar = id) : (identity id).item i = i := by
  subst home
  rfl

theorem identity_terminal {t : Terminal} (home : t.grammar = id) :
    (identity id).terminal t = t := by
  subst home
  rfl

theorem identity_nonTerminal {n : NonTerminal} (home : n.grammar = id) :
    (identity id).nonTerminal n = n := by
  subst home
  rfl

theorem identity_renumber {r : Rule V} (head : r.head.grammar = id)
    (body : ∀ x ∈ r.body, x.grammar = id) : (identity id).renumber r = r := by
  rw [renumber, identity_nonTerminal head, identity_string body]
  rfl

theorem identity_transitions {edges : List (Symbol × StateId)}
    (home : ∀ edge ∈ edges, edge.1.grammar = id) : edges.map (identity id).transition = edges := by
  refine (List.map_congr_left fun edge he => ?_).trans (List.map_id edges)
  rw [transition, identity_symbol (home edge he)]
  rfl

theorem identity_proposal {p : Proposal} (home : p.terminal.grammar = id)
    (home' : p.item.lookahead.grammar = id) : (identity id).proposal p = p := by
  obtain ⟨terminal, item, action⟩ := p
  have same : (identity id).action action = action := by cases action <;> rfl
  rw [proposal, identity_item home', same]
  subst home
  rfl

theorem identity_items {s : ItemSet} (home : ∀ i ∈ s, i.lookahead.grammar = id) :
    (identity id).items s = s := by
  refine OrderedSet.ext fun i => (mem_items _).trans ?_
  constructor
  · rintro ⟨j, hj, rfl⟩
    rwa [identity_item (home j hj)]
  · exact fun hi => ⟨i, hi, identity_item (home i hi)⟩

end

end Renaming

/-- Under the renaming the first grammar lies in the second: its declarations stand in front there,
and the rules of its non-terminals are there just its rules. -/
structure Grammar.Embeds {V : Type} (ρ : Renaming) (g g' : Grammar V) : Prop where
  grammar : ρ.grammar = g'.id
  declarations : g.symbols.declarations <+: g'.symbols.declarations
  head_owned : ∀ r ∈ g.rules, g.symbols.owns (.nonTerminal r.head) = true
  rule : ∀ r ∈ g.rules, ρ.renumber r ∈ g'.rules
  only : ∀ r' ∈ g'.rules, ∀ n, g.symbols.owns (.nonTerminal n) = true →
    r'.head = ρ.nonTerminal n → ∃ r ∈ g.rules, r' = ρ.renumber r

end CanonicalLR
