import CanonicalLR.Proofs.TreeRuns

/-!
Trees of a non-terminal whose rules are known. Such a tree is a rule with a tree for
each symbol of its body, and it tells both. Where a non-terminal has a body that goes
on with the non-terminal itself, its trees are read off step by step until one stops,
so they are lists of what each step adds.
-/
namespace CanonicalLR

variable {V : Type} {rules : List (Rule V)} {rule rule' : Rule V} {n : NonTerminal}
  {string string' : List Symbol} {handler handler' : List V → V}

/-! ### The root of a tree -/

/-- One of the rules, with this head, body and handler. -/
structure Rule.Makes (rules : List (Rule V)) (head : NonTerminal) (body : List Symbol)
    (handler : List V → V) (rule : Rule V) : Prop where
  mem : rule ∈ rules
  head_eq : rule.head = head
  body_eq : rule.body = body
  handler_eq : rule.handler = some handler

theorem Rule.Makes.of_rulesOf {g : Grammar V} (mem : rule ∈ g.rulesOf n)
    (body : rule.body = string) (handled : rule.handler = some handler) :
    rule.Makes g.rules n string handler :=
  ⟨(g.mem_rulesOf.mp mem).1, (g.mem_rulesOf.mp mem).2, body, handled⟩

namespace Tree

/-- The tree that a rule makes of trees for its body. -/
def root (made : rule.Makes rules n string handler) (children : Forest rules string) :
    Tree rules (.nonTerminal n) :=
  made.head_eq ▸ .node rule made.mem (made.body_eq.symm ▸ children)

variable (made : rule.Makes rules n string handler) (made' : rule'.Makes rules n string' handler')
  (children : Forest rules string)

@[simp] theorem tokens_root : (root made children).tokens = children.tokens := by
  obtain ⟨mem, rfl, rfl, _⟩ := made
  rfl

@[simp] theorem value_root [SemanticValue V] :
    (root made children).value = handler children.values := by
  obtain ⟨mem, rfl, rfl, handled⟩ := made
  simp [root, value, Rule.valueOf, handled]

@[simp] theorem moves_root : (root made children).moves = children.moves ++ [.reduce rule] := by
  obtain ⟨mem, rfl, rfl, _⟩ := made
  rfl

/-- Every tree of a non-terminal is made by one of its rules. -/
theorem exists_root {g : Grammar V} (tree : Tree g.rules (.nonTerminal n)) :
    ∃ rule ∈ g.rulesOf n, ∀ {string handler} (made : rule.Makes g.rules n string handler),
      ∃ children, tree = root made children := by
  cases tree with
  | node rule mem children =>
    refine ⟨rule, g.mem_rulesOf.mpr ⟨mem, rfl⟩, ?_⟩
    intro string handler made
    obtain ⟨_, _, rfl, _⟩ := made
    exact ⟨children, rfl⟩

/-- Of two rules one or the other makes the tree. -/
theorem exists_root_of_two {g : Grammar V} (rules : g.rulesOf n = [rule, rule'])
    (made : rule.Makes g.rules n string handler) (made' : rule'.Makes g.rules n string' handler')
    (tree : Tree g.rules (.nonTerminal n)) :
    (∃ children, tree = root made children) ∨ ∃ children, tree = root made' children := by
  obtain ⟨r, mem, makes⟩ := tree.exists_root
  rw [rules, List.mem_cons, List.mem_singleton] at mem
  cases mem with
  | inl same =>
    subst same
    exact .inl (makes made)
  | inr same =>
    subst same
    exact .inr (makes made')

theorem root_injective : Function.Injective (root made) := by
  intro children children' same
  obtain ⟨mem, rfl, rfl, _⟩ := made
  exact Tree.node.inj same

/-- A tree tells the body of the rule at its root. -/
theorem string_eq_of_root {children : Forest rules string} {children' : Forest rules string'}
    (same : root made children = root made' children') : string = string' := by
  have moves := congrArg moves same
  rw [moves_root, moves_root] at moves
  have last := (List.append_inj' moves rfl).2
  simp only [List.cons.injEq, Machine.Move.reduce.injEq, and_true] at last
  rw [← made.body_eq, ← made'.body_eq, last]

end Tree

/-! ### Trees read off step by step -/

section

variable {α β T : Type}

/-- Everything either stops, or goes on with something smaller; and it tells which, and how. -/
structure Unfolds (size : T → Nat) (stop : β → T) (go : α → T → T) : Prop where
  cases : ∀ t, (∃ b, stop b = t) ∨ ∃ a t', go a t' = t ∧ size t' < size t
  stop_inj : ∀ b b', stop b = stop b' → b = b'
  go_inj : ∀ a a' t t', go a t = go a' t' → a = a' ∧ t = t'
  stop_ne_go : ∀ b a t, stop b ≠ go a t

namespace Unfolds

variable {size : T → Nat} {stop : β → T} {go : α → T → T} (h : Unfolds size stop go)
include h

theorem foldr_inj {b b' : β} (l l' : List α) (same : l.foldr go (stop b) = l'.foldr go (stop b')) :
    b = b' ∧ l = l' := by
  induction l generalizing l' with
  | nil =>
    cases l' with
    | nil => exact ⟨h.stop_inj b b' same, rfl⟩
    | cons a' l' => exact absurd same (h.stop_ne_go b a' _)
  | cons a l ih =>
    cases l' with
    | nil => exact absurd same.symm (h.stop_ne_go b' a _)
    | cons a' l' =>
      obtain ⟨rfl, rest⟩ := h.go_inj a a' _ _ same
      obtain ⟨bases, rfl⟩ := ih l' rest
      exact ⟨bases, rfl⟩

theorem exists_foldr (t : T) : ∃ b l, List.foldr go (stop b) l = t := by
  -- Going on makes it smaller.
  induction hn : size t using Nat.strongRecOn generalizing t with
  | ind n ih =>
    rcases h.cases t with ⟨b, stops⟩ | ⟨a, t', goes, smaller⟩
    · exact ⟨b, [], stops⟩
    · obtain ⟨b, l, rest⟩ := ih (size t') (hn ▸ smaller) t' rfl
      exact ⟨b, a :: l, by rw [List.foldr_cons, rest, goes]⟩

/-- What is read off, the latest step last, tells all. -/
theorem foldr_bijective : Function.Bijective fun p : β × List α => p.2.foldr go (stop p.1) := by
  constructor
  · rintro ⟨b, l⟩ ⟨b', l'⟩ same
    obtain ⟨rfl, rfl⟩ := h.foldr_inj l l' same
    rfl
  · intro t
    obtain ⟨b, l, same⟩ := h.exists_foldr t
    exact ⟨(b, l), same⟩

/-- The same with the latest step in front. -/
theorem foldl_bijective :
    Function.Bijective fun p : β × List α => p.2.foldl (fun t a => go a t) (stop p.1) := by
  have reversed : Function.Bijective fun p : β × List α => (p.1, p.2.reverse) :=
    Function.bijective_id.prodMap List.reverse_involutive.bijective
  have same := h.foldr_bijective.comp reversed
  simpa only [Function.comp_def, List.foldr_reverse] using same

end Unfolds

theorem Forest.nil_bijective :
    Function.Bijective fun _ : Unit => (Forest.nil : Forest rules []) := by
  refine ⟨fun _ _ _ => rfl, fun children => ⟨(), ?_⟩⟩
  cases children
  rfl

/-- Of two rules the first stops and the second goes on with a tree of the same non-terminal. Where
the trees for their bodies are told by what is added, a tree is read off step by step. -/
theorem Tree.unfolds {g : Grammar V} (two : g.rulesOf n = [rule, rule'])
    (stops : rule.Makes g.rules n string handler) (goes : rule'.Makes g.rules n string' handler')
    (distinct : string ≠ string') {last : β → Forest g.rules string}
    {next : α → Tree g.rules (.nonTerminal n) → Forest g.rules string'}
    (lasts : Function.Bijective last) (nexts : Function.Bijective (Function.uncurry next))
    (contains : ∀ a tree, tree.moves.length ≤ (next a tree).moves.length) :
    Unfolds (fun tree : Tree g.rules (.nonTerminal n) => tree.moves.length)
      (fun b => root stops (last b)) (fun a tree => root goes (next a tree)) where
  cases tree := by
    rcases tree.exists_root_of_two two stops goes with ⟨children, rfl⟩ | ⟨children, rfl⟩
    · obtain ⟨b, rfl⟩ := lasts.surjective children
      exact .inl ⟨b, rfl⟩
    · obtain ⟨⟨a, rest⟩, rfl⟩ := nexts.surjective children
      refine .inr ⟨a, rest, rfl, ?_⟩
      have inside := contains a rest
      simp only [moves_root, Function.uncurry_apply_pair, List.length_append, List.length_singleton]
      omega
  stop_inj _ _ same := lasts.injective (root_injective stops same)
  go_inj _ _ _ _ same := Prod.mk.inj (nexts.injective (root_injective goes same))
  stop_ne_go _ _ _ same := distinct (string_eq_of_root stops goes same)

end

end CanonicalLR
