import CanonicalLR.Operators
import Mathlib.Logic.ExistsUnique

/-!
Every row of operands and operators groups in just one way. To add an operator at the
end, go down on the right as far as operators may have it for their operand; a grouped
expression is what comes out if its operators are added one after the other.
-/
namespace CanonicalLR

namespace Operators

variable {V : Type} {o : Operators V} {i j m : Fin o.count} {side : Associativity}

/-! ### Which operator may be the operand of which -/

theorem Groups.trans {side' : Associativity} (h : o.Groups i m side) (h' : o.Groups m j side') :
    o.Groups i j side := by
  obtain ⟨p, q, hp, hq, above⟩ := h
  obtain ⟨q', r, hq', hr, above'⟩ := h'
  cases hq.symm.trans hq'
  refine ⟨p, r, hp, hr, ?_⟩
  rcases above with above | ⟨rfl, same⟩
  · rcases above' with above' | ⟨rfl, _⟩
    · exact .inl (Int.lt_trans above above')
    · exact .inl above
  · rcases above' with above' | ⟨rfl, _⟩
    · exact .inl above'
    · exact .inr ⟨rfl, same⟩

/-- Of two operators in a row the one takes the other for its operand. -/
theorem Decided.groups_or (h : o.Decided) (i j : Fin o.count) :
    o.Groups i j .left ∨ o.Groups j i .right := by
  obtain ⟨p, hp⟩ := Option.isSome_iff_exists.mp (h.priority i)
  obtain ⟨q, hq⟩ := Option.isSome_iff_exists.mp (h.priority j)
  rcases Int.lt_trichotomy p q with below | rfl | above
  · exact .inl ⟨p, q, hp, hq, .inl below⟩
  · have same := h.agree i j (hp.trans hq.symm)
    obtain ⟨side, hs⟩ := Option.isSome_iff_exists.mp (h.associativity i)
    cases side with
    | left => exact .inl ⟨p, p, hp, hq, .inr ⟨rfl, hs⟩⟩
    | right => exact .inr ⟨p, p, hq, hp, .inr ⟨rfl, same ▸ hs⟩⟩
  · exact .inr ⟨q, p, hq, hp, .inl above⟩

/-- They do not both take the other for their operand. -/
theorem Decided.not_groups_and (h : o.Decided) (left : o.Groups i j .left)
    (right : o.Groups j i .right) : False := by
  obtain ⟨p, q, hp, hq, above⟩ := left
  obtain ⟨q', p', hq', hp', above'⟩ := right
  cases hp.symm.trans hp'
  cases hq.symm.trans hq'
  have same : q = p := by omega
  subst same
  have toLeft : (o.binary i).associativity = some .left :=
    (above.resolve_left (Int.lt_irrefl _)).2
  have toRight : (o.binary j).associativity = some .right :=
    (above'.resolve_left (Int.lt_irrefl _)).2
  have agree := h.agree i j (hp.trans hq.symm)
  rw [toLeft, toRight] at agree
  cases agree

/-! ### Adding operators at the end -/

namespace Expression

/-- The expression with an operator and an operand more behind it. -/
def insert (i : Fin o.count) (w v : V) : Expression o → Expression o
  | operand u => binary i w (operand u) (operand v)
  | binary j x left right =>
    if o.Groups i j .left then binary i w (binary j x left right) (operand v)
    else binary j x left (right.insert i w v)

/-- The expression with all these operators and operands more behind it. -/
def extend (e : Expression o) (rest : List (Fin o.count × V × V)) : Expression o :=
  rest.foldl (fun e (i, w, v) => e.insert i w v) e

variable {w v : V}

theorem insert_of_groups {e : Expression o} (h : ∀ j ∈ e.root?, o.Groups i j .left) :
    e.insert i w v = binary i w e (operand v) := by
  cases e with
  | operand u => rfl
  | binary j x left right => rw [insert, if_pos (h j rfl)]

theorem tokens_insert (e : Expression o) :
    (e.insert i w v).tokens = e.tokens ++ [(o.operator i, w), (o.operand, v)] := by
  induction e with
  | operand u => rfl
  | binary j x left right _ ih =>
    rw [insert]
    split
    · rfl
    · simp [tokens, ih]

/-- The root of the result is the new operator or the old root. -/
theorem root?_insert (e : Expression o) :
    (e.insert i w v).root? = some i ∨ (e.insert i w v).root? = e.root? := by
  cases e with
  | operand u => exact .inl rfl
  | binary j x left right =>
    rw [insert]
    split
    · exact .inl rfl
    · exact .inr rfl

theorem Grouped.insert (decided : o.Decided) {e : Expression o} (h : e.Grouped) :
    (e.insert i w v).Grouped := by
  induction e with
  | operand u => exact ⟨trivial, trivial, nofun, nofun⟩
  | binary j x left right _ ih =>
    rw [Expression.insert]
    split
    · rename_i groups
      exact ⟨h, trivial, by simpa [root?] using groups, nofun⟩
    · rename_i apart
      obtain ⟨hl, hr, left_root, right_root⟩ := h
      refine ⟨hl, ih hr, left_root, ?_⟩
      rcases right.root?_insert with root | root
      · rw [root]
        simpa using (decided.groups_or i j).resolve_left apart
      · rw [root]
        exact right_root

theorem Grouped.extend (decided : o.Decided) (rest : List (Fin o.count × V × V))
    {e : Expression o} (h : e.Grouped) : (e.extend rest).Grouped := by
  induction rest generalizing e with
  | nil => exact h
  | cons next rest ih => exact ih (h.insert decided)

theorem tokens_extend (e : Expression o) (rest : List (Fin o.count × V × V)) :
    (e.extend rest).tokens =
      e.tokens ++ rest.flatMap fun (i, w, v) => [(o.operator i, w), (o.operand, v)] := by
  induction rest generalizing e with
  | nil => simp [extend]
  | cons next rest ih =>
    obtain ⟨i, w, v⟩ := next
    have step : e.extend ((i, w, v) :: rest) = (e.insert i w v).extend rest := rfl
    rw [step, ih, tokens_insert, List.flatMap_cons, List.append_assoc]

/-! ### Taking expressions apart -/

/-- The value of the first operand. -/
def first : Expression o → V
  | operand v => v
  | binary _ _ left _ => left.first

/-- The operators from left to right, each with the operand behind it. -/
def rest : Expression o → List (Fin o.count × V × V)
  | operand _ => []
  | binary i w left right => left.rest ++ (i, w, right.first) :: right.rest

theorem tokens_eq_phrase (e : Expression o) : e.tokens = o.phrase e.first e.rest := by
  induction e with
  | operand v => rfl
  | binary i w left right hl hr =>
    rw [tokens, hl, hr]
    simp [phrase, first, rest]

/-- Whatever may have the root of a grouped expression for its operand may have all operators. -/
theorem Grouped.groups {e : Expression o} (h : e.Grouped)
    (root : ∀ j ∈ e.root?, o.Groups i j side) : ∀ next ∈ e.rest, o.Groups i next.1 side := by
  induction e generalizing i side with
  | operand v => simp [rest]
  | binary j w left right hl hr =>
    obtain ⟨grouped, grouped', left_root, right_root⟩ := h
    have here : o.Groups i j side := root j rfl
    intro next mem
    rw [rest, List.mem_append, List.mem_cons] at mem
    rcases mem with mem | rfl | mem
    · exact here.trans (hl grouped left_root next mem)
    · exact here
    · exact here.trans (hr grouped' right_root next mem)

/-- Operators that do not take an expression for their operand go into its right part. -/
theorem extend_binary {w : V} {left right : Expression o} {rest : List (Fin o.count × V × V)}
    (apart : ∀ next ∈ rest, ¬o.Groups next.1 i .left) :
    (binary i w left right).extend rest = binary i w left (right.extend rest) := by
  induction rest generalizing right with
  | nil => rfl
  | cons next rest ih =>
    obtain ⟨j, x, u⟩ := next
    have step (e : Expression o) : e.extend ((j, x, u) :: rest) = (e.insert j x u).extend rest :=
      rfl
    have inside : (binary i w left right).insert j x u = binary i w left (right.insert j x u) := by
      rw [insert, if_neg (apart _ (List.mem_cons_self))]
    rw [step, step, inside, ih fun next mem => apart next (List.mem_cons_of_mem _ mem)]

/-- A grouped expression is what comes out if its operators are added in order. -/
theorem Grouped.extend_rest (decided : o.Decided) {e : Expression o} (h : e.Grouped) :
    (operand e.first).extend e.rest = e := by
  induction e with
  | operand v => rfl
  | binary i w left right hl hr =>
    obtain ⟨grouped, grouped', left_root, right_root⟩ := h
    have apart : ∀ next ∈ right.rest, ¬o.Groups next.1 i .left := fun next mem other =>
      decided.not_groups_and other (grouped'.groups right_root next mem)
    calc
      (operand left.first).extend (left.rest ++ (i, w, right.first) :: right.rest)
        = (left.insert i w right.first).extend right.rest := by
          have split := congrArg (fun e => (e.insert i w right.first).extend right.rest)
            (hl grouped)
          rw [← split]
          exact List.foldl_append
      _ = (binary i w left (operand right.first)).extend right.rest := by
        rw [insert_of_groups left_root]
      _ = binary i w left right := by
        rw [extend_binary apart, hr grouped']

end Expression

/-! ### Rows -/

/-- The operands and operators of a row can be read off its tokens. -/
theorem phrase_injective (distinct : Function.Injective o.operator) {v v' : V}
    {rest rest' : List (Fin o.count × V × V)} (same : o.phrase v rest = o.phrase v' rest') :
    v = v' ∧ rest = rest' := by
  rw [phrase, phrase, List.cons.injEq, Prod.mk.injEq] at same
  refine ⟨same.1.2, ?_⟩
  have tail := same.2
  clear same
  induction rest generalizing rest' with
  | nil =>
    cases rest' with
    | nil => rfl
    | cons next rest' => simp at tail
  | cons next rest ih =>
    obtain ⟨i, w, u⟩ := next
    cases rest' with
    | nil => simp at tail
    | cons next' rest' =>
      obtain ⟨i', w', u'⟩ := next'
      simp only [List.flatMap_cons, List.cons_append, List.nil_append, List.cons.injEq,
        Prod.mk.injEq] at tail
      obtain ⟨⟨operator, rfl⟩, ⟨_, rfl⟩, tail⟩ := tail
      rw [distinct operator, ih tail]

/-- Where all operators are decided, every row has just one grouped expression. -/
theorem Decided.existsUnique_grouped (decided : o.Decided)
    (distinct : Function.Injective o.operator) (v : V) (rest : List (Fin o.count × V × V)) :
    ∃! e : Expression o, e.Grouped ∧ e.tokens = o.phrase v rest := by
  have single : (Expression.operand v : Expression o).Grouped := trivial
  refine ⟨(Expression.operand v).extend rest, ⟨single.extend decided rest, ?_⟩, ?_⟩
  · exact Expression.tokens_extend _ _
  · rintro e ⟨grouped, tokens⟩
    rw [e.tokens_eq_phrase] at tokens
    obtain ⟨rfl, rfl⟩ := phrase_injective distinct tokens
    exact (grouped.extend_rest decided).symm

end Operators

end CanonicalLR
