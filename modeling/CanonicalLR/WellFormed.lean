import CanonicalLR.Command
import CanonicalLR.Grammar

/-!
What holds of every builder that was written by commands, and how a builder grows.
-/
namespace CanonicalLR

variable {V : Type}

/-- Names are distinct, the start symbol and the end of input come first, and rules are numbered in
order and made of symbols of the table, without the end of input. -/
structure Builder.WellFormed (b : Builder V) : Prop where
  names_nodup : (b.symbols.declarations.map Declaration.name).Nodup
  start_kind : (b.symbols.declarations[0]?).map Declaration.kind = some .start
  eos_kind : (b.symbols.declarations[1]?).map Declaration.kind = some .eos
  rule_id : ∀ (i : Nat) (rule : Rule V), b.rules[i]? = some rule → rule.id = i
  head_owned : ∀ rule ∈ b.rules, b.symbols.owns (.nonTerminal rule.head) = true
  body_owned : ∀ rule ∈ b.rules, ∀ s ∈ rule.body, b.symbols.owns s = true
  eos_not_mem_body : ∀ rule ∈ b.rules, Symbol.terminal b.eos ∉ rule.body

/-- The second builder has the symbols and rules of the first, and maybe more behind them. -/
structure Builder.Extends (b b' : Builder V) : Prop where
  grammar : b.symbols.grammar = b'.symbols.grammar
  declarations : b.symbols.declarations <+: b'.symbols.declarations
  rules : b.rules <+: b'.rules

namespace Builder.Extends

theorem refl (b : Builder V) : b.Extends b :=
  ⟨rfl, List.prefix_refl _, List.prefix_refl _⟩

theorem trans {a b c : Builder V} (h : a.Extends b) (h' : b.Extends c) : a.Extends c :=
  ⟨h.grammar.trans h'.grammar, h.declarations.trans h'.declarations, h.rules.trans h'.rules⟩

end Builder.Extends

end CanonicalLR
