import CanonicalLR.Item
import CanonicalLR.Reachability

/-!
Sets of items, their closure under expansion, and the set reached over a symbol.
-/
namespace CanonicalLR

abbrev ItemSet := OrderedSet Item

namespace ItemSet

variable {V : Type} (g : Grammar V)

/-- The symbols after the dots, in symbol order. -/
def nextSymbols (s : ItemSet) : OrderedSet Symbol :=
  .ofList (s.toList.filterMap (Item.symbol? g))

/-- Every item that can appear has a rule of the grammar and a lookahead that either starts some
non-terminal or belongs to a member. -/
def closureRounds (s : ItemSet) : Nat :=
  g.rules.length * (g.analysis.first.size + Analysis.occurrences g.rules + s.size) + 1

/-- The least superset that holds all items its members call for. -/
def close (s : ItemSet) : ItemSet := s.reached (Item.expansion g) (closureRounds g s)

/-- The closed set reached by moving the dot over the symbol; empty if no item expects it. -/
def goto (s : ItemSet) (symbol : Symbol) : ItemSet :=
  close g (.ofList (s.toList.filterMap fun i => i.advance? g symbol))

end ItemSet

end CanonicalLR
