import CanonicalLR.Builder
import CanonicalLR.SemanticValue

/-!
Repetition, options, alternatives and separated sequences, each written out as
fresh non-terminals with their rules and handlers. A combinator looks up all its
symbols before it writes anything.
-/
namespace CanonicalLR

namespace Combinator

variable {V : Type} [SemanticValue V]

open SemanticValue

/-- The list value with one more value in front; what is no list counts as the empty one. -/
def push (head tail : V) : V := list (head :: (asList tail).getD [])

/-! ### Handlers -/

def emptyList : List V → V := fun _ => list []

def emptySequence : List V → V := fun _ => vec []

def absent : List V → V := fun _ => SemanticValue.none

/-- The single value of the body. -/
def onlyValue : List V → V
  | [value] => value
  | _ => SemanticValue.none

def firstValue : List V → V
  | value :: _ => value
  | [] => SemanticValue.none

/-- The body is an item and a list: the item goes in front. -/
def itemThenList : List V → V
  | [head, tail] => push head tail
  | _ => list []

/-- The body is a separator, an item and a list: the item goes in front. -/
def separatorItemList : List V → V
  | [_, head, tail] => push head tail
  | _ => list []

/-- The body is an item and the list of the later ones. -/
def itemThenSequence : List V → V
  | [head, tail] => vec (head :: (asList tail).getD [])
  | _ => vec []

def singleton : List V → V
  | [head] => list [head]
  | _ => list []

/-- The body is a list, a separator and an item: the item goes in front. -/
def listSeparatorItem : List V → V
  | [tail, _, head] => push head tail
  | _ => list []

/-- The body starts with a list whose latest item is in front. -/
def reversedSequence : List V → V
  | value :: _ => vec ((asList value).getD []).reverse
  | [] => vec []

/-! ### Combinators -/

def resolve (ref : SymbolRef) : Authoring V Symbol := do
  (← get).symbols.resolve ref

def resolveAll (refs : List SymbolRef) : Authoring V (List Symbol) := do
  (← get).symbols.resolveAll refs

/-- A new non-terminal, named after the stem. -/
def fresh (stem : String) : Authoring V NonTerminal := do
  Builder.nonTerminal ((← get).uniqueName stem)

/-- Add a rule with this handler. -/
def produce (head : NonTerminal) (body : List Symbol) (handler : List V → V) :
    Authoring V Unit := do
  let _ ← Builder.addRule head (body.map SymbolRef.handle) { handler := some handler }

/-- A sequence, reduced by the handler, or to the sequence of its values if there is none. -/
def seq (body : List SymbolRef) (handler : Option (List V → V)) : Authoring V NonTerminal := do
  let body ← resolveAll body
  let head ← fresh "seq"
  let _ ← Builder.addRule head (body.map SymbolRef.handle) { handler := handler }
  return head

/-- The symbol or nothing. -/
def optional (symbol : SymbolRef) : Authoring V NonTerminal := do
  let symbol ← resolve symbol
  let head ← fresh "opt"
  produce head [] absent
  produce head [symbol] onlyValue
  return head

/-- Any number of the symbol, as a list. -/
def star (symbol : SymbolRef) : Authoring V NonTerminal := do
  let symbol ← resolve symbol
  let head ← fresh "star"
  produce head [] emptyList
  produce head [symbol, .nonTerminal head] itemThenList
  return head

/-- One or more of the symbol, as a list. -/
def plus (symbol : SymbolRef) : Authoring V NonTerminal := do
  let symbol ← resolve symbol
  let rest ← star symbol
  let head ← fresh "plus"
  produce head [symbol, .nonTerminal rest] itemThenList
  return head

/-- Any one of the symbols, with its value passed on. -/
def oneOf (first : SymbolRef) (rest : List SymbolRef) : Authoring V NonTerminal := do
  let alternatives ← resolveAll (first :: rest)
  let head ← fresh "one_of"
  alternatives.forM fun alternative => produce head [alternative] firstValue
  return head

/-- Items with a separator between them, as a sequence of the items. -/
def separated (item separator : SymbolRef) (atLeastOne : Bool) : Authoring V NonTerminal := do
  let item ← resolve item
  let separator ← resolve separator
  let tail ← fresh "sep_tail"
  produce tail [] emptyList
  produce tail [separator, item, .nonTerminal tail] separatorItemList
  let head ← fresh "sep"
  produce head [item, .nonTerminal tail] itemThenSequence
  unless atLeastOne do
    produce head [] emptySequence
  return head

/-- Items with a separator between them and a terminator at the end, as a sequence of the items.
The terminator may be optional, and there may be no item at all where that is allowed. -/
def terminated (item separator terminator : SymbolRef) (terminatorOptional allowEmpty : Bool) :
    Authoring V NonTerminal := do
  let item ← resolve item
  let separator ← resolve separator
  let terminator ← resolve terminator
  let items ← fresh "term_acc"
  produce items [item] singleton
  produce items [.nonTerminal items, separator, item] listSeparatorItem
  let head ← fresh "term"
  produce head [.nonTerminal items, terminator] reversedSequence
  if terminatorOptional then
    produce head [.nonTerminal items] reversedSequence
  if allowEmpty then
    produce head [terminator] emptySequence
    if terminatorOptional then
      produce head [] emptySequence
  return head

end Combinator

end CanonicalLR
