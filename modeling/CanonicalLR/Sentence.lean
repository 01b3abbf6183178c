import CanonicalLR.Value

/-!
Sentences written as text: the names of terminals with blanks between them.
-/
namespace CanonicalLR

/-- The characters that separate words: blanks, tabs, line ends and the other spaces. -/
def isBlank (c : Char) : Bool :=
  let n := c.toNat
  (0x9 ≤ n && n ≤ 0xD) || n == 0x20 || n == 0x85 || n == 0xA0 || n == 0x1680 ||
    (0x2000 ≤ n && n ≤ 0x200A) || n == 0x2028 || n == 0x2029 || n == 0x202F || n == 0x205F ||
    n == 0x3000

/-- The longest stretches without blanks. The first argument is the word being read, backwards. -/
def wordsOf (word : List Char) : List Char → List String
  | [] => if word.isEmpty then [] else [String.ofList word.reverse]
  | c :: rest =>
    if isBlank c then
      if word.isEmpty then wordsOf [] rest
      else String.ofList word.reverse :: wordsOf [] rest
    else wordsOf (c :: word) rest

def words (text : String) : List String := wordsOf [] text.toList

/-- A token for each word of the text, with the word for its value. -/
def Grammar.tokens? {V : Type} (g : Grammar V) (text : String) :
    Except LookupError (List (Token Value)) :=
  (words text).mapM fun word => do return (← g.term? word, .leaf word)

end CanonicalLR
