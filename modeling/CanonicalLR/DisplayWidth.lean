import CanonicalLR.CharacterClass

/-!
How many columns of a terminal a line takes. A character has a width of its own, but
some go together with what comes behind them: letters as ligatures, emoji as
sequences, regional indicators as flags. So a line is measured from its end, each
character before the sign that begins behind it. Escape sequences that set the style
of the text take no column.
-/
namespace CanonicalLR

namespace DisplayWidth

open CharacterClass

/-! ### Signs -/

/-- The end of a ligature, which the characters before it may complete. It is joined if a zero
width joiner comes before it. -/
inductive LigatureEnd where
  /-- An alef, completed by a lam. -/
  | alef
  /-- A lamed, completed by an alef before the joiner. -/
  | lamed (joined : Bool)
  /-- A Buginese ya, completed by the letter a with the vowel sign i before the joiner. -/
  | ya (joined : Bool)
  | vowelYa
  /-- A Tifinagh consonant, completed by another one before a joiner of either kind. -/
  | consonant (joined : Bool)
  | linkedConsonant
  /-- A Lisu tone letter, completed by another one. -/
  | tone
  /-- An Old Turkic i, completed by the letter ec before the joiner. -/
  | orkhonI (joined : Bool)
  /-- A Khmer letter, which a coeng sign moves below the letter before it. -/
  | coengLetter
  deriving DecidableEq, Repr

/-- The tags from some place up to the end tag: letters only, or digits with maybe letters
behind them. -/
inductive Tags where
  | letters (count : Nat)
  | digits (count : Nat)
  deriving DecidableEq, Repr

/-- What begins behind a character. -/
inductive Sign where
  | plain
  /-- An emoji, of one or more characters. -/
  | emoji
  | modifier
  | indicator
  | indicators
  /-- A joiner with an emoji behind it, into which the emoji before the joiner is drawn. -/
  | joinedEmoji
  | joinedKeycap
  | joinedTags (tags : Tags)
  /-- One indicator, an even and an odd number of them before such a joiner. -/
  | joinedIndicator
  | evenIndicators
  | oddIndicators
  | ligature (rest : LigatureEnd)
  deriving DecidableEq, Repr

/-- What begins behind a character, with the style that a variation selector asks for. -/
structure Sequel where
  sign : Sign
  textStyle : Bool
  emojiStyle : Bool
  deriving DecidableEq, Repr

def joiner : Char := '\u200D'

def textSelector : Char := '\uFE0E'

def emojiSelector : Char := '\uFE0F'

def keycap : Char := '\u20E3'

def tagEnd : Char := Char.ofNat 0xE007F

def blackFlag : Char := Char.ofNat 0x1F3F4

/-! ### Single characters -/

/-- The width of a character that stands alone. Two Khmer letters are as wide as the letters that
they abbreviate. -/
def ofChar (c : Char) : Nat :=
  if c.toNat < 0x7F then 1
  else if c.toNat = 0x17D8 then 3
  else if c.toNat = 0x17A4 || wide.has c then 2
  else if zeroWidth.has c then 0
  else 1

/-- The sign that begins with a character, whatever is behind it. -/
def signOf (c : Char) : Sign :=
  if emojiPresentation.has c then .emoji
  else if modifiers.has c then .modifier
  else if CharacterClass.indicators.has c then .indicator
  else if alefs.has c then .ligature .alef
  else if c = '\u05DC' then .ligature (.lamed false)
  else if c = '\u1A10' then .ligature (.ya false)
  else if tifinaghConsonants.has c then .ligature (.consonant false)
  else if secondTones.has c then .ligature .tone
  else if c.toNat = 0x10C03 then .ligature (.orkhonI false)
  else if coengLetters.has c then .ligature .coengLetter
  else .plain

/-! ### Sequences -/

namespace LigatureEnd

/-- The end with a joiner before it. -/
def join : LigatureEnd → LigatureEnd
  | .lamed _ => .lamed true
  | .ya _ => .ya true
  | .consonant _ => .consonant true
  | .orkhonI _ => .orkhonI true
  | rest => rest

/-- The width that the character adds to the ligature, and what begins with it. -/
def complete? (c : Char) : LigatureEnd → Option (Int × Sign)
  | .alef =>
    if lams.has c then some (0, .plain)
    else if zeroWidth.has c && !unjoining.has c then some (0, .ligature .alef)
    else none
  | .lamed joined => if joined && c = '\u05D0' then some (0, .plain) else none
  | .ya joined => if joined && c = '\u1A17' then some (0, .ligature .vowelYa) else none
  | .vowelYa => if c = '\u1A15' then some (0, .plain) else none
  | .consonant joined =>
    if c = '\u2D7F' then some (1, .ligature .linkedConsonant)
    else if joined && tifinaghConsonants.has c then some (0, .plain)
    else none
  | .linkedConsonant => if tifinaghConsonants.has c then some (-1, .plain) else none
  | .tone => if firstTones.has c then some (0, .plain) else none
  | .orkhonI joined => if joined && c.toNat = 0x10C32 then some (0, .plain) else none
  | .coengLetter => if c = '\u17D2' then some (-1, .plain) else none

/-- Joiners and invisible marks do not break a ligature. What may stand between an alef and a lam
is said there. -/
def before? (c : Char) (rest : LigatureEnd) : Option (Int × Sign) :=
  if rest = .alef then rest.complete? c
  else if c = joiner then some (0, .ligature rest.join)
  else if ligatureIgnorable.has c then some (0, .ligature rest)
  else rest.complete? c

end LigatureEnd

namespace Tags

/-- The tags with one more before them. A region is spelled by up to six letters, or by three
digits with up to four letters behind them. -/
def push? (c : Char) : Tags → Option Tags
  | .letters count =>
    if tagLetters.has c && count < 6 then some (.letters (count + 1))
    else if tagDigits.has c && count ≤ 4 then some (.digits 1)
    else none
  | .digits count => if tagDigits.has c && count < 3 then some (.digits (count + 1)) else none

/-- The tags spell a region, so that the flag before them is that of the region. -/
def areComplete : Tags → Bool
  | .letters count => 3 ≤ count
  | .digits count => count = 3

end Tags

/-- The width that a character adds to the sign behind it, and the sign that begins with it; none
if the two do not go together. -/
def Sign.before? (c : Char) : Sign → Option (Int × Sign)
  | .plain | .joinedKeycap => none
  | .emoji => if c = joiner then some (0, .joinedEmoji) else none
  | .modifier =>
    if emojiBase.has c then some (0, .emoji)
    else if c = joiner then some (0, .joinedEmoji)
    else none
  | .indicator => if CharacterClass.indicators.has c then some (1, .indicators) else none
  | .indicators =>
    if CharacterClass.indicators.has c then some (1, .indicators)
    else if c = joiner then some (0, .joinedEmoji)
    else none
  | .joinedEmoji =>
    if c = keycap then some (0, .joinedKeycap)
    else if CharacterClass.indicators.has c then some (1, .joinedIndicator)
    else if modifiers.has c then some (0, .modifier)
    else if c = tagEnd then some (0, .joinedTags (.letters 0))
    else if emojiPresentation.has c then some (0, .emoji)
    else none
  | .joinedTags tags =>
    if c = blackFlag && tags.areComplete then some (0, .emoji)
    else (tags.push? c).map fun tags => (0, .joinedTags tags)
  | .joinedIndicator =>
    if CharacterClass.indicators.has c then some (-1, .evenIndicators) else none
  | .evenIndicators =>
    if CharacterClass.indicators.has c then some (3, .oddIndicators)
    else if c = joiner then some (0, .joinedEmoji)
    else none
  | .oddIndicators =>
    if CharacterClass.indicators.has c then some (-1, .evenIndicators)
    else if c = joiner then some (0, .joinedEmoji)
    else none
  | .ligature rest => rest.before? c

namespace Sequel

def ofSign (sign : Sign) : Sequel := ⟨sign, false, false⟩

/-- The sequel with an emoji selector before it; only ligatures and joined emoji outlast it. -/
def selectEmoji (next : Sequel) : Sequel :=
  match next.sign with
  | .ligature _ | .joinedEmoji | .joinedKeycap => { next with emojiStyle := true }
  | _ => ⟨.plain, false, true⟩

/-- The sequel with a text selector before it; only ligatures outlast it. -/
def selectText (next : Sequel) : Sequel :=
  match next.sign with
  | .ligature _ => { next with textStyle := true }
  | _ => ⟨.plain, true, false⟩

/-- The sequel before a character that the emoji selector does not apply to. -/
def dropEmoji (next : Sequel) : Sequel :=
  match next.emojiStyle, next.sign with
  | false, _ => next
  | true, .ligature _ => { next with emojiStyle := false }
  | true, _ => .ofSign .plain

/-- The sequel before a character that the text selector does not apply to. -/
def dropText (next : Sequel) : Sequel :=
  match next.textStyle, next.sign with
  | false, _ => next
  | true, .ligature _ => { next with textStyle := false }
  | true, _ => .ofSign .plain

/-- The next emoji takes in the one before it. -/
def isJoined (next : Sequel) : Bool := next.sign = .joinedEmoji || next.sign = .joinedKeycap

end Sequel

/-- A character that is narrow when it is shown as text, and wide otherwise. -/
def hasTextStyle (c : Char) : Bool :=
  CharacterClass.emojiStyle.has c && emojiPresentation.has c && !enclosedIdeographs.has c

/-- The width that a character adds to a line, and what begins with it. -/
def step (c : Char) (next : Sequel) : Int × Sequel :=
  if next.emojiStyle && CharacterClass.emojiStyle.has c then
    (if next.isJoined then 0 else 2, .ofSign .emoji)
  else
    let next := next.dropEmoji
    if c.toNat ≤ 0xA0 then (1, .ofSign .plain)
    else if c = emojiSelector then (0, next.selectEmoji)
    else if c = textSelector then (0, next.selectText)
    else if next.textStyle && hasTextStyle c then (1, .ofSign .plain)
    else
      match next.dropText.sign.before? c with
      | some (width, sign) => (width, .ofSign sign)
      | none => (ofChar c, .ofSign (signOf c))

/-- The columns of a line without escape sequences, and what begins with it. -/
def measure : List Char → Int × Sequel
  | [] => (0, .ofSign .plain)
  | c :: rest =>
    let (width, next) := measure rest
    let (added, sequel) := step c next
    (width + added, sequel)

/-! ### Escape sequences -/

/-- Where in an escape sequence a character stands. -/
inductive EscapePlace where
  | outside
  /-- Right after the escape character. -/
  | opening
  | inside

/-- The number of characters with a width that stand in escape sequences, from the bracket after
the escape character up to an `m`. -/
def hidden : EscapePlace → List Char → Nat
  | _, [] => 0
  | .outside, c :: rest => hidden (if c = '\x1B' then .opening else .outside) rest
  | .opening, c :: rest => if c = '[' then hidden .inside rest + 1 else hidden .outside rest
  | .inside, c :: rest =>
    if c = 'm' then hidden .outside rest + 1
    else if controls.has c || ofChar c = 0 then hidden .inside rest
    else hidden .inside rest + 1

/-- Escape sequences do not hide more than the line has. -/
def isMeasurable (line : String) : Bool :=
  hidden .outside line.toList ≤ (measure line.toList).1

/-- The columns of a line. -/
def ofString (line : String) : Nat :=
  ((measure line.toList).1 - hidden .outside line.toList).toNat

end DisplayWidth

end CanonicalLR
