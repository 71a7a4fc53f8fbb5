import BidiSheet.Text.Case

/-!
# Vocabularies

A vocabulary is a set of words that come in pairs, one for each direction. Every word has exactly one
partner, and is its partner's partner.
-/

namespace BidiSheet

/-- Whether a word is written in small letters, digits and hyphens. -/
def isKeyword (word : Text) : Bool := word.all fun c => c.isLower || c.isDigit || c = '-'

/-- Whether two words may take over each other's case: they have equally many parts, each part begins with
a letter, and a part with a single letter stands for such a part only. -/
def areTwins (a b : Text) : Bool :=
  let letters (part : Text) := part.filter Char.isAlpha
  decide ((parts a).length = (parts b).length) && ((parts a).zip (parts b)).all fun (s, t) =>
    s.head?.any Char.isAlpha && t.head?.any Char.isAlpha &&
      (decide ((letters s).length = 1) == decide ((letters t).length = 1))

/-- A vocabulary: its pairs, in small letters. -/
structure Vocabulary where
  pairs : List (Text × Text)
  keywords : ∀ pair ∈ pairs, isKeyword pair.1 = true ∧ isKeyword pair.2 = true := by decide +kernel
  /-- The words of a pair may take over each other's case. -/
  twins : ∀ pair ∈ pairs, areTwins pair.1 pair.2 = true := by decide +kernel
  /-- No word stands in the vocabulary twice. -/
  distinct : (pairs.flatMap fun pair => [pair.1, pair.2]).Nodup := by decide +kernel
  deriving DecidableEq, Repr

namespace Vocabulary

/-- Names of properties that speak of one side. -/
def property : Vocabulary where
  pairs :=
    [("left".toList, "right".toList),
     ("margin-left".toList, "margin-right".toList),
     ("padding-left".toList, "padding-right".toList),
     ("border-left".toList, "border-right".toList),
     ("border-left-width".toList, "border-right-width".toList),
     ("border-left-style".toList, "border-right-style".toList),
     ("border-left-color".toList, "border-right-color".toList),
     ("border-top-left-radius".toList, "border-top-right-radius".toList),
     ("border-bottom-left-radius".toList, "border-bottom-right-radius".toList),
     ("border-radius-topleft".toList, "border-radius-topright".toList),
     ("border-radius-bottomleft".toList, "border-radius-bottomright".toList),
     ("scroll-margin-left".toList, "scroll-margin-right".toList),
     ("scroll-padding-left".toList, "scroll-padding-right".toList)]

/-- Sides. -/
def side : Vocabulary where
  pairs := [("left".toList, "right".toList)]

/-- Writing directions. -/
def direction : Vocabulary where
  pairs := [("ltr".toList, "rtl".toList)]

/-- Cursors that point to one side. -/
def cursor : Vocabulary where
  pairs :=
    [("e-resize".toList, "w-resize".toList),
     ("ne-resize".toList, "nw-resize".toList),
     ("se-resize".toList, "sw-resize".toList)]

/-- The partner of a word in small letters. -/
def partner (v : Vocabulary) (word : Text) : Option Text :=
  v.pairs.findSome? fun (a, b) =>
    if word = a then some b else if word = b then some a else none

/-- The partner of a word in any case, in the case of the word. -/
def lookup (v : Vocabulary) (word : Text) : Option Text :=
  (v.partner (lower word)).map (recase · word)

/-- The word itself, or its partner if it has one. -/
def swap (v : Vocabulary) (word : Text) : Text := (v.lookup word).getD word

end Vocabulary

end BidiSheet
