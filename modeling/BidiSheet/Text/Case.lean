import BidiSheet.Text

/-!
# Letter case

Keywords are compared without regard to the case of ASCII letters, and a replacement takes over the
case of the word it replaces: `LEFT` becomes `RIGHT`, `Margin-Left` becomes `Margin-Right`. Case is
read off part by part where the two words have equally many hyphenated parts.
-/

namespace BidiSheet

/-- A text with its ASCII letters made small. -/
def lower (t : Text) : Text := t.map Char.toLower

/-- A text with its ASCII letters made capital. -/
def upper (t : Text) : Text := t.map Char.toUpper

/-- A text with its first character made capital. -/
def capitalise : Text → Text
  | [] => []
  | c :: t => c.toUpper :: t

/-- Whether two texts differ at most in the case of ASCII letters. -/
def sameWord (s t : Text) : Bool := lower s = lower t

/-- Whether a text begins with the word `word`, which is written in small letters. -/
def beginsWith (word t : Text) : Bool := lower (t.take word.length) = word

/-- `word` in the case of `model`, both taken as one part: capital if all letters of `model` are
capital, capitalised if `model` begins with a capital, and unchanged otherwise. -/
def recasePart (word model : Text) : Text :=
  let letters := model.filter Char.isAlpha
  if letters = [] then word
  else if letters.all Char.isUpper then upper word
  else if model.head?.any Char.isUpper then capitalise word
  else word

/-- The hyphenated parts of a word. -/
def parts (word : Text) : List Text := word.splitOn '-'

/-- `word` in the case of `model`, part by part where both have equally many parts. -/
def recase (word model : Text) : Text :=
  if (parts word).length = (parts model).length then
    ['-'].intercalate (List.zipWith recasePart (parts word) (parts model))
  else recasePart word model

end BidiSheet
