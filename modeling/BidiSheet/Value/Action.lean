import BidiSheet.Number.Binary64
import BidiSheet.Number.Complement
import BidiSheet.Value
import BidiSheet.Vocabulary

/-!
# Actions on values

Each action reflects one kind of value. All of them work alike: the tokens are divided into groups, the
words of each group are turned into as many new words, and these are queued on the word tokens in
order. So an action is given by where the groups are divided and by a function on lists of words.

* `Words.box`, `Words.corners`, `Words.position`, `Words.offset`: what happens to the words.
* `Value.swapWords`, …, `Value.negateOffsets`: the actions.
-/

namespace BidiSheet

/-! ### Words -/

namespace Words

/-- Four sides, from the top clockwise, with the right and the left one exchanged. Fewer sides are the
same on both. -/
def box : List Text → List Text
  | [top, right, bottom, left] => [top, left, bottom, right]
  | words => words

/-- Corners, from the top left clockwise, with the left and the right ones exchanged. Of three corners
the second is also the fourth, so it has to be written out. -/
def corners : List Text → List Text
  | [a, b] => [b, a]
  | [a, b, c] => [b, a, b ++ ' ' :: c]
  | [a, b, c, d] => [b, a, d, c]
  | words => words

/-- Whether a word can be part of a position. -/
def isPosition (word : Text) : Bool :=
  ["left".toList, "right".toList, "center".toList, "top".toList, "bottom".toList].contains
    (lower word) || (Quantity.read? word).isSome

/-- A position seen from the other side: sides are exchanged, and a percentage in the first place is
complemented. A length in the first place stays, since the size of the box is not known. -/
def position : List Text → List Text
  | [] => []
  | w :: ws =>
    if isPosition w then
      ((Percentage.complement? w).getD (Vocabulary.side.swap w)) :: ws.map Vocabulary.side.swap
    else w :: position ws

/-- A quantity with the other sign. -/
def negate : Text → Text
  | '-' :: t => t
  | '+' :: t => '-' :: t
  | t => '-' :: t

/-- A shadow seen from the other side: its first quantity, the horizontal offset, is negated unless it
is zero. -/
def offset : List Text → List Text
  | [] => []
  | w :: ws =>
    match Quantity.read? w with
    | none => w :: offset ws
    | some q => if q.numeral.isZero then w :: ws else negate w :: ws

end Words

/-! ### Groups of tokens -/

namespace Tokens

/-- The texts of the words among some tokens. -/
def words (ts : List Token) : List Text := (ts.filter Token.isWord).map Token.text

/-- Queues new words on the word tokens, in order. -/
def assign : List Token → List Text → List Token
  | [], _ => []
  | ts, [] => ts
  | t :: ts, w :: ws => if t.isWord then t.queue w :: assign ts ws else t :: assign ts (w :: ws)

/-- Turns the words among some tokens into as many new words. -/
def mapWords (f : List Text → List Text) (ts : List Token) : List Token := assign ts (f (words ts))

/-- Applies `f` to each group of the tokens between tokens of kind `kind`. -/
def mapGroups (kind : TokenKind) (f : List Token → List Token) (ts : List Token) : List Token :=
  go [] ts
where
  /-- Goes on with a group of which the tokens `group` have been read. -/
  go (group : List Token) : List Token → List Token
    | [] => f group
    | t :: ts => if t.kind = kind then f group ++ t :: go [] ts else go (group ++ [t]) ts

/-- Applies `f` to the tokens before the first one of kind `kind`. -/
def mapBefore (kind : TokenKind) (f : List Token → List Token) (ts : List Token) : List Token :=
  f (ts.takeWhile (·.kind ≠ kind)) ++ ts.dropWhile (·.kind ≠ kind)

end Tokens

/-! ### Actions -/

namespace Value

/-- A value with its tokens changed by `f`. -/
def mapTokens (f : List Token → List Token) (v : Value) : Value := { v with tokens := f v.tokens }

/-- Exchanges every word that a vocabulary has. -/
def swapWords (vocabulary : Vocabulary) (v : Value) : Value :=
  v.mapTokens (Tokens.mapWords (·.map vocabulary.swap))

/-- Whether a value lists the sides of one box. -/
def isBox (v : Value) : Bool := !v.has .comma && !v.has .slash

/-- Exchanges the right and the left side of a box. -/
def swapSides (v : Value) : Value :=
  if v.isBox then v.mapTokens (Tokens.mapWords Words.box) else v

/-- Whether a value lists corners: horizontal radii, and vertical ones after a slash. -/
def isCorners (v : Value) : Bool := !v.has .comma

/-- Exchanges the left and the right corners. -/
def swapCorners (v : Value) : Value :=
  if v.isCorners then v.mapTokens (Tokens.mapGroups .slash (Tokens.mapWords Words.corners)) else v

/-- Sees the position of each background layer from the other side. What follows a slash in a layer is a
size. -/
def reflectPositions (v : Value) : Value :=
  v.mapTokens (Tokens.mapGroups .comma (Tokens.mapBefore .slash (Tokens.mapWords Words.position)))

/-- Negates the horizontal offset of each shadow. -/
def negateOffsets (v : Value) : Value :=
  v.mapTokens (Tokens.mapGroups .comma (Tokens.mapWords Words.offset))

end Value

end BidiSheet
