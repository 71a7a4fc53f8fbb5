import BidiSheet.Extent
import BidiSheet.Marker
import BidiSheet.Text.Case

/-!
# Pieces of a source

A stylesheet source is cut into *pieces*: stretches that are kept as they are, whatever they say, and
the plain characters between them. Kept are comments, strings, urls, font faces, no-flip comments with
the declaration or rule that they guard, and stray control characters of the kind that delimit
markers. A backslash makes the character after it plain.

* `pieces` cuts a source.
* `text_pieces`: the pieces, one after the other, are the source.
-/

namespace BidiSheet

open HasSign (sign)

/-- Why a stretch of source is kept as it is. -/
inductive SpanKind where
  /-- A comment. -/
  | comment
  /-- A string in single or double quotes. -/
  | quoted
  /-- A url token with its brackets. -/
  | url
  /-- A font face with its block. -/
  | fontFace
  /-- A no-flip comment with what it guards. -/
  | noFlip
  /-- A control character that delimits markers. -/
  | control
  deriving DecidableEq, Repr

/-- A piece of a source. -/
inductive Piece where
  /-- A character that may be worked on. -/
  | plain (c : Char)
  /-- A stretch that is kept as it is. -/
  | kept (kind : SpanKind) (text : Text)
  deriving DecidableEq, Repr

namespace Piece

/-- The source text of a piece. -/
def text : Piece → Text
  | .plain c => [c]
  | .kept _ t => t

/-! ### Where kept stretches begin -/

/-- Whether a comment asks that what follows be left alone. The comment may lack its end. -/
def isNoFlip (comment : Text) : Bool :=
  let body := comment.drop 2
  let body := if ['*', '/'].isSuffixOf body then body.dropLast.dropLast else body
  lower (trim body) = "noflip".toList || lower (trim body) = "@noflip".toList

/-- Whether a url begins here. `joined` says that an identifier reaches up to here. -/
def opensUrl (joined : Bool) (t : Text) : Bool := !joined && beginsWith "url(".toList t

/-- Whether a font face begins here. -/
def opensFontFace (t : Text) : Bool :=
  beginsWith "@font-face".toList t && !(t.drop 10).head?.any isIdent

/-- The kept stretch that begins with `c` and goes on in `cs`: its kind, and the number of characters
that it takes after `c`. -/
def keptAt (joined : Bool) (c : Char) (cs : Text) : Option (SpanKind × Nat) :=
  if Extent.opensComment c cs then
    let n := Extent.comment cs.tail + 1
    if isNoFlip (c :: cs.take n) then some (.noFlip, n + Extent.target (cs.drop n))
    else some (.comment, n)
  else if (sign c).isQuote then some (.quoted, Extent.string (sign c) cs)
  else if opensUrl joined (c :: cs) then some (.url, Extent.url (cs.drop 3) + 3)
  else if opensFontFace (c :: cs) then some (.fontFace, Extent.rule 0 cs)
  else if Marker.isControl c then some (.control, 0)
  else none

/-! ### Cutting a source -/

/-- Whether an identifier reaches up to the end of a text. -/
def endsJoined (t : Text) : Bool := t.getLast?.any isIdent

/-- The pieces of a source. `joined` says that an identifier reaches up to its beginning. -/
def cut (joined : Bool) : Text → List Piece
  | [] => []
  | c :: cs =>
    match keptAt joined c cs with
    | some (kind, n) =>
      .kept kind (c :: cs.take n) :: cut (endsJoined (c :: cs.take n)) (cs.drop n)
    | none =>
      if c = '\\' then
        match cs with
        | [] => [.plain c]
        | d :: ds =>
          if Marker.isControl d then .plain c :: cut false (d :: ds)
          else .plain c :: .plain d :: cut (isIdent d) ds
      else .plain c :: cut (isIdent c) cs
termination_by t => t.length
decreasing_by
  · exact length_drop_lt c cs n
  · exact Nat.lt_succ_self _
  · exact Nat.lt_succ_of_lt (Nat.lt_succ_self _)
  · exact Nat.lt_succ_self _

end Piece

/-- The pieces of a source. -/
def pieces (source : Text) : List Piece := Piece.cut false source

/-- What a text is cut into is the text. -/
theorem Piece.text_cut (joined : Bool) (t : Text) : (Piece.cut joined t).flatMap Piece.text = t := by
  fun_induction Piece.cut joined t with
  | case1 => simp
  | case2 _ c cs kind n _ ih =>
    rw [List.flatMap_cons, ih, Piece.text, List.cons_append, List.take_append_drop]
  | case3 => simp [Piece.text]
  | case4 _ d ds _ _ ih => simp [Piece.text, ih]
  | case5 _ d ds _ _ ih => simp [Piece.text, ih]
  | case6 _ c cs _ _ ih => simp [Piece.text, ih]

/-- The pieces of a source, one after the other, are the source. -/
theorem text_pieces (source : Text) : (pieces source).flatMap Piece.text = source :=
  Piece.text_cut false source

end BidiSheet
