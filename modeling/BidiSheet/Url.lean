import BidiSheet.Masked

/-!
# Directions inside urls

File names often carry a direction, as in `arrow-left.png`. On request the words `left` and `right`,
or `ltr` and `rtl`, are exchanged inside urls. A word is a maximal run of ASCII letters, so `leftover`
is left alone.

* `runs` cuts a url into its words and the characters between them; `text_runs` says that nothing is
  lost.
* `swapWords` exchanges the words that the options name.
-/

namespace BidiSheet

/-- Which words are exchanged inside urls. -/
structure UrlOptions where
  /-- Exchange `left` and `right`. -/
  leftRight : Bool := false
  /-- Exchange `ltr` and `rtl`. -/
  ltrRtl : Bool := false
  deriving DecidableEq, Repr

namespace UrlOptions

/-- Whether no words are exchanged. -/
def isEmpty (options : UrlOptions) : Bool := !options.leftRight && !options.ltrRtl

/-- The word that takes the place of a word in small letters. -/
def partner (options : UrlOptions) (word : Text) : Option Text :=
  if options.ltrRtl && word = "ltr".toList then some "rtl".toList
  else if options.ltrRtl && word = "rtl".toList then some "ltr".toList
  else if options.leftRight && word = "left".toList then some "right".toList
  else if options.leftRight && word = "right".toList then some "left".toList
  else none

end UrlOptions

namespace Url

/-- A word of a url, or a character between words. -/
inductive Run where
  | word (letters : Text)
  | mark (c : Char)
  deriving DecidableEq, Repr

/-- The text of a run. -/
def Run.text : Run → Text
  | .word w => w
  | .mark c => [c]

/-- The runs of a text: its maximal runs of ASCII letters and the characters between them. -/
def runs : Text → List Run
  | [] => []
  | c :: cs =>
    if c.isAlpha then .word (c :: cs.takeWhile Char.isAlpha) :: runs (cs.dropWhile Char.isAlpha)
    else .mark c :: runs cs
termination_by t => t.length
decreasing_by
  · exact Nat.lt_succ_of_le (List.dropWhile_suffix _).length_le
  · simp

/-- The runs of a text, one after the other, are the text. -/
theorem text_runs (t : Text) : (runs t).flatMap Run.text = t := by
  fun_induction runs t with
  | case1 => simp
  | case2 c cs _ ih => simp [Run.text, ih, List.takeWhile_append_dropWhile]
  | case3 c cs _ ih => simp [Run.text, ih]

/-- The replacement of a run, in the case of the word that it replaces. -/
def Run.swap? (options : UrlOptions) : Run → Option Text
  | .word w => (options.partner (lower w)).map (recase · w)
  | .mark _ => none

/-- A run with its word exchanged if the options say so. -/
def Run.swap (options : UrlOptions) (r : Run) : Text := (r.swap? options).getD r.text

/-- A url with its words exchanged. -/
def swapWords (options : UrlOptions) (url : Text) : Text := (runs url).flatMap (Run.swap options)

/-- Whether a url has a word to exchange. -/
def hasWord (options : UrlOptions) (url : Text) : Bool :=
  (runs url).any fun r => (r.swap? options).isSome

end Url

/-- Whether the options exchange a word of this span. -/
def Span.isSwapped (options : UrlOptions) (span : Span) : Bool :=
  span.kind = .url && Url.hasWord options span.text

/-- A span with its words exchanged, if it is a url. The bytes that it covers stay the same. -/
def Span.swapWords (options : UrlOptions) (span : Span) : Span :=
  if span.kind = .url then { span with text := Url.swapWords options span.text } else span

namespace Masked

/-- A masked sheet with the words in its urls exchanged. -/
def swapUrls (options : UrlOptions) (sheet : Masked) : Masked :=
  { sheet with spans := sheet.spans.map (Span.swapWords options) }

/-- The number of urls in which a word is exchanged. -/
def swappedUrls (options : UrlOptions) (sheet : Masked) : Nat :=
  sheet.spans.countP (Span.isSwapped options)

end Masked

end BidiSheet
