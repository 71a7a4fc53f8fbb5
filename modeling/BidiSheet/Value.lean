import BidiSheet.Marker

/-!
# Values

The value of a declaration is a sequence of tokens: words, commas, slashes and markers, each with the
blanks before it, and blanks at the end. Round brackets hold a word together, so `rgba(0, 0, 0, .5)` is
one word. Replacements are queued on tokens; rendering writes each token's replacement, or else its
text, between the same blanks.

* `Value.read` takes a value apart.
* `Value.render_read`: rendering a value that was just read gives back its text.
-/

namespace BidiSheet

/-- The depth of round brackets after a character. A closing bracket at depth zero is ignored. -/
def nest (depth : Nat) (c : Char) : Nat :=
  if c = '(' then depth + 1 else if c = ')' then depth - 1 else depth

/-- The kinds of tokens. -/
inductive TokenKind where
  | word
  | comma
  | slash
  /-- A marker, which stands for something that is kept. -/
  | marker
  deriving DecidableEq, Repr

/-- A token of a value. -/
structure Token where
  /-- The blanks before the token. -/
  gap : Text
  kind : TokenKind
  text : Text
  /-- The text that is to take the token's place. -/
  queued : Option Text := none
  deriving DecidableEq, Repr

namespace Token

/-- Whether a token is a word. -/
def isWord (t : Token) : Bool := t.kind = .word

/-- A token with a replacement queued, in place of one queued before. Replacing a token by its own text
is no replacement, and changes nothing. -/
def queue (t : Token) (text : Text) : Token :=
  if text = t.text then t else { t with queued := some text }

/-- The token's replacement, or else its text. -/
def rendered (t : Token) : Text := t.queued.getD t.text

/-- The token with the blanks before it, its replacement written out. -/
def render (t : Token) : Text := t.gap ++ t.rendered

end Token

/-- A value: its tokens, and the blanks after the last of them. -/
structure Value where
  tokens : List Token
  tail : Text
  deriving DecidableEq, Repr

namespace Value

/-! ### Reading -/

/-- Whether a character ends a word outside brackets. -/
def endsWord (c : Char) : Bool := isBlank c || c = ',' || c = '/' || c = Marker.opener

/-- The number of characters of the rest of a word, with `depth` brackets open. -/
def wordLength (depth : Nat) : Text → Nat
  | [] => 0
  | c :: cs => if depth = 0 ∧ endsWord c then 0 else wordLength (nest depth c) cs + 1

/-- The kind of the token that begins with `c` and goes on in `cs`, and the number of characters that it
takes after `c`. A marker that is not well formed begins a word. -/
def tokenAt (c : Char) (cs : Text) : TokenKind × Nat :=
  if c = ',' then (.comma, 0)
  else if c = '/' then (.slash, 0)
  else
    match Marker.read? (c :: cs) with
    | some found => (.marker, found.digits + 1)
    | none => (.word, wordLength (nest 0 c) cs)

/-- Takes a value apart. -/
def read (t : Text) : Value :=
  match _h : t.dropWhile isBlank with
  | [] => ⟨[], t⟩
  | c :: cs =>
    let n := (tokenAt c cs).2
    let value := read (cs.drop n)
    ⟨⟨t.takeWhile isBlank, (tokenAt c cs).1, c :: cs.take n, none⟩ :: value.tokens, value.tail⟩
termination_by t.length
decreasing_by
  have hlt := length_drop_lt c cs (tokenAt c cs).2
  rw [← _h] at hlt
  exact Nat.lt_of_lt_of_le hlt (List.dropWhile_suffix _).length_le

/-! ### Replacing and rendering -/

/-- The text of a value with all replacements written out. -/
def render (v : Value) : Text := v.tokens.flatMap Token.render ++ v.tail

/-- Whether a replacement is queued. -/
def isChanged (v : Value) : Bool := v.tokens.any fun t => t.queued.isSome

/-- Whether a value has a token of some kind. -/
def has (v : Value) (kind : TokenKind) : Bool := v.tokens.any fun t => t.kind = kind

/-- A value with a replacement queued for the token at place `i`. -/
def replace (v : Value) (i : Nat) (text : Text) : Value :=
  { v with tokens := v.tokens.modify i fun t => t.queue text }

/-- The places of the tokens of some kind. -/
def places (v : Value) (kind : TokenKind) : List Nat :=
  (v.tokens.zipIdx.filter fun (t, _) => t.kind = kind).map Prod.snd

/-- The byte offsets between which each token stands. -/
def extents (v : Value) : List (Nat × Nat) :=
  go 0 v.tokens
where
  go (offset : Nat) : List Token → List (Nat × Nat)
    | [] => []
    | t :: ts =>
      let start := offset + byteSize t.gap
      let stop := start + byteSize t.text
      (start, stop) :: go stop ts

/-- The places of the tokens of each comma-separated layer. -/
def layers (v : Value) : List (List Nat) :=
  (v.tokens.zipIdx.splitOnP fun (t, _) => t.kind = .comma).map (·.map Prod.snd)

/-- Rendering a value that was just read gives back its text. -/
theorem render_read (t : Text) : (read t).render = t := by
  fun_induction read t with
  | case1 => rfl
  | case2 t c cs h n value ih =>
    have hv : value.tokens.flatMap Token.render ++ value.tail = cs.drop n := ih
    rw [render, List.flatMap_cons, List.append_assoc, hv, Token.render, Token.rendered,
      Option.getD_none, List.append_assoc, List.cons_append, List.take_append_drop, ← h,
      List.takeWhile_append_dropWhile]

end Value

end BidiSheet
