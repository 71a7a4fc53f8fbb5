import BidiSheet.Text

/-!
# Bytes

What a file holds is bytes, and so is its name. Bytes may be the UTF-8 form of a text, and then they are
read as that text (`text?`). Names of files need not be: they are shown all the same, with a replacement
character for every stretch of bytes that no character begins with (`shown`).
-/

namespace BidiSheet

/-- Bytes, of a file or of a name. -/
abbrev Bytes := List UInt8

/-- The bytes of the UTF-8 form of a text. -/
def bytes (t : Text) : Bytes := t.flatMap String.utf8EncodeChar

/-- The text of some bytes, if they are the UTF-8 form of one. -/
def text? (bs : Bytes) : Option Text := (String.fromUTF8? bs.toByteArray).map String.toList

/-! ### Showing bytes -/

/-- The character whose UTF-8 form some bytes begin with. -/
def firstChar? (bs : Bytes) : Option Char := (bs.take 4).toByteArray.utf8DecodeChar? 0

/-- Whether a byte continues a character. -/
def isContinuation (b : UInt8) : Bool := 0x80 ≤ b && b ≤ 0xBF

/-- Whether some character begins with these two bytes. The second byte keeps a character from having a
shorter form, from being a surrogate, and from being beyond the last one. -/
def mayBegin (first second : UInt8) : Bool :=
  isContinuation second &&
    if first = 0xE0 then 0xA0 ≤ second
    else if first = 0xED then second ≤ 0x9F
    else if first = 0xF0 then 0x90 ≤ second
    else if first = 0xF4 then second ≤ 0x8F
    else 0xC2 ≤ first && first ≤ 0xF4

/-- The number of bytes that are shown as one replacement character, if no character begins here: those
that begin a character which is then broken off, or else one. -/
def damage : Bytes → Nat
  | first :: second :: rest =>
    if !mayBegin first second then 1
    else if 0xF0 ≤ first && rest.head?.any isContinuation then 3
    else 2
  | _ => 1

/-- Some bytes as they are shown. -/
def shown : Bytes → Text
  | [] => []
  | b :: bs =>
    match firstChar? (b :: bs) with
    | some c => c :: shown (bs.drop (c.utf8Size - 1))
    | none => '�' :: shown (bs.drop (damage (b :: bs) - 1))
termination_by bs => bs.length
decreasing_by
  · exact length_drop_lt b bs _
  · exact length_drop_lt b bs _

end BidiSheet
