import BidiSheet.Proofs.Alike.Segment
import BidiSheet.Proofs.Named
import BidiSheet.Sheet

/-!
# Reflecting never fails

Unmasking fails at a control character that opens no marker, and at a marker without a span. In a masked
source neither occurs: its markers all have spans (`Masked.intact_ofSource`). Reflecting keeps this up,
since it does the same to alike texts, whatever the rules are (`Masked.Intact.reflectText`); and exchanging
words in urls leaves as many spans as there were. So every stylesheet has a
reflection (`Style.reflect_succeeds`), the text of the pieces that its reflected text names
(`Style.reflect_eq`).
-/

namespace BidiSheet

namespace Masked

/-- Reflecting keeps a text intact. -/
theorem Intact.reflectText {spans : List Span} {t : Text} (h : Intact spans t) (table : Table) :
    Intact spans (reflectText table t).text :=
  (alike_reflectText h table).1

/-- Changing urls keeps the number of spans. -/
theorem length_swapUrls (options : UrlOptions) (sheet : Masked) :
    (sheet.swapUrls options).spans.length = sheet.spans.length :=
  List.length_map ..

end Masked

/-! ### Urls that are left alone -/

/-- Without options no word of a url is exchanged. -/
theorem Url.swapWords_default (url : Text) : swapWords {} url = url := by
  have hrun : Run.swap {} = Run.text := by
    funext r
    cases r <;> simp [Run.swap, Run.swap?, UrlOptions.partner, Run.text]
  rw [swapWords, hrun, text_runs]

/-- Without options urls stay as they are. -/
theorem Masked.swapUrls_default (sheet : Masked) : sheet.swapUrls {} = sheet := by
  have hspan : ∀ span : Span, span.swapWords {} = span := by
    intro span
    unfold Span.swapWords
    split
    · rw [Url.swapWords_default]
    · rfl
  rw [swapUrls, List.map_congr_left fun span _ => hspan span, List.map_id']

namespace Style

/-- The reflection of a stylesheet has the text of the pieces that its reflected text names. -/
theorem reflect_eq (style : Style) {source : Text}
    (h : (pieces source).countP Piece.isKept ≤ Marker.bound) :
    style.reflect source = .ok
      { text := Piece.source (Masked.named ((Masked.ofSource source).swapUrls style.urls).spans
          (reflectText style.table (Masked.ofSource source).text).text)
        declarations := (reflectText style.table (Masked.ofSource source).text).declarations
        substitutions := (reflectText style.table (Masked.ofSource source).text).substitutions
        kept := (Masked.ofSource source).spans.length } := by
  have hintact := (Masked.intact_ofSource h).reflectText style.table
  rw [Masked.Intact, ← Masked.length_swapUrls style.urls] at hintact
  have hunmask := Masked.Intact.unmaskFrom_eq hintact 0
  exact congrArg (Except.map fun text =>
    { text
      declarations := (reflectText style.table (Masked.ofSource source).text).declarations
      substitutions := (reflectText style.table (Masked.ofSource source).text).substitutions
      kept := (Masked.ofSource source).spans.length : Sheet }) hunmask

/-- **Every stylesheet has a reflection**, whatever the rules are and whatever is exchanged inside urls,
as long as a marker can number its bytes. -/
theorem reflect_succeeds (style : Style) {source : Text} (h : byteSize source < Marker.bound) :
    ∃ sheet, style.reflect source = .ok sheet :=
  ⟨_, reflect_eq style (Nat.le_of_lt (Masked.countP_isKept_pieces_lt h))⟩

/-- A stylesheet that imitates a marker, with unbalanced brackets, a stray backslash and a string that is
never closed. -/
theorem reflect_succeeds_imitation :
    byteSize "a\x7bmargin:\x029\x03 (\\\x02 /*)*/ left:1;float:'left".toList < Marker.bound ∧
      ∃ sheet, Style.reflect { urls := ⟨true, true⟩ }
        "a\x7bmargin:\x029\x03 (\\\x02 /*)*/ left:1;float:'left".toList = .ok sheet :=
  ⟨by decide, reflect_succeeds _ (by decide)⟩

end Style

end BidiSheet
