import BidiSheet.Proofs.Letter
import BidiSheet.Proofs.Rescan
import BidiSheet.Proofs.Sheet

/-!
# Reflecting neither makes nor breaks a construct

Comments, strings, urls and all else that is kept in a source are its constructs. When the reflection of a
stylesheet is masked in its turn, its constructs are those that the markers of the reflected text stand for,
in the same order (`Style.constructs_reflect`). It is the rescanning of a reflected source
(`reads_reflectText`) that says so, hence the declarations that put words in another order have to be
settled.

Without that, constructs are made. Of two vertical radii the second comes to stand directly behind the slash,
and if it begins with a star the rest of the stylesheet is a comment (`Style.reflect_opens_comment`).
-/

namespace BidiSheet

open Masked (named)

namespace Style

/-- **The constructs of a reflection are those that the markers of the reflected text name**, in their
order. The declarations that put words in another order have to be settled. -/
theorem constructs_reflect {source : Text} (hbytes : byteSize source < Marker.bound)
    (hsettled : ∀ d ∈ declarations (Masked.ofSource source).text, d.isMoved .standard = true →
      d.Settled (Masked.ofSource source).spans) :
    ∃ sheet, reflect {} source = .ok sheet ∧
      (Masked.ofSource sheet.text).spans.map (fun span => some span.construct) =
        (Marker.numbers (reflectText .standard (Masked.ofSource source).text).text).map
          fun i => (Masked.ofSource source).spans[i]?.map Span.construct := by
  have hkept := Nat.le_of_lt (Masked.countP_isKept_pieces_lt hbytes)
  have hintact := Masked.intact_ofSource hkept
  have hreads : Piece.Reads false
      (named (Masked.ofSource source).spans (Masked.ofSource source).text) := by
    rw [Masked.named_ofSource hkept]
    exact Piece.reads_cut false source
  have hspans : ∀ t, (Masked.ofSource t).spans.map (fun span => some span.construct)
      = ((pieces t).filterMap Piece.construct?).map some := by
    intro t
    rw [← Masked.constructs_spansFrom 0, List.map_map]
    rfl
  refine ⟨_, reflect_eq {} hkept, ?_⟩
  simp only [Masked.swapUrls_default]
  rw [hspans, pieces, Piece.cut_of_reads (reads_reflectText hintact hsettled hreads),
    (hintact.reflectText .standard).constructs_named]

/-- A comment inside the second of three radii is found twice. A bracket that is never closed, a backslash and
a star do no harm outside of sides and radii. -/
theorem constructs_reflect_radii :
    let source := "a\\\x7bborder-radius:1px (/*left*/) 3px;*left:(url(x) '\\'';float:left/*".toList
    byteSize source < Marker.bound ∧
    (∀ d ∈ declarations (Masked.ofSource source).text, d.isMoved .standard = true →
      d.Settled (Masked.ofSource source).spans) ∧
    ∃ sheet, reflect {} source = .ok sheet ∧
      (Masked.ofSource sheet.text).spans.map (fun span => some span.construct) =
        (Marker.numbers (reflectText .standard (Masked.ofSource source).text).text).map
          fun i => (Masked.ofSource source).spans[i]?.map Span.construct := by
  refine ⟨?bytes, ?settled, constructs_reflect ?bytes ?settled⟩
  case bytes => decide +kernel
  case settled => decide +kernel

/-- **A word that is moved may open a comment.** The second of two vertical radii begins with a star, and
comes to stand behind the slash. The stylesheet has no construct, but its reflection has one: all that follows
the slash is a comment. -/
theorem reflect_opens_comment :
    let source := "a\x7bborder-radius:1px/2px *3px;left:0\x7d".toList
    ∃ sheet, reflect {} source = .ok sheet ∧
      sheet.text = "a\x7bborder-radius:1px/*3px 2px;right:0\x7d".toList ∧
      (Masked.ofSource sheet.text).spans.map (fun span => some span.construct)
        = [some (.comment, "/*3px 2px;right:0\x7d".toList)] ∧
      ((Marker.numbers (reflectText .standard (Masked.ofSource source).text).text).map
        fun i => (Masked.ofSource source).spans[i]?.map Span.construct) = [] := by
  refine ⟨⟨"a\x7bborder-radius:1px/*3px 2px;right:0\x7d".toList, 2, 2, 0⟩, ?_⟩
  decide +kernel

end Style

end BidiSheet
