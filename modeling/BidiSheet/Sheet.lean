import BidiSheet.Event
import BidiSheet.Url

/-!
# Reflecting a stylesheet

A stylesheet is reflected in three steps: the source is masked, the declarations of the masked text are
reflected, and the result is unmasked. On request the words in urls are exchanged before unmasking.
-/

namespace BidiSheet

/-- How stylesheets are reflected: the rules, and what happens inside urls. -/
structure Style where
  table : Table := Table.standard
  urls : UrlOptions := {}
  deriving DecidableEq, Repr

/-- A reflected stylesheet: its text, the numbers of declarations, of changed declarations and of kept
spans. -/
structure Sheet where
  text : Text
  declarations : Nat
  substitutions : Nat
  kept : Nat
  deriving DecidableEq, Repr

namespace Style

/-- The reflection of a stylesheet. -/
def reflect (style : Style) (source : Text) : Except Masked.Fault Sheet :=
  let masked := Masked.ofSource source
  let reflection := reflectText style.table masked.text
  ({ masked with text := reflection.text }.swapUrls style.urls).unmask.map fun text =>
    { text
      declarations := reflection.declarations
      substitutions := reflection.substitutions
      kept := masked.spans.length }

/-- What is reported while a stylesheet is reflected. The last report is made only if reflecting
succeeds. -/
def events (style : Style) (source : Text) : List Event :=
  let masked := Masked.ofSource source
  let reflection := reflectText style.table masked.text
  [.masked masked.spans.length]
    ++ reflection.changes.map .changed
    ++ (if style.urls.isEmpty then [] else [.urlsSwapped (masked.swappedUrls style.urls)])
    ++ (match style.reflect source with
        | .ok sheet => [.reflected sheet.substitutions sheet.declarations sheet.kept]
        | .error _ => [])

end Style

end BidiSheet
