import BidiSheet.Path
import BidiSheet.Text.Case

/-!
# Names of outputs

The reflection of a stylesheet is written beside it, under a name that has a suffix before the
extension. The suffix is also how an output is known again, so that it is not taken for a stylesheet
that wants reflecting.

A suffix and an extension are texts. A stem that is no text ends in no suffix, and has no output; an
extension that is no text is none that is asked for, and is left out of the name of an output.
-/

namespace BidiSheet

namespace Path

/-- The name of the output for a file of some name, if the stem of the name is a text. -/
def outputName? (suffix : Text) (name : Bytes) : Option Bytes :=
  (text? (splitName name).1).map fun stem =>
    match (splitName name).2.bind text? with
    | none => bytes (stem ++ suffix)
    | some extension => bytes (stem ++ suffix ++ '.' :: extension)

/-- The path of the output for the file at a path, if the path ends in a name whose stem is a text. -/
def output? (suffix : Text) (p : Path) : Option Path :=
  p.split?.bind fun (folder, name) => (outputName? suffix name).map folder.join

/-- Whether a path has the name of an output. -/
def isOutput (suffix : Text) (p : Path) : Bool := (p.stem?.bind text?).any suffix.isSuffixOf

/-- Whether a path has an extension, in any case of letters. -/
def hasExtension (extension : Text) (p : Path) : Bool := (p.extension?.bind text?).any (sameWord extension)

end Path

end BidiSheet
