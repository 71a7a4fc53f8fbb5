import BidiSheet.Path
import BidiSheet.Url

/-!
# Settings

The settings of a batch, and how they are read from the arguments of the command line.
-/

namespace BidiSheet

/-- The settings of a batch. -/
structure Settings where
  /-- The folder that is searched. -/
  root : Path
  /-- What is put between the stem and the extension of an output's name. -/
  suffix : Text
  /-- The extension of stylesheets, without its dot. -/
  extension : Text
  urls : UrlOptions
  deriving DecidableEq, Repr

namespace Settings

/-- Why arguments give no settings. -/
inductive Fault where
  | helpRequested
  | missingValue (option : Text)
  | unknownOption (arg : Text)
  | unexpectedArgument (arg : Text)
  | emptySuffix
  | missingRoot
  deriving DecidableEq, Repr

/-- The wording of a fault. -/
def Fault.message : Fault → String
  | .helpRequested => "help requested"
  | .missingValue option => "missing value for " ++ String.ofList option
  | .unknownOption arg => "unknown option: " ++ String.ofList arg
  | .unexpectedArgument arg => "unexpected argument: " ++ String.ofList arg
  | .emptySuffix => "suffix must not be empty"
  | .missingRoot => "missing stylesheet directory"

/-- Settings that may still lack a root. -/
structure Draft where
  root : Option Path := none
  suffix : Text := "-rtl".toList
  extension : Text := "css".toList
  urls : UrlOptions := {}
  deriving DecidableEq, Repr

/-- Reads arguments into a draft, from left to right. -/
def readArgs (draft : Draft) : List Text → Except Fault Draft
  | [] => .ok draft
  | arg :: args =>
    if arg = "-h".toList ∨ arg = "--help".toList then .error .helpRequested
    else if arg = "--suffix".toList then
      match args with
      | [] => .error (.missingValue arg)
      | value :: args => readArgs { draft with suffix := value } args
    else if arg = "--ext".toList then
      match args with
      | [] => .error (.missingValue arg)
      | value :: args => readArgs { draft with extension := value.dropWhile (· = '.') } args
    else if arg = "--url-left-right".toList then
      readArgs { draft with urls := { draft.urls with leftRight := true } } args
    else if arg = "--url-ltr-rtl".toList then
      readArgs { draft with urls := { draft.urls with ltrRtl := true } } args
    else if arg.head? = some '-' ∧ arg ≠ ['-'] then .error (.unknownOption arg)
    else if draft.root.isNone then readArgs { draft with root := some (.ofText arg) } args
    else .error (.unexpectedArgument arg)

/-- The settings of a draft, if it is complete. -/
def Draft.complete (draft : Draft) : Except Fault Settings :=
  if draft.suffix = [] then .error .emptySuffix
  else
    match draft.root with
    | none => .error .missingRoot
    | some root => .ok ⟨root, draft.suffix, draft.extension, draft.urls⟩

/-- The settings that some arguments give. -/
def ofArgs (args : List Text) : Except Fault Settings := readArgs {} args >>= Draft.complete

end Settings

end BidiSheet
