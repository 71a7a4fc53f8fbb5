import BidiSheet.Batch

/-!
# The command

What the command line tool says and how it ends. `Command.run` is the whole tool on a disk.
-/

namespace BidiSheet

namespace Command

/-- How the tool is used. -/
def usage : String := "\n".intercalate
  ["Usage: cssflip [OPTIONS] <DIR>",
   "",
   "Writes a right-to-left copy of every stylesheet under DIR next to the",
   "original, e.g. `site.css` -> `site-rtl.css`.",
   "",
   "Options:",
   "    --suffix <SUFFIX>   Suffix inserted before the extension [default: -rtl]",
   "    --ext <EXT>         Extension of the stylesheets to convert [default: css]",
   "    --url-left-right    Swap `left`/`right` inside url(...)",
   "    --url-ltr-rtl       Swap `ltr`/`rtl` inside url(...)",
   "    -h, --help          Print this help",
   "",
   "Set RUST_LOG=debug for per-file diagnostics."]

/-- What the tool prints, and the code with which it ends. -/
structure Exit where
  code : Nat
  stdout : String := ""
  stderr : String := ""
  deriving DecidableEq, Repr

/-- A text of several lines with `indent` before every line but the first. -/
def indented (indent : String) (s : String) : String :=
  String.ofList (s.toList.flatMap fun c => if c = '\n' then '\n' :: indent.toList else [c])

/-- The causes of a failure. Several causes are numbered. -/
def causes : List String → String
  | [cause] => "    " ++ indented "    " cause ++ "\n"
  | causes =>
    String.join (causes.zipIdx.map fun (cause, i) => s!"    {i}: " ++ indented "       " cause ++ "\n")

/-- How the tool ends if the arguments give no settings. -/
def Exit.ofSettingsFault : Settings.Fault → Exit
  | .helpRequested => { code := 0, stdout := usage ++ "\n" }
  | fault => { code := 2, stderr := "error: " ++ fault.message ++ "\n\n" ++ usage ++ "\n" }

/-- How the tool ends if the batch stops. -/
def Exit.ofBatchFault (root : Path) (fault : BatchFault) : Exit :=
  { code := 1
    stderr := "Error: converting stylesheets under " ++ root.toString ++ "\n\nCaused by:\n" ++
      causes (fault.message :: fault.cause?.toList) }

/-- What is reported after a batch, and how the tool ends. -/
def Exit.ofBatch (root : Path) : Except BatchFault Summary → List Notice × Exit
  | .error fault => ([], .ofBatchFault root fault)
  | .ok summary => ([.finished summary.files summary.substitutions], { code := 0 })

/-- The tool on a disk: what was reported, how it ends, and the disk afterwards. -/
def run (schedule : Schedule) (args : List Text) (disk : Disk) : (List Notice × Exit) × Disk :=
  match Settings.ofArgs args with
  | .error fault => (([], .ofSettingsFault fault), disk)
  | .ok settings =>
    let (done, disk) := convertTree schedule settings disk
    let (notices, exit) := Exit.ofBatch settings.root done.result
    ((done.notices ++ notices, exit), disk)

end Command

end BidiSheet
