import BidiSheet.Command

/-!
# The command line

Runs the command on the file system of the machine. What is decided, and what is said, is decided and
said elsewhere; here files are read, written and listed. Names of files pass through strings, so that a file
whose name is no text cannot be opened here.

Reports of level `info` and above go to the standard error stream. The environment variable `RUST_LOG`
names another level, or `off`.
-/

namespace BidiSheet

namespace Main

/-- The fault behind a number of the system, which may come negated, or else its words. -/
def faultOfCode (code : UInt32) (words : String) : DiskFault :=
  match min code (0 - code) with
  | 2 => .notFound
  | 20 => .notFolder
  | 21 => .isFolder
  | 36 => .tooLong
  | 40 => .linkLoop
  | _ => .refused words

/-- The fault behind an error of the system. -/
def diskFault (error : IO.Error) : DiskFault :=
  match error with
  | .noFileOrDirectory _ code _ => faultOfCode code (toString error)
  | .inappropriateType _ code _ => faultOfCode code (toString error)
  | .invalidArgument _ code _ => faultOfCode code (toString error)
  | _ => .refused (toString error)

/-- Performs an operation on the file system. -/
def attempt {α : Type} (action : IO α) : IO (Except DiskFault α) := do
  try return .ok (← action)
  catch error => return .error (diskFault error)

/-- What a path leads to. -/
def status (path : Path) : IO Status := do
  let file := System.mkFilePath [path.toString]
  match ← attempt file.metadata with
  | .ok data => return if data.type == .dir then .folder else .file
  | .error fault =>
    match ← attempt file.symlinkMetadata with
    | .ok data => return if data.type == .symlink then .broken fault else .unreachable fault
    | .error _ => return .unreachable fault

/-- What is in the folder at a path. -/
def listing (path : Path) : IO (Except DiskFault Listing) := do
  let folder := System.mkFilePath [path.toString]
  attempt do
    let _ ← folder.metadata
    let real ← IO.FS.realPath folder
    let entries ← (← folder.readDir).toList.mapM fun entry => do
      let name := bytes entry.fileName.toList
      return (name, ← status (path.join name))
    return ⟨(bytes real.toString.toList).splitOn slash, entries⟩

/-- The access that the file system gives. -/
def access : Access IO IO.FS.Handle where
  readText path := do
    match ← attempt (IO.FS.readBinFile path.toString) with
    | .error fault => return .error fault
    | .ok content => return (text? content.toList).elim (.error .notText) .ok
  create path := attempt (IO.FS.Handle.mk path.toString .write)
  write handle t := attempt do
    handle.write (bytes t).toByteArray
    handle.flush

/-- Searches the file system. -/
def search (settings : Settings) : IO Walk := do
  let mut w := Walk.start settings
  repeat
    let some folder := w.next? | break
    w := w.resume settings folder (← listing folder)
  return w

/-- Prints the reports that are important enough. -/
def report (threshold : Nat) (notices : List Notice) : IO Unit := do
  for notice in notices do
    if threshold ≤ notice.level.rank then IO.eprintln notice.line

/-- The least rank of a report that is printed. -/
def threshold : IO Nat := do
  match ← IO.getEnv "RUST_LOG" with
  | none => return Level.rank .info
  | some "trace" => return Level.rank .trace
  | some "debug" => return Level.rank .debug
  | some "info" => return Level.rank .info
  | some "warn" => return Level.rank .warn
  | some _ => return Level.rank .warn + 1

/-- Prints what the command says, and answers its code. -/
def finish (done : Command.Exit) : IO UInt32 := do
  IO.print done.stdout
  IO.eprint done.stderr
  return done.code.toUInt32

end Main

end BidiSheet

open BidiSheet in
/-- The command. -/
def main (args : List String) : IO UInt32 := do
  match Settings.ofArgs (args.map String.toList) with
  | .error fault => Main.finish (.ofSettingsFault fault)
  | .ok settings =>
    let found := (← Main.search settings).outcome
    let done ← convertFound Main.access .inTurn settings found
    let (notices, exit) := Command.Exit.ofBatch settings.root done.result
    Main.report (← Main.threshold) (done.notices ++ notices)
    Main.finish exit
