import SystemFOmega.Command.Run

/-!
# The command line

The command on the terminal: reads the files that are asked for and the lines that are typed in,
and prints what the library answers.
-/

namespace SystemFOmega.Main

/-- What is found at a path now. A directory on the way that is none is reported with the path, a
directory at its end when it is read. -/
def readPath (path : String) : IO (Except FileFault String) := do
  try return .ok (withPlainLines (← IO.FS.readFile path))
  catch
    | .inappropriateType (some _) .. => return .error .notDirectory
    | .inappropriateType none .. => return .error .directory
    | .invalidArgument .. => return .error .longName
    | _ => return .error .missing

/-- The one file that has been looked at. -/
def filesWith (path : String) (found : Except FileFault String) : Files := fun p =>
  if p = path then found else .error .missing

/-- The files that the command may read, of which there is one at most. -/
def filesFor (path? : Option String) : IO Files := do
  match path?.filter Files.isPath with
  | none => return fun _ => .error .missing
  | some path => return filesWith path (← readPath path)

/-- Colours are used on a terminal that can show them, unless they are unwanted. -/
def wantsColor : IO Bool := do
  let terminal ← (← IO.getStdout).isTty
  return terminal && (← IO.getEnv "TERM") != some "dumb" && (← IO.getEnv "NO_COLOR").isNone

/-- Takes lines from the terminal until they end or the work stops. -/
partial def converse (p : Palette) (s : Interactive) : IO UInt32 := do
  let out ← IO.getStdout
  out.putStr (Interactive.prompt p)
  out.flush
  let line ← (← IO.getStdin).getLine
  if line.isEmpty then
    out.putStrLn "\nGoodbye!"
    return 0
  let line := "".intercalate (textLines line)
  let files ← filesFor (Interactive.loadPath? line)
  let fresh : Interactive := { s with transcript := { s.transcript with out := "" } }
  match (Interactive.feed p files line).run fresh with
  | .ok () s =>
    out.putStr s.transcript.out
    converse p s
  | .error .quit s =>
    out.putStr s.transcript.out
    return 0
  | .error (.refusal r) s =>
    out.putStr s.transcript.out
    (← IO.getStderr).putStrLn r.message
    return 1

/-- Prints an outcome and gives its exit code. -/
def finish (o : Command.Outcome) : IO UInt32 := do
  (← IO.getStdout).putStr o.stdout
  let err ← IO.getStderr
  err.putStr o.stderr
  match o.ending with
  | .exit code => return code.toUInt32
  | .usage =>
    err.putStr Command.helpText
    return 2
  | .refusal r =>
    err.putStrLn r.message
    return 1

end SystemFOmega.Main

open SystemFOmega

/-- The command itself, which talks to the user if no program is given. -/
def main (args : List String) : IO UInt32 := do
  let color ← Main.wantsColor
  let path? := (Command.readAll {} args).bind fun g => g.rest.head?
  let files ← Main.filesFor path?
  match Command.plan files args with
  | .work r =>
    if r.isInteractive then
      let p : Palette := ⟨color && !r.noColor⟩
      (← IO.getStdout).putStr (Interactive.banner p)
      Main.converse p { settings := r.settings }
    else Main.finish (r.run color files "")
  | _ => Main.finish (Command.run color files "" args)
