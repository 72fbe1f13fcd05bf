import SystemFOmega.Command.Arguments

/-!
# The command

Checks and reduces the program of a file or of an option, or starts the interactive checker. The
outcome is what is written to the two output streams and how the command ends: with an exit
code, or by a refusal. Line ends in the output are line feeds. What the work on a program writes has
no terminal codes unless colours are on, not even those of the program's text.
-/

namespace SystemFOmega.Command

/-- How a run of the command ends: with a code, with the arguments not understood, or with a
refusal. -/
inductive Ending where
  | exit (code : Nat)
  | usage
  | refusal (r : Refusal)
deriving DecidableEq

/-- What can be seen of a run of the command. -/
structure Outcome where
  ending : Ending
  stdout : String := ""
  stderr : String := ""
deriving DecidableEq

/-- Changes both texts of an outcome. -/
def Outcome.mapText (f : String → String) (o : Outcome) : Outcome :=
  { o with stdout := f o.stdout, stderr := f o.stderr }

/-- A text without the carriage returns right before line feeds. -/
def withoutReturns (s : String) : String := "\n".intercalate (s.splitOn "\r\n")

/-- What `--version` writes. -/
def versionText : String := "fomega version 0.1.0\nA type checker for System F-omega\n"

/-- What `--help` writes. -/
def helpText : String :=
"Usage: fomega [OPTIONS] [FILENAME]

Options:
  -e, --expr TEXT      Check and reduce an expression instead of a file
  --ast                Print the abstract syntax tree
  --type-check-only    Only type check, do not reduce
  -v, --verbose        Show the type derivation and reduction steps
  --strategy NAME      Reduction strategy (normal, applicative, cbn, cbv)
  --steps N            Maximum reduction steps
  --fuel N             Budget for type-level normalization (0 for unbounded)
  --no-cache           Re-elaborate aliases at every use
  --no-color           Disable colored output
  --version            Show version information
  --help               Show this message
"

/-- Checks the text of a program, and reduces it if that is asked for. -/
def process (p : Palette) (r : Request) (source origin : String) : Job Unit := do
  let s := r.settings
  if s.verbose then Job.writeLine ("Parsing " ++ origin ++ "...")
  let e ← Job.parse source origin
  if r.ast then Job.writeLine ("Abstract Syntax Tree:\n" ++ e.display)
  else
    if s.verbose then Job.writeLine "Type checking..."
    let t ← Job.check p s source origin e
    if r.typeCheckOnly then
      Job.writeLine
        (p.paint .success ("Type checked successfully: " ++ p.paint .typeName t.print))
    else
      if s.verbose then
        Job.writeLine ("Reducing (" ++ s.strategy.word ++ ", at most " ++ toString s.steps ++
          " steps)...")
      Job.showResult p (← Job.reduce p s e) t

/-- The outcome of the work on one program. -/
def runProgram (p : Palette) (r : Request) (source origin : String) : Outcome :=
  match (process p r source origin).run {} with
  | .ok () t => ⟨.exit 0, t.out, ""⟩
  | .error (.diagnostic d) t =>
    ⟨.exit 1, t.out, (d.withSource (some source) (some origin)).report p t.trace ++ "\n"⟩
  | .error (.refusal f) t => ⟨.refusal f, t.out, ""⟩

/-- The outcome of an interactive run on an input. -/
def runInteractive (p : Palette) (r : Request) (files : Files) (input : String) : Outcome :=
  match (Interactive.run p files input).run { settings := r.settings } with
  | .ok () s => ⟨.exit 0, s.transcript.out, ""⟩
  | .error .quit s => ⟨.exit 0, s.transcript.out, ""⟩
  | .error (.refusal f) s => ⟨.refusal f, s.transcript.out, ""⟩

/-- Whether a request starts the interactive checker. -/
def Request.isInteractive (r : Request) : Bool := !r.version && r.file.isNone && r.expr.isNone

/-- The outcome of a request. A file is preferred to an expression. -/
def Request.run (color : Bool) (files : Files) (input : String) (r : Request) : Outcome :=
  if r.version then ⟨.exit 0, versionText, ""⟩
  else
    let p : Palette := ⟨color && !r.noColor⟩
    let program (source origin : String) : Outcome :=
      (runProgram p r source origin).mapText fun s => if color then s else withoutCodes s
    let outcome :=
      match r.file, r.expr with
      | some path, _ =>
        match files path with
        | .ok source => program source path
        | .error _ => ⟨.refusal (.directory path), "", ""⟩
      | none, some source => program source "<expr>"
      | none, none => runInteractive p r files input
    outcome.mapText withoutReturns

/-- What the arguments ask for. -/
inductive Plan where
  | help
  | work (r : Request)
  | objection (o : Objection)
deriving DecidableEq

/-- What the arguments ask for. Help comes before everything else that the arguments may ask for,
but not before arguments that are not understood. -/
def plan (files : Files) (args : List String) : Plan :=
  match readAll {} args with
  | none => .objection .usage
  | some g =>
    if g.flags.contains .help then .help
    else
      match g.request files with
      | .error o => .objection o
      | .ok r => .work r

/-- The outcome of the command with the given arguments. -/
def run (color : Bool) (files : Files) (input : String) (args : List String) : Outcome :=
  match plan files args with
  | .objection .usage => ⟨.usage, "", ""⟩
  | .objection (.refusal f) => ⟨.refusal f, "", ""⟩
  | .help => ⟨.exit 0, helpText, ""⟩
  | .work r => r.run color files input

end SystemFOmega.Command
