import SystemFOmega.Evaluation
import SystemFOmega.Text.Basic

/-!
# The interactive checker

Each line is an expression, which is checked and reduced, or a command that starts with a colon.
`Interactive.feed` takes one line; what it prints is added to the output. A diagnostic is
printed with the derivation trace of the last check, and the work goes on. `Interactive.run`
takes all lines of an input, with a prompt before each.
-/

namespace SystemFOmega

/-- What a session remembers: the settings, the lines that were entered, and what was written so
far. -/
structure Interactive where
  settings : Settings := {}
  history : List String := []
  transcript : Transcript := {}
deriving DecidableEq

namespace Interactive

/-- Why no further line is taken. -/
inductive Stop where
  | quit
  | refusal (r : Refusal)
deriving DecidableEq

/-- Work on a line. -/
abbrev Act := EStateM Stop Interactive

/-- Writes a text. -/
def write (text : String) : Act Unit :=
  modify fun s => { s with transcript := s.transcript.write text }

/-- Writes a text and ends the line. -/
def writeLine (text : String) : Act Unit := write (text ++ "\n")

/-- Does a job under the current settings and prints the report of its diagnostic, if there is
one. -/
def guarded (p : Palette) (job : Settings → Job Unit) : Act Unit := fun s =>
  match (job s.settings).run s.transcript with
  | .ok () t => .ok () { s with transcript := t }
  | .error (.diagnostic d) t => writeLine (d.report p t.trace) { s with transcript := t }
  | .error (.refusal r) t => .error (.refusal r) { s with transcript := t }

/-- The name of what is typed in. -/
def origin : String := "<repl>"

/-! ## Jobs -/

/-- Parses and checks a text; the trace is that of this check. -/
def check (p : Palette) (source file : String) (s : Settings) : Job (Expr × Ty) := do
  Job.clearTrace
  let e ← Job.parse source file
  return (e, ← Job.check p s source file e)

/-- Checks and reduces a text and prints the result with its type. -/
def evaluate (p : Palette) (source file : String) (s : Settings) : Job Unit := do
  let (e, t) ← check p source file s
  let r ← Job.reduce p s e
  Job.showResult p r t

/-- Answers `:type`: the expression as it was read, with its type. -/
def showType (p : Palette) (source : String) (s : Settings) : Job Unit := do
  let (e, t) ← check p source origin s
  Job.writeLine (e.print ++ " : " ++ p.paint .typeName t.print)

/-- Answers `:reduce`: the expression is reduced without being checked. -/
def showReduction (p : Palette) (source : String) (s : Settings) : Job Unit := do
  let r ← Job.reduce p s (← Job.parse source origin)
  Job.writeLine (p.paint .literal r.print)

/-- Answers `:ast`: the expression is only read. -/
def showTree (source : String) : Job Unit := do
  Job.writeLine (← Job.parse source origin).display

/-! ## Commands -/

/-- What `:help` writes. -/
def help : String :=
"
fomega REPL Commands:

  :help, :h             Show this help message
  :quit, :q             Exit the REPL
  :type, :t <expr>      Show the type of an expression
  :reduce, :r <expr>    Reduce an expression without type checking
  :ast <expr>           Show the syntax tree of an expression
  :strategy [name]      Show or set the strategy (normal, applicative, cbn, cbv)
  :verbose              Toggle the derivation trace and reduction steps
  :load <file>          Check and reduce the expression in a file

Expressions:

  42                        Integer literal
  λx: Int. x                Value abstraction (also \\x: Int. x)
  λA: *. λx: A. x           Type abstraction
  f x                       Application
  f [Int]                   Type application
  (e : T)                   Annotation
  let x: T = e in b         Let binding
  type T: * = Int in b      Type alias
  kind K = * -> * in b      Kind alias

Types and kinds:

  Int, A -> B               Base and function types
  ∀A: *. A -> A             Universal type (also forall)
  λF: * -> *. F Int         Type operator
  *, * -> *                 Kinds

Example:

  let id: ∀A: *. A -> A = λA: *. λx: A. x in id [Int] 5
"

/-- Sets the strategy, or shows it if no word is given. -/
def setStrategy (p : Palette) (word : String) : Act Unit := do
  if word.isEmpty then writeLine ("Strategy: " ++ (← get).settings.strategy.word)
  else
    match Strategy.ofWord? word with
    | some s =>
      modify fun st => { st with settings := { st.settings with strategy := s } }
      writeLine ("Strategy set to " ++ s.word)
    | none =>
      let choices := ", ".intercalate (Strategy.all.map (·.word))
      writeLine (p.paint .error
        ("Unknown strategy '" ++ word ++ "' (choose from " ++ choices ++ ")"))

/-- Answers `:verbose`: the trace is written from now on, or no longer. -/
def toggleVerbose : Act Unit := do
  modify fun s => { s with settings := { s.settings with verbose := !s.settings.verbose } }
  writeLine ("Verbose mode " ++ if (← get).settings.verbose then "on" else "off")

/-- Answers `:load`: a file is evaluated as if it had been entered. One that cannot be read is
reported, and the session goes on. -/
def load (p : Palette) (files : Files) (path : String) : Act Unit :=
  if Files.isPath path then
    match files path with
    | .ok text => guarded p (evaluate p text path)
    | .error f => writeLine (p.paint .error ("Cannot read " ++ path ++ ": " ++ f.message path))
  else throw (.refusal .notAPath)

/-- Does `act` on an argument that must be given. -/
def withArgument (usage argument : String) (act : String → Act Unit) : Act Unit :=
  if argument.isEmpty then writeLine ("Usage: " ++ usage) else act argument

/-- The word before the first space, and the rest without the blanks around it. -/
def splitCommand (line : String) : String × String :=
  (String.ofList (line.toList.takeWhile (· ≠ ' ')),
    Text.strip (String.ofList ((line.toList.dropWhile (· ≠ ' ')).drop 1)))

/-- The path of the file that a line asks for. -/
def loadPath? (line : String) : Option String :=
  let (word, argument) := splitCommand line
  if word = ":load" && !argument.isEmpty then some argument else none

/-- A line that begins with a colon. The first word says what is asked for. -/
def command (p : Palette) (files : Files) (line : String) : Act Unit := do
  let (word, argument) := splitCommand line
  match word with
  | ":quit" | ":q" =>
    writeLine "Goodbye!"
    throw .quit
  | ":help" | ":h" => writeLine help
  | ":type" | ":t" => withArgument ":type <expr>" argument fun s => guarded p (showType p s)
  | ":reduce" | ":r" =>
    withArgument ":reduce <expr>" argument fun s => guarded p (showReduction p s)
  | ":ast" => withArgument ":ast <expr>" argument fun s => guarded p fun _ => showTree s
  | ":strategy" => setStrategy p argument
  | ":verbose" => toggleVerbose
  | ":load" => withArgument ":load <filename>" argument (load p files)
  | _ =>
    writeLine ("Unknown command: " ++ word)
    writeLine "Type :help for help"

/-! ## Lines -/

/-- Whether a line is a command. -/
def isCommand (line : String) : Bool := line.toList.head? = some ':'

/-- Takes one line. A line of blanks does nothing and is not remembered. -/
def feed (p : Palette) (files : Files) (line : String) : Act Unit := do
  if isCommand line then command p files line
  else if (Text.strip line).isEmpty then return
  else
    modify fun s => { s with history := s.history ++ [line] }
    guarded p (evaluate p line origin)

/-- What is printed at the start. -/
def banner (p : Palette) : String :=
  p.paint .bold "fomega REPL v0.1.0" ++ "\nType " ++ p.paint .keyword ":help" ++ " for help, " ++
    p.paint .keyword ":quit" ++ " to exit\n\n"

/-- What is written before a line is entered. -/
def prompt (p : Palette) : String := p.paint .prompt "fomega>" ++ " "

/-- Takes lines, each after a prompt, until they end. -/
def feedAll (p : Palette) (files : Files) : List String → Act Unit
  | [] => do
    write (prompt p)
    writeLine "\nGoodbye!"
  | line :: lines => do
    write (prompt p)
    feed p files line
    feedAll p files lines

/-- A whole run on an input. -/
def run (p : Palette) (files : Files) (input : String) : Act Unit := do
  write (banner p)
  feedAll p files (textLines input)

/-! ## Completion -/

/-- Words of the language that can be completed. -/
def keywords : List String := ["let", "in", "type", "kind", "lambda", "forall", "Int"]

/-- Commands that can be completed. -/
def commands : List String :=
  [":help", ":quit", ":type", ":reduce", ":ast", ":strategy", ":load", ":verbose"]

/-- The words that a text can be completed to. -/
def completions (text : String) : List String :=
  (if isCommand text then commands else keywords).filter fun w => text.toList.isPrefixOf w.toList

end Interactive

end SystemFOmega
