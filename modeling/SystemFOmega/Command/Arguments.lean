import SystemFOmega.Interactive

/-!
# Command-line arguments

Options and at most one file name, in any order. Long options take their value after an equals sign
or as the next argument; short ones may be run together, and the one that takes a value takes the
rest of the argument. After `--` no argument is an option. Of an option that is given twice the last
one counts.
-/

namespace SystemFOmega.Command

/-- The options without a value. -/
inductive Flag where
  | ast | typeCheckOnly | verbose | noCache | noColor | version | help
deriving DecidableEq

/-- The options with a value. -/
inductive Key where
  | expr | strategy | steps | fuel
deriving DecidableEq

/-- An option is a flag or takes a value. -/
inductive OptionName where
  | flag (f : Flag)
  | key (k : Key)
deriving DecidableEq

/-- The options that are written out. They may not be shortened. -/
def longOption? : String → Option OptionName
  | "--expr" => some (.key .expr)
  | "--ast" => some (.flag .ast)
  | "--type-check-only" => some (.flag .typeCheckOnly)
  | "--verbose" => some (.flag .verbose)
  | "--strategy" => some (.key .strategy)
  | "--steps" => some (.key .steps)
  | "--fuel" => some (.key .fuel)
  | "--no-cache" => some (.flag .noCache)
  | "--no-color" => some (.flag .noColor)
  | "--version" => some (.flag .version)
  | "--help" => some (.flag .help)
  | _ => none

/-- The options that are one character long, which may share a hyphen. -/
def shortOption? : Char → Option OptionName
  | 'e' => some (.key .expr)
  | 'v' => some (.flag .verbose)
  | _ => none

/-- The arguments as they were given. -/
structure Given where
  flags : List Flag := []
  values : Table Key String := {}
  rest : List String := []
deriving DecidableEq

/-- What an argument says: all of it is known, or the next argument is the value of an option. -/
inductive Reading where
  | done (g : Given)
  | needs (k : Key) (g : Given)
deriving DecidableEq

/-- An argument that begins with two hyphens. A value stands behind an equals sign or is the next
argument, and a flag takes none. -/
def readLong (g : Given) (arg : List Char) : Option Reading := do
  let word := String.ofList (arg.takeWhile (· ≠ '='))
  let value := (arg.dropWhile (· ≠ '=')).tail?.map String.ofList
  match ← longOption? word, value with
  | .flag f, none => some (.done { g with flags := f :: g.flags })
  | .flag _, some _ => none
  | .key k, some v => some (.done { g with values := g.values.insert k v })
  | .key k, none => some (.needs k g)

/-- The characters behind one hyphen. What follows an option with a value is the value, so that no
other option comes after it. -/
def readShort (g : Given) : List Char → Option Reading
  | [] => some (.done g)
  | c :: cs =>
    match shortOption? c with
    | none => none
    | some (.flag f) => readShort { g with flags := f :: g.flags } cs
    | some (.key k) =>
      if cs.isEmpty then some (.needs k g)
      else some (.done { g with values := g.values.insert k (String.ofList cs) })

/-- One argument. Everything that does not begin with a hyphen, and a hyphen alone, is left for
later. -/
def readArgument (g : Given) (arg : String) : Option Reading :=
  match arg.toList with
  | '-' :: '-' :: cs => readLong g ('-' :: '-' :: cs)
  | '-' :: c :: cs => readShort g (c :: cs)
  | _ => some (.done { g with rest := g.rest ++ [arg] })

/-- Reads all arguments, or gives nothing if one of them is wrong. -/
def readAll (g : Given) : List String → Option Given
  | [] => some g
  | "--" :: args => some { g with rest := g.rest ++ args }
  | arg :: args =>
    match readArgument g arg with
    | none => none
    | some (.done g) => readAll g args
    | some (.needs k g) =>
      match args with
      | [] => none
      | v :: args => readAll { g with values := g.values.insert k v } args

/-- What is asked for. -/
structure Request where
  file : Option String := none
  expr : Option String := none
  ast : Bool := false
  typeCheckOnly : Bool := false
  noColor : Bool := false
  version : Bool := false
  settings : Settings := {}
deriving DecidableEq

/-- A number that is not negative. -/
def readCount? (text : String) : Option Int := do
  let n ← Numeral.readInt? text
  if 0 ≤ n then some n else none

/-- Reads a value that may be missing. -/
def readOr {α : Type} (default : α) (read : String → Option α) : Option String → Option α
  | none => some default
  | some v => read v

/-- Why arguments make no request. -/
inductive Objection where
  | usage
  | refusal (r : Refusal)
deriving DecidableEq

/-- The file that the arguments `args` name, if they name one. It is looked for before further
arguments are objected to. -/
def fileOf (files : Files) : List String → Except Objection (Option String)
  | [] => .ok none
  | path :: more =>
    if !Files.isPath path then .error (.refusal .notAPath)
    else if files.has path && more.isEmpty then .ok (some path)
    else .error .usage

/-- The settings that the options make, if they are right. The fuel zero stands for no bound. -/
def Given.settings? (g : Given) : Option Settings := do
  let strategy ← readOr .normal Strategy.ofWord? (g.values.get? .strategy)
  let steps ← readOr 100 readCount? (g.values.get? .steps)
  let fuel ← readOr 10000 readCount? (g.values.get? .fuel)
  return {
    strategy
    steps
    fuel := if fuel = 0 then none else some fuel
    cache := !g.flags.contains .noCache
    verbose := g.flags.contains .verbose }

/-- The request that arguments make. Options are looked at before the file. -/
def Given.request (files : Files) (g : Given) : Except Objection Request := do
  let settings ← match g.settings? with
    | some s => .ok s
    | none => .error .usage
  return {
    file := ← fileOf files g.rest
    expr := g.values.get? .expr
    ast := g.flags.contains .ast
    typeCheckOnly := g.flags.contains .typeCheckOnly
    noColor := g.flags.contains .noColor
    version := g.flags.contains .version
    settings }

end SystemFOmega.Command
