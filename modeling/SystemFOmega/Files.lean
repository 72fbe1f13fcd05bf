import SystemFOmega.Text.Quoted

/-!
# Files

The programs of this library see files as a function from paths to texts. Line ends of any system
are read as line feeds.
-/

namespace SystemFOmega

/-- Why there is no text at a path. -/
inductive FileFault where
  | missing | notDirectory | directory | longName
deriving DecidableEq

/-- The reason that a file cannot be read, with its path. -/
def FileFault.message (path : String) (f : FileFault) : String :=
  (match f with
    | .missing => "[Errno 2] No such file or directory: "
    | .notDirectory => "[Errno 20] Not a directory: "
    | .directory => "[Errno 21] Is a directory: "
    | .longName => "[Errno 36] File name too long: ") ++ Text.quoted path

/-- What is found at each path. -/
abbrev Files := String → Except FileFault String

/-- Every carriage return becomes a line feed, and a line feed right after one is dropped. -/
def plainLines (cs : List Char) : List Char :=
  (cs.zip (' ' :: cs)).filterMap fun (c, before) =>
    if c = '\n' && before = '\r' then none else some (if c = '\r' then '\n' else c)

/-- A text with line feeds for all line ends. -/
def withPlainLines (s : String) : String := String.ofList (plainLines s.toList)

/-- The lines of a text; the last one may lack its line end. -/
def textLines (s : String) : List String :=
  let ls := (withPlainLines s).splitOn "\n"
  if ls.getLast? = some "" then ls.dropLast else ls

namespace Files

/-- Whether a text can be a path at all: no path has a null character. -/
def isPath (s : String) : Bool := !s.toList.contains '\x00'

/-- The most bytes that a path can have. -/
def maxPath : Nat := 4095

/-- The most bytes that a name on a path can have. -/
def maxName : Nat := 255

/-- A place seen from one directory: the directory or something below it, with the names that lead
there, or a directory outside. -/
inductive Place where
  | below (names : List String)
  | outside
deriving DecidableEq

/-- The directory that a directory is in. -/
def Place.parent : Place → Place
  | .below [] => .outside
  | .below (x :: xs) => .below (x :: xs).dropLast
  | .outside => .outside

/-- The names that lead to a file. -/
def route (path : String) : List String := path.splitOn "/"

/-- The text of the file at a place, if a file is there. -/
def textAt? (files : List (String × String)) : Place → Option String
  | .below names => (files.find? fun f => route f.1 = names).map (·.2)
  | .outside => none

/-- Where the next name of a path leads. No file is known outside the directory. -/
def step (files : List (String × String)) (p : Place) (name : String) : Except FileFault Place :=
  if (textAt? files p).isSome then .error .notDirectory
  else if name = "" || name = "." then .ok p
  else if name = ".." then .ok p.parent
  else if maxName < name.utf8ByteSize then .error .longName
  else
    match p with
    | .outside => .error .missing
    | .below names =>
      let names' := names ++ [name]
      if files.any fun f => names'.isPrefixOf (route f.1) then .ok (.below names')
      else .error .missing

/-- Where a path leads, from the directory or from the root. -/
def resolve (files : List (String × String)) (path : String) : Except FileFault Place :=
  if path = "" then .error .missing
  else if maxPath < path.utf8ByteSize then .error .longName
  else
    (route path).foldlM (step files)
      (if path.toList.head? = some '/' then .outside else .below [])

/-- The files of one directory, by their paths from it. -/
def ofList (files : List (String × String)) : Files := fun path => do
  match textAt? files (← resolve files path) with
  | some text => .ok (withPlainLines text)
  | none => .error .directory

/-- Whether there is a file or a directory at `path`. -/
def has (files : Files) (path : String) : Bool :=
  match files path with
  | .ok _ => true
  | .error f => f = .directory

end Files

end SystemFOmega
