import SystemFOmega.Name
import SystemFOmega.Palette

/-!
# Excerpts of a text

The part of a text around a place: numbered lines, with a mark below the column.
-/

namespace SystemFOmega

/-- `n` right-aligned in four columns. -/
def lineNumber (n : Int) : String :=
  let s := toString n
  String.ofList (List.replicate (4 - s.length) ' ') ++ s

/-- The lines of a text, of which there is at least one. -/
def sourceLines (text : String) : List String := (text.toList.splitOn '\n').map String.ofList

/-- The part of a text around a place: a heading, the line with a mark below the column, and
`around` lines before and after it. It is empty if the text has no such line. -/
def excerpt (p : Palette) (text : String) (l : Location) (message : String) (around : Int := 2) :
    String :=
  let lines := sourceLines text
  if 0 < l.line && l.line ≤ lines.length then
    let start := max 0 (l.line - around - 1)
    let stop := min (lines.length : Int) (l.line + around)
    let shown := (lines.zipIdx 1).filter fun x =>
      decide (start < (x.2 : Int)) && decide ((x.2 : Int) ≤ stop)
    let body := shown.flatMap fun x =>
      if (x.2 : Int) = l.line then
        (p.paint .error "→" ++ " " ++ lineNumber x.2 ++ " │ " ++ x.1) ::
          (if 0 < l.column then
            let width := max 0 (min ((x.1.length : Int) - l.column) 10)
            ["       │ " ++ String.ofList (List.replicate (l.column - 1).toNat ' ') ++
              p.paint .error ("^" ++ String.ofList (List.replicate width.toNat '~'))]
          else [])
      else ["  " ++ lineNumber x.2 ++ " │ " ++ x.1]
    "\n".intercalate
      ((if message.isEmpty then [] else [p.paint .error ("Error: " ++ message)])
        ++ [p.paint .dim "at" ++ " " ++ l.display, ""] ++ body)
  else ""

end SystemFOmega
