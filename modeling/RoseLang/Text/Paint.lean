import RoseLang.Text.Format

/-!
# Painted text

Text for a terminal is a list of runs, each in one style. With colour a styled run stands between the
sequence that switches its style on and the one that resets it; without colour the runs are joined as
they are. A reset that is part of a run's own text would end the style too early, so the style is
switched on again after it.
-/

namespace RoseLang.Text

inductive Hue where
  | red
  | green
  | yellow
  | blue
  | cyan
  deriving DecidableEq, Repr

def Hue.code : Hue → String
  | .red => "31"
  | .green => "32"
  | .yellow => "33"
  | .blue => "34"
  | .cyan => "36"

inductive Style where
  | plain
  | bold
  | dimmed
  | hue (h : Hue)
  | boldHue (h : Hue)
  deriving DecidableEq, Repr

/-- The codes of a style: weight first, then hue. The plain style has none. -/
def Style.codes? : Style → Option String
  | .plain => none
  | .bold => some "1"
  | .dimmed => some "2"
  | .hue h => some h.code
  | .boldHue h => some ("1;" ++ h.code)

/-- A piece of text in one style. -/
structure Run where
  style : Style
  text : String
  deriving DecidableEq, Repr

abbrev Painted := List Run

def plain (s : String) : Painted := [⟨.plain, s⟩]

def bold (s : String) : Painted := [⟨.bold, s⟩]

def dimmed (s : String) : Painted := [⟨.dimmed, s⟩]

def hued (h : Hue) (s : String) : Painted := [⟨.hue h, s⟩]

def boldHued (h : Hue) (s : String) : Painted := [⟨.boldHue h, s⟩]

/-- The characters with `on` inserted after every reset sequence. -/
def restyle (on : List Char) : List Char → List Char
  | '\x1b' :: '[' :: '0' :: 'm' :: cs => '\x1b' :: '[' :: '0' :: 'm' :: (on ++ restyle on cs)
  | c :: cs => c :: restyle on cs
  | [] => []

def Run.render (colour : Bool) (run : Run) : String :=
  match colour, run.style.codes? with
  | true, some codes =>
    let on := "\x1b[" ++ codes ++ "m"
    on ++ String.ofList (restyle on.toList run.text.toList) ++ "\x1b[0m"
  | _, _ => run.text

/-- The text of all runs, with escape sequences if `colour` is set. -/
def Painted.render (colour : Bool) (runs : Painted) : String :=
  String.join (runs.map (Run.render colour))

end RoseLang.Text
