import RoseLang.Text.Paint

/-!
# The usage text
-/

namespace RoseLang.Command

open Text

def version : String := "0.1.0"

/-- The commands with their argument and what they do. -/
def commands : List (String × String × String) :=
  [("lex", "<file>", "Tokenize a file and print tokens"),
    ("parse", "<file>", "Parse a file and print the syntax tree"),
    ("help", "", "Show this help"),
    ("version", "", "Show version")]

def options : List (String × String) :=
  [("--format <fmt>", "Output format: human (default) or json"),
    ("--all-errors", "Report every error, not just the first per line")]

def environment : List (String × String) :=
  [("RUST_LOG", "Log filter for tracing output (e.g. rose_parser=trace)"),
    ("NO_COLOR", "Disable colored output")]

def heading (title : String) : Painted := boldHued .yellow title

def entryRow (entry : String × String) : Painted :=
  plain "  " ++ hued .cyan (padRight 16 entry.1) ++ plain (" " ++ entry.2)

def commandRow : String × String × String → Painted
  | (name, argument, about) =>
    plain "  " ++ hued .green name ++ plain " " ++ hued .cyan argument
      ++ plain (spaces (16 - (name.length + argument.length + 1)) ++ about)

def usage : List Painted :=
  [bold "Rose" ++ plain " " ++ dimmed version ++ plain " - Rose language front end",
    [],
    heading "Usage" ++ plain ": " ++ hued .green "rose" ++ plain " " ++ hued .cyan "<command>"
      ++ plain " " ++ hued .cyan "[args]",
    [],
    heading "Commands:"] ++ commands.map commandRow
    ++ [[], heading "Options:"] ++ options.map entryRow
    ++ [[], heading "Environment:"] ++ environment.map entryRow

end RoseLang.Command
