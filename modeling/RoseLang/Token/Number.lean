import RoseLang.Syntax.Operator
import RoseLang.Token.Fault

/-!
# Numeric literals

A number is scanned from the characters after its first one. It may start with a radix mark (`0x`,
`0o`, `0b`), have a fraction and an exponent, and contain underscores anywhere after its first digit.
An integer that starts with 0 is octal; the digits 8 and 9 are allowed there only if it turns out to be
a float. Every fault of a number concerns the whole of it.
-/

namespace RoseLang

/-- What a scan found: the kind of literal, how many characters belong to it after its first one, and
what is wrong with them. -/
structure LiteralScan where
  kind : LiteralKind
  more : Nat
  faults : List FaultAt
  deriving DecidableEq, Repr

namespace Number

/-- The value of a digit or of a letter up to `f`. -/
def digitValue? (c : Char) : Option Nat :=
  if '0' ≤ c ∧ c ≤ '9' then some (c.toNat - '0'.toNat)
  else if 'a' ≤ c ∧ c ≤ 'f' then some (c.toNat - 'a'.toNat + 10)
  else if 'A' ≤ c ∧ c ≤ 'F' then some (c.toNat - 'A'.toNat + 10)
  else none

def isDigit (radix : Radix) (c : Char) : Bool := (digitValue? c).any (· < radix.value)

/-- Whether a run of digits goes on with `c`. Decimal digits never end it, whatever the radix. -/
def isRunPart (radix : Radix) (c : Char) : Bool :=
  c = '_' || isDigit radix c || isDigit .decimal c

/-- The longest run of digits and underscores at the start of `cs`. -/
def digitRun (radix : Radix) (cs : List Char) : List Char := cs.takeWhile (isRunPart radix)

/-- Whether a run has a digit, not only underscores. -/
def hasDigit (run : List Char) : Bool := run.any (· ≠ '_')

/-- The first digit of a run that the radix does not have. -/
def strayDigit? (radix : Radix) (run : List Char) : Option Char :=
  run.find? fun c => c ≠ '_' && !isDigit radix c

/-- The radix that a letter after a leading 0 marks. -/
def markedRadix? (c : Char) : Option Radix :=
  if c = 'x' ∨ c = 'X' then some .hexadecimal
  else if c = 'o' ∨ c = 'O' then some .octal
  else if c = 'b' ∨ c = 'B' then some .binary
  else none

/-- The length of the exponent at the start of `cs`, 0 if there is none, and whether it lacks digits. -/
def exponent : List Char → Nat × Bool
  | [] => (0, false)
  | c :: cs =>
    if c = 'e' ∨ c = 'E' then
      let sign := if cs.head?.any (fun s => s = '+' || s = '-') then 1 else 0
      let run := digitRun .decimal (cs.drop sign)
      (1 + sign + run.length, !hasDigit run)
    else (0, false)

/-- A literal of one fault at most, which covers all its characters. -/
def scanned (kind : LiteralKind) (more : Nat) (fault : Option LexicalFault) : LiteralScan :=
  ⟨kind, more, (fault.map (FaultAt.mk 0 (1 + more))).toList⟩

/-- The number whose radix mark has been read; `cs` starts with its digits. -/
def scanMarked (radix : Radix) (cs : List Char) : LiteralScan :=
  let run := digitRun radix cs
  let fault :=
    if hasDigit run then (strayDigit? radix run).map (.invalidDigit · radix)
    else some (.noDigits radix)
  scanned .int (1 + run.length) fault

/-- The number that starts with the digit `first` and has no radix mark. -/
def scanUnmarked (first : Char) (cs : List Char) : LiteralScan :=
  let run := digitRun .decimal cs
  let rest := cs.drop run.length
  let fraction := match rest with
    | '.' :: ds => 1 + (digitRun .decimal ds).length
    | _ => 0
  let (power, lacking) := exponent (rest.drop fraction)
  let more := run.length + fraction + power
  if fraction = 0 ∧ power = 0 then
    scanned .int more
      (if first = '0' then (strayDigit? .octal run).map (.invalidDigit · .octal) else none)
  else scanned .float more (if lacking then some .emptyExponent else none)

/-- The number that starts with the digit `first`. -/
def scan (first : Char) (cs : List Char) : LiteralScan :=
  match first, cs with
  | '0', mark :: ds =>
    match markedRadix? mark with
    | some radix => scanMarked radix ds
    | none => scanUnmarked first cs
  | _, _ => scanUnmarked first cs

/-- The float that starts with a point; `cs` starts with the digit after it. -/
def scanFraction (cs : List Char) : LiteralScan :=
  let run := digitRun .decimal cs
  let (power, lacking) := exponent (cs.drop run.length)
  scanned .float (run.length + power) (if lacking then some .emptyExponent else none)

end Number

end RoseLang
