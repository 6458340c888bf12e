import Columnar.Decimal.Integer
import Columnar.Text.Blank

namespace Columnar.CommandLine

/-!
Filters for messages to a log.

A filter is a list of directives between commas.  A directive is a level; or a target, possibly
followed by a level behind an equals sign.  A target is a name, a span in brackets, or both, and a
span may end in a field in braces.  What is no directive is passed over, and `notices` says why.
-/

/-- Why a text is no directive. -/
inductive DirectiveFault where
  | shape
  | level
deriving DecidableEq, Repr

def DirectiveFault.message : DirectiveFault → String
  | .shape => "invalid filter directive"
  | .level =>
      "error parsing level filter: expected one of \"off\", \"error\", \"warn\", \"info\", " ++
        "\"debug\", \"trace\", or a number 0-5"

namespace LogFilter

def levelNames : List String := ["off", "error", "warn", "info", "debug", "trace"]

/-- Whether a text is a level: a name in upper or lower case, or its number. -/
def isLevel (text : String) : Bool :=
  levelNames.contains (String.ofList (text.toList.map Char.toLower)) ||
    (Decimal.readNat? 5 text).isSome

/-- Whether a character may begin the name of a target.  Outside ASCII that is every character but
punctuation and symbols. -/
def beginsTarget (char : Char) : Bool :=
  let code := char.toNat
  if code < 0x80 then char.isAlphanum || char = '-' || char = ':' || char = '_'
  else
    0xC0 ≤ code && code ≠ 0xD7 && code ≠ 0xF7 && !(0x2000 ≤ code && code < 0x2C00) &&
      !(0x3000 ≤ code && code < 0x3005) && !(0xD800 ≤ code && code < 0xF900) &&
      !(0x1F000 ≤ code && code < 0x20000)

/-- Checks the level at an offset.  Without any text there it is the lowest. -/
def levelFault? (directive : List Char) (offset : Nat) : Option DirectiveFault :=
  let text := String.ofList (directive.drop offset)
  if text = "" ∨ isLevel text then none else some .level

/-- Checks what stands behind the brackets of a span. -/
def afterSpanFault? (directive : List Char) (offset : Nat) : List Char → Option DirectiveFault
  | [] => none
  | '=' :: _ => levelFault? directive (offset + 1)
  | _ => some .shape

/-- Checks a span and what follows it.  A field in braces has to hold something and to end the
span. -/
def spanFault? (directive : List Char) (offset : Nat) (span : List Char) : Option DirectiveFault :=
  let name := span.takeWhile fun char => char ≠ ']' ∧ char ≠ '\x7b'
  match span.drop name.length with
  | [] => some .shape
  | ']' :: rest => afterSpanFault? directive (offset + name.length + 1) rest
  | _ :: inner =>
      let field := inner.takeWhile (· ≠ '\x7d')
      match field, inner.drop field.length with
      | _ :: _, _ :: ']' :: rest =>
          afterSpanFault? directive (offset + name.length + field.length + 3) rest
      | _, _ => some .shape

/-- Checks a directive.  Blanks at its ends do not count for its shape, but offsets are those of the
whole text. -/
def fault? (directive : String) : Option DirectiveFault :=
  let whole := directive.toList
  match Text.trimEnds Text.isBlank whole with
  | [] => some .shape
  | '[' :: span => spanFault? whole 1 span
  | first :: rest =>
      let target := rest.takeWhile fun char => char ≠ '=' ∧ char ≠ '['
      let offset := target.length + 2
      if !beginsTarget first then some .shape
      else
        match rest.drop target.length with
        | [] => none
        | '=' :: _ => levelFault? whole offset
        | _ :: span => spanFault? whole offset span

/-- A notice, one a line, for each part of a filter that is no directive. -/
def notices (filter : String) : String :=
  let directives := (filter.toList.splitOn ',').map String.ofList
  "".intercalate (directives.map fun directive =>
    if directive = "" then ""
    else
      match fault? directive with
      | none => ""
      | some fault => "ignoring `" ++ directive ++ s!"`: {fault.message}\n")

end LogFilter

end Columnar.CommandLine
