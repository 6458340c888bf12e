import Columnar.Decimal.Integer
import Columnar.Options
import Columnar.Text.Utf8

namespace Columnar.CommandLine

/-!
Command-line options.

Options may stand anywhere among the other arguments.  An option that takes a value takes the
argument behind it, whatever that looks like; of an option given twice the last value counts; an
argument that begins with two dashes and is no option is an error.  Arguments are read from the
left and the first error is reported.
-/

/-- The options that take a value. -/
inductive ValueFlag where
  | delimiter
  | chunkRows
  | partBytes
  | cascadeDepth
  | logLevel
deriving DecidableEq, Repr

namespace ValueFlag

def all : List ValueFlag := [.delimiter, .chunkRows, .partBytes, .cascadeDepth, .logLevel]

def name : ValueFlag → String
  | .delimiter => "--delimiter"
  | .chunkRows => "--chunk-rows"
  | .partBytes => "--part-bytes"
  | .cascadeDepth => "--cascade-depth"
  | .logLevel => "--log-level"

def ofName? (text : String) : Option ValueFlag := all.find? fun flag => flag.name = text

end ValueFlag

inductive FlagFault where
  | missingValue (flag : ValueFlag)
  | badNumber (flag : ValueFlag) (text : String)
  | badDelimiter (text : String)
  | unknownOption (text : String)
deriving DecidableEq, Repr

def FlagFault.message : FlagFault → String
  | .missingValue flag => s!"'{flag.name}' requires a value"
  | .badNumber flag text => s!"'{flag.name}' expects a non-negative number, got '{text}'"
  | .badDelimiter text => s!"delimiter must be a single byte, got '{text}'"
  | .unknownOption text => s!"Unknown option '{text}'"

/-- What a command line sets, and its other arguments in order. -/
structure Flags where
  options : PackOptions := {}
  logLevel : Option String := none
  positional : List String := []
deriving DecidableEq, Repr

/-- The byte that a delimiter's text names: `tab`, or a text of one byte. -/
def readDelimiter (text : String) : Except FlagFault UInt8 :=
  if text = "\\t" ∨ text = "tab" then .ok 0x09
  else
    match Text.encode text with
    | [byte] => .ok byte
    | _ => .error (.badDelimiter text)

/-- The largest count of rows or bytes. -/
def maxCount : Nat := 0xFFFFFFFFFFFFFFFF

def readNumber (flag : ValueFlag) (limit : Nat) (text : String) : Except FlagFault Nat :=
  match Decimal.readNat? limit text with
  | some number => .ok number
  | none => .error (.badNumber flag text)

namespace Flags

/-- Sets an option to the value of a text. -/
def set (flags : Flags) (flag : ValueFlag) (text : String) : Except FlagFault Flags :=
  let options := flags.options
  match flag with
  | .delimiter => do
      let delimiter ← readDelimiter text
      return { flags with options := { options with format := { options.format with delimiter } } }
  | .chunkRows => do
      let chunkRows ← readNumber flag maxCount text
      return { flags with options := { options with chunkRows } }
  | .partBytes => do
      let partMaxBytes ← readNumber flag maxCount text
      return { flags with options := { options with partMaxBytes } }
  | .cascadeDepth => do
      let cascadeDepth ← readNumber flag maxWord text
      return { flags with options := { options with cascadeDepth } }
  | .logLevel => .ok { flags with logLevel := some text }

def withHeader (flags : Flags) : Flags :=
  let format := { flags.options.format with header := true }
  { flags with options := { flags.options with format } }

def withVerify (flags : Flags) : Flags :=
  { flags with options := { flags.options with verify := true } }

/-- Reads arguments on top of what is set already. -/
def readOnto (flags : Flags) : List String → Except FlagFault Flags
  | [] => .ok flags
  | argument :: rest =>
      match ValueFlag.ofName? argument with
      | some flag =>
          match rest with
          | [] => .error (.missingValue flag)
          | value :: others =>
              match flags.set flag value with
              | .error fault => .error fault
              | .ok updated => readOnto updated others
      | none =>
          if argument = "--header" then readOnto flags.withHeader rest
          else if argument = "--verify" then readOnto flags.withVerify rest
          else if "--".toList.isPrefixOf argument.toList then .error (.unknownOption argument)
          else readOnto { flags with positional := flags.positional ++ [argument] } rest

def read (arguments : List String) : Except FlagFault Flags := readOnto {} arguments

end Flags

end Columnar.CommandLine
