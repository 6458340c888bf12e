import Columnar.CommandLine.Flags
import Columnar.CommandLine.Help
import Columnar.CommandLine.LogFilter
import Columnar.Pack
import Columnar.Read.Description
import Columnar.Read.Output

namespace Columnar.CommandLine

/-!
Running a command line.

A run is a function of the arguments and of the stores.  Its outcome is what it prints, its exit
code, and the stores behind it.
-/

structure Outcome where
  code : Nat
  stdout : String
  stderr : String
  stores : Stores

inductive Command where
  | pack (source directory : String) (specs : List String)
  | unpack (directory column output : String)
  | info (directory : String)
deriving DecidableEq, Repr

/-- Why the arguments name no command. -/
inductive UsageFault where
  | noCommand
  | packArguments
  | unpackArguments
  | infoArguments
  | unknownCommand (name : String)
deriving DecidableEq, Repr

def UsageFault.message : UsageFault → String
  | .noCommand => "Not enough arguments"
  | .packArguments => "'pack' requires a CSV path, an output directory and at least one column"
  | .unpackArguments => "'unpack' requires a directory, a column index and an output path"
  | .infoArguments => "'info' requires exactly one directory"
  | .unknownCommand name => s!"Unknown command '{name}'"

namespace Command

/-- The command that the arguments besides options name. -/
def ofArguments : List String → Except UsageFault Command
  | [] => .error .noCommand
  | name :: rest =>
      if name = "pack" then
        match rest with
        | source :: directory :: spec :: specs => .ok (.pack source directory (spec :: specs))
        | _ => .error .packArguments
      else if name = "unpack" then
        match rest with
        | [directory, column, output] => .ok (.unpack directory column output)
        | _ => .error .unpackArguments
      else if name = "info" then
        match rest with
        | [directory] => .ok (.info directory)
        | _ => .error .infoArguments
      else .error (.unknownCommand name)

end Command

def ratioText (ratio : Double) : String := ratio.fixed 2 ++ "x"

def columnLine (stats : ColumnStats) : String :=
  let name := Text.padRight 20 stats.name
  let type := Text.padRight 8 stats.type.name
  let parts := Text.padRight 4 (toString stats.parts)
  s!"  {name} {type} parts={parts} {stats.uncompressedBytes} -> {stats.compressedBytes} bytes " ++
    s!"({ratioText stats.ratio})\n"

def reportText (report : PackReport) : String :=
  s!"\n✓ Packed {report.catalog.chunkCount.toNat} chunks per column\n" ++
    "".intercalate (report.columns.map columnLine) ++
    s!"  Total: {report.uncompressedBytes} -> {report.compressedBytes} bytes " ++
    s!"({ratioText report.ratio})\n"

/-- The columns of specifications, or the first that is none. -/
def readSpecs : List String → Except ConfigFault (List ColumnSpec)
  | [] => .ok []
  | text :: rest =>
      match ColumnSpec.parse? text with
      | none => .error (.columnSpec text)
      | some spec => (readSpecs rest).map (spec :: ·)

def pack (options : PackOptions) (source directory : String) (specs : List String)
    (stores : Stores) : Outcome :=
  match readSpecs specs with
  | .error fault => ⟨1, "", s!"Error: {(Error.configuration fault).message}\n", stores⟩
  | .ok columns =>
      let announced := s!"Packing {source} into {directory}\n"
      match Pack.delimitedText stores source directory columns options with
      | (.ok report, after) => ⟨0, announced ++ reportText report, "", after⟩
      | (.error error, after) =>
          ⟨1, announced, s!"\n✗ Error during packing: {error.message}\n", after⟩

def unpack (directory column output : String) (stores : Stores) : Outcome :=
  match Decimal.readNat? maxCount column with
  | none => ⟨1, "", s!"Error: column index must be a number, got '{column}'\n\n", stores⟩
  | some index =>
      match Read.intoFile stores directory index output with
      | .ok (rows, after) =>
          ⟨0, s!"✓ Wrote {rows} rows of column {index} to {output}\n", "", after⟩
      | .error error => ⟨1, "", s!"✗ Error unpacking column {index}: {error.message}\n", stores⟩

def info (directory : String) (stores : Stores) : Outcome :=
  match StoreDescription.ofPath stores directory with
  | .ok description =>
      let rule := String.ofList (List.replicate 80 '=')
      let text := s!"{rule}\nPacked relation: {directory}\n{rule}\n{description.text}"
      ⟨0, text, "", stores⟩
  | .error error => ⟨1, "", s!"✗ Error reading {directory}: {error.message}\n", stores⟩

def Command.run (options : PackOptions) (command : Command) (stores : Stores) : Outcome :=
  match command with
  | .pack source directory specs => CommandLine.pack options source directory specs stores
  | .unpack directory column output => CommandLine.unpack directory column output stores
  | .info directory => CommandLine.info directory stores

/-- Runs what the arguments besides options name.  Arguments that name no command are an error,
followed by the help. -/
def runFlags (program : String) (flags : Flags) (stores : Stores) : Outcome :=
  match Command.ofArguments flags.positional with
  | .error fault => ⟨1, help program, s!"Error: {fault.message}\n\n", stores⟩
  | .ok command => command.run flags.options stores

/-- Runs a program of the given name.  A single request for help is answered; options that cannot be
read are an error, followed by the help; what is wrong with a log filter is noticed first. -/
def run (program : String) (arguments : List String) (stores : Stores) : Outcome :=
  if arguments = ["--help"] ∨ arguments = ["-h"] then ⟨0, help program, "", stores⟩
  else
    match Flags.read arguments with
    | .error fault => ⟨1, help program, s!"Error: {fault.message}\n\n", stores⟩
    | .ok flags =>
        let outcome := runFlags program flags stores
        let notices := (flags.logLevel.map LogFilter.notices).getD ""
        { outcome with stderr := notices ++ outcome.stderr }

end Columnar.CommandLine
