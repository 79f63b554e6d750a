import Resugar.Files.Batch
import Resugar.Files.Settings

/-!
# The command

The command takes an input and an output directory and a few options
(`CommandLine.parse?`), runs a batch and reports on it (`CommandLine.run`).
-/

namespace Resugar

/-- The arguments of the command. -/
structure CommandLine where
  /-- The input and the output directory, where they are given. -/
  directories : List Text := []
  suffix : Option Text := none
  verbose : Bool := false
  version : Bool := false
  help : Bool := false

namespace CommandLine

/-- An option with two dashes, and its value if it is attached by `=`. -/
def longOption (t : Text) : Text × Option Text :=
  match t.dropWhile (· != CodePoint.ofChar '=') with
  | [] => (t, none)
  | _ :: value => (t.takeWhile (· != CodePoint.ofChar '='), some value)

/-- Whether an argument is a row of the one-letter options. -/
def isVerboseRow (t : Text) : Bool :=
  match t.dropStart? "-" with
  | some letters => !letters.isEmpty && letters.all (· == CodePoint.ofChar 'v')
  | none => false

/-- The command line with a flag set; `none` if there is no such flag. -/
def setFlag? (c : CommandLine) (name : Text) : Option CommandLine :=
  if name = Text.ofString "--verbose" then some { c with verbose := true }
  else if name = Text.ofString "--version" then some { c with version := true }
  else if name = Text.ofString "--help" then some { c with help := true }
  else none

/-- Arguments read one by one. -/
def read? (c : CommandLine) : List Text → Option CommandLine
  | [] => some c
  | t :: rest =>
    if t = Text.ofString "--" then some { c with directories := c.directories ++ rest }
    else if t.startsWith "-" && t != Text.ofString "-" then
      match longOption t with
      | (name, value) =>
        if name = Text.ofString "--ext" then
          match value with
          | some suffix => read? { c with suffix := some suffix } rest
          | none =>
            match rest with
            | suffix :: rest => read? { c with suffix := some suffix } rest
            | [] => none
        else match if value.isNone then c.setFlag? name else none with
          | some c => read? c rest
          | none => if isVerboseRow t then read? { c with verbose := true } rest else none
    else read? { c with directories := c.directories ++ [t] } rest

/-- The arguments of the command, unless they are wrong. Help is given whatever
    directories there are. -/
def parse? (arguments : List Text) : Option CommandLine :=
  (read? {} arguments).filter fun c => c.help || c.directories.length ≤ 2

end CommandLine

/-! ## Reports -/

/-- What the command says besides how many files it has processed. -/
inductive Notice where
  | directoryNotFound
  | noFiles
  deriving DecidableEq

/-- How the command ends. -/
structure Report where
  exitCode : Nat
  notices : List Notice := []
  /-- The batch, if there was one with files and nothing has stopped it. -/
  batch : Option Batch := none
  store : Store

namespace Host

variable (h : Host)

/-- A report that the console shows, with a line of it. If the console does not
    take the line, the command ends there. -/
def say (line : Text) (r : Report) : Report :=
  if h.takesLine line then r else { exitCode := 1, store := r.store }

/-- What the command reports on a batch and on what has stopped it. -/
def report : Batch × Option Fault → Report
  | (batch, some _) => { exitCode := 1, store := batch.store }
  | (batch, none) =>
    if batch.processed.isEmpty && batch.failed.isEmpty then
      h.say "⚠️  No .js files found"
        { exitCode := 0, notices := [.noFiles], store := batch.store }
    else
      h.say (Text.ofString "Done: [green]" ++ Text.ofNat batch.processed.length
          ++ Text.ofString " succeeded[/green], [red]" ++ Text.ofNat batch.failed.length
          ++ Text.ofString " failed[/red]")
        { exitCode := if batch.isOk then 0 else 1, batch := some batch, store := batch.store }

end Host

namespace CommandLine

variable (c : CommandLine)

/-- The suffix of the results: the one given, or that of the settings. -/
def outputSuffix (settings : Settings) : Text :=
  match c.suffix with
  | some suffix => Settings.dotted suffix
  | none => settings.suffix

/-- The input directory. -/
def input : PathName :=
  PathName.ofText (c.directories.head?.getD "input")

/-- The output directory. -/
def output : PathName :=
  PathName.ofText (c.directories.tail.head?.getD "output")

/-- What the command does with the files, in a working directory. -/
def run (h : Host) (settings : Settings) (here : List Text) (s : Store) : Report :=
  if c.help || c.version then { exitCode := 0, store := s }
  else if s.isDirectory (c.input.location here) then
    if h.takesLine (Text.ofString "📁 Reconstructing " ++ c.input.toText ++ Text.ofString " -> "
        ++ c.output.toText) then
      h.report (Job.run
        { h with
          suffix := c.outputSuffix settings
          input := c.input.location here
          output := c.output.location here } s)
    else { exitCode := 1, store := s }
  else
    h.say (Text.ofString "❌ Directory not found: " ++ PathName.toText ⟨1, c.input.location here⟩)
      { exitCode := 1, notices := [.directoryNotFound], store := s }

/-- What the command does with its arguments. For wrong ones it exits with 2. -/
def runArguments (arguments : List Text) (h : Host) (settings : Settings) (here : List Text)
    (s : Store) : Report :=
  match parse? arguments with
  | some c => c.run h settings here s
  | none => { exitCode := 2, store := s }

end CommandLine

end Resugar
