import Resugar.Concrete.Bracketed
import Resugar.Files.Command

/-!
# The program

`resugar [input] [output] [--ext suffix]` runs the command on two directories.
Beside every source file `a.js` there has to be a file `a.js.cst` with its
concrete tree in brackets. The environment can set `RESUGAR_OUTPUT_EXT`.
-/

namespace Resugar.Main

/-- A text on the console. -/
def display (t : Text) : String :=
  String.ofList (t.map fun c => c.toChar?.getD '�')

/-- The path name of a file. -/
def pathOf (path : List Text) : String :=
  "/" ++ "/".intercalate (path.map display)

/-- The concrete tree of a file, if it has a readable one. -/
def readTree (path : String) : IO (Option Concrete) := do
  try
    return Concrete.ofString? (← IO.FS.readFile (path ++ ".cst"))
  catch _ => return none

/-- The files with those of one more directory, if there is one. -/
def readDirectory (directory : List Text) (store : Store) (trees : List (Source × Concrete)) :
    IO (Store × List (Source × Concrete)) := do
  try
    let root ← IO.FS.realPath (pathOf directory)
    unless ← root.isDir do return (store, trees)
    let mut store := { store with directories := store.directories ++ [directory] }
    let mut trees := trees
    for path in ← root.walkDir do
      unless ← path.isDir do
        let relative := String.ofList (path.toString.toList.drop (root.toString.length + 1))
        let bytes := (← IO.FS.readBinFile path).toList
        store := store.put (directory ++ (PathName.ofText relative).parts) bytes
        if let some tree ← readTree path.toString then
          trees := (Source.unifyLines bytes, tree) :: trees
    return (store, trees)
  catch _ => return (store, trees)

/-- The files and directories that are new, or not as they were. -/
def writeChanges (before after : Store) : IO Unit := do
  for path in after.directories do
    IO.FS.createDirAll (pathOf path)
  for (path, bytes) in after.files do
    unless before.bytes? path == some bytes do
      IO.FS.writeBinFile (pathOf path) (ByteArray.mk bytes.toArray)

/-- What the command has to say about a batch. -/
def printBatch (b : Batch) : IO Unit := do
  IO.println ("Done: " ++ toString b.processed.length ++ " succeeded, "
    ++ toString b.failed.length ++ " failed")
  for (path, fault) in b.failed do
    IO.println ("  " ++ display (Text.join "/" path) ++ ": " ++ display fault.message)

/-- A notice in words. -/
def printNotice (input : PathName) : Notice → IO Unit
  | .directoryNotFound => IO.println ("Directory not found: " ++ display input.toText)
  | .noFiles => IO.println "No .js files found"

end Resugar.Main

open Resugar in
def main (args : List String) : IO UInt32 := do
  match CommandLine.parse? (args.map Text.ofString) with
  | none =>
    IO.eprintln "usage: resugar [input] [output] [--ext suffix] [--verbose]"
    return 2
  | some c =>
    let here := (PathName.ofText (← IO.currentDir).toString).parts
    let suffix := (← IO.getEnv "RESUGAR_OUTPUT_EXT").map Text.ofString
    let (store, trees) ← Resugar.Main.readDirectory (c.input.location here) {} []
    let (store, trees) ← Resugar.Main.readDirectory (c.output.location here) store trees
    let host : Host := {
      grammar := fun source => (trees.find? (·.1 == source)).map (·.2)
      takesLine := fun _ => true }
    let report := c.run host { outputSuffix := suffix } here store
    report.notices.forM (Resugar.Main.printNotice c.input)
    Resugar.Main.writeChanges store report.store
    report.batch.forM Resugar.Main.printBatch
    return UInt32.ofNat report.exitCode
