import Resugar.Files.PathName
import Resugar.Pass.Run

/-!
# Batches

A batch takes the files under an input directory whose names end in `.js`, in
the order of their path names, and writes what a pass leaves of each under an
output directory (`Job.run`). Both directories are in one tree of files
(`Store`), and can be the same. A file is read at its turn, as the files before
it have left it. A file that fails does not stop the others. After each file
the console shows a line, and only a line that it does not take ends a batch.
-/

namespace Resugar

/-! ## Trees of files -/

/-- A tree of files. -/
structure Store where
  /-- The bytes of the files, by path name. -/
  files : List (List Text × List UInt8) := []
  /-- The directories that were made. Those on the way to them and to files are
      there too. -/
  directories : List (List Text) := []
  nodup : (files.map Prod.fst).Nodup := by decide

namespace Store

variable (s : Store)

/-- The bytes of the file with this path name. -/
def bytes? (path : List Text) : Option (List UInt8) :=
  (s.files.find? (·.1 == path)).map (·.2)

/-- Whether there is a file with this path name. -/
def isFile (path : List Text) : Bool :=
  s.files.any (·.1 == path)

/-- Whether there is such a directory. `.` and `..` are always directories. -/
def isDirectory (path : List Text) : Bool :=
  path.getLast?.any (fun name => name == Text.ofString "." || name == Text.ofString "..")
    || s.directories.any path.isPrefixOf
    || s.files.any fun f => path.isPrefixOf f.1 && path != f.1

/-- Whether a path name leads through a file. -/
def leadsThroughFile (path : List Text) : Bool :=
  s.files.any fun f => f.1.isPrefixOf path && f.1 != path

/-- The store with a directory, and those on the way to it. -/
def makeDirectory (path : List Text) : Except Fault Store :=
  if s.isFile path then .error .fileInTheWay
  else if s.leadsThroughFile path then .error .notADirectory
  else .ok (if s.isDirectory path then s else { s with directories := s.directories ++ [path] })

/-- The store with a file. -/
def put (path : List Text) (bytes : List UInt8) : Store where
  files := s.files.filter (·.1 != path) ++ [(path, bytes)]
  directories := s.directories
  nodup := by
    rw [List.map_append, List.nodup_append]
    refine ⟨(List.filter_sublist.map _).nodup s.nodup, by simp, ?_⟩
    simp only [List.mem_map, List.mem_filter, bne_iff_ne]
    rintro _ ⟨f, ⟨-, hne⟩, rfl⟩ _ ⟨g, hg, rfl⟩
    rw [List.mem_singleton.1 hg]
    exact hne

/-- The store after writing a text to a file in a directory that is there, and
    what went wrong. If the text cannot be turned into bytes, an empty file
    stays. -/
def writeFile (path : List Text) (text : Text) : Store × Option Fault :=
  match path.getLast?.bind PathName.nameFault? with
  | some fault => (s, some fault)
  | none =>
    if s.isDirectory path then (s, some .isADirectory)
    else match Utf8.encode? text with
      | some bytes => (s.put path bytes, none)
      | none => (s.put path [], some .loneSurrogate)

/-- The store after writing a text to a file, and what went wrong. Its directory
    is made first, and stays. -/
def write (path : List Text) (text : Text) : Store × Option Fault :=
  match s.makeDirectory path.dropLast with
  | .error fault => (s, some fault)
  | .ok s => s.writeFile path text

/-- The files under a directory, by their path names in it, in order. -/
def under (directory : List Text) : List (List Text × List UInt8) :=
  let files := s.files.filterMap fun f =>
    (PathName.relativeTo? ⟨0, f.1⟩ ⟨0, directory⟩).map fun path => (path, f.2)
  files.mergeSort fun a b => PathName.le a.1 b.1

end Store

/-! ## Files that are taken -/

/-- Bytes with a line feed at the end of every line, in place of a carriage
    return, or of both. -/
def Source.unifyLines : Source → Source
  | [] => []
  | b :: rest =>
    if b = 13 then
      if rest.head? = some 10 then unifyLines rest else 10 :: unifyLines rest
    else b :: unifyLines rest

/-- Whether a file is taken: its name ends in `.js`. -/
def PathName.isTaken (path : List Text) : Bool :=
  path.getLast?.any fun name => (Text.ofString ".js").isSuffixOf name

/-- What the program needs besides files. -/
structure Host where
  /-- The concrete tree of a text that has line feeds at the ends of its
      lines. -/
  grammar : Source → Option Concrete
  /-- Whether the console takes a line: it takes none with a style tag that
      closes nothing. -/
  takesLine : Text → Bool

/-- What a batch is to do. -/
structure Job extends Host where
  config : Config := {}
  suffix : Text := ".jsx"
  /-- The directory that is searched for files. -/
  input : List Text
  output : List Text

namespace Job

variable (j : Job)

/-- The path name, in the input directory, of a file that is taken. -/
def source? (path : List Text) : Option (List Text) :=
  (PathName.relativeTo? ⟨0, path⟩ ⟨0, j.input⟩).filter PathName.isTaken

/-- The files that are taken, in the order of their path names. -/
def sources (s : Store) : List (List Text) :=
  (s.files.filterMap fun f => j.source? f.1).mergeSort PathName.le

/-- What a pass leaves of the text that some bytes spell. -/
def reconstruct (bytes : Source) : Except Fault Text :=
  match Utf8.decode? bytes with
  | none => .error .malformedBytes
  | some _ =>
    match j.grammar bytes.unifyLines with
    | none => .error .missingTree
    | some tree => reconstructSource j.config bytes.unifyLines tree

/-- What a pass leaves of a file. -/
def reconstructFile (s : Store) (path : List Text) : Except Fault Text :=
  match s.bytes? (j.input ++ path) with
  | none => .error .fileNotFound
  | some bytes => j.reconstruct bytes

/-- The store after a file is read and its result is written to a target, and
    what went wrong. -/
def convert (s : Store) (path target : List Text) : Store × Option Fault :=
  match j.reconstructFile s path with
  | .error fault => (s, some fault)
  | .ok text => s.write target text

end Job

/-! ## Runs -/

/-- What a batch has done. -/
structure Batch where
  processed : List (List Text) := []
  failed : List (List Text × Fault) := []
  store : Store := {}

namespace Batch

/-- Whether no file has failed. -/
def isOk (b : Batch) : Bool :=
  b.failed.isEmpty

/-- The files that had their turn. -/
def count (b : Batch) : Nat :=
  b.processed.length + b.failed.length

/-- The batch after one more file, with what is left and what went wrong. -/
def add (b : Batch) (path : List Text) : Store × Option Fault → Batch
  | (store, none) => { b with processed := b.processed ++ [path], store }
  | (store, some fault) => { b with failed := b.failed ++ [(path, fault)], store }

/-- The line on a file: its number among all, whether it has failed, and if not,
    where its result is. -/
def line (number total : Nat) (path target : List Text) (fault : Option Fault) : Text :=
  let place := Text.ofString "[" ++ Text.ofNat number ++ Text.ofString "/" ++ Text.ofNat total
    ++ Text.ofString "] "
  match fault with
  | some _ => place ++ Text.ofString "❌ " ++ Text.join "/" path
  | none =>
    place ++ Text.ofString "✅ " ++ Text.join "/" path ++ Text.ofString " -> "
      ++ Text.join "/" target

end Batch

namespace Job

variable (j : Job)

/-- The batch after one more of its files, and what has stopped it: a suffix
    that the name cannot have, or the console. -/
def step (total : Nat) (b : Batch) (path : List Text) : Batch × Option Fault :=
  match PathName.outputPath ⟨0, j.input ++ path⟩ ⟨0, j.input⟩ ⟨0, j.output⟩ j.suffix with
  | .error fault => (b, some fault)
  | .ok target =>
    let result := j.convert b.store path target.parts
    let line := Batch.line (b.count + 1) total path (target.parts.drop j.output.length) result.2
    (b.add path result, if j.takesLine line then none else some .refusedLine)

/-- The batch after more of its files, up to the first that stops it. -/
def runFrom (total : Nat) (b : Batch) : List (List Text) → Batch × Option Fault
  | [] => (b, none)
  | path :: paths =>
    match j.step total b path with
    | (b, none) => runFrom total b paths
    | (b, some fault) => (b, some fault)

/-- The batch of all files that are taken, and what has stopped it. -/
def run (s : Store) : Batch × Option Fault :=
  j.runFrom (j.sources s).length { store := s } (j.sources s)

end Job

end Resugar
