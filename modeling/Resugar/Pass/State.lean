import Resugar.Class.Factory
import Resugar.Markup.Call
import Resugar.Module.Load
import Resugar.Names
import Resugar.Rename

/-!
# The state of a pass

What a pass knows from the start (`Surroundings`), and what it gathers on its
way through a program (`PassState`): the bindings to rename, the imports to add,
the names that were exported, the names in use, and what it has rebuilt. Of
every declarator it notes what became of it (`Sighting`).
-/

namespace Resugar

/-- How much a pass has rebuilt. -/
structure Tally where
  markup : Nat := 0
  classes : Nat := 0
  imports : Nat := 0
  exports : Nat := 0
  deriving DecidableEq

/-- All that was rebuilt. -/
def Tally.total (t : Tally) : Nat :=
  t.markup + t.classes + t.imports + t.exports

/-- What a pass knows of a program from the start. -/
structure Surroundings where
  config : Config
  /-- The functions that wrap loads. -/
  helpers : Table ImportKind
  /-- The function of the program that makes markup. -/
  customRuntime : Option Text

/-- By what markup calls are recognised. -/
def Surroundings.dialect (s : Surroundings) : Dialect :=
  ⟨s.config, s.customRuntime⟩

/-- What becomes of a declarator. -/
inductive Verdict where
  /-- Statements stand for it, with the class that a factory makes. -/
  | rebuilt (factory : Factory) (className : Text) (statements : List Node)
  /-- It becomes an import, and its variable gets the name of the import. -/
  | loaded (binding name : Text)
  | kept
  /-- It stays beside a class, whatever it holds. -/
  | skipped

/-- A declarator, once the nodes below it are visited. -/
structure Sighting where
  declarator : Node
  /-- Whether any number of statements can stand where its declaration does. -/
  inList : Bool
  alone : Bool
  verdict : Verdict

/-- What a pass gathers. -/
structure PassState where
  renames : Renaming := {}
  /-- The imports to add; there is one for each module and kind. -/
  imported : List Import := []
  exported : List Text := []
  /-- The variables that are exported with their value and no longer defined,
      with the exported names. -/
  extracted : List (Text × Text) := []
  /-- The markup calls that elements took the place of. -/
  rebuilt : List Node := []
  seen : List Sighting := []
  names : Names
  tally : Tally := {}

/-- The import declarations to add. -/
def PassState.imports (s : PassState) : List Node :=
  s.imported.map Import.declaration

/-- A step of a pass. -/
abbrev PassM := StateT PassState (Except Fault)

namespace PassM

/-- Reserve a name. -/
def allocate (base : Text) (current : Option Text) : PassM Text := do
  let s ← get
  let (name, names) := s.names.allocate base current
  set { s with names }
  return name

/-- The name under which a module is imported for a variable. A module is
    imported once in each way. -/
def importBinding (config : Config) (binding source : Text) (kind : ImportKind) : PassM Text := do
  match (← get).imported.find? fun i => i.source == source && i.kind == kind with
  | some i => return i.name
  | none =>
    let base ← (bindingName config.importAliases binding : Except Fault Text)
    let name ← allocate base (some binding)
    modify fun s => { s with imported := s.imported ++ [⟨source, kind, binding, name⟩] }
    return name

/-- Rename a binding from now on. -/
def rename (binding name : Text) : PassM Unit :=
  modify fun s => { s with renames := s.renames.add binding name }

/-- Note an exported name. -/
def noteExport (key : Text) : PassM Unit :=
  modify fun s =>
    { s with exported := if s.exported.contains key then s.exported else s.exported ++ [key] }

/-- Note a variable that is no longer defined, as its value is exported. -/
def noteExtraction (key binding : Text) : PassM Unit :=
  modify fun s => { s with extracted := s.extracted ++ [(key, binding)] }

/-- Note a markup call that an element takes the place of. -/
def noteRebuilt (call : Node) : PassM Unit :=
  modify fun s => { s with rebuilt := s.rebuilt ++ [call] }

/-- Note what becomes of a declarator. -/
def noteSighting (x : Sighting) : PassM Unit :=
  modify fun s => { s with seen := s.seen ++ [x] }

/-- Count what was rebuilt. -/
def count (f : Tally → Tally) : PassM Unit :=
  modify fun s => { s with tally := f s.tally }

end PassM

end Resugar
