import OrmCodemod.Files.Disk
import OrmCodemod.Pass.Outcome
import OrmCodemod.Schema.Collection

/-!
A pass over every source file below some paths. Each file is handled on its own: one that cannot be
read or transformed is reported and left alone.
-/

namespace OrmCodemod

open Text

def skippedFolders : List String := ["node_modules", "dist", "build", ".git"]

def sourceFilesAt (d : Disk) (folder : List String) (p : Path) : List Path :=
  match d.locate folder p with
  | none => []
  | some parts =>
    if d.isFolder parts then
      (d.filesBelow parts).filterMap fun below =>
        let file : Path := { p with parts := p.parts ++ below }
        if below.any skippedFolders.contains || !Dialect.supports file then none else some file
    else if d.isFile parts && Dialect.supports p then [p]
    else []

/-- The source files below several paths, in the order of the paths. -/
def sourceFiles (d : Disk) (paths : List Path) (folder : List String := []) : List Path :=
  paths.flatMap (sourceFilesAt d folder)

/-- What a migration has done. -/
structure Report where
  scanned : Nat := 0
  changed : List String := []
  failures : List (String × String) := []
  models : List String := []
  schemaPath : Option String := none
  deriving DecidableEq, Repr

/-- Why a migration as a whole fails. -/
inductive MigrationError where
  | pattern (error : Pattern.PatternError)
  | write (error : WriteError)
  deriving DecidableEq, Repr

def MigrationError.message : MigrationError → String
  | .pattern e => e.message
  | .write e => e.message

/-- How far a migration has come. `documents` are the schemas of single files. -/
structure Migration where
  disk : Disk
  report : Report := {}
  collection : Schema.Collection := {}
  documents : List (String × String) := []
  log : List LogEntry := []

/-- What came of reading and transforming a file. -/
inductive FileResult where
  | done (outcome : Outcome)
  | failed (message : String)
  | fatal (error : Pattern.PatternError)

def readText (d : Disk) (folder : List String) (file : Path) : Except String String :=
  match (d.locate folder file).bind d.content? with
  | none => .error "not found"
  | some bytes =>
    match decodeChars bytes with
    | .ok chars => .ok (String.ofList (unifyNewlines chars))
    | .error e => .error e.message

def transformFile (d : Disk) (folder : List String) (settings : Settings) (file : Path) :
    FileResult × List LogEntry :=
  match readText d folder file with
  | .error message => (.failed message, [])
  | .ok source =>
    match Dialect.ofPath file with
    | .error e => (.failed e.message, [])
    | .ok dialect =>
      match Outcome.ofSource dialect settings source (some file.toString) with
      | (.ok outcome, said) => (.done outcome, said)
      | (.error (.pattern e), said) => (.fatal e, said)
      | (.error fault, said) => (.failed fault.message, said)

namespace Migration

def say (m : Migration) (level : Level) (message : String) : Migration :=
  { m with log := m.log ++ [⟨level, message⟩] }

def step (folder : List String) (settings : Settings) (dryRun : Bool) (m : Migration) (file : Path) :
    Except (Migration × MigrationError) Migration :=
  let name := file.toString
  let (result, said) := transformFile m.disk folder settings file
  let m := { m with
    report := { m.report with scanned := m.report.scanned + 1 }
    log := m.log ++ said }
  match result with
  | .fatal e => .error (m, .pattern e)
  | .failed message =>
    let m := m.say .error s!"Failed to transform {name}: {message}"
    .ok { m with report := { m.report with
      failures := Settings.putPair name message m.report.failures } }
  | .done outcome =>
    let documents := match outcome.document with
      | some document => m.documents ++ [(name, document)]
      | none => m.documents
    let (collection, said) := m.collection.add outcome.models outcome.enums (some name)
    let m := { m with documents, collection, log := m.log ++ said }
    if outcome.changed then
      let disk := match dryRun, m.disk.locate folder file with
        | false, some parts => m.disk.put parts (encode outcome.output)
        | _, _ => m.disk
      let m := { m with disk, report := { m.report with changed := m.report.changed ++ [name] } }
      .ok (m.say .info ((if dryRun then "Would rewrite " else "Rewrote ") ++ name))
    else .ok m

def steps (folder : List String) (settings : Settings) (dryRun : Bool) (m : Migration) :
    List Path → Except (Migration × MigrationError) Migration
  | [] => .ok m
  | file :: rest =>
    match m.step folder settings dryRun file with
    | .error e => .error e
    | .ok m => m.steps folder settings dryRun rest

def writeSchema (folder : List String) (target : Path) (m : Migration) :
    Except (Migration × MigrationError) Migration :=
  match m.collection.render with
  | none => .ok m
  | some document =>
    match m.disk.writeNew folder target (encode document) with
    | .error e => .error (m, .write e)
    | .ok disk =>
      let m := { m with disk, report := { m.report with schemaPath := some target.toString } }
      .ok (m.say .info s!"Wrote {m.collection.models.length} model(s) to {target.toString}")

/-- Transform every source file below the paths, and write the schema of all of them if a place for
it is given; paths lead from the working folder. A failure comes with what was done before it. -/
def run (disk : Disk) (paths : List Path) (settings : Settings) (dryRun : Bool)
    (schemaOut : Option Path) (folder : List String := []) :
    Except (Migration × MigrationError) Migration :=
  let start : Migration := { disk, collection := { provider := settings.provider } }
  match start.steps folder settings dryRun (sourceFiles disk paths folder) with
  | .error e => .error e
  | .ok m =>
    let m := { m with report := { m.report with models := m.collection.modelNames } }
    match schemaOut with
    | none => .ok m
    | some target => m.writeSchema folder target

end Migration
end OrmCodemod
