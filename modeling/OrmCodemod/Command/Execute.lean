import OrmCodemod.Command.Arguments
import OrmCodemod.Console.Markup
import OrmCodemod.Console.Table
import OrmCodemod.Files.Migration

/-!
The two commands: `run` converts the files below some paths and reports what it did, `schema` prints
the schema of their entities.
-/

namespace OrmCodemod.Command

open Console

/-- What escapes from a command. -/
inductive Failure where
  | migration (error : MigrationError)
  | markup (error : MarkupError)
  deriving DecidableEq, Repr

def Failure.message : Failure → String
  | .migration e => e.message
  | .markup e => e.message

/-- What a command leaves behind: its exit code, what it printed before its first file and after its last
one, the files, and what escaped. -/
structure Result where
  exitCode : Nat
  opening : String := ""
  closing : String := ""
  disk : Disk
  failure : Option Failure := none
  log : List LogEntry := []

def Result.printed (r : Result) : String := r.opening ++ r.closing

/-- The messages that are shown: those for debugging only if every message is asked for. -/
def Result.shown (verbose : Bool) (r : Result) : List LogEntry :=
  r.log.filter fun e => verbose || e.level != .debug

/-- What stands on standard output. The handler of the log writes there as well, while the files are
visited. -/
def Result.stdout (handler : List LogEntry → String) (verbose : Bool) (r : Result) : String :=
  r.opening ++ handler (r.shown verbose) ++ r.closing

/-- Text that is printed line by line, its style tags left out. An error comes with the lines before. -/
def printLines (texts : List String) : Except (String × MarkupError) String :=
  texts.foldlM (fun acc s =>
    match plain s with
    | .ok text => .ok (acc ++ text ++ "\n")
    | .error e => .error (acc, e)) ""

/-- Settings from the environment and the options of a command. -/
def settingsOf (env : List (String × String)) (clientMember modelCase provider : Option String)
    (models : List String) : Except Settings.LoadError Settings := do
  let given (name : String) (value : Option String) : List (String × Data) :=
    match value with
    | some v => [(name, .text v)]
    | none => []
  let mapping ←
    if models.isEmpty then pure []
    else match Settings.parseMapping models with
      | .ok pairs => pure [("model_mapping", Data.record (pairs.map fun p => (p.1, .text p.2)))]
      | .error e => .error (.mapping e)
  Settings.load env (given "client_member" clientMember ++ given "model_case" modelCase ++
    given "datasource_provider" provider ++ mapping)

def missingLines (d : Disk) (folder : List String) (paths : List Path) : List String :=
  let existing := paths.filter (d.holds folder)
  (paths.filter fun p => !existing.contains p).map fun p =>
    "[yellow]Skipping missing path[/yellow] " ++ p.toString

def plainRow (row : String × String) : Except MarkupError (String × String) :=
  return (← plain row.1, ← plain row.2)

/-- The report of a migration; an error comes with what was printed of it. -/
def reportText (r : Report) (dryRun : Bool) : Except (String × MarkupError) String := do
  let status := if dryRun then "[yellow]would change[/yellow]" else "[green]rewritten[/green]"
  let rows := r.changed.map (·, status) ++
    r.failures.map fun f => (f.1, "[red]failed[/red]: " ++ f.2)
  let rows ← (rows.mapM plainRow).mapError fun e => ("", e)
  let files := table ("file", "status") rows
  let summary :=
    s!"({r.scanned} scanned, {r.changed.length} changed, {r.failures.length} failed)"
  let models := if r.models.isEmpty then []
    else ["[green]Models[/green]: " ++ Text.joinWith ", " r.models]
  let schema := match r.schemaPath with
    | some path => ["[green]Wrote[/green] schema to " ++ path]
    | none => []
  let lines ← (printLines (summary :: models ++ schema)).mapError fun e => (files ++ e.1, e.2)
  return files ++ lines

def runCommand (disk : Disk) (folder : List String) (settings : Settings) (paths : List Path)
    (dryRun : Bool) (schemaOut : Option Path) : Result :=
  let existing := paths.filter (disk.holds folder)
  let missing := missingLines disk folder paths
  if existing.isEmpty then
    match printLines (missing ++ ["[red]No input files found.[/red]"]) with
    | .ok opening => { exitCode := 1, opening, disk }
    | .error (opening, e) => { exitCode := 1, opening, disk, failure := some (.markup e) }
  else
    match printLines missing with
    | .error (opening, e) => { exitCode := 1, opening, disk, failure := some (.markup e) }
    | .ok opening =>
      match Migration.run disk existing settings dryRun schemaOut folder with
      | .error (m, e) =>
        { exitCode := 1, opening, disk := m.disk, failure := some (.migration e), log := m.log }
      | .ok m =>
        match reportText m.report dryRun with
        | .ok closing => { exitCode := 0, opening, closing, disk := m.disk, log := m.log }
        | .error (closing, e) =>
          { exitCode := 1, opening, closing, disk := m.disk, failure := some (.markup e), log := m.log }

def collect (disk : Disk) (folder : List String) (settings : Settings) :
    Schema.Collection → List LogEntry → List Path →
      Except (Pattern.PatternError × List LogEntry) (Schema.Collection × List LogEntry)
  | c, log, [] => .ok (c, log)
  | c, log, file :: rest =>
    match transformFile disk folder settings file with
    | (.fatal e, said) => .error (e, log ++ said)
    | (.failed message, said) =>
      collect disk folder settings c (log ++ said ++
        [⟨.error, s!"Failed to read entities from {file.toString}: {message}"⟩]) rest
    | (.done outcome, said) =>
      let (c, more) := c.add outcome.models outcome.enums (some file.toString)
      collect disk folder settings c (log ++ said ++ more) rest

def schemaCommand (disk : Disk) (folder : List String) (settings : Settings) (paths : List Path) :
    Result :=
  let existing := paths.filter (disk.holds folder)
  let missing := missingLines disk folder paths
  let lines := if existing.isEmpty then missing ++ ["[red]No input files found.[/red]"] else missing
  match printLines lines with
  | .error (opening, e) => { exitCode := 1, opening, disk, failure := some (.markup e) }
  | .ok opening =>
    if existing.isEmpty then { exitCode := 1, opening, disk }
    else
      match collect disk folder settings { provider := settings.provider } []
        (sourceFiles disk existing folder) with
      | .error (e, log) =>
        { exitCode := 1, opening, disk, failure := some (.migration (.pattern e)), log }
      | .ok (c, log) =>
        match c.render with
        | some document => { exitCode := 0, opening, closing := document, disk, log }
        | none => { exitCode := 0, opening, closing := "No entity classes found.\n", disk, log }

/-- Run a command line over a tree of files, from the working folder. `env` gives the variables of the
environment without their stem. -/
def execute (disk : Disk) (env : List (String × String)) (args : List String)
    (folder : List String := []) : Result :=
  match request args with
  | none => { exitCode := 2, disk }
  | some .help => { exitCode := 0, disk }
  | some (.run paths dryRun schemaOut clientMember modelCase provider models) =>
    match settingsOf env clientMember modelCase provider models with
    | .error _ => { exitCode := 2, disk }
    | .ok settings => runCommand disk folder settings paths dryRun schemaOut
  | some (.schema paths provider) =>
    match settingsOf env none none provider [] with
    | .error _ => { exitCode := 2, disk }
    | .ok settings => schemaCommand disk folder settings paths

end OrmCodemod.Command
