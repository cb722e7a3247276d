import OrmCodemod.Command.Execute

/-!
The program: it reads the files that the paths of a command lead to, runs the command over them and
writes back what the command has changed.
-/

namespace OrmCodemod.Program

open Text

def place (parts : List String) : String := "/" ++ joinWith "/" parts

/-- What stands at a place, if anything does. Only files that a command can read come with their
content. -/
def entryAt (parts : List String) : IO (Option (List String × Option Bytes)) := do
  try
    let found ← IO.FS.realPath (place parts)
    match (← found.metadata).type with
    | .dir => return some (parts, none)
    | .file =>
      let content ←
        if Dialect.supports ⟨"/", parts⟩ then pure (← IO.FS.readBinFile found).toList else pure []
      return some (parts, some content)
    | _ => return none
  catch _ => return none

/-- What stands at a place and below it, at most `depth` folders deep. Links are not followed. -/
def entriesFrom : Nat → List String → IO (List (List String × Option Bytes))
  | 0, _ => return []
  | depth + 1, parts => do
    match ← entryAt parts with
    | none => return []
    | some (_, some content) => return [(parts, some content)]
    | some (_, none) =>
      let found ← (← IO.FS.realPath (place parts)).readDir
      let below ← found.toList.mapM fun e => do
        if (← e.path.symlinkMetadata).type == .symlink then return []
        entriesFrom depth (parts ++ [e.fileName])
      return (parts, none) :: below.flatten

/-- The places that components lead through from a folder, the last of them at the end. -/
def placesOn (here : List String) : List String → List (List String)
  | [] => [here]
  | part :: rest => here :: placesOn (Disk.enter here part) rest

def pathsOf : Option Command.Request → List Path
  | some (.run paths _ schemaOut _ _ _ _) => paths ++ schemaOut.toList
  | some (.schema paths _) => paths
  | _ => []

/-- The part of the tree that paths lead to from the working folder. -/
def readDisk (folder : List String) (paths : List Path) : IO Disk := do
  let ways := paths.map fun p => placesOn (p.origin folder) p.parts
  let ends := ways.filterMap List.getLast?
  let roots := ends.eraseDups.filter fun r => !ends.any fun q => q != r && q.isPrefixOf r
  let passed := ways.flatten.eraseDups.filter fun r => !roots.any fun q => q.isPrefixOf r
  return ⟨(← roots.mapM (entriesFrom 64)).flatten ++ (← passed.filterMapM entryAt)⟩

/-- The variables that settings come from, without their stem. -/
def environment : IO (List (String × String)) :=
  (Settings.environmentNames.map (·.1) ++ ["MODEL_MAPPING"]).filterMapM fun variableName => do
    let value ← IO.getEnv (Settings.environmentStem ++ variableName)
    return value.map (variableName, ·)

def writeBack (before after : Disk) : IO Unit :=
  after.entries.forM fun (parts, content) => do
    match content with
    | some bytes =>
      if before.content? parts != some bytes then
        IO.FS.createDirAll (place parts.dropLast)
        IO.FS.writeBinFile (place parts) ⟨bytes.toArray⟩
    | none => return

def logLines (log : List LogEntry) : String := joinWith "" (log.map fun e => e.message ++ "\n")

def run (args : List String) : IO UInt32 := do
  let folder := (Path.ofString (← IO.currentDir).toString).parts
  let disk ← readDisk folder (pathsOf (Command.request args))
  let result := Command.execute disk (← environment) args folder
  writeBack disk result.disk
  IO.print (result.stdout logLines (Command.verbose args))
  if let some failure := result.failure then IO.eprintln failure.message
  match Command.request args with
  | none => IO.eprint Command.usage
  | some .help => IO.print Command.usage
  | some _ => pure ()
  return result.exitCode.toUInt32

end OrmCodemod.Program

def main (args : List String) : IO UInt32 := OrmCodemod.Program.run args
