import OrmCodemod.Path
import OrmCodemod.Text.Utf8

/-!
A tree of files, named from its root. Folders are there where something is in them, and empty ones are
listed. A path that is not absolute leads from the folder that a command is run in.
-/

namespace OrmCodemod

open Text

/-- Files by their components; without content an entry is a folder. -/
structure Disk where
  entries : List (List String × Option Bytes) := []

/-- Why a file could not be written. -/
inductive WriteError where
  | fileExists
  | notAFolder
  | isAFolder
  | notFound
  deriving DecidableEq, Repr

def WriteError.message : WriteError → String
  | .fileExists => "a file stands where a folder has to be made"
  | .notAFolder => "a file stands where a folder is needed"
  | .isAFolder => "a folder stands where the file has to be written"
  | .notFound => "the folder to write from is not there"

namespace Disk

def content? (d : Disk) (parts : List String) : Option Bytes :=
  (d.entries.find? fun e => e.1 == parts && e.2.isSome).bind (·.2)

def isFile (d : Disk) (parts : List String) : Bool := (d.content? parts).isSome

def isFolder (d : Disk) (parts : List String) : Bool :=
  parts.isEmpty || d.entries.any fun e =>
    parts.isPrefixOf e.1 && (parts.length < e.1.length || e.2.isNone)

/-- One component further: `..` leads up, at the root it leads nowhere. -/
def enter (here : List String) (part : String) : List String :=
  if part == ".." then here.dropLast else here ++ [part]

/-- Follow components from a folder. -/
def follow (d : Disk) (here : List String) : List String → Option (List String)
  | [] => some here
  | part :: rest => if d.isFolder here then follow d (enter here part) rest else none

/-- Where a path leads from the working folder, whether or not something is there. -/
def locate (d : Disk) (folder : List String) (p : Path) : Option (List String) :=
  d.follow (p.origin folder) p.parts

def holds (d : Disk) (folder : List String) (p : Path) : Bool :=
  match d.locate folder p with
  | some parts => d.isFile parts || d.isFolder parts
  | none => false

def put (d : Disk) (parts : List String) (bytes : Bytes) : Disk :=
  if d.isFile parts then
    ⟨d.entries.map fun e => if e.1 == parts && e.2.isSome then (parts, some bytes) else e⟩
  else ⟨d.entries ++ [(parts, some bytes)]⟩

def partsBefore : List String → List String → Bool
  | [], [] => false
  | [], _ :: _ => true
  | _ :: _, [] => false
  | a :: as, b :: bs => if a == b then partsBefore as bs else a < b

def insertParts (x : List String) : List (List String) → List (List String)
  | [] => [x]
  | y :: ys => if partsBefore x y then x :: y :: ys else y :: insertParts x ys

/-- The files below a folder, as components from that folder on, in order. -/
def filesBelow (d : Disk) (parts : List String) : List (List String) :=
  let below := d.entries.filterMap fun e =>
    if parts.isPrefixOf e.1 && parts.length < e.1.length && e.2.isSome then
      some (e.1.drop parts.length)
    else none
  below.foldl (fun acc x => insertParts x acc) []

/-- Check that a folder can be made, with every folder above it: no file may stand in its way. -/
def checkFolder (d : Disk) (here : List String) : List String → Except WriteError (List String)
  | [] => if d.isFile here then .error .fileExists else .ok here
  | part :: rest =>
    if d.isFile here then .error .notAFolder else checkFolder d (enter here part) rest

def writeNew (d : Disk) (folder : List String) (p : Path) (bytes : Bytes) :
    Except WriteError Disk := do
  match p.parts.getLast? with
  | none => .error .isAFolder
  | some last =>
    let origin := p.origin folder
    if !d.isFolder origin then .error .notFound
    let target := enter (← d.checkFolder origin p.parent.parts) last
    if d.isFolder target then .error .isAFolder else return d.put target bytes

end Disk
end OrmCodemod
