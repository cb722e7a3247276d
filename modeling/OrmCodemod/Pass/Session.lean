import OrmCodemod.Dialect
import OrmCodemod.Editor
import OrmCodemod.Log
import OrmCodemod.Pattern.Parse
import OrmCodemod.Schema.Model
import OrmCodemod.Settings

/-!
The state of one pass over one source: the edits made, what was found out about the schema, and
what there is to say. A step that fails keeps the state it had reached.
-/

namespace OrmCodemod

open Syntax Text

/-- Which parts of a source a pass has changed. -/
structure Flags where
  entities : Bool := false
  repositories : Bool := false
  modules : Bool := false
  services : Bool := false
  deriving DecidableEq, Repr

def Flags.any (f : Flags) : Bool := f.entities || f.repositories || f.modules || f.services

/-- Why a pass fails. -/
inductive Fault where
  | dialect (error : DialectError)
  | pattern (error : Pattern.PatternError)
  | overlap (error : Overlap)
  | undecodable (error : DecodeError)
  deriving DecidableEq, Repr

def Fault.message : Fault → String
  | .dialect e => e.message
  | .pattern e => e.message
  | .overlap e => e.message
  | .undecodable e => e.message

/-- What a pass works on. -/
structure SourceUnit where
  source : Bytes
  root : Tree
  settings : Settings

def SourceUnit.place (u : SourceUnit) : Place := ⟨u.root, []⟩

structure Session where
  editor : Editor
  flags : Flags := {}
  models : List Schema.Model := []
  enums : List Schema.EnumType := []
  advisories : Nat := 0
  log : List LogEntry := []

abbrev Pass (α : Type) := ExceptT Fault (StateM Session) α

namespace Pass

def say (level : Level) (message : String) : Pass Unit :=
  modify fun s => { s with log := s.log ++ [⟨level, message⟩] }

def edit (f : Editor → Except Overlap Editor) : Pass Unit := do
  match f (← get).editor with
  | .ok editor => modify fun s => { s with editor }
  | .error o => throw (.overlap o)

/-- Put an advisory comment before the statement that holds a node. Tells whether it was put. -/
def advise (p : Place) (comment : String) : Pass Bool := do
  match (← get).editor.insertCommentBefore p comment with
  | .ok (put, editor) =>
    modify fun s => { s with editor, advisories := if put then s.advisories + 1 else s.advisories }
    return put
  | .error o => throw (.overlap o)

/-- Run a step; where it runs into an overlap, go on with `recover`. -/
def orOnOverlap (step : Pass Unit) (recover : Overlap → Pass Unit) : Pass Unit :=
  tryCatch step fun
    | .overlap o => recover o
    | fault => throw fault

def setFlags (f : Flags → Flags) : Pass Unit := modify fun s => { s with flags := f s.flags }

end Pass
end OrmCodemod
