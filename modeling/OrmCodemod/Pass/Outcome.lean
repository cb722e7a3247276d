import OrmCodemod.Pass.Entities
import OrmCodemod.Pass.Calls
import OrmCodemod.Pass.Imports
import OrmCodemod.Schema.Render
import OrmCodemod.Syntax.Parse

/-!
One pass over one source: the schema is read off, the calls are converted, the imports follow. A
source in which nothing was converted comes out as it went in.
-/

namespace OrmCodemod

open Syntax Text

/-- What a pass gives. -/
structure Outcome where
  output : String
  changed : Bool
  flags : Flags
  models : List Schema.Model := []
  enums : List Schema.EnumType := []
  document : Option String := none
  advisories : Nat := 0
  deriving DecidableEq, Repr

namespace Outcome

def stages (u : SourceUnit) : Pass Unit := do
  Entities.extract u
  Calls.convert u
  Imports.convert u

def ofSession (settings : Settings) (source : String) (s : Session) : Except Fault Outcome := do
  let fired := s.flags.any
  let output ← if fired then s.editor.print.mapError Fault.undecodable else pure source
  let document := if s.models.isEmpty then none
    else some (Schema.document s.models s.enums settings.provider)
  return {
    output
    changed := fired && output != source
    flags := s.flags
    models := s.models
    enums := s.enums
    document
    advisories := if fired then s.advisories else 0 }

def start (source : Bytes) (parsed : Parsed) (path : Option String) : Session :=
  let shown := match path with
    | some p => if p == "" then "<source>" else p
    | none => "<source>"
  { editor := { source }
    log := if parsed.broken then
      [⟨.warning, s!"{shown} has syntax errors; rewriting what could be parsed"⟩] else [] }

/-- Transform a parsed source. `path` is only named in messages. -/
def ofParsed (parsed : Parsed) (settings : Settings) (source : String) (path : Option String) :
    Except Fault Outcome × List LogEntry :=
  let bytes := encode source
  match (stages ⟨bytes, parsed.root, settings⟩).run.run (start bytes parsed path) with
  | (.error fault, s) => (.error fault, s.log)
  | (.ok (), s) => (ofSession settings source s, s.log)

def ofSource (dialect : Dialect) (settings : Settings) (source : String) (path : Option String) :
    Except Fault Outcome × List LogEntry :=
  ofParsed (parse dialect source) settings source path

end Outcome

/-- Transform a source in the dialect a user names, from the tree that a parser gives. -/
def transformWith (parser : Dialect → String → Parsed) (source : String) (language : String)
    (settings : Settings) (path : Option String) : Except Fault Outcome × List LogEntry :=
  match Dialect.ofName language with
  | .error e => (.error (.dialect e), [])
  | .ok dialect => Outcome.ofParsed (parser dialect source) settings source path

def transform (source : String) (language : String) (settings : Settings) (path : Option String) :
    Except Fault Outcome × List LogEntry :=
  transformWith parse source language settings path

end OrmCodemod
