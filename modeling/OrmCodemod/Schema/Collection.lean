import OrmCodemod.Schema.Render
import OrmCodemod.Log

/-!
The schema of many files. The first definition of a model stays; an enumeration without members is
only a stand-in and gives way, in its place, to the first definition with members.
-/

namespace OrmCodemod.Schema

structure Collection where
  provider : String := "postgresql"
  models : List Model := []
  enums : List EnumType := []

namespace Collection

def modelNames (c : Collection) : List String := c.models.map (·.name)

/-- Keep a model unless its name is taken, and then say so. -/
def addModel (origin : Option String) (c : Collection) (m : Model) : Collection × List LogEntry :=
  if c.models.any (·.name == m.name) then
    let file := origin.getD "None"
    (c, [⟨.warning, s!"Model {m.name} from {file} was already collected; keeping the first"⟩])
  else ({ c with models := c.models ++ [m] }, [])

/-- Keep an enumeration that is new, or that has members where the known one has none. -/
def addEnum (c : Collection) (e : EnumType) : Collection :=
  match c.enums.find? fun known => known.name == e.name with
  | none => { c with enums := c.enums ++ [e] }
  | some known =>
    if known.values.isEmpty && !e.values.isEmpty then
      { c with enums := upsert EnumType.name e c.enums }
    else c

def addModels (origin : Option String) (c : Collection) : List Model → Collection × List LogEntry
  | [] => (c, [])
  | m :: ms =>
    let (c, said) := addModel origin c m
    let (c, more) := addModels origin c ms
    (c, said ++ more)

def add (c : Collection) (models : List Model) (enums : List EnumType) (origin : Option String) :
    Collection × List LogEntry :=
  let (c, said) := c.addModels origin models
  (enums.foldl addEnum c, said)

/-- The document of everything collected, if there is a model. -/
def render (c : Collection) : Option String :=
  if c.models.isEmpty then none else some (document c.models c.enums c.provider)

end Collection
end OrmCodemod.Schema
