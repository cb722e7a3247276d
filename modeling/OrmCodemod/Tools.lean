import OrmCodemod.Pass.Outcome

/-!
The pass as tools for an assistant: one converts a snippet, the other prints its schema.
-/

namespace OrmCodemod.Tools

def serverName : String := "typeorm-to-prisma"

/-- What is printed for a snippet without entities. -/
def noEntities : String := "No entity classes found."

def schemaOf (code language : String) (settings : Settings) :
    Except Fault (Option String) × List LogEntry :=
  let (result, log) := transform code language settings none
  (result.map (·.document), log)

def extractSchema (code language : String) (settings : Settings) :
    Except Fault String × List LogEntry :=
  let (result, log) := schemaOf code language settings
  (result.map (·.getD noEntities), log)

def documentEntry (path : Option String) (document : String) : LogEntry :=
  let shown := match path with
    | some p => if p == "" then "<source>" else p
    | none => "<source>"
  ⟨.info, s!"Generated Prisma schema for {shown}:\n{document}"⟩

end OrmCodemod.Tools
