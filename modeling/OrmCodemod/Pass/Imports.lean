import OrmCodemod.Pass.Session
import OrmCodemod.Pass.Calls
import OrmCodemod.Pass.Entities
import OrmCodemod.Text.Search

/-!
Registrations of the database module become the client module, imports of the source library lose
the names that are no longer used, and the modules put in their place are imported.
-/

namespace OrmCodemod.Imports

open Syntax Text

def sourceLibrary : String := "typeorm"

def integrationLibrary : String := "@nestjs/typeorm"

def registrar : String := "TypeOrmModule"

def rootRegistrations : List String := ["forRoot", "forRootAsync"]

def registrationMethods : List String := rootRegistrations ++ ["forFeature"]

def repositoryNames : List String := [Resolver.repositoryType, "getRepository"]

def schemaNames : List String :=
  Entities.entityDecorator :: Schema.decoratorRoles.map (·.1)

def entityImportAdvisory : String :=
  "// TODO: review this entity import; Prisma generated types may replace it."

def importStatements (u : SourceUnit) : List Place :=
  u.place.namedChildren.filter (·.tree.is .importStatement)

def modulePath? (u : SourceUnit) (statement : Tree) : Option String :=
  (statement.child? .source).bind (·.stringValue u.source)

/-- What is imported in general: everything but the module. -/
def clause? (statement : Tree) : Option Tree :=
  statement.namedChildren.find? (·.is .importClause)

def specifiers (statement : Tree) : List Tree :=
  match (clause? statement).bind fun c => c.namedChildren.find? (·.is .namedImports) with
  | some named => named.significant.filter (·.is .importSpecifier)
  | none => []

def importedName (u : SourceUnit) (specifier : Tree) : String :=
  match specifier.child? .name with
  | none => specifier.text u.source
  | some name =>
    if name.is .stringLiteral then (name.stringValue u.source).getD "" else name.text u.source

def importedNames (u : SourceUnit) (statement : Tree) : List String :=
  (specifiers statement).map (importedName u)

/-- Drop specifiers; an import of which nothing is left goes with its line. -/
def dropSpecifiers (u : SourceUnit) (statement : Tree) (dropped : List String) : Pass Unit := do
  match clause? statement with
  | none => return
  | some clause =>
    let kept := (specifiers statement).filter fun s => !dropped.contains (importedName u s)
    let others := clause.significant.filter fun c => !c.is .namedImports
    let parts := others.map (·.text u.source) ++
      (if kept.isEmpty then []
        else ["\x7b " ++ joinWith ", " (kept.map (·.text u.source)) ++ " \x7d"])
    if parts.isEmpty then Pass.edit (·.removeStatement statement)
    else Pass.edit (·.replace clause (joinWith ", " parts))

def quote (u : SourceUnit) : String :=
  match (importStatements u).findSome? fun p => p.tree.child? .source with
  | some source => String.ofList ((source.text u.source).toList.take 1)
  | none => "'"

/-- Import a name at the top of the source, unless its module was seen to or is imported already.
Gives the modules seen to. -/
def ensureImport (u : SourceUnit) (symbol path : String) (ensured : List String) :
    Pass (List String) := do
  if ensured.contains path then return ensured
  if !(importStatements u).any fun p => modulePath? u p.tree == some path then
    let q := quote u
    Pass.edit (·.insertAt 0 ("import \x7b " ++ symbol ++ " \x7d from " ++ q ++ path ++ q ++ ";\n"))
    Pass.say .debug s!"Added import of {symbol} from {path}"
  return path :: ensured

def encloses (outer inner : Place) : Bool :=
  !outer.same inner && outer.start ≤ inner.start && inner.stop ≤ outer.stop

/-- The registrations of the database module, with their methods. -/
def registrationSites (u : SourceUnit) : List (Place × String) :=
  u.place.registrations.filterMap fun r =>
    let method := r.method.text u.source
    if r.registrar.text u.source == registrar && registrationMethods.contains method then
      some (r.call, method)
    else none

/-- How far the import stage has come: the modules seen to, and the registrations replaced. -/
structure Progress where
  ensured : List String := []
  registrations : Nat := 0

def convertRegistration (u : SourceUnit) (progress : Progress) (call : Place) (method : String) :
    Pass Progress := do
  let module := u.settings.moduleName
  let text := if rootRegistrations.contains method then module ++ "()" else module
  match (← get).editor.replace call.tree text with
  | .error o =>
    let line := lineNumber u.source call.start
    Pass.say .warning s!"Skipping registration at line {line}: {o.message}"
    return progress
  | .ok editor =>
    modify fun s => { s with editor }
    let ensured ← ensureImport u module u.settings.modulePath progress.ensured
    Pass.setFlags fun f => { f with modules := true }
    return ⟨ensured, progress.registrations + 1⟩

/-- Replace those of the given registrations that no other of them holds. -/
def convertRegistrations (u : SourceUnit) (sites : List (Place × String)) : Pass Progress :=
  sites.foldlM (fun progress (call, method) =>
    if sites.any fun other => encloses other.1 call then return progress
    else convertRegistration u progress call method) {}

def convertSourceImport (u : SourceUnit) (progress : Progress) (statement : Tree) :
    Pass Progress := do
  let names := importedNames u statement
  let repositories := names.contains Resolver.repositoryType
  let ensured ←
    if repositories then
      ensureImport u u.settings.clientService u.settings.clientServicePath progress.ensured
    else pure progress.ensured
  let dropped := (if repositories then repositoryNames else []) ++
    (if names.any schemaNames.contains then schemaNames else [])
  if names.any dropped.contains then
    dropSpecifiers u statement dropped
    Pass.setFlags fun f => { f with modules := true }
  return { progress with ensured }

/-- An import of the library that joins the source library to the framework. -/
def convertIntegrationImport (u : SourceUnit) (progress : Progress) (statement : Tree) :
    Pass Unit := do
  let dropped := (if progress.registrations == 0 then [] else [registrar]) ++
    (if (← get).flags.repositories then [Calls.injectionDecorator] else [])
  if (importedNames u statement).any dropped.contains then
    dropSpecifiers u statement dropped
    Pass.setFlags fun f => { f with modules := true }

/-- A path of the repositories of the source library, whatever its case. -/
def isRepositoryPath (path : String) : Bool :=
  let want := "typeorm/repository".toList
  someTail (fun cs => want.length ≤ cs.length &&
    (want.zip cs).all fun (a, b) => Pattern.sameChar true a b) path.toList

def isEntityPath (path : String) : Bool :=
  path.endsWith ".entity" || holds "/entities/".toList path.toList

def convertImport (u : SourceUnit) (progress : Progress) (statement : Place) : Pass Progress := do
  match modulePath? u statement.tree with
  | none => return progress
  | some path =>
    if path == sourceLibrary then convertSourceImport u progress statement.tree
    else if isRepositoryPath path then
      Pass.edit (·.removeStatement statement.tree)
      Pass.setFlags fun f => { f with modules := true }
      return progress
    else if path == integrationLibrary then
      convertIntegrationImport u progress statement.tree
      return progress
    else if isEntityPath path then
      let _ ← Pass.advise statement entityImportAdvisory
      return progress
    else return progress

/-- Convert the registrations and then the imports of a source. -/
def convert (u : SourceUnit) : Pass Unit := do
  let progress ← convertRegistrations u (registrationSites u)
  let _ ← (importStatements u).foldlM (convertImport u) progress

end OrmCodemod.Imports
