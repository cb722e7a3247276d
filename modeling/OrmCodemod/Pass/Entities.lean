import OrmCodemod.Pass.Session
import OrmCodemod.Pass.Resolver
import OrmCodemod.Schema.Columns

/-!
Models from entity classes. The class itself stays as it is and only gets an advisory comment.
-/

namespace OrmCodemod.Entities

open Syntax Text Schema

def entityDecorator : String := "Entity"

/-- The target of a relation that cannot be told. -/
def unknownModel : String := "Unknown"

def entityAdvisory : String :=
  "// Reference only: this TypeORM entity is described by the generated Prisma schema. " ++
    "Prefer `npx prisma db pull` as the source of truth."

/-- A member of a declared enumeration: its name, and its value if that is a string. -/
structure EnumMember where
  name : String
  value : Option String

abbrev DeclaredEnums := List (String × List EnumMember)

def putEnum (name : String) (members : List EnumMember) : DeclaredEnums → DeclaredEnums
  | [] => [(name, members)]
  | (n, ms) :: rest =>
    if n == name then (name, members) :: rest else (n, ms) :: putEnum name members rest

def enumMember? (source : Bytes) (child : Tree) : Option EnumMember := do
  let assigned := child.is .enumAssignment
  let key ← if assigned then child.child? .name else some child
  let name ← if key.is .stringLiteral then key.stringValue source else some (key.text source)
  let value := if assigned then (child.child? .value).bind (·.stringValue source) else none
  return ⟨name, value⟩

def declaredEnums (u : SourceUnit) : DeclaredEnums :=
  (u.place.find [.enumDeclaration]).foldl (fun acc p =>
    match p.tree.child? .name, p.tree.child? .body with
    | some name, some body =>
      putEnum (name.text u.source) (body.significant.filterMap (enumMember? u.source)) acc
    | _, _ => acc) []

/-- What the description of a field needs to know. -/
structure Scope where
  unit : SourceUnit
  model : String
  enums : DeclaredEnums

namespace Scope

def text (s : Scope) (t : Tree) : String := t.text s.unit.source

def string? (s : Scope) (t : Tree) : Option String := t.stringValue s.unit.source

/-- Note an enumeration for the schema; one that the source does not declare has no members yet. -/
def registerEnum (s : Scope) (name : String) : Pass Unit := do
  let found := s.enums.lookup name
  if found.isNone then
    Pass.say .warning s!"Enum {name} used by model {s.model} is not declared in this file"
  let values := (found.getD []).map (·.name)
  modify fun session => { session with enums := addNew EnumType.name ⟨name, values⟩ session.enums }

def emptyTypes : List String := ["null", "undefined"]

/-- The schema type of an annotation; of a union, that of its first part that is not empty. -/
def scalarOfType (s : Scope) : Nat → Option Tree → Pass String
  | 0, _ => return defaultScalar
  | _, none => return defaultScalar
  | n + 1, some type => do
    if type.isAny [.predefinedType, .typeIdentifier] then
      let name := s.text type
      match annotationTypes.lookup name with
      | some scalar => return scalar
      | none =>
        if (s.enums.lookup name).isSome then
          s.registerEnum name
          return name
        else return scalarOfColumn name
    else if type.is .unionType then
      match type.significant.find? fun part => !emptyTypes.contains (s.text part) with
      | some part => scalarOfType s n (some part)
      | none => return defaultScalar
    else return defaultScalar

def annotated (s : Scope) (field : Tree) : Pass String :=
  let type := field.annotatedType
  s.scalarOfType ((type.map Tree.size).getD 0 + 1) type

def columnType? (s : Scope) (args : List Tree) : Option String := do
  let first ← args.head?
  match s.string? first with
  | some name => some name
  | none =>
    if first.is .object then
      let member ← first.findMember "type" s.unit.source
      let value ← member.memberValue
      s.string? value
    else none

def identity (s : Scope) (name decorator : String) (args : List Tree) (field : Tree) :
    Pass Field := do
  if decorator == "PrimaryColumn" then
    let scalar ← s.annotated field
    let scalar := match s.columnType? args with
      | some type => scalarOfColumn type
      | none => scalar
    return { name, scalar, role := .identity }
  else if (args.head?.bind s.string?) == some "uuid" then
    return { name, scalar := "String", role := .identity, default := some "uuid()" }
  else
    return { name, scalar := "Int", role := .identity, default := some "autoincrement()" }

/-- The name of the enumeration that an `enum` option refers to. One that is listed in place gets a
name from the model and the field. -/
def enumReference (s : Scope) (field : String) (value : Tree) : Pass (Option String) := do
  if value.is .identifier then
    s.registerEnum (s.text value)
    return some (s.text value)
  else if value.is .array then
    let values := value.significant.map s.string?
    if values.isEmpty || values.any (·.isNone) then return none
    let name := s.model ++ upperFirst field
    let listed := (values.filterMap id).filter (· != "")
    modify fun session => { session with enums := addNew EnumType.name ⟨name, listed⟩ session.enums }
    return some name
  else return none

/-- The member of an enumeration that has a value; the value itself if none has. -/
def memberFor (s : Scope) (enum value : String) : String :=
  match ((s.enums.lookup enum).getD []).find? fun m => m.value == some value with
  | some m => m.name
  | none => value

def nowDefaults : List String := ["current_timestamp", "current_timestamp()", "now()"]

def uuidDefaults : List String := ["uuid_generate_v4()", "gen_random_uuid()", "uuid()"]

def defaultOf (s : Scope) (value : Tree) (enum : Option String) : Option String :=
  if value.is .stringLiteral then
    let raw := (s.string? value).getD ""
    match enum with
    | some enum => some (s.memberFor enum raw)
    | none => some ("\"" ++ raw ++ "\"")
  else if value.isAny [.numberLiteral, .trueLiteral, .falseLiteral] then some (s.text value)
  else if value.is .callExpression then
    if (value.child? .callee).any (s.text · == "Date") then some "now()" else none
  else if value.is .newExpression then
    if (value.child? .constructed).any (s.text · == "Date") then some "now()" else none
  else if value.is .arrowFunction then do
    let body ← value.child? .body
    let raw ← s.string? body
    let lowered := lower (trim raw)
    if nowDefaults.contains lowered then some "now()"
    else if uuidDefaults.contains lowered then some "uuid()"
    else none
  else if value.is .memberExpression then (value.child? .property).map s.text
  else none

/-- The options of a column as far as they are read. -/
structure ColumnState where
  field : Field
  typed : Bool := false
  enum : Option String := none
  default : Option Tree := none

def columnOption (s : Scope) (st : ColumnState) (member : Tree) : Pass ColumnState := do
  match member.memberKey s.unit.source, member.memberValue with
  | some key, some value =>
    let on := value.is .trueLiteral
    match key with
    | "type" =>
      match s.string? value with
      | some type =>
        return { st with field := { st.field with scalar := scalarOfColumn type }, typed := true }
      | none => return st
    | "nullable" => return { st with field := { st.field with optional := on } }
    | "unique" => return { st with field := { st.field with unique := on } }
    | "array" => return { st with field := { st.field with isList := on } }
    | "name" => return { st with field := { st.field with mappedName := s.string? value } }
    | "default" => return { st with default := some value }
    | "enum" => return { st with enum := ← s.enumReference st.field.name value }
    | _ => return st
  | _, _ => return st

/-- Apply the options of a column. Tells whether they named a type. -/
def columnOptions (s : Scope) (field : Field) (options : Tree) : Pass (Field × Bool) := do
  let st ← options.significant.foldlM (s.columnOption ·) { field }
  let field := match st.enum with
    | some enum => { st.field with scalar := enum }
    | none => st.field
  let field := match st.default with
    | some value => { field with default := s.defaultOf value st.enum }
    | none => field
  return (field, st.typed || st.enum.isSome)

def column (s : Scope) (name : String) (args : List Tree) (member : Tree) : Pass Field := do
  let plain : Field := { name, scalar := defaultScalar, role := .plain }
  match args with
  | [] => return { plain with scalar := ← s.annotated member }
  | first :: rest =>
    match s.string? first with
    | some type =>
      let field := { plain with scalar := scalarOfColumn type }
      match rest with
      | second :: _ =>
        if second.is .object then return (← s.columnOptions field second).1 else return field
      | [] => return field
    | none =>
      if first.is .object then
        let (field, typed) ← s.columnOptions plain first
        if typed then return field
        else return { field with scalar := ← s.annotated member }
      else return plain

def timestamp (name : String) (role : FieldRole) : Field :=
  match role with
  | .createdAt => { name, scalar := "DateTime", role, default := some "now()" }
  | .updatedAt => { name, scalar := "DateTime", role }
  | _ => { name, scalar := "DateTime", role, optional := true, mappedName := some "deleted_at" }

def elementType : Nat → Tree → Option Tree
  | 0, _ => none
  | n + 1, type => if type.is .arrayType then type.significant.head?.bind (elementType n) else some type

/-- The model a relation points to: what its arrow function or its string names, or else the type of
the field. -/
def relationTarget (s : Scope) (args : List Tree) (member : Tree) : Option String :=
  let ofArrow := do
    let first ← args.head?
    if !first.is .arrowFunction then none
    let body ← first.child? .body
    if body.is .identifier then some (s.text body) else none
  let ofString := do
    let first ← args.head?
    let named ← s.string? first
    if named == "" then none else some named
  let ofType := do
    let type ← member.annotatedType
    let element ← elementType type.size type
    if element.is .typeIdentifier then some (s.text element) else none
  ofArrow <|> ofString <|> ofType

/-- A relation field, and the key field beside it where the model holds the key. -/
def relation (s : Scope) (name : String) (kind : RelationKind) (args : List Tree) (member : Tree) :
    Pass (List Field) := do
  let found := s.relationTarget args member
  if found.isNone then
    Pass.say .warning s!"Could not resolve the target of relation {s.model}.{name}"
  let target := found.getD unknownModel
  let single := kind == .oneToOne
  let many := kind == .oneToMany || kind == .manyToMany
  let relationName :=
    if single || kind == .manyToMany then s!"{s.model}To{target}" else s!"{name}Relation"
  let link : Relation := ⟨kind, target, relationName⟩
  let field : Field :=
    { name, scalar := target, role := .relation, optional := single, isList := many,
      relation := some link }
  return field ::
    (if link.ownsKey then [{ name := name ++ "Id", scalar := "Int", role := .plain }] else [])

/-- The fields that the first decorator with a role describes. -/
def describe (s : Scope) (name : String) (member : Tree) : List Tree → Pass (List Field)
  | [] => return []
  | decorator :: rest => do
    match decorator.decoratorName s.unit.source with
    | none => describe s name member rest
    | some id =>
      let args := decorator.decoratorArguments
      match roleOfDecorator id with
      | none => describe s name member rest
      | some .join => describe s name member rest
      | some .identity => return [← s.identity name id args member]
      | some .plain => return [← s.column name args member]
      | some .relation =>
        match relationOfDecorator id with
        | some kind => s.relation name kind args member
        | none => return []
      | some role => return [timestamp name role]

end Scope

/-- The fields of a class body with their decorators; `pending` are decorators not yet taken. -/
def decoratedFields (pending : List Tree) : List Place → List (Tree × List Tree)
  | [] => []
  | p :: rest =>
    if p.tree.is .decorator then decoratedFields (pending ++ [p.tree]) rest
    else if p.tree.isAny [.publicFieldDefinition, .fieldDefinition] then
      (p.tree, pending ++ p.decorators) :: decoratedFields [] rest
    else decoratedFields [] rest

/-- The table that the decorator of an entity names; an empty name is none. -/
def tableName (entity : Tree) (source : Bytes) : Option String := do
  let first ← entity.decoratorArguments.head?
  let name ←
    if first.is .stringLiteral then first.stringValue source
    else if first.is .object then do
      let member ← first.findMember "name" source
      let value ← member.memberValue
      value.stringValue source
    else none
  if name == "" then none else some name

def classFields (s : Scope) (class_ : Place) : Pass (List Field) := do
  let members := match class_.child? .body with
    | some body => decoratedFields [] body.significant
    | none => []
  members.foldlM (fun acc (member, decorators) => do
    match member.child? .name <|> member.child? .property with
    | none => return acc
    | some name => return acc ++ (← s.describe (s.text name) member decorators)) []

def extractClass (u : SourceUnit) (enums : DeclaredEnums) (class_ : Place) : Pass Unit := do
  let entity := class_.decorators.find? fun d => d.decoratorName u.source == some entityDecorator
  match entity, class_.tree.className u.source with
  | some entity, some name =>
    if name == "" then return
    let fields ← classFields ⟨u, name, enums⟩ class_
    let model : Model := ⟨name, (tableName entity u.source).getD (lower name), fields⟩
    modify fun session => { session with models := upsert Model.name model session.models }
    let _ ← Pass.advise class_ entityAdvisory
    Pass.setFlags fun f => { f with entities := true }
    Pass.say .debug s!"Extracted model {name} ({fields.length} fields)"
  | _, _ => return

def insertByStart (p : Place) : List Place → List Place
  | [] => [p]
  | q :: qs => if p.start < q.start then p :: q :: qs else q :: insertByStart p qs

def sortByStart (ps : List Place) : List Place := ps.foldl (fun acc p => insertByStart p acc) []

def extract (u : SourceUnit) : Pass Unit := do
  let enums := declaredEnums u
  (sortByStart (u.place.find Place.classKinds)).forM (extractClass u enums)
  let models := (← get).models
  if !models.isEmpty then
    Pass.say .info (s!"Extracted {models.length} entity model(s). The schema is a reference; " ++
      "introspect the database for production use.")

end OrmCodemod.Entities
