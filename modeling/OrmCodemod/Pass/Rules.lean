import OrmCodemod.Syntax.Query

/-!
The table of repository methods. A row says which client method a repository method becomes and how
its arguments are reshaped: `none` keeps the argument list as it is.
-/

namespace OrmCodemod.Rules

open Syntax Text

abbrev Render := Tree → String

abbrev KeyOf := Tree → Option String

structure Rule where
  method : List Tree → KeyOf → String
  reshape : List Tree → Render → KeyOf → Option (List String) := fun _ _ _ => none
  advisories : List String := []
  supported : Bool := true

def objectText (entries : List String) : String := "\x7b" ++ joinWith ", " entries ++ "\x7d"

def whereText (text : String) : String := objectText ["where: " ++ text]

def idText (text : String) : String := objectText ["id: " ++ text]

def optionKeys : List String := ["relations", "select", "order", "skip", "take"]

def wrapInWhere (args : List Tree) (render : Render) (_ : KeyOf) : Option (List String) :=
  match args with
  | [] => none
  | first :: rest => some (whereText (render first) :: rest.map render)

def renameRelations (render : Render) (keyOf : KeyOf) (member : Tree) : String :=
  if keyOf member != some "relations" then render member
  else match member.memberValue with
    | none => "include: relations"
    | some value =>
      if value.is .shorthandPropertyIdentifier then "include: relations"
      else "include: " ++ render value

def isOption (keyOf : KeyOf) (member : Tree) : Bool :=
  match keyOf member with
  | some key => optionKeys.contains key
  | none => false

/-- The entries of a search for one: options stay, everything else is criteria, unless criteria are
given as such. -/
def findOneEntries (members : List Tree) (render : Render) (keyOf : KeyOf) :
    Option (List String) :=
  let has (key : String) : Bool := members.any fun m => keyOf m == some key
  if has "where" then
    if has "relations" then some (members.map (renameRelations render keyOf)) else none
  else
    let options := members.filter (isOption keyOf)
    let criteria := members.filter fun m => !isOption keyOf m
    if criteria.isEmpty && !has "relations" then none
    else some (options.map (renameRelations render keyOf) ++
      (if criteria.isEmpty then [] else ["where: " ++ objectText (criteria.map render)]))

def findOne (args : List Tree) (render : Render) (keyOf : KeyOf) : Option (List String) :=
  match args with
  | [] => none
  | first :: rest =>
    if first.is .object then
      (findOneEntries first.significant render keyOf).map fun entries =>
        objectText entries :: rest.map render
    else none

/-- The member `id` of a single object to be saved, unless its value is none. -/
def savedId (args : List Tree) (keyOf : KeyOf) : Option Tree :=
  match args with
  | [only] =>
    if only.is .object then
      only.significant.find? fun m =>
        keyOf m == some "id" &&
          match m.memberValue with
          | some value => !value.isAny [.nullLiteral, .undefinedLiteral]
          | none => false
    else none
  | _ => none

/-- Saving updates what has an identity, and creates the rest. -/
def saveMethod (args : List Tree) (keyOf : KeyOf) : String :=
  if (savedId args keyOf).isSome then "update" else "create"

def save (args : List Tree) (render : Render) (keyOf : KeyOf) : Option (List String) :=
  match args with
  | [only] =>
    match savedId args keyOf with
    | none => some [objectText ["data: " ++ render only]]
    | some member =>
      let id := match member.memberValue with
        | some value => if member.is .shorthandPropertyIdentifier then "id" else render value
        | none => "id"
      let data := only.significant.filter fun m =>
        !(m.start == member.start && m.stop == member.stop)
      some [objectText ["where: " ++ idText id, "data: " ++ objectText (data.map render)]]
  | _ => none

def update (args : List Tree) (render : Render) (_ : KeyOf) : Option (List String) :=
  match args with
  | criteria :: data :: rest =>
    let condition := if criteria.is .object then render criteria else idText (render criteria)
    some (objectText ["where: " ++ condition, "data: " ++ render data] :: rest.map render)
  | _ => none

def delete (args : List Tree) (render : Render) (_ : KeyOf) : Option (List String) :=
  match args with
  | [] => none
  | first :: rest =>
    if first.isAny [.numberLiteral, .stringLiteral, .identifier, .memberExpression] then
      some (whereText (idText (render first)) :: rest.map render)
    else if first.is .object then some (whereText (render first) :: rest.map render)
    else none

def count (args : List Tree) (render : Render) (keyOf : KeyOf) : Option (List String) :=
  match args with
  | [] => none
  | first :: rest =>
    if first.is .object && !first.significant.any fun m => keyOf m == some "where" then
      some (whereText (render first) :: rest.map render)
    else none

def saveAdvisory : String :=
  "// NOTE: `save` may insert or update; verify that the chosen Prisma call matches the intent."

def builderAdvisory : String :=
  "// TODO: convert this query builder to a Prisma query by hand; it is not rewritten automatically."

def builderExample : String := joinWith "\n" [
  "/*",
  " Query builder conversion example.",
  "",
  " TypeORM:",
  "   const users = await this.repository",
  "     .createQueryBuilder('user')",
  "     .leftJoinAndSelect('user.profile', 'profile')",
  "     .where('user.isActive = :isActive', \x7b isActive: true \x7d)",
  "     .getMany();",
  "",
  " Prisma:",
  "   const users = await this.prisma.user.findMany(\x7b",
  "     where: \x7b isActive: true \x7d,",
  "     include: \x7b profile: true \x7d,",
  "   \x7d);",
  "*/"]

/-- A row whose client method does not hang on the arguments. -/
def renamed (target : String) : Rule := { method := fun _ _ => target }

def table : List (String × Rule) := [
  ("find", renamed "findMany"),
  ("findOne", { renamed "findUnique" with reshape := findOne }),
  ("findOneBy", { renamed "findUnique" with reshape := wrapInWhere }),
  ("findBy", { renamed "findMany" with reshape := wrapInWhere }),
  ("save", { method := saveMethod, reshape := save, advisories := [saveAdvisory] }),
  ("update", { renamed "update" with reshape := update }),
  ("delete", { renamed "delete" with reshape := delete }),
  ("remove", { renamed "delete" with reshape := delete }),
  ("count", { renamed "count" with reshape := count }),
  ("createQueryBuilder", { renamed "createQueryBuilder" with
    advisories := [builderAdvisory, builderExample], supported := false })]

def rule? (method : String) : Option Rule := table.lookup method

end OrmCodemod.Rules
