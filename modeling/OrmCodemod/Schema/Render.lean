import OrmCodemod.Schema.Model
import OrmCodemod.Text.Blank

/-!
The schema as text.
-/

namespace OrmCodemod.Schema

open Text

/-- What stands in place of the members of an enumeration that another module declares. -/
def undeclaredEnumNote : String :=
  "// TODO: this enum is declared in another module; list its members here."

def Field.typeMark (f : Field) : String :=
  if f.isList then "[]" else if f.optional then "?" else ""

def Field.attributes (f : Field) : List String :=
  (if f.role == .identity then ["@id"] else []) ++
  (match f.default with
    | some value => [s!"@default({value})"]
    | none => []) ++
  (if f.role == .updatedAt then ["@updatedAt"] else []) ++
  (if f.unique then ["@unique"] else []) ++
  (match f.mappedName with
    | some name => if name == "" then [] else [s!"@map(\"{name}\")"]
    | none => []) ++
  (match f.relation with
    | some r => [s!"@relation(\"{r.name}\")"]
    | none => [])

def Field.render (f : Field) : String :=
  let head := s!"  {f.name} {f.scalar}" ++ f.typeMark
  if f.attributes.isEmpty then head else head ++ " " ++ joinWith " " f.attributes

def Model.render (m : Model) : String :=
  joinWith "\n" ([s!"model {m.name} " ++ "\x7b"] ++ m.fields.map Field.render ++
    ["", s!"  @@map(\"{m.table}\")", "\x7d"]) ++ "\n"

def EnumType.render (e : EnumType) : String :=
  joinWith "\n" ([s!"enum {e.name} " ++ "\x7b"] ++ e.values.map ("  " ++ ·) ++
    (if e.values.isEmpty then ["  " ++ undeclaredEnumNote] else []) ++ ["\x7d"]) ++ "\n"

def preamble (provider : String) : String :=
  joinWith "\n" [
    "// Prisma schema generated from TypeORM entities.",
    "// Review it against `npx prisma db pull` before relying on it.",
    "",
    "generator client \x7b",
    "  provider = \"prisma-client-js\"",
    "\x7d",
    "",
    "datasource db \x7b",
    s!"  provider = \"{provider}\"",
    "  url      = env(\"DATABASE_URL\")",
    "\x7d",
    "",
    ""]

/-- A schema document: the preamble, the enumerations, the models. -/
def document (models : List Model) (enums : List EnumType) (provider : String) : String :=
  preamble provider ++ String.join (enums.map fun e => e.render ++ "\n") ++
    String.join (models.map fun m => m.render ++ "\n")

end OrmCodemod.Schema
