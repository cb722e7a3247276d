import OrmCodemod.Schema.Model
import OrmCodemod.Text.Case
import OrmCodemod.Text.Blank

/-!
How column types, annotations and decorators of an entity map to the schema.
-/

namespace OrmCodemod.Schema

def defaultScalar : String := "String"

def columnTypes : List (String × String) :=
  [("string", "String"), ("varchar", "String"), ("character varying", "String"), ("char", "String"),
    ("nvarchar", "String"), ("text", "String"), ("uuid", "String"), ("number", "Int"),
    ("int", "Int"), ("int2", "Int"), ("int4", "Int"), ("integer", "Int"), ("smallint", "Int"),
    ("mediumint", "Int"), ("tinyint", "Int"), ("bigint", "BigInt"), ("int8", "BigInt"),
    ("float", "Float"), ("double", "Float"), ("double precision", "Float"), ("real", "Float"),
    ("decimal", "Decimal"), ("numeric", "Decimal"), ("boolean", "Boolean"), ("bool", "Boolean"),
    ("date", "DateTime"), ("datetime", "DateTime"), ("time", "DateTime"), ("timestamp", "DateTime"),
    ("timestamptz", "DateTime"), ("json", "Json"), ("jsonb", "Json"), ("simple-json", "Json"),
    ("simple-array", "String[]"), ("bytea", "Bytes"), ("blob", "Bytes")]

/-- Schema types of annotations, which go before the column types. -/
def annotationTypes : List (String × String) :=
  [("string", "String"), ("number", "Int"), ("boolean", "Boolean"), ("Date", "DateTime")]

/-- The schema type of a column type, whatever its case and the blanks around it. -/
def scalarOfColumn (type : String) : String :=
  (columnTypes.lookup (Text.lower (Text.trim type))).getD defaultScalar

def decoratorRoles : List (String × FieldRole) :=
  [("PrimaryGeneratedColumn", .identity), ("PrimaryColumn", .identity), ("Column", .plain),
    ("CreateDateColumn", .createdAt), ("UpdateDateColumn", .updatedAt),
    ("DeleteDateColumn", .deletedAt), ("OneToOne", .relation), ("ManyToOne", .relation),
    ("OneToMany", .relation), ("ManyToMany", .relation), ("JoinColumn", .join),
    ("JoinTable", .join)]

def roleOfDecorator (name : String) : Option FieldRole := decoratorRoles.lookup name

def relationOfDecorator (name : String) : Option RelationKind :=
  RelationKind.all.find? fun k => k.name == name

end OrmCodemod.Schema
