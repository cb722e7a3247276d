/-!
The generated schema as data: models with fields, relations between models, enumerations.
-/

namespace OrmCodemod.Schema

/-- What a field is for. -/
inductive FieldRole where
  | identity
  | plain
  | createdAt
  | updatedAt
  | deletedAt
  | relation
  | join
  deriving DecidableEq, Repr

def FieldRole.all : List FieldRole :=
  [.identity, .plain, .createdAt, .updatedAt, .deletedAt, .relation, .join]

def FieldRole.name : FieldRole → String
  | .identity => "identity"
  | .plain => "plain"
  | .createdAt => "created_at"
  | .updatedAt => "updated_at"
  | .deletedAt => "deleted_at"
  | .relation => "relation"
  | .join => "join"

inductive RelationKind where
  | oneToOne
  | manyToOne
  | oneToMany
  | manyToMany
  deriving DecidableEq, Repr

def RelationKind.all : List RelationKind := [.oneToOne, .manyToOne, .oneToMany, .manyToMany]

def RelationKind.name : RelationKind → String
  | .oneToOne => "OneToOne"
  | .manyToOne => "ManyToOne"
  | .oneToMany => "OneToMany"
  | .manyToMany => "ManyToMany"

/-- A relation to another model, which is known by name only. -/
structure Relation where
  kind : RelationKind
  target : String
  name : String
  deriving DecidableEq, Repr

/-- Only the many side of a relation holds the key of the other side. -/
def Relation.ownsKey (r : Relation) : Bool := r.kind == .manyToOne

structure Field where
  name : String
  scalar : String
  role : FieldRole
  optional : Bool := false
  unique : Bool := false
  isList : Bool := false
  default : Option String := none
  mappedName : Option String := none
  relation : Option Relation := none
  deriving DecidableEq, Repr

structure Model where
  name : String
  table : String
  fields : List Field := []
  deriving DecidableEq, Repr

structure EnumType where
  name : String
  values : List String := []
  deriving DecidableEq, Repr

/-- Put a value under its key: in the place of the one with that key, or else at the end. -/
def upsert {α : Type} (key : α → String) (x : α) : List α → List α
  | [] => [x]
  | y :: ys => if key y == key x then x :: ys else y :: upsert key x ys

/-- Put a value at the end unless its key is taken. -/
def addNew {α : Type} (key : α → String) (x : α) (xs : List α) : List α :=
  if xs.any fun y => key y == key x then xs else xs ++ [x]

end OrmCodemod.Schema
