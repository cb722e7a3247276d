import OrmCodemod.Schema.Model
import OrmCodemod.Reading

/-!
Schema values read from loose data.
-/

namespace OrmCodemod.Schema

open OrmCodemod.Reading (required given nullable fault)

def Relation.read (path : List Step) : Data → Reading Relation
  | .record es => do
    let kind ← required (.member RelationKind.all RelationKind.name .oneToOne) .oneToOne "kind" path es
    let target ← required .text "" "target_model" path es
    let name ← required .text "" "relation_name" path es
    return ⟨kind, target, name⟩
  | _ => fault path .notModel ⟨.oneToOne, "", ""⟩

def Field.read (path : List Step) : Data → Reading Field
  | .record es => do
    let name ← required .text "" "name" path es
    let scalar ← required .text "" "scalar_type" path es
    let role ← required (.member FieldRole.all FieldRole.name .plain) .plain "role" path es
    let isOptional ← given .bool false "optional" path es
    let unique ← given .bool false "unique" path es
    let isList ← given .bool false "is_list" path es
    let default ← given (nullable .text) none "default" path es
    let mappedName ← given (nullable .text) none "mapped_name" path es
    let relation ← given (nullable Relation.read) none "relation" path es
    return ⟨name, scalar, role, isOptional, unique, isList, default, mappedName, relation⟩
  | _ => fault path .notModel { name := "", scalar := "", role := .plain }

def Model.read (path : List Step) : Data → Reading Model
  | .record es => do
    let name ← required .text "" "name" path es
    let table ← required .text "" "table_name" path es
    let fields ← given (.list Field.read) [] "fields" path es
    return ⟨name, table, fields⟩
  | _ => fault path .notModel { name := "", table := "" }

def EnumType.read (path : List Step) : Data → Reading EnumType
  | .record es => do
    let name ← required .text "" "name" path es
    let values ← given (.list .text) [] "values" path es
    return ⟨name, values⟩
  | _ => fault path .notModel { name := "" }

end OrmCodemod.Schema
