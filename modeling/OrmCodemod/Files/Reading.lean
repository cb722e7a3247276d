import OrmCodemod.Files.Migration
import OrmCodemod.Schema.Reading

/-!
Outcomes and reports read from loose data.
-/

namespace OrmCodemod

open OrmCodemod.Reading (required given nullable fault)

def Flags.read (path : List Step) : Data → Reading Flags
  | .record es => do
    let entities ← given .bool false "entities" path es
    let repositories ← given .bool false "repositories" path es
    let modules ← given .bool false "modules" path es
    let services ← given .bool false "services" path es
    return ⟨entities, repositories, modules, services⟩
  | _ => fault path .notModel {}

def Outcome.read (path : List Step) : Data → Reading Outcome
  | .record es => do
    let output ← required .text "" "output" path es
    let changed ← required .bool false "changed" path es
    let flags ← required Flags.read {} "flags" path es
    let models ← given (.list Schema.Model.read) [] "models" path es
    let enums ← given (.list Schema.EnumType.read) [] "enums" path es
    let document ← given (nullable .text) none "schema_document" path es
    let advisories ← given .int 0 "advisories" path es
    return ⟨output, changed, flags, models, enums, document, advisories.toNat⟩
  | _ => fault path .notModel ⟨"", false, {}, [], [], none, 0⟩

def Report.read (path : List Step) : Data → Reading Report
  | .record es => do
    let scanned ← given .int 0 "files_scanned" path es
    let changed ← given (.list .text) [] "files_changed" path es
    let failures ← given (.entries .text) [] "failures" path es
    let models ← given (.list .text) [] "models" path es
    let schemaPath ← given (nullable .text) none "schema_path" path es
    return ⟨scanned.toNat, changed, failures, models, schemaPath⟩
  | _ => fault path .notModel {}

end OrmCodemod
