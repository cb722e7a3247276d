import OrmCodemod.Reading

/-!
Names and conventions that a pass works with. They come from the environment, over which explicit
values go; what neither gives has a default.
-/

namespace OrmCodemod

/-- How the accessor of a model is spelled. -/
inductive ModelCase where
  | preserve
  | camel
  deriving DecidableEq, Repr

def ModelCase.name : ModelCase → String
  | .preserve => "preserve"
  | .camel => "camel"

structure Settings where
  clientMember : String := "prisma"
  clientService : String := "PrismaService"
  clientServicePath : String := "./prisma.service"
  moduleName : String := "PrismaModule"
  modulePath : String := "./prisma/prisma.module"
  placeholderModel : String := "model"
  modelCase : ModelCase := .preserve
  memberPattern : String := "^(?:repository|\\w+Repository)$"
  provider : String := "postgresql"
  modelMapping : List (String × String) := []
  deriving DecidableEq, Repr

/-- An entry of a model mapping that is not of the form `NAME=MODEL`. -/
structure MappingError where
  entry : String
  deriving DecidableEq, Repr

def MappingError.message (e : MappingError) : String :=
  s!"Invalid model mapping '{e.entry}'. Expected NAME=MODEL."

namespace Settings

def putPair (key value : String) : List (String × String) → List (String × String)
  | [] => [(key, value)]
  | (k, v) :: rest => if k == key then (key, value) :: rest else (k, v) :: putPair key value rest

/-- Read one entry `NAME=MODEL`, cut at the first equals sign. -/
def mappingEntry (entry : String) : Except MappingError (String × String) :=
  let cs := entry.toList
  let key := cs.takeWhile (· ≠ '=')
  let value := cs.drop (key.length + 1)
  let name := Text.trim (String.ofList key)
  let model := Text.trim (String.ofList value)
  if key.length < cs.length && name != "" && model != "" then .ok (name, model)
  else .error ⟨entry⟩

/-- Read entries `NAME=MODEL`; the last one for a name counts. -/
def parseMapping (entries : List String) : Except MappingError (List (String × String)) :=
  entries.foldlM (fun acc entry => do
    let (name, model) ← mappingEntry entry
    return putPair name model acc) []

def accessor (modelCase : ModelCase) (model : String) : String :=
  match modelCase with
  | .camel => Text.lowerFirst model
  | .preserve => model

def readCase (path : List Step) : Data → Reading ModelCase
  | .text "preserve" => return .preserve
  | .text "camel" => return .camel
  | _ => Reading.fault path .notListed .preserve

/-- Read settings from a record. Entries that are no settings are passed over. -/
def read (path : List Step) : Data → Reading Settings
  | .record es => do
    let dflt : Settings := {}
    let clientMember ← Reading.given .text dflt.clientMember "client_member" path es
    let clientService ← Reading.given .text dflt.clientService "client_service" path es
    let clientServicePath ←
      Reading.given .text dflt.clientServicePath "client_service_path" path es
    let moduleName ← Reading.given .text dflt.moduleName "module_name" path es
    let modulePath ← Reading.given .text dflt.modulePath "module_path" path es
    let placeholderModel ← Reading.given .text dflt.placeholderModel "placeholder_model" path es
    let modelCase ← Reading.given readCase dflt.modelCase "model_case" path es
    let memberPattern ←
      Reading.given .text dflt.memberPattern "repository_member_pattern" path es
    let provider ← Reading.given .text dflt.provider "datasource_provider" path es
    let modelMapping ← Reading.given (.entries .text) [] "model_mapping" path es
    return ⟨clientMember, clientService, clientServicePath, moduleName, modulePath,
      placeholderModel, modelCase, memberPattern, provider, modelMapping⟩
  | _ => Reading.fault path .notModel {}

def environmentNames : List (String × String) :=
  [("CLIENT_MEMBER", "client_member"), ("CLIENT_SERVICE", "client_service"),
    ("CLIENT_SERVICE_PATH", "client_service_path"), ("MODULE_NAME", "module_name"),
    ("MODULE_PATH", "module_path"), ("PLACEHOLDER_MODEL", "placeholder_model"),
    ("MODEL_CASE", "model_case"), ("REPOSITORY_MEMBER_PATTERN", "repository_member_pattern"),
    ("PROVIDER", "datasource_provider")]

def environmentStem : String := "TYPEORM_TO_PRISMA_"

def splitCommas (part : List Char) : List Char → List String
  | [] => [String.ofList part.reverse]
  | c :: rest =>
    if c = ',' then String.ofList part.reverse :: splitCommas [] rest else splitCommas (c :: part) rest

/-- Why settings could not be loaded. -/
inductive LoadError where
  | mapping (error : MappingError)
  | invalid (issues : List Issue)
  deriving DecidableEq, Repr

def putEntry (name : String) (d : Data) : List (String × Data) → List (String × Data)
  | [] => [(name, d)]
  | (n, e) :: rest => if n == name then (name, d) :: rest else (n, e) :: putEntry name d rest

/-- What the environment says, `env` giving its variables without their stem. Empty ones do not
count. -/
def ofEnvironment (env : List (String × String)) : Except MappingError (List (String × Data)) := do
  let plain := environmentNames.filterMap fun (variableName, field) =>
    match env.lookup variableName with
    | some value => if value == "" then none else some (field, Data.text value)
    | none => none
  match env.lookup "MODEL_MAPPING" with
  | some value =>
    if value == "" then return plain
    let parts := (splitCommas [] value.toList).filter fun part => Text.trim part != ""
    let mapping ← parseMapping parts
    return plain ++ [("model_mapping", .record (mapping.map fun p => (p.1, .text p.2)))]
  | none => return plain

/-- Settings from the environment, with explicit values over them; a null is no explicit value. -/
def load (env : List (String × String)) (overrides : List (String × Data)) :
    Except LoadError Settings :=
  match ofEnvironment env with
  | .error e => .error (.mapping e)
  | .ok base =>
    let values := overrides.foldl (fun acc (name, d) =>
      match d with
      | .null => acc
      | d => putEntry name d acc) base
    match (read [] (.record values)).result with
    | .ok s => .ok s
    | .error issues => .error (.invalid issues)

end Settings
end OrmCodemod
