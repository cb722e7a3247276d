import OrmCodemod.Path

/-!
The three source dialects, how a user names them and which files hold them.
-/

namespace OrmCodemod

/-- A dialect of the source language, each with a grammar of its own. -/
inductive Dialect where
  | javascript
  | tsx
  | typescript
  deriving DecidableEq, Repr

/-- Why no dialect could be chosen. -/
inductive DialectError where
  /-- the name a user gave stands for no dialect -/
  | unknownName (name : String)
  /-- the suffix of a file stands for no dialect -/
  | unknownSuffix (suffix : String)
  deriving DecidableEq, Repr

namespace Dialect

def name : Dialect → String
  | .javascript => "javascript"
  | .tsx => "tsx"
  | .typescript => "typescript"

def aliases : List (String × Dialect) :=
  [("javascript", .javascript), ("js", .javascript), ("jsx", .javascript), ("ts", .typescript),
    ("tsx", .tsx), ("typescript", .typescript)]

def suffixes : List (String × Dialect) :=
  [(".cjs", .javascript), (".cts", .typescript), (".js", .javascript), (".jsx", .javascript),
    (".mjs", .javascript), (".mts", .typescript), (".ts", .typescript), (".tsx", .tsx)]

/-- The dialect a user names, whatever the case and the blanks around the name. -/
def ofName (s : String) : Except DialectError Dialect :=
  match aliases.lookup (Text.lower (Text.trim s)) with
  | some d => .ok d
  | none => .error (.unknownName s)

def ofPath (p : Path) : Except DialectError Dialect :=
  let suffix := Text.lower p.suffix
  match suffixes.lookup suffix with
  | some d => .ok d
  | none => .error (.unknownSuffix suffix)

def isDeclarationFile (name : String) : Bool :=
  name.endsWith ".d.ts" || name.endsWith ".d.mts" || name.endsWith ".d.cts"

/-- Files worth reading: a known suffix, and no declaration file. -/
def supports (p : Path) : Bool :=
  !isDeclarationFile (Text.lower p.name) && (suffixes.lookup (Text.lower p.suffix)).isSome

end Dialect

def DialectError.message : DialectError → String
  | .unknownName name =>
    s!"Unsupported language '{name}'. Supported: ['javascript', 'tsx', 'typescript']"
  | .unknownSuffix suffix => s!"Unsupported file extension: {suffix}"

end OrmCodemod
