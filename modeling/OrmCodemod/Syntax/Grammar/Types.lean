import OrmCodemod.Syntax.Grammar.Literal

/-!
Types. Unions and intersections nest to the left, one operator a node; an intersection binds more
tightly than a union, and array brackets more tightly than both.
-/

namespace OrmCodemod.Syntax.Grammar

def predefinedTypes : List String :=
  ["any", "number", "boolean", "string", "symbol", "void", "unknown", "never", "object"]

def predefinedType : Parser Pieces :=
  node .predefinedType (words predefinedTypes <|>
    (do
      let a ← word "unique"
      let b ← word "symbol"
      match a.getLast?, b.getLast? with
      | some t, some u => return a.dropLast ++ [.node (.token "unique symbol") none t.start u.stop []]
      | _, _ => failure))

/-- `a.b.c`, the last name a type; `qualifier` is what stands before the dot. -/
def dottedType : Nat → Pieces → Parser Pieces
  | 0, _ => failure
  | n + 1, qualifier => do
    let dot ← symNot "." "."
    if ← ahead (seq [name .identifier, symNot "." "."]) then
      let property ← name .propertyIdentifier
      let inner := qualifier.map fun t => if t.is .nestedIdentifier then t.withKind .memberExpression else t
      dottedType n (wrap .nestedIdentifier
        (mapLast (Tree.withRole .object) inner ++ dot ++ mapLast (Tree.withRole .property) property))
    else
      let last ← inRole .name (name .typeIdentifier)
      return wrap .nestedTypeIdentifier (qualifier ++ dot ++ last)

/-- A named type, with the module it comes from and its arguments. -/
def typeReference (g : Context) : Parser Pieces := do
  let named ←
    if ← ahead (seq [name .identifier, symNot "." "."]) then
      dottedType g.bound (← name .identifier)
    else name .typeIdentifier
  if ← ahead (sym "<") then
    (do
      let args ← inRole .typeArguments (g.rule .typeArguments)
      return wrap .genericType (mapLast (Tree.withRole .name) named ++ args)) <|> return named
  else return named

def typeArguments (g : Context) : Parser Pieces :=
  node .typeArguments
    (withBreaks false (seq [sym "<", commaList g.bound (g.rule .type), sym ">"]))

def typeParameter (g : Context) : Parser Pieces :=
  node .typeParameter (seq [
    opt (seq [onlyAhead (seq [word "const", name .identifier]), word "const"]),
    inRole .name (name .typeIdentifier),
    opt (node .constraint (seq [word "extends", g.rule .type])),
    opt (inRole .value (node .defaultType (seq [symNot "=" "=>", g.rule .type])))])

def typeParameters (g : Context) : Parser Pieces :=
  node .typeParameters
    (withBreaks false (seq [sym "<", commaList g.bound (typeParameter g), sym ">"]))

def typePredicate (g : Context) : Parser Pieces :=
  node .typePredicate (seq [
    inRole .name (wordNode .thisExpr "this" <|> name .identifier), sameLine, word "is",
    g.rule .type])

def asserts (g : Context) : Parser Pieces :=
  node .asserts (seq [word "asserts", sameLine,
    choice [typePredicate g, wordNode .thisExpr "this", name .identifier]])

def resultType (g : Context) : Parser Pieces :=
  choice [seq [onlyAhead (seq [word "asserts", sameLine, name .identifier]), asserts g],
    typePredicate g, g.rule .type]

def typeAscription (g : Context) : Parser Pieces :=
  node .typeAscription (seq [sym ":", g.rule .type])

def resultAscription (g : Context) : Parser Pieces :=
  choice [
    node .assertsAscription (seq [sym ":",
      onlyAhead (seq [word "asserts", sameLine, name .identifier]), asserts g]),
    node .typePredicateAscription (seq [sym ":", typePredicate g]),
    typeAscription g]

def callSignature (g : Context) : Parser Pieces :=
  if g.typed then
    seq [opt (g.rule .typeParameters), inRole .parameters (g.rule .parameters),
      opt (resultAscription g)]
  else inRole .parameters (g.rule .parameters)

def functionType (g : Context) : Parser Pieces :=
  node .functionType (seq [opt (g.rule .typeParameters), inRole .parameters (g.rule .parameters),
    sym "=>", resultType g])

def constructorType (g : Context) : Parser Pieces :=
  node .constructorType (seq [opt (word "abstract"), word "new", opt (g.rule .typeParameters),
    inRole .parameters (g.rule .parameters), sym "=>", g.rule .type])

def literalType (g : Context) : Parser Pieces :=
  node .literalType (choice [
    node .unaryExpression (seq [sym "-" <|> sym "+", numberLiteral]),
    numberLiteral, stringLiteral g, wordNode .trueLiteral "true", wordNode .falseLiteral "false",
    wordNode .nullLiteral "null", wordNode .undefinedLiteral "undefined"])

def importCallee : Parser Pieces := node .importCallee (word "import")

def typeValueAccess (g : Context) (start : Pieces) : Parser Pieces :=
  extend g.bound (fun ps => choice [
    (do
      let rest ← seq [symNot "." ".", inRole .property (name .propertyIdentifier)]
      return wrap .memberExpression (mapLast (Tree.withRole .object) ps ++ rest)),
    (do
      require (ps.any fun t => t.is .importCallee)
      let args ← inRole .arguments (g.rule .arguments)
      return wrap .callExpression (mapLast (Tree.withRole .callee) ps ++ args))]) start

def typeQuery (g : Context) : Parser Pieces :=
  node .typeQuery (do
    let keyword ← word "typeof"
    let start ← choice [importCallee, wordNode .thisExpr "this", name .identifier]
    let value ← typeValueAccess g start
    if ← ahead (sym "<") then
      let args ← g.rule .typeArguments
      return keyword ++ wrap .instantiationExpression (value ++ args)
    else return keyword ++ value)

def importedType (g : Context) : Parser Pieces := do
  let value ← typeValueAccess g (← importCallee)
  (do
    let args ← inRole .typeArguments (g.rule .typeArguments)
    return wrap .genericType (mapLast (Tree.withRole .name) value ++ args)) <|> return value

def tupleElement (g : Context) : Parser Pieces :=
  choice [
    node .requiredParameter (seq [
      inRole .name (node .restPattern (seq [sym "...", name .identifier]) <|> name .identifier),
      inRole .ascription (typeAscription g)]),
    node .optionalParameter (seq [inRole .name (name .identifier), sym "?",
      inRole .ascription (typeAscription g)]),
    node .restType (seq [sym "...", g.rule .type]),
    (do
      let t ← g.rule .type
      (do
        let mark ← sym "?"
        return wrap .optionalType (t ++ mark)) <|> return t)]

def mappedClause (g : Context) : Parser Pieces :=
  node .mappedTypeClause (seq [inRole .name (name .typeIdentifier), word "in", g.rule .type,
    opt (seq [word "as", g.rule .type])])

def indexSignature (g : Context) : Parser Pieces :=
  node .indexSignature (seq [
    opt (seq [opt (sym "-" <|> sym "+"), word "readonly"]), sym "[",
    withBreaks false (mappedClause g <|> seq [inRole .name (name .identifier), sym ":", g.rule .type]),
    sym "]",
    inRole .ascription (choice [typeAscription g,
      node .omittingTypeAscription (seq [sym "-?:", g.rule .type]),
      node .addingTypeAscription (seq [sym "+?:", g.rule .type]),
      node .optingTypeAscription (seq [sym "?:", g.rule .type])])])

/-- One of the modifiers, if a property name follows it on its line. -/
def modifier (g : Context) (p : Parser Pieces) : Parser Pieces :=
  opt (seq [onlyAhead (seq [p, sameLine,
    choice [g.rule .propertyName, sym "*", words ["get", "set"]]]), p])

/-- `get`, `set` or the star of a generator, if a property name follows. -/
def accessorMark (g : Context) : Parser Pieces :=
  sym "*" <|> modifier g (words ["get", "set"])

def typeMember (g : Context) : Parser Pieces :=
  choice [
    node .callSignature (seq [onlyAhead (sym "(" <|> sym "<"), callSignature g]),
    node .constructSignature (seq [opt (word "abstract"), word "new",
      opt (g.rule .typeParameters), inRole .parameters (g.rule .parameters),
      opt (inRole .ascription (typeAscription g))]),
    indexSignature g,
    node .methodSignature (seq [modifier g (word "readonly"), modifier g (word "async"),
      accessorMark g, inRole .name (g.rule .propertyName), opt (sym "?"), callSignature g]),
    node .propertySignature (seq [modifier g (word "readonly"),
      inRole .name (g.rule .propertyName), opt (sym "?"),
      opt (inRole .ascription (typeAscription g))])]

def typeBody (g : Context) (k : NodeKind) : Parser Pieces :=
  node k (withBreaks true (seq [braceOpen, opt (sym "," <|> sym ";"),
    many g.bound (seq [typeMember g, sym "," <|> semicolon g false]), braceClose]))

def primaryType (g : Context) : Parser Pieces :=
  choice [
    literalType g, predefinedType, wordNode .thisType "this", typeQuery g,
    typeBody g .objectType,
    node .tupleType (withBreaks false (seq [sym "[", commaList g.bound (tupleElement g), sym "]"])),
    node .parenthesizedType (withBreaks false (seq [sym "(", g.rule .type, sym ")"])),
    templateWith g .templateLiteralType .templateType (g.rule .type),
    node .existentialType (sym "*"),
    importedType g,
    typeReference g]

def bracketedType (g : Context) : Parser Pieces := do
  extend g.bound (fun ps => do
    require (!(← brokenHere))
    let open_ ← sym "["
    (do
      let close ← sym "]"
      return wrap .arrayType (ps ++ open_ ++ close)) <|>
    (do
      let inner ← withBreaks false (g.rule .type)
      let close ← sym "]"
      return wrap .lookupType (ps ++ open_ ++ inner ++ close))) (← primaryType g)

def typeOperand (g : Context) : Parser Pieces :=
  choice [
    seq [onlyAhead (sym "(" <|> sym "<"), functionType g],
    seq [onlyAhead (seq [opt (word "abstract"), word "new"]), constructorType g],
    node .indexTypeQuery (seq [word "keyof", g.rule .typeOperand]),
    node .readonlyType (seq [word "readonly", g.rule .type]),
    node .inferType (seq [word "infer", name .typeIdentifier,
      opt (seq [word "extends", g.rule .typeOperand])]),
    bracketedType g]

/-- Operands joined by an operator, nested to the left; the operator may also stand in front. -/
def joinedType (g : Context) (k : NodeKind) (operator : String) (operand : Parser Pieces) :
    Parser Pieces := do
  let op := symNot operator (operator ++ "=")
  let first ← node k (seq [op, operand]) <|> operand
  extend g.bound (fun ps => do
    let bar ← op
    let right ← operand
    return wrap k (ps ++ bar ++ right)) first

def unionType (g : Context) : Parser Pieces :=
  joinedType g .unionType "|" (joinedType g .intersectionType "&" (g.rule .typeOperand))

def type (g : Context) : Parser Pieces := do
  let left ← unionType g
  (do
    require (!(← brokenHere))
    let test ← seq [word "extends", unionType g, sym "?", g.rule .type, sym ":", g.rule .type]
    return wrap .conditionalType (left ++ test)) <|> return left

end OrmCodemod.Syntax.Grammar
