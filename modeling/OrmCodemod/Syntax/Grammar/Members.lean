import OrmCodemod.Syntax.Grammar.Types

/-!
Names, patterns, parameters, decorators and the members of classes and object literals. A
decorator before a field belongs to the field; before any other class member it is a sibling of
that member, except in the untyped dialect, where methods too hold their decorators.
-/

namespace OrmCodemod.Syntax.Grammar

def privateName : Parser Pieces := do
  let comments ← trivia
  match (← get).rest with
  | '#' :: rest =>
    let n := nameLength rest
    require (0 < n)
    let t ← leaf (.named .privatePropertyIdentifier) (n + 1)
    return comments ++ t
  | _ => failure

def propertyName (g : Context) : Parser Pieces :=
  choice [
    name .propertyIdentifier, privateName, stringLiteral g, numberLiteral,
    node .computedPropertyName (withBreaks false (seq [sym "[", g.rule .expression, sym "]"]))]

def identifier : Parser Pieces :=
  wordNode .undefinedLiteral "undefined" <|> name .identifier

def initializer (g : Context) : Parser Pieces :=
  seq [symNot "=" "=>", inRole .value (g.rule .expression)]

def patternWithDefault (g : Context) : Parser Pieces := do
  let left ← g.rule .pattern
  (do
    let rest ← seq [symNot "=" "=>", g.rule .expression]
    return wrap .assignmentPattern (left ++ rest)) <|> return left

def patternEntry (g : Context) : Parser Pieces :=
  choice [
    node .restPattern (seq [sym "...", g.rule .pattern]),
    node .pairPattern (seq [inRole .key (g.rule .propertyName), sym ":",
      inRole .value (patternWithDefault g)]),
    node .objectAssignmentPattern (seq [name .shorthandPropertyIdentifierPattern,
      symNot "=" "=>", g.rule .expression]),
    name .shorthandPropertyIdentifierPattern]

def objectPattern (g : Context) : Parser Pieces :=
  node .objectPattern (withBreaks false
    (seq [braceOpen, commaSlots g.bound (patternEntry g), braceClose]))

def arrayPattern (g : Context) : Parser Pieces :=
  node .arrayPattern (withBreaks false
    (seq [sym "[", commaSlots g.bound (patternWithDefault g), sym "]"]))

def assignable (g : Context) : Parser Pieces := do
  require ((← nextWord) != "")
  let ps ← g.rule .constructed
  require (ps.getLast?.any (·.isAny [.memberExpression, .subscriptExpression, .nonNullExpression]))
  return ps

def pattern (g : Context) : Parser Pieces :=
  let target := choice [objectPattern g, arrayPattern g, assignable g, identifier]
  node .restPattern (seq [sym "...", target]) <|> target

def decorator (g : Context) : Parser Pieces :=
  node .decorator (do
    let mark ← sym "@"
    if ← ahead (sym "(") then
      let inner ← node .parenthesizedExpression
        (withBreaks false (seq [sym "(", g.rule .sequence, sym ")"]))
      return mark ++ inner
    else
      let path ← extend g.bound (fun ps => do
        let rest ← seq [symNot "." ".", inRole .property (name .propertyIdentifier)]
        return wrap .memberExpression (mapLast (Tree.withRole .object) ps ++ rest))
        (← name .identifier)
      (do
        let args ← seq [
          opt (seq [check (return g.typed), inRole .typeArguments (g.rule .typeArguments)]),
          inRole .arguments (g.rule .arguments)]
        return mark ++ wrap .callExpression (mapLast (Tree.withRole .callee) path ++ args))
        <|> return mark ++ path)

def decorators (g : Context) : Parser Pieces := many g.bound (decorator g)

def accessibility : Parser Pieces :=
  node .accessibilityModifier (words ["public", "private", "protected"])

def overrideMark : Parser Pieces := node .overrideModifier (word "override")

def typedParameter (g : Context) : Parser Pieces := do
  let bound : Parser Pieces := g.rule .pattern
  let marked (p : Parser Pieces) : Parser Pieces := opt (seq [onlyAhead (seq [p, bound]), p])
  let head ← seq [g.rule .decorators, marked accessibility, marked overrideMark,
    marked (word "readonly"),
    inRole .pattern (wordNode .thisExpr "this" <|> bound)]
  let optional ← opt (sym "?")
  let tail ← seq [opt (inRole .ascription (typeAscription g)), opt (initializer g)]
  return wrap (if optional.isEmpty then .requiredParameter else .optionalParameter)
    (head ++ optional ++ tail)

def parameters (g : Context) : Parser Pieces :=
  node .formalParameters (withBreaks false (seq [sym "(",
    commaList g.bound (if g.typed then typedParameter g else patternWithDefault g), sym ")"]))

/-- A method of an object literal or a class, from its modifiers on. -/
def method (g : Context) : Parser Pieces :=
  node .methodDefinition (seq [
    if g.typed then
      seq [modifier g accessibility, modifier g (word "static"), modifier g overrideMark,
        modifier g (word "readonly")]
    else seq [g.rule .decorators, modifier g (word "static")],
    modifier g (word "async"), accessorMark g,
    inRole .name (g.rule .propertyName), opt (sym "?"), callSignature g,
    inRole .body (g.rule (.block false))])

def methodSignature (g : Context) : Parser Pieces :=
  node .methodSignature (seq [
    modifier g accessibility, modifier g (word "static"), modifier g overrideMark,
    modifier g (word "readonly"), modifier g (word "async"), accessorMark g,
    inRole .name (g.rule .propertyName), opt (sym "?"), callSignature g])

def abstractMethod (g : Context) : Parser Pieces :=
  node .abstractMethodSignature (seq [
    modifier g accessibility, word "abstract", modifier g overrideMark, accessorMark g,
    inRole .name (g.rule .propertyName), opt (sym "?"), callSignature g])

def typedField (g : Context) : Parser Pieces :=
  seq [
    modifier g (word "declare"), modifier g accessibility, modifier g (word "declare"),
    modifier g (word "static"), modifier g overrideMark,
    modifier g (words ["abstract", "readonly", "accessor"]),
    modifier g (words ["abstract", "readonly"]),
    inRole .name (g.rule .propertyName), opt (sym "?" <|> symNot "!" "="),
    opt (inRole .ascription (typeAscription g)), opt (initializer g)]

/-- The end of a field: a comma, a semicolon or a line break. -/
def fieldEnd (g : Context) (field : Pieces) : Parser Pieces :=
  let ends := field.getLast?.any fun t => t.children.any fun c => c.role == some .value
  sym "," <|> semicolon g ends

/-- A member of a class body in the typed dialects, decorators included. -/
def typedMember (g : Context) : Parser Pieces := do
  let marks ← g.rule .decorators
  choice [
    (do return marks ++ (← sym ";")),
    (do return marks ++ (← node .classStaticBlock
      (seq [word "static", inRole .body (g.rule (.block false))]))),
    (do return marks ++ (← g.rule .method) ++ (← opt (sym ";"))),
    (do
      let member ← seq [onlyAhead (seq [opt accessibility, word "abstract"]), abstractMethod g]
      return marks ++ member ++ (← fieldEnd g member)),
    (do
      let member ← seq [opt (seq [onlyAhead (seq [word "static", sym "["]), word "static"]),
        indexSignature g]
      return marks ++ member ++ (← fieldEnd g member)),
    (do
      let member ← methodSignature g
      return marks ++ member ++ (← fieldEnd g member)),
    (do
      let field := wrap .publicFieldDefinition (marks ++ (← typedField g))
      return field ++ (← fieldEnd g field)),
    (do
      require (!marks.isEmpty)
      return marks)]

def untypedMember (g : Context) : Parser Pieces :=
  choice [
    sym ";",
    node .classStaticBlock (seq [word "static", inRole .body (g.rule (.block false))]),
    (do return (← g.rule .method) ++ (← opt (sym ";"))),
    (do
      let field ← node .fieldDefinition (seq [g.rule .decorators,
        modifier g (word "static"), modifier g (word "accessor"),
        inRole .property (g.rule .propertyName), opt (initializer g)])
      return field ++ (← fieldEnd g field))]

def classBody (g : Context) : Parser Pieces :=
  node .classBody (withBreaks true (seq [braceOpen,
    many g.bound (if g.typed then typedMember g else untypedMember g), braceClose]))

def classHeritage (g : Context) : Parser Pieces :=
  if g.typed then
    let superclass := seq [inRole .value (g.rule .heritage),
      opt (inRole .typeArguments (g.rule .typeArguments))]
    node .classHeritage (do
      let above ← opt (node .extendsClause (seq [word "extends", superclass,
        many g.bound (seq [sym ",", superclass])]))
      let kept ← opt (node .implementsClause (seq [word "implements", g.rule .type,
        many g.bound (seq [sym ",", g.rule .type])]))
      require (!(above ++ kept).isEmpty)
      return above ++ kept)
  else node .classHeritage (seq [word "extends", g.rule .heritage])

def classTail (g : Context) : Parser Pieces :=
  seq [opt (seq [check (return g.typed), g.rule .typeParameters]), opt (classHeritage g),
    inRole .body (classBody g)]

def className (g : Context) : Parser Pieces :=
  seq [notAhead (words ["extends", "implements"]),
    inRole .name (name (if g.typed then .typeIdentifier else .identifier))]

end OrmCodemod.Syntax.Grammar
