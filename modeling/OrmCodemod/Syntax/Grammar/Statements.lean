import OrmCodemod.Syntax.Grammar.Elements

/-!
Statements and declarations. A statement ends with a semicolon or, where the next line starts
something new, with its line; a comment on that line then still belongs to it.
-/

namespace OrmCodemod.Syntax.Grammar

def block (g : Context) (operand : Bool) : Parser Pieces :=
  node .statementBlock (seq [
    withBreaks true (seq [braceOpen, many g.bound (g.rule .statement), braceClose]),
    opt (impliedSemicolon g operand g.bound)])

def condition (g : Context) : Parser Pieces := parenthesized g

def declarator (g : Context) : Parser Pieces :=
  node .variableDeclarator (seq [
    inRole .name (choice [objectPattern g, arrayPattern g, identifier]),
    opt (seq [check (return g.typed), symNot "!" "=", onlyAhead (sym ":")]),
    opt (seq [check (return g.typed), inRole .ascription (typeAscription g)]),
    opt (initializer g)])

def endsInValue (ps : Pieces) : Bool :=
  ps.getLast?.any fun t => t.children.any fun c => c.role == some .value

/-- The keyword of a variable declaration and the kind of its node. -/
def declarationKeyword : Parser (NodeKind × Pieces) :=
  (do return (.variableDeclaration, ← word "var")) <|>
  (do return (.lexicalDeclaration, ← words ["let", "const"]))

def variableDeclaration (g : Context) : Parser Pieces := do
  let (k, keyword) ← declarationKeyword
  let list ← seq [declarator g, many g.bound (seq [sym ",", declarator g])]
  return wrap k (keyword ++ list ++ (← semicolon g (endsInValue list)))

/-- A function declaration, or only its signature. -/
def functionDeclaration (g : Context) : Parser Pieces := do
  let head ← seq [opt (seq [word "async", sameLine]), word "function"]
  let star ← opt (sym "*")
  let signature ← seq [inRole .name (name .identifier), callSignature g]
  (do
    let body ← inRole .body (g.rule (.block false))
    return wrap (if star.isEmpty then .functionDeclaration else .generatorFunctionDeclaration)
      (head ++ star ++ signature ++ body)) <|>
  (do
    require (g.typed && star.isEmpty)
    return wrap .functionSignature (head ++ signature ++ (← semicolon g false)))

/-- A class declaration; `marks` are the decorators in front of it. -/
def classDeclaration (g : Context) (marks : Pieces) : Parser Pieces :=
  choice [
    (do
      require g.typed
      return wrap .abstractClassDeclaration (marks ++
        (← seq [word "abstract", sameLine, word "class", className g, g.rule .classTail]))),
    (do
      return wrap .classDeclaration (marks ++ (← seq [word "class", className g, g.rule .classTail,
        opt (impliedSemicolon g false g.bound)])))]

def enumMember (g : Context) : Parser Pieces := do
  let key ← inRole .name (g.rule .propertyName)
  (do return wrap .enumAssignment (key ++ (← initializer g))) <|> return key

def enumDeclaration (g : Context) : Parser Pieces :=
  node .enumDeclaration (seq [opt (word "const"), word "enum", inRole .name (name .identifier),
    inRole .body (node .enumBody (withBreaks false
      (seq [braceOpen, commaList g.bound (enumMember g), braceClose])))])

def interfaceDeclaration (g : Context) : Parser Pieces :=
  node .interfaceDeclaration (seq [word "interface", inRole .name (name .typeIdentifier),
    opt (g.rule .typeParameters),
    opt (node .extendsTypeClause (seq [word "extends", typeReference g,
      many g.bound (seq [sym ",", typeReference g])])),
    inRole .body (typeBody g .interfaceBody)])

def typeAlias (g : Context) : Parser Pieces :=
  node .typeAliasDeclaration (seq [word "type", sameLine, inRole .name (name .typeIdentifier),
    opt (g.rule .typeParameters), symNot "=" "=>", inRole .value (g.rule .type),
    semicolon g false])

def dottedName (g : Context) : Parser Pieces := do
  extend g.bound (fun ps => do
    let rest ← seq [sym ".", inRole .property (name .propertyIdentifier)]
    let inner := ps.map fun t => if t.is .nestedIdentifier then t.withKind .memberExpression else t
    return wrap .nestedIdentifier (mapLast (Tree.withRole .object) inner ++ rest))
    (← name .identifier)

def moduleTail (g : Context) : Parser Pieces :=
  seq [sameLine, inRole .name (stringLiteral g <|> dottedName g),
    opt (inRole .body (g.rule (.block false)))]

def namespaceDeclaration (g : Context) : Parser Pieces :=
  node .internalModule (seq [word "namespace", moduleTail g])

/-- A namespace where a statement may stand is an expression statement. -/
def namespaceStatement (g : Context) : Parser Pieces := do
  let ps ← namespaceDeclaration g
  (do return wrap .expressionStatement (ps ++ (← semicolon g true))) <|> return ps

def moduleDeclaration (g : Context) : Parser Pieces :=
  node .moduleDecl (seq [word "module", moduleTail g])

def importAlias (g : Context) : Parser Pieces :=
  node .importAlias (seq [word "import", name .identifier, sym "=", dottedName g,
    semicolon g false])

def plainDeclaration (g : Context) : Parser Pieces := do
  let typedOnly (p : Parser Pieces) : Parser Pieces := if g.typed then p else failure
  match ← nextWord with
  | "function" => functionDeclaration g
  | "async" => functionDeclaration g
  | "var" => variableDeclaration g
  | "let" => variableDeclaration g
  | "const" => typedOnly (enumDeclaration g) <|> variableDeclaration g
  | "enum" => typedOnly (enumDeclaration g)
  | "interface" => typedOnly (interfaceDeclaration g)
  | "type" => typedOnly (typeAlias g)
  | "namespace" => typedOnly (namespaceDeclaration g)
  | "module" => typedOnly (moduleDeclaration g)
  | "import" => typedOnly (importAlias g)
  | _ => failure

def ambientDeclaration (g : Context) : Parser Pieces :=
  node .ambientDeclaration (seq [check (return g.typed), word "declare", sameLine,
    choice [
      plainDeclaration g, classDeclaration g [],
      seq [word "global", inRole .body (g.rule (.block false))]]])

/-- A declaration; decorators in front of a class belong to it. -/
def declaration (g : Context) : Parser Pieces :=
  choice [
    (do classDeclaration g (← g.rule .decorators)), plainDeclaration g, ambientDeclaration g]

def fromClause (g : Context) : Parser Pieces :=
  seq [word "from", inRole .source (stringLiteral g)]

def exportName (g : Context) : Parser Pieces :=
  choice [stringLiteral g, word "default", name .identifier]

/-- `type` or `typeof` before a name that is not itself renamed. -/
def typeMark (g : Context) : Parser Pieces :=
  opt (seq [check (return g.typed),
    onlyAhead (seq [words ["type", "typeof"],
      choice [stringLiteral g, seq [notAhead (word "as"), name .identifier],
        seq [word "as", word "as"], seq [word "as", onlyAhead (sym "," <|> braceClose)]]]),
    words ["type", "typeof"]])

def renamed (k : NodeKind) (g : Context) (target : Parser Pieces) : Parser Pieces :=
  node k (seq [typeMark g,
    seq [inRole .name (exportName g), word "as", target] <|> inRole .name (exportName g)])

def exportClause (g : Context) : Parser Pieces :=
  node .exportClause (withBreaks false (seq [braceOpen,
    commaList g.bound (renamed .exportSpecifier g (exportName g)), braceClose]))

def namedImports (g : Context) : Parser Pieces :=
  node .namedImports (withBreaks false (seq [braceOpen,
    commaList g.bound (renamed .importSpecifier g (name .identifier)), braceClose]))

def namespaceImport : Parser Pieces :=
  node .namespaceImport (seq [sym "*", word "as", name .identifier])

def importClause (g : Context) : Parser Pieces :=
  node .importClause (choice [
    namespaceImport, namedImports g,
    seq [name .identifier, opt (seq [sym ",", namespaceImport <|> namedImports g])]])

def importAttribute (g : Context) : Parser Pieces :=
  node .importAttribute (seq [word "with", g.rule .object])

def importRequire (g : Context) : Parser Pieces :=
  node .importRequireClause (seq [name .identifier, sym "=", word "require", sym "(",
    inRole .source (stringLiteral g), sym ")"])

/-- An import; a leading `type` is a keyword if the statement can be read so. -/
def importStatement (g : Context) : Parser Pieces :=
  let rest : Parser Pieces := seq [
    choice [
      if g.typed then importRequire g else failure,
      seq [importClause g, fromClause g],
      inRole .source (stringLiteral g)],
    opt (importAttribute g), semicolon g false]
  node .importStatement (seq [word "import",
    (if g.typed then seq [words ["type", "typeof"], rest] else failure) <|> rest])

def exportStatement (g : Context) (marks : Pieces) : Parser Pieces := do
  let keyword ← word "export"
  let rest ← choice [
    seq [sym "*", fromClause g, opt (importAttribute g), semicolon g false],
    seq [node .namespaceExport (seq [sym "*", word "as", exportName g]), fromClause g,
      opt (importAttribute g), semicolon g false],
    seq [exportClause g, opt (seq [fromClause g, opt (importAttribute g)]), semicolon g false],
    seq [check (return g.typed), word "type", exportClause g, opt (fromClause g),
      semicolon g false],
    seq [word "default", choice [
      seq [onlyAhead (choice [words ["function", "async", "interface", "abstract", "class"], sym "@"]),
        declaration g],
      seq [inRole .value (g.rule .expression), semicolon g true]]],
    seq [check (return g.typed), word "as", word "namespace", name .identifier,
      semicolon g false],
    seq [check (return g.typed), symNot "=" "=>", g.rule .expression, semicolon g true],
    declaration g]
  return wrap .exportStatement (marks ++ keyword ++ rest)

def elseClause (g : Context) : Parser Pieces :=
  node .elseClause (seq [word "else", g.rule .statement])

def ifStatement (g : Context) : Parser Pieces :=
  node .ifStatement (seq [word "if", condition g, g.rule .statement, opt (elseClause g)])

def switchClause (g : Context) : Parser Pieces :=
  choice [
    node .switchCase (seq [word "case", inRole .value (withBreaks false (g.rule .sequence)), sym ":",
      many g.bound (g.rule .statement)]),
    node .switchDefault (seq [word "default", sym ":", many g.bound (g.rule .statement)])]

def switchStatement (g : Context) : Parser Pieces :=
  node .switchStatement (seq [word "switch", condition g,
    inRole .body (node .switchBody (withBreaks true
      (seq [braceOpen, many g.bound (switchClause g), braceClose])))])

def forInHeader (g : Context) : Parser Pieces :=
  withBreaks false (seq [sym "(",
    choice [
      seq [words ["let", "const", "var"], choice [objectPattern g, arrayPattern g, identifier],
        onlyAhead (words ["in", "of"])],
      seq [objectPattern g <|> arrayPattern g, onlyAhead (words ["in", "of"])],
      seq [g.rule .constructed, onlyAhead (words ["in", "of"])]],
    words ["in", "of"], g.rule .sequence, sym ")"])

def emptyStatement : Parser Pieces := node .emptyStatement (sym ";")

def forStatement (g : Context) : Parser Pieces := do
  let keyword ← word "for"
  (do
    let head ← seq [opt (word "await"), forInHeader g, inRole .body (g.rule .statement)]
    return wrap .forInStatement (keyword ++ head)) <|>
  (do
    let head ← seq [sym "(",
      choice [emptyStatement, variableDeclaration g,
        seq [withBreaks false (g.rule .sequence), sym ";"]],
      emptyStatement <|> seq [withBreaks false (g.rule .sequence), sym ";"],
      opt (withBreaks false (g.rule .sequence)), sym ")", inRole .body (g.rule .statement)]
    return wrap .forStatement (keyword ++ head))

def tryStatement (g : Context) : Parser Pieces :=
  node .tryStatement (seq [word "try", inRole .body (g.rule (.block false)),
    opt (node .catchClause (seq [word "catch",
      opt (seq [sym "(", choice [objectPattern g, arrayPattern g, identifier],
        opt (seq [check (return g.typed), inRole .ascription (typeAscription g)]), sym ")"]),
      inRole .body (g.rule (.block false))])),
    opt (node .finallyClause (seq [word "finally", inRole .body (g.rule (.block false))]))])

def jump (g : Context) (k : NodeKind) (keyword : String) : Parser Pieces :=
  node k (seq [word keyword, opt (seq [sameLine, name .statementIdentifier]), semicolon g false])

def returnStatement (g : Context) : Parser Pieces := do
  let keyword ← word "return"
  let value ← if ← brokenHere then pure [] else opt (g.rule .sequence)
  return wrap .returnStatement (keyword ++ value ++ (← semicolon g (!value.isEmpty)))

def labeledStatement (g : Context) : Parser Pieces :=
  node .labeledStatement (seq [name .statementIdentifier, sym ":",
    inRole .body (g.rule .statement)])

def expressionStatement (g : Context) : Parser Pieces :=
  node .expressionStatement (seq [g.rule .sequence, semicolon g true])

def decoratedStatement (g : Context) : Parser Pieces := do
  let marks ← onlyAhead (sym "@") *> g.rule .decorators
  exportStatement g marks <|> classDeclaration g marks

def wordStatement (g : Context) (w : String) : Parser Pieces :=
  match w with
  | "import" => choice [
      importStatement g, if g.typed then importAlias g else failure, expressionStatement g]
  | "export" => exportStatement g []
  | "if" => ifStatement g
  | "for" => forStatement g
  | "while" => node .whileStatement (seq [word "while", condition g,
      inRole .body (g.rule .statement)])
  | "do" => node .doStatement (seq [word "do", inRole .body (g.rule .statement), word "while",
      condition g, opt (semicolon g false)])
  | "switch" => switchStatement g
  | "try" => tryStatement g
  | "with" => node .withStatement (seq [word "with", condition g, inRole .body (g.rule .statement)])
  | "break" => jump g .breakStatement "break"
  | "continue" => jump g .continueStatement "continue"
  | "debugger" => node .debuggerStatement (seq [word "debugger", semicolon g false])
  | "return" => returnStatement g
  | "throw" => node .throwStatement (seq [word "throw", g.rule .sequence, semicolon g true])
  | "class" => classDeclaration g [] <|> expressionStatement g
  | "abstract" => classDeclaration g [] <|> expressionStatement g
  | "declare" => ambientDeclaration g <|> expressionStatement g
  | "namespace" => (if g.typed then namespaceStatement g else failure) <|> expressionStatement g
  | _ => choice [plainDeclaration g,
      seq [onlyAhead (seq [name .identifier, sym ":"]), labeledStatement g], expressionStatement g]

def statement (g : Context) : Parser Pieces := do
  let cs ← nextChars
  match cs with
  | [] => failure
  | '{' :: _ => g.rule (.block false)
  | '}' :: _ => failure
  | ';' :: _ => emptyStatement
  | '@' :: _ => decoratedStatement g <|> expressionStatement g
  | _ =>
    let w := nameText cs
    if w == "case" || w == "default" then failure
    else if w == "" then expressionStatement g
    else wordStatement g w

end OrmCodemod.Syntax.Grammar
