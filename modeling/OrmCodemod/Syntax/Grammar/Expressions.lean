import OrmCodemod.Syntax.Grammar.Members

/-!
Expressions: operands with the accesses and calls after them, prefix operators, binary operators by
how tightly they bind, conditionals, assignments and arrow functions. Where the first tokens fit two
readings, the longer one is tried first: an arrow function before parentheses, type arguments before
a comparison, a pattern before a literal that is assigned to.
-/

namespace OrmCodemod.Syntax.Grammar

/-- Words that cannot be a variable, because they start or continue something else. -/
def reservedWords : List String :=
  ["break", "case", "catch", "class", "const", "continue", "debugger", "default", "delete", "do",
    "else", "export", "extends", "finally", "for", "function", "if", "import", "in", "instanceof",
    "new", "return", "super", "switch", "this", "throw", "try", "typeof", "var", "void", "while",
    "with", "true", "false", "null", "enum"]

def variableName : Parser Pieces := do
  require (!reservedWords.contains (← nextWord))
  identifier

def spread (g : Context) : Parser Pieces :=
  node .spreadElement (seq [sym "...", g.rule .expression])

def array (g : Context) : Parser Pieces :=
  node .array (withBreaks false
    (seq [sym "[", commaSlots g.bound (spread g <|> g.rule .expression), sym "]"]))

def arguments (g : Context) : Parser Pieces :=
  node .arguments (withBreaks false
    (seq [sym "(", commaSlots g.bound (spread g <|> g.rule .expression), sym ")"]))

def objectEntry (g : Context) : Parser Pieces :=
  choice [
    spread g,
    node .pair (seq [inRole .key (g.rule .propertyName), sym ":",
      inRole .value (g.rule .expression)]),
    seq [name .shorthandPropertyIdentifier, onlyAhead (sym "," <|> braceClose)],
    g.rule .method]

def object (g : Context) : Parser Pieces :=
  node .object (withBreaks false
    (seq [braceOpen, commaSlots g.bound (objectEntry g), braceClose]))

def parenthesized (g : Context) : Parser Pieces :=
  node .parenthesizedExpression (withBreaks false (seq [sym "(", g.rule .sequence,
    opt (seq [check (return g.typed), inRole .ascription (typeAscription g)]), sym ")"]))

def functionExpression (g : Context) : Parser Pieces := do
  let head ← seq [opt (seq [word "async", sameLine]), word "function"]
  let star ← opt (sym "*")
  let tail ← seq [opt (inRole .name (name .identifier)), callSignature g,
    inRole .body (g.rule (.block true))]
  return wrap (if star.isEmpty then .functionExpression else .generatorFunction)
    (head ++ star ++ tail)

def classExpression (g : Context) : Parser Pieces :=
  node .classExpr (seq [g.rule .decorators, word "class", opt (className g), g.rule .classTail])

def arrowHead (g : Context) : Parser Pieces :=
  choice [
    seq [variableName, sameLine, sym "=>"],
    seq [onlyAhead (sym "(" <|> sym "<"), callSignature g, sym "=>"]]

def arrowFunction (g : Context) : Parser Pieces :=
  node .arrowFunction (seq [
    seq [word "async", sameLine, arrowHead g] <|> arrowHead g,
    inRole .body (seq [onlyAhead braceOpen, g.rule (.block true)] <|> g.rule .expression)])

def metaProperty : Parser Pieces :=
  node .metaProperty (seq [word "new", sym ".", word "target"] <|>
    seq [word "import", sym ".", word "meta"])

def newExpression (g : Context) : Parser Pieces :=
  node .newExpression (seq [word "new", inRole .constructed (g.rule .constructed),
    opt (seq [check (return g.typed), inRole .typeArguments (g.rule .typeArguments),
      onlyAhead (sym "(")]),
    opt (inRole .arguments (g.rule .arguments))])

def operand (g : Context) : Parser Pieces := do
  let cs ← nextChars
  match cs with
  | '(' :: _ => parenthesized g
  | '[' :: _ => g.rule .array
  | '{' :: _ => g.rule .object
  | '`' :: _ => g.rule .template
  | '\'' :: _ => quoted g '\''
  | '"' :: _ => quoted g '"'
  | '/' :: _ => regexLiteral
  | '@' :: _ => classExpression g
  | '#' :: _ => privateName
  | '<' :: _ => if g.dialect == .typescript then failure else g.rule .element
  | c :: _ =>
    if c.isDigit || c == '.' then numberLiteral
    else match ← nextWord with
      | "this" => wordNode .thisExpr "this"
      | "super" => wordNode .superExpr "super"
      | "true" => wordNode .trueLiteral "true"
      | "false" => wordNode .falseLiteral "false"
      | "null" => wordNode .nullLiteral "null"
      | "function" => functionExpression g
      | "async" => functionExpression g <|> variableName
      | "class" => classExpression g
      | "new" => metaProperty <|> newExpression g
      | "import" => metaProperty <|> seq [importCallee, onlyAhead (sym "(")]
      | _ => variableName
  | [] => failure

def optionalChain (g : Context) : Parser Pieces :=
  if g.typed then node .optionalChain (sym "?.")
  else mapLast (Tree.withKind .optionalChain) <$> sym "?."

/-- An access after an operand: `.name`, `?.name` or `[index]`. -/
def access (g : Context) (ps : Pieces) : Parser Pieces :=
  let object := mapLast (Tree.withRole .object) ps
  let property := inRole .property (privateName <|> name .propertyIdentifier)
  choice [
    (do return wrap .memberExpression (object ++ (← symNot "." ".") ++ (← property))),
    (do return wrap .memberExpression (object ++ (← optionalChain g) ++ (← property))),
    (do
      let index ← seq [opt (optionalChain g), sym "[", withBreaks false (g.rule .sequence), sym "]"]
      return wrap .subscriptExpression (object ++ index))]

def nonNull (g : Context) (ps : Pieces) : Parser Pieces := do
  require (g.typed && !(← lineFeedNext))
  return wrap .nonNullExpression (ps ++ (← symNot "!" "="))

def call (g : Context) (ps : Pieces) : Parser Pieces :=
  let callee := mapLast (Tree.withRole .callee) ps
  let typed := opt (seq [check (return g.typed), inRole .typeArguments (g.rule .typeArguments)])
  let args := inRole .arguments (g.rule .arguments)
  choice [
    (do return wrap .callExpression (callee ++ (← seq [typed, args]))),
    (do
      let chain := if g.typed then sym "?." else optionalChain g
      return wrap .callExpression (callee ++ (← seq [chain, typed, args]))),
    (do return wrap .callExpression (callee ++ (← inRole .arguments (g.rule .template))))]

/-- What a class may extend: an operand with accesses and calls. -/
def heritage (g : Context) : Parser Pieces := do
  extend g.bound (fun ps => choice [access g ps, nonNull g ps, call g ps]) (← operand g)

def constructed (g : Context) : Parser Pieces := do
  extend g.bound (fun ps => choice [access g ps, nonNull g ps]) (← operand g)

/-- Type arguments without a call, where an expression may end. -/
def instantiated (g : Context) (ps : Pieces) : Parser Pieces := do
  require g.typed
  let args ← g.rule .typeArguments
  let next ← nextChars
  require (")],;:\x7d".toList.contains (next.headD ';') || (← lineFeedNext))
  return wrap .instantiationExpression (ps ++ args)

def suffixed (g : Context) : Parser Pieces := do
  let ps ← heritage g
  let ps ← instantiated g ps <|> return ps
  (do
    require (!(← lineFeedNext))
    return wrap .updateExpression (ps ++ (← sym "++" <|> sym "--"))) <|> return ps

def unary (g : Context) : Parser Pieces := do
  let cs ← nextChars
  match cs with
  | '+' :: '+' :: _ => node .updateExpression (seq [sym "++", g.rule .unary])
  | '-' :: '-' :: _ => node .updateExpression (seq [sym "--", g.rule .unary])
  | '+' :: _ => node .unaryExpression (seq [sym "+", g.rule .unary])
  | '-' :: _ => node .unaryExpression (seq [sym "-", g.rule .unary])
  | '!' :: _ => node .unaryExpression (seq [sym "!", g.rule .unary])
  | '~' :: _ => node .unaryExpression (seq [sym "~", g.rule .unary])
  | '<' :: _ =>
    if g.dialect == .typescript then
      node .typeAssertion (seq [g.rule .typeArguments, g.rule .unary])
    else suffixed g
  | _ =>
    match ← nextWord with
    | "typeof" => node .unaryExpression (seq [word "typeof", g.rule .unary])
    | "void" => node .unaryExpression (seq [word "void", g.rule .unary])
    | "delete" => node .unaryExpression (seq [word "delete", g.rule .unary])
    | "await" => node .awaitExpression (seq [word "await", g.rule .unary]) <|> suffixed g
    | _ => suffixed g

/-- Binary operators, longest spelling first, and how tightly each binds. -/
def operators : List (String × Nat) :=
  [(">>>", 9), ("===", 7), ("!==", 7), ("**", 12), ("&&", 3), ("||", 2), ("??", 1), ("==", 7),
    ("!=", 7), ("<=", 8), (">=", 8), ("<<", 9), (">>", 9), ("<", 8), (">", 8), ("+", 10), ("-", 10),
    ("*", 11), ("/", 11), ("%", 11), ("&", 6), ("^", 5), ("|", 4)]

def assignments : List String :=
  [">>>=", "<<=", ">>=", "**=", "&&=", "||=", "??=", "+=", "-=", "*=", "/=", "%=", "&=", "^=", "|="]

/-- The operator at the front, and how tightly it binds. An assignment is no binary operator, and a
doubled sign belongs to one operand. -/
def operatorAt (cs : List Char) : Option (String × Nat) :=
  if (["=>", "++", "--"] ++ assignments).any (·.toList.isPrefixOf cs) then none
  else operators.find? fun op => op.1.toList.isPrefixOf cs

/-- Go on after a left operand with the next operator that binds at least as tightly as `level`. -/
def binaryStep (g : Context) (level : Nat) (left : Pieces) : Parser Pieces := do
  let w ← nextWord
  if w == "as" || w == "satisfies" then
    require (g.typed && level ≤ 8 && !(← brokenHere))
    let keyword ← word w
    let target ← (if w == "as" then seq [word "const", notAhead (sym ".")] else failure) <|>
      g.rule .type
    return wrap (if w == "as" then .asExpression else .satisfiesExpression) (left ++ keyword ++ target)
  else if w == "in" || w == "instanceof" then
    require (level ≤ 8)
    return wrap .binaryExpression (left ++ (← seq [word w, g.rule (.binary 9)]))
  else
    match operatorAt (← nextChars) with
    | none => failure
    | some (op, tightness) =>
      require (level ≤ tightness)
      let right := if op == "**" then tightness else tightness + 1
      return wrap .binaryExpression (left ++ (← seq [sym op, g.rule (.binary right)]))

def binary (g : Context) (level : Nat) : Parser Pieces := do
  extend g.bound (binaryStep g level) (← g.rule .unary)

def conditional (g : Context) : Parser Pieces := do
  let test ← g.rule (.binary 1)
  (do
    let rest ← seq [sym "?", withBreaks false (g.rule .expression), sym ":", g.rule .expression]
    return wrap .ternaryExpression (test ++ rest)) <|> return test

def yieldExpression (g : Context) : Parser Pieces :=
  node .yieldExpression (seq [word "yield",
    seq [sym "*", g.rule .expression] <|> opt (seq [sameLine, g.rule .expression])])

/-- A conditional, or an assignment to it. An object or array that is assigned to is a pattern. -/
def assignment (g : Context) : Parser Pieces := do
  let before ← get
  let left ← conditional g
  let plain := symNot "=" "=>"
  if ← ahead plain then
    let target ←
      if left.getLast?.any (·.isAny [.object, .array]) then do
        set before
        g.rule .pattern
      else pure left
    return wrap .assignmentExpression (target ++ (← seq [plain, g.rule .expression]))
  else
    let cs ← nextChars
    match assignments.find? fun op => op.toList.isPrefixOf cs with
    | some op =>
      return wrap .augmentedAssignmentExpression (left ++ (← seq [sym op, g.rule .expression]))
    | none => return left

def expression (g : Context) : Parser Pieces := do
  let cs ← nextChars
  let w := nameText cs
  if w == "yield" then yieldExpression g <|> assignment g
  else if w != "" || cs.headD ' ' == '(' || cs.headD ' ' == '<' then
    arrowFunction g <|> assignment g
  else assignment g

def sequence (g : Context) : Parser Pieces := do
  let first ← g.rule .expression
  let more ← many g.bound (seq [sym ",", g.rule .expression])
  return if more.isEmpty then first else wrap .sequenceExpression (first ++ more)

end OrmCodemod.Syntax.Grammar
