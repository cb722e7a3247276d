import OrmCodemod.Syntax.Grammar.Expressions

/-!
Markup elements of the dialects that have them. Text between tags is read as it stands; braces hold
expressions.
-/

namespace OrmCodemod.Syntax.Grammar

def markupName (k : NodeKind) : Parser Pieces := do
  let comments ← trivia
  let cs := (← get).rest
  let n := nameLength cs
  require (0 < n)
  let more := ((cs.drop n).takeWhile fun c => inName c || c == '-').length
  let t ← leaf (.named k) (n + more)
  return comments ++ t

def markupNamespace : Parser Pieces :=
  node .jsxNamespaceName (seq [markupName .identifier, sym ":", markupName .identifier])

def elementName (g : Context) : Parser Pieces :=
  choice [
    markupNamespace,
    (do
      let start ← name .identifier
      require ((← get).peek != '-')
      extend g.bound (fun ps => do
        let rest ← seq [sym ".", inRole .property (name .propertyIdentifier)]
        return wrap .memberExpression (mapLast (Tree.withRole .object) ps ++ rest)) start),
    markupName .identifier]

def markupExpression (g : Context) : Parser Pieces :=
  node .jsxExpression (withBreaks false
    (seq [braceOpen, opt (spread g <|> g.rule .sequence), braceClose]))

def markupText : Parser Pieces := do
  let cs := (← get).rest.takeWhile fun c => c != '<' && c != '{' && c != '&' && c != '>' && c != '}'
  require (!cs.isEmpty)
  -- blanks with a line break among them are layout, not text
  if cs.all isSpace && cs.contains '\n' then
    modify (·.advance cs.length)
    failure
  leaf (.named .jsxText) cs.length

def entity : Parser Pieces := do
  match (← get).rest with
  | '&' :: rest =>
    let n := (rest.takeWhile fun c => c.isAlphanum || c == '#').length
    require ((rest.drop n).headD ' ' == ';')
    leaf (.named .htmlCharacterReference) (n + 2)
  | _ => failure

/-- A string in markup: it knows entities instead of escapes, and may span lines. -/
def markupString (g : Context) (quote : Char) : Parser Pieces :=
  let mark := String.singleton quote
  node .stringLiteral (seq [sym mark,
    many g.bound (fragment (fun c => c != quote && c != '&') <|> entity), immediate mark])

def attribute_ (g : Context) : Parser Pieces :=
  choice [
    markupExpression g,
    node .jsxAttribute (seq [
      choice [node .jsxNamespaceName
          (seq [markupName .propertyIdentifier, sym ":", markupName .propertyIdentifier]),
        markupName .propertyIdentifier],
      opt (seq [sym "=", choice [markupString g '\'', markupString g '"', markupExpression g,
        g.rule .element]])])]

def markupChild (g : Context) : Parser Pieces :=
  choice [markupText, entity, markupExpression g,
    seq [notAhead (sym "</"), g.rule .element]]

def element (g : Context) : Parser Pieces := do
  let opening ← seq [symNot "<" "/=", opt (seq [inRole .name (elementName g),
    opt (seq [check (return g.typed), inRole .typeArguments (g.rule .typeArguments)]),
    many g.bound (attribute_ g)])]
  (do return wrap .jsxSelfClosingElement (opening ++ (← sym "/>"))) <|>
  (do
    let start := wrap .jsxOpeningElement (opening ++ (← sym ">"))
    let inner ← many g.bound (markupChild g)
    let close ← node .jsxClosingElement
      (seq [sym "</", opt (inRole .name (elementName g)), sym ">"])
    return wrap .jsxElement (start ++ inner ++ close))

end OrmCodemod.Syntax.Grammar
