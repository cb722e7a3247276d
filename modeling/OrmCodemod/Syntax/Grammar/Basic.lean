import OrmCodemod.Syntax.Cursor

/-!
Building blocks of the grammar. A production reads a run of sibling nodes: the comments it met and
its own node last. Comments before a node's first token are left to the node around it, and a
comment after its last token is not read at all, so a comment always belongs to the innermost node
that has tokens on both sides of it.
-/

namespace OrmCodemod.Syntax.Grammar

abbrev Pieces := List Tree

/-- A production: it fails, or reads a value and moves the cursor. -/
abbrev Parser (α : Type) := StateT Cursor Option α

/-- The productions that productions of other modules go back to. -/
inductive Rule where
  | statement
  /-- a braced block; the flag says that it can be an operand -/
  | block (operand : Bool)
  | expression
  | sequence
  /-- binary operators that bind at least this tightly -/
  | binary (level : Nat)
  | unary
  /-- what may follow `new`: accesses, but no calls -/
  | constructed
  /-- what a class may extend -/
  | heritage
  | template
  | object
  | array
  | arguments
  | pattern
  | type
  | typeOperand
  | typeArguments
  | typeParameters
  | callSignature
  | parameters
  | propertyName
  | classTail
  | decorators
  | method
  | element
  deriving DecidableEq

/-- What every production knows: the dialect, a bound on repetitions, and the other productions. -/
structure Context where
  dialect : Dialect
  bound : Nat
  rule : Rule → Parser Pieces

def Context.typed (g : Context) : Bool := g.dialect != .javascript

/-- A node over the given children, from the first to the last of them. -/
def nodeOf (k : NodeKind) (children : Pieces) : Tree :=
  .node (.named k) none ((children.head?.map Tree.start).getD 0)
    ((children.getLast?.map Tree.stop).getD 0) children

/-- Put a node around pieces; comments in front of it stay outside. -/
def wrap (k : NodeKind) (ps : Pieces) : Pieces :=
  ps.takeWhile (·.is .comment) ++ [nodeOf k (ps.dropWhile (·.is .comment))]

def mapLast (f : Tree → Tree) : Pieces → Pieces
  | [] => []
  | [t] => [f t]
  | t :: ts => t :: mapLast f ts

def inRole (r : Role) (p : Parser Pieces) : Parser Pieces := do
  let ps ← p
  return mapLast (Tree.withRole r) ps

def node (k : NodeKind) (p : Parser Pieces) : Parser Pieces := do
  let ps ← p
  return wrap k ps

def seq : List (Parser Pieces) → Parser Pieces
  | [] => return []
  | p :: ps => do
    let a ← p
    let b ← seq ps
    return a ++ b

def choice : List (Parser Pieces) → Parser Pieces
  | [] => failure
  | p :: ps => p <|> choice ps

def opt (p : Parser Pieces) : Parser Pieces := p <|> return []

/-- At most `n` times, as long as something is read. -/
def many : Nat → Parser Pieces → Parser Pieces
  | 0, _ => return []
  | n + 1, p =>
    (do
      let a ← p
      if a.isEmpty then failure
      let b ← many n p
      return a ++ b) <|> return []

/-- Extend a node as long as the extension succeeds, at most `n` times. -/
def extend : Nat → (Pieces → Parser Pieces) → Pieces → Parser Pieces
  | 0, _, ps => return ps
  | n + 1, step, ps => (do extend n step (← step ps)) <|> return ps

/-- Whether a production would succeed here; nothing is read. -/
def ahead (p : Parser Pieces) : Parser Bool := fun c => some ((p c).isSome, c)

def require (b : Bool) : Parser Unit := if b then return () else failure

/-- Read nothing, and go on only if the condition holds. -/
def check (p : Parser Bool) : Parser Pieces := do
  require (← p)
  return []

def notAhead (p : Parser Pieces) : Parser Pieces := check (do return !(← ahead p))

/-- Go on only if the production would succeed. -/
def onlyAhead (p : Parser Pieces) : Parser Pieces := check (ahead p)

/-- Line breaks may (not) end constructs inside the production. -/
def withBreaks (b : Bool) (p : Parser Pieces) : Parser Pieces := do
  let saved := (← get).breaks
  modify fun c => { c with breaks := b }
  let ps ← p
  modify fun c => { c with breaks := saved }
  return ps

def trivia : Parser Pieces := do
  let c ← get
  match skipTrivia .blank c.pos c.rest with
  | none => failure
  | some (comments, pos, rest) =>
    set { c with rest, pos }
    return comments

def leaf (k : Kind) (n : Nat) : Parser Pieces := do
  let c ← get
  let d := c.advance n
  set d
  return [.node k none c.pos d.pos []]

/-- A character that can start a name: no control, space, digit or ASCII punctuation. -/
def startsName (c : Char) : Bool :=
  if c.toNat < 128 then c.isAlpha || c == '_' || c == '$' || c == '\x7f'
  else !isSpace c

def inName (c : Char) : Bool := startsName c || c.isDigit

/-- The length of the name at the front, zero if there is none; a name may spell characters as
escapes. -/
def nameLength (cs : List Char) : Nat :=
  match cs with
  | c :: rest => if startsName c then 1 + (rest.takeWhile inName).length else 0
  | [] => 0

def nameText (cs : List Char) : String := String.ofList (cs.take (nameLength cs))

def nextWord : Parser String := fun c =>
  match skipTrivia .blank c.pos c.rest with
  | none => some ("", c)
  | some (_, _, rest) => some (nameText rest, c)

/-- The characters that come next, after blanks and comments. -/
def nextChars : Parser (List Char) := fun c =>
  match skipTrivia .blank c.pos c.rest with
  | none => some ([], c)
  | some (_, _, rest) => some (rest, c)

def lineFeedNext : Parser Bool := fun c => some (lineFeedAhead .blank c.rest, c)

def brokenHere : Parser Bool := do
  let c ← get
  return c.breaks && lineFeedAhead .blank c.rest

def sameLine : Parser Pieces := check (do return !(← lineFeedNext))

/-- A token of punctuation, whatever follows it. -/
def sym (text : String) : Parser Pieces := do
  let comments ← trivia
  let c ← get
  if text.toList.isPrefixOf c.rest then
    let t ← leaf (.token text) text.length
    return comments ++ t
  else failure

def braceOpen : Parser Pieces := sym "\x7b"

def braceClose : Parser Pieces := sym "\x7d"

/-- A token of punctuation that none of the given characters may follow directly. -/
def symNot (text : String) (next : String) : Parser Pieces := do
  let t ← sym text
  let c ← get
  require (c.rest.isEmpty || !next.toList.contains c.peek)
  return t

def word (text : String) : Parser Pieces := do
  let comments ← trivia
  let c ← get
  if nameText c.rest == text then
    let t ← leaf (.token text) text.length
    return comments ++ t
  else failure

def words (texts : List String) : Parser Pieces := choice (texts.map word)

def name (k : NodeKind) : Parser Pieces := do
  let comments ← trivia
  let c ← get
  let n := nameLength c.rest
  if n = 0 then failure
  let t ← leaf (.named k) n
  return comments ++ t

def wordNode (k : NodeKind) (text : String) : Parser Pieces := seq [onlyAhead (word text), name k]

def commaList (n : Nat) (item : Parser Pieces) : Parser Pieces :=
  opt (seq [item, many n (seq [sym ",", item]), opt (sym ",")])

/-- Items with commas between them, of which any may be missing. -/
def commaSlots (n : Nat) (item : Parser Pieces) : Parser Pieces :=
  seq [opt item, many n (seq [sym ",", opt item])]

/-- A semicolon that a line break stands for; comments before the break are part of the
construct. -/
def impliedSemicolon (g : Context) (operand : Bool) : Nat → Parser Pieces
  | 0 => failure
  | n + 1 => do
    let c ← get
    if semicolonHere g.dialect operand c then return []
    else
      -- take one comment along, if the next thing is one, and look again
      match skipTrivia .blank c.pos c.rest with
      | some (first :: _, _, _) =>
        let skipped := c.advance ((c.rest.takeWhile isSpace).length)
        let past := passTo first.stop c.rest.length skipped
        set past
        let more ← impliedSemicolon g operand n
        return first :: more
      | _ => failure
where
  /-- Move to a byte offset. -/
  passTo (target : Nat) : Nat → Cursor → Cursor
    | 0, c => c
    | k + 1, c => if c.pos < target then passTo target k (c.advance 1) else c

def semicolon (g : Context) (operand : Bool) : Parser Pieces :=
  impliedSemicolon g operand g.bound <|> sym ";"

end OrmCodemod.Syntax.Grammar
