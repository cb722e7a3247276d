import OrmCodemod.Syntax.Tree
import OrmCodemod.Dialect

/-!
Reading position in a source. Between two tokens stand blanks and comments; a comment is a node of
the tree, a blank is not. At some places a line break ends a statement: `semicolonHere` decides when,
from the characters that follow.
-/

namespace OrmCodemod.Syntax

/-- What is left to read, the byte offset of it, and whether a line break may end the construct
being read (it may not inside brackets). -/
structure Cursor where
  rest : List Char
  pos : Nat
  breaks : Bool := true

namespace Cursor

def advance : Nat → Cursor → Cursor
  | 0, c => c
  | n + 1, c =>
    match c.rest with
    | [] => c
    | x :: rest => advance n { c with rest, pos := c.pos + x.utf8Size }

def peek (c : Cursor) : Char := c.rest.headD '\x00'

end Cursor

/-- Space characters: the separators of Unicode, the ASCII controls that separate, and the four
invisible marks. -/
def isSpace (c : Char) : Bool :=
  let n := c.toNat
  (0x09 ≤ n && n ≤ 0x0D) || n == 0x20 || n == 0xA0 || n == 0x1680 || (0x2000 ≤ n && n ≤ 0x200B) ||
    n == 0x2028 || n == 0x2029 || n == 0x202F || n == 0x205F || n == 0x2060 || n == 0x3000 ||
    n == 0xFEFF

def endsLine (c : Char) : Bool :=
  c == '\n' || c == '\r' || c.toNat == 0x2028 || c.toNat == 0x2029

/-- Where a scan over blanks and comments stands; a comment is remembered by its start. -/
inductive Trivia where
  | blank
  | line (start : Nat)
  | block (start : Nat)

def commentNode (start stop : Nat) : Tree := .node (.named .comment) none start stop []

/-- Skip blanks and comments: the comments, the offset and the rest. A block comment has to end. -/
def skipTrivia : Trivia → Nat → List Char → Option (List Tree × Nat × List Char)
  | .blank, pos, '/' :: '/' :: rest => skipTrivia (.line pos) (pos + 2) rest
  | .blank, pos, '/' :: '*' :: rest => skipTrivia (.block pos) (pos + 2) rest
  | .blank, pos, c :: rest =>
    if isSpace c then skipTrivia .blank (pos + c.utf8Size) rest else some ([], pos, c :: rest)
  | .blank, pos, [] => some ([], pos, [])
  | .line start, pos, [] => some ([commentNode start pos], pos, [])
  | .line start, pos, c :: rest =>
    if endsLine c then
      (skipTrivia .blank (pos + c.utf8Size) rest).map fun r => (commentNode start pos :: r.1, r.2)
    else skipTrivia (.line start) (pos + c.utf8Size) rest
  | .block start, pos, '*' :: '/' :: rest =>
    (skipTrivia .blank (pos + 2) rest).map fun r => (commentNode start (pos + 2) :: r.1, r.2)
  | .block start, pos, c :: rest => skipTrivia (.block start) (pos + c.utf8Size) rest
  | .block _, _, [] => none

/-- Whether a line feed stands among the blanks before the next token; comments do not count. -/
def lineFeedAhead : Trivia → List Char → Bool
  | .blank, '/' :: '/' :: rest => lineFeedAhead (.line 0) rest
  | .blank, '/' :: '*' :: rest => lineFeedAhead (.block 0) rest
  | .blank, c :: rest => c == '\n' || (isSpace c && lineFeedAhead .blank rest)
  | .line _, c :: rest =>
    if endsLine c then c == '\n' || lineFeedAhead .blank rest else lineFeedAhead (.line 0) rest
  | .block _, '*' :: '/' :: rest => lineFeedAhead .blank rest
  | .block _, _ :: rest => lineFeedAhead (.block 0) rest
  | _, [] => false

/-- How a look past comments ended. -/
inductive Glance where
  | reached
  | sameLine
  | refused
  deriving DecidableEq

/-- Look past blanks and comments. With `through` off the look stops after a block comment and
reports whether that one held a line break. -/
def glance (through : Bool) : Trivia → Bool → List Char → Glance × List Char
  | .blank, held, '/' :: '/' :: rest => glance through (.line 0) held rest
  | .blank, held, '/' :: '*' :: rest => glance through (.block 0) held rest
  | .blank, held, c :: rest =>
    if c == '/' then (.refused, c :: rest)
    else if isSpace c then glance through .blank held rest
    else (.reached, c :: rest)
  | .line _, held, c :: rest =>
    if c == '\n' || c.toNat == 0x2028 || c.toNat == 0x2029 then glance through .blank held rest
    else glance through (.line 0) held rest
  | .block _, held, '*' :: '/' :: rest =>
    if through || rest.head? == some '/' then glance through .blank held rest
    else (if held then .reached else .sameLine, rest)
  | .block _, held, c :: rest =>
    glance through (.block 0) (held || c == '\n' || c.toNat == 0x2028 || c.toNat == 0x2029) rest
  | _, _, [] => (.reached, [])

/-- After `in` no letter may follow, or `stanceof` and then no letter. -/
def startsWordOperator (rest : List Char) : Bool :=
  let ends : List Char → Bool := fun r => !(r.headD ' ').isAlpha
  match rest with
  | 'i' :: 'n' :: more =>
    ends more || ("stanceof".toList.isPrefixOf more && ends (more.drop 8))
  | _ => false

/-- Whether a statement may end before `rest`, which starts a later line: not if `rest` goes on with
the expression. `operand` says that the construct so far can be an operand. -/
def endsBefore (dialect : Dialect) (operand : Bool) (rest : List Char) : Bool :=
  match rest with
  | [] => true
  | '.' :: d :: _ => dialect == .javascript && d.isDigit
  | '+' :: d :: _ => d == '+'
  | '-' :: d :: _ => d == '-'
  | '!' :: d :: _ => d != '='
  | '(' :: _ => !operand && dialect != .javascript
  | '[' :: _ => !operand && dialect != .javascript
  | c :: _ =>
    !("`,.:;*%><=?^|&/+-".toList.contains c) && !startsWordOperator rest

/-- Look for the end of the line in the typed dialects: only blanks may stand before it, and a brace
or the end of the source counts as one. -/
def typedSemicolon (dialect : Dialect) (operand : Bool) : List Char → Bool
  | [] => true
  | c :: rest =>
    if c == '}' then
      match rest.dropWhile isSpace with
      | ':' :: _ => operand
      | _ => true
    else if !isSpace c then false
    else if c == '\n' then
      match glance true .blank false rest with
      | (.refused, _) => false
      | (_, rest) => endsBefore dialect operand rest
    else typedSemicolon dialect operand rest

/-- Look for the end of the line in the untyped dialect: comments may stand before it. -/
def untypedSemicolon (operand : Bool) : Nat → List Char → Bool
  | 0, _ => false
  | _, [] => true
  | n + 1, c :: rest =>
    let look : Option (List Char) :=
      if c == '/' then
        match glance false .blank false (c :: rest) with
        | (.refused, _) => none
        | (_, more) => some more
      else some (c :: rest)
    let past : Bool :=
      c == '/' &&
        match glance false .blank false (c :: rest) with
        | (.reached, d :: _) => !operand && d != ',' && d != '='
        | (.reached, []) => !operand
        | _ => false
    if past then true
    else match look with
      | none => false
      | some [] => true
      | some (d :: more) =>
        if d == '}' then true
        else if d == '\n' || d.toNat == 0x2028 || d.toNat == 0x2029 then
          match glance true .blank false more with
          | (.refused, _) => false
          | (_, more) => endsBefore .javascript operand more
        else if !isSpace d then false
        else untypedSemicolon operand n more

def semicolonHere (dialect : Dialect) (operand : Bool) (c : Cursor) : Bool :=
  match dialect with
  | .javascript => untypedSemicolon operand (c.rest.length + 1) c.rest
  | _ => typedSemicolon dialect operand c.rest

end OrmCodemod.Syntax
