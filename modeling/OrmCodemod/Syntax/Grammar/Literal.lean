import OrmCodemod.Syntax.Grammar.Basic

/-!
Literals: numbers, strings, templates and regular expressions. What stands inside quotes is read
character by character, blanks included.
-/

namespace OrmCodemod.Syntax.Grammar

/-- The text right at the cursor, without skipping blanks. -/
def immediate (text : String) : Parser Pieces := do
  require (text.toList.isPrefixOf (← get).rest)
  leaf (.token text) text.length

def isHexDigit (c : Char) : Bool :=
  c.isDigit || ('a' ≤ c && c ≤ 'f') || ('A' ≤ c && c ≤ 'F')

def escapeLength : List Char → Nat
  | '\\' :: 'x' :: rest => 2 + ((rest.take 2).takeWhile isHexDigit).length
  | '\\' :: 'u' :: '{' :: rest => 4 + (rest.takeWhile isHexDigit).length
  | '\\' :: 'u' :: rest => 2 + ((rest.take 4).takeWhile isHexDigit).length
  | '\\' :: '\r' :: '\n' :: _ => 3
  | '\\' :: c :: rest =>
    if '0' ≤ c && c ≤ '7' then
      2 + ((rest.take 2).takeWhile fun d => '0' ≤ d && d ≤ '7').length
    else 2
  | _ => 0

def escape : Parser Pieces := do
  let n := escapeLength (← get).rest
  require (0 < n)
  leaf (.named .escapeSequence) n

/-- At least one character that satisfies the test, as a text fragment. -/
def fragment (test : Char → Bool) : Parser Pieces := do
  let n := ((← get).rest.takeWhile test).length
  require (0 < n)
  leaf (.named .stringFragment) n

def quoted (g : Context) (quote : Char) : Parser Pieces :=
  let mark := String.singleton quote
  node .stringLiteral (seq [sym mark,
    many g.bound (fragment (fun c => c != quote && c != '\\' && c != '\n' && c != '\r') <|> escape),
    immediate mark])

def stringLiteral (g : Context) : Parser Pieces := quoted g '\'' <|> quoted g '"'

/-- Template characters up to a backtick, an escape or a substitution. -/
def templateCharsLength : List Char → Nat
  | [] => 0
  | '$' :: '{' :: _ => 0
  | c :: rest => if c == '`' || c == '\\' then 0 else 1 + templateCharsLength rest

def templateChars : Parser Pieces := do
  let n := templateCharsLength (← get).rest
  require (0 < n)
  leaf (.named .stringFragment) n

def templateWith (g : Context) (k holeKind : NodeKind) (hole : Parser Pieces) : Parser Pieces :=
  node k (seq [sym "`",
    many g.bound (choice [templateChars, escape,
      node holeKind (withBreaks false (seq [immediate "$\x7b", hole, braceClose]))]),
    immediate "`"])

def templateString (g : Context) : Parser Pieces :=
  templateWith g .templateString .templateSubstitution (g.rule .sequence)

def digitsLength (cs : List Char) : Nat := (cs.takeWhile fun c => c.isDigit || c == '_').length

def exponentLength : List Char → Nat
  | e :: rest =>
    if e == 'e' || e == 'E' then
      let sign := if rest.headD ' ' == '+' || rest.headD ' ' == '-' then 1 else 0
      let n := digitsLength (rest.drop sign)
      if n = 0 then 0 else 1 + sign + n
    else 0
  | [] => 0

/-- The length of a number at the front, zero if there is none. -/
def numberLength (cs : List Char) : Nat :=
  match cs with
  | '0' :: x :: rest =>
    if "xXoObB".toList.contains x then
      2 + (rest.takeWhile fun c => c.isAlphanum || c == '_').length
    else decimal cs
  | _ => decimal cs
where
  decimal (cs : List Char) : Nat :=
    let whole := digitsLength cs
    let rest := cs.drop whole
    let fraction := match rest with
      | '.' :: more => if 0 < whole || (more.headD ' ').isDigit then 1 + digitsLength more else 0
      | _ => 0
    if (whole = 0 && fraction = 0) || cs.headD ' ' == '_' then 0
    else
      let n := whole + fraction
      let n := n + exponentLength (cs.drop n)
      if (cs.drop n).headD ' ' == 'n' then n + 1 else n

def numberLiteral : Parser Pieces := do
  let comments ← trivia
  let n := numberLength (← get).rest
  require (0 < n)
  let t ← leaf (.named .numberLiteral) n
  return comments ++ t

/-- The length of a regular expression's pattern; a slash inside brackets does not end it, a line
break never belongs to it. -/
def patternLength (bracketed : Bool) : List Char → Option Nat
  | [] => none
  | '\\' :: c :: rest =>
    if c == '\n' then none else (patternLength bracketed rest).map (· + 2)
  | c :: rest =>
    if c == '\n' then none
    else if c == '/' && !bracketed then some 0
    else (patternLength (c == '[' || (bracketed && c != ']')) rest).map (· + 1)

def regexLiteral : Parser Pieces :=
  node .regexLiteral (do
    let slash ← sym "/"
    match patternLength false (← get).rest with
    | none => failure
    | some 0 => failure
    | some n =>
      let pattern ← leaf (.named .regexPattern) n
      let close ← immediate "/"
      let flags := ((← get).rest.takeWhile fun c => 'a' ≤ c && c ≤ 'z').length
      let tail ← if flags = 0 then pure [] else leaf (.named .regexFlags) flags
      return slash ++ pattern ++ close ++ tail)

end OrmCodemod.Syntax.Grammar
