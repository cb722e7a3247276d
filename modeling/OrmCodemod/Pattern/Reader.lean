import OrmCodemod.Pattern.Regex
import OrmCodemod.Text.Identifier

/-!
The text of a regular expression, token by token. A backslash and the character behind it are one
token. What is read is remembered as far as later parts of a pattern can refer to it.
-/

namespace OrmCodemod.Pattern

open Text

/-- Why a text is no regular expression. -/
inductive Refusal where
  | unclosedGroup
  | unopenedGroup
  | unclosedClass
  | unclosedComment
  | badRange (low high : String)
  | nothingToRepeat
  | repeatedTwice
  | emptyInterval
  | hugeInterval
  | unexpectedEnd
  | unknownExtension (text : String)
  | badEscape (text : String)
  | incompleteEscape (text : String)
  | hugeOctal (text : String)
  | loneBackslash
  | missing (what : String)
  | unterminatedName (terminator : Char)
  | badName (name : String)
  | repeatedName (name : String) (number former : Nat)
  | unknownName (name : String)
  | unknownCharacter (name : String)
  | badNumber
  | unknownGroup (number : Nat)
  | openGroup
  | sameLookBehind
  | thirdBranch
  | lateSwitches
  | badSwitches (why : String)
  | unknownSwitch
  | mixedAlphabets
  | openWidth
  | hugeWidth
  | templateRepeat (greed : Greed)
  deriving DecidableEq, Repr

def quoted (name : String) : String :=
  let mark := if name.toList.contains '\'' && !name.toList.contains '"' then '"' else '\''
  String.ofList (mark :: name.toList.flatMap (fun c =>
    if c == mark || c == '\\' then ['\\', c]
    else if c == '\n' then ['\\', 'n']
    else if c == '\r' then ['\\', 'r']
    else if c == '\t' then ['\\', 't']
    else if c.toNat < 32 || c.toNat == 127 then
      ['\\', 'x', Nat.digitChar (c.toNat / 16), Nat.digitChar (c.toNat % 16)]
    else [c]) ++ [mark])

def Refusal.message : Refusal → String
  | .unclosedGroup => "missing ), unterminated subpattern"
  | .unopenedGroup => "unbalanced parenthesis"
  | .unclosedClass => "unterminated character set"
  | .unclosedComment => "missing ), unterminated comment"
  | .badRange low high => s!"bad character range {low}-{high}"
  | .nothingToRepeat => "nothing to repeat"
  | .repeatedTwice => "multiple repeat"
  | .emptyInterval => "min repeat greater than max repeat"
  | .hugeInterval => "the repetition number is too large"
  | .unexpectedEnd => "unexpected end of pattern"
  | .unknownExtension text => s!"unknown extension {text}"
  | .badEscape text => s!"bad escape {text}"
  | .incompleteEscape text => s!"incomplete escape {text}"
  | .hugeOctal text => s!"octal escape value {text} outside of range 0-0o377"
  | .loneBackslash => "bad escape (end of pattern)"
  | .missing what => s!"missing {what}"
  | .unterminatedName terminator => s!"missing {terminator}, unterminated name"
  | .badName name => s!"bad character in group name {quoted name}"
  | .repeatedName name number former =>
    s!"redefinition of group name {quoted name} as group {number}; was group {former}"
  | .unknownName name => s!"unknown group name {quoted name}"
  | .unknownCharacter name => s!"undefined character name {quoted name}"
  | .badNumber => "bad group number"
  | .unknownGroup number => s!"invalid group reference {number}"
  | .openGroup => "cannot refer to an open group"
  | .sameLookBehind => "cannot refer to group defined in the same lookbehind subpattern"
  | .thirdBranch => "conditional backref with more than two branches"
  | .lateSwitches => "global flags not at the start of the expression"
  | .badSwitches why => s!"bad inline flags: {why}"
  | .unknownSwitch => "unknown flag"
  | .mixedAlphabets => "ASCII and UNICODE flags are incompatible"
  | .openWidth => "look-behind requires fixed-width pattern"
  | .hugeWidth => "looks too much behind"
  | .templateRepeat greed => "internal: unsupported template operator " ++
    match greed with
    | .greedy => "MAX_REPEAT"
    | .lazy => "MIN_REPEAT"
    | .possessive => "POSSESSIVE_REPEAT"

def Refusal.exception : Refusal → String
  | .hugeInterval => "OverflowError"
  | .mixedAlphabets => "ValueError"
  | _ => "error"

/-- A refusal, and the character at which it stands if it has a place, counted from zero; with the line
and column of that in a pattern of several lines. -/
structure PatternError where
  refusal : Refusal
  place : Option Nat := none
  line : Option (Nat × Nat) := none
  deriving DecidableEq, Repr

def PatternError.message (e : PatternError) : String :=
  e.refusal.message ++
    (match e.place with
    | some n => s!" at position {n}"
    | none => "") ++
    match e.line with
    | some (line, column) => s!" (line {line}, column {column})"
    | none => ""

/-- The line and column of a character, in a text of several lines. -/
def lineOf (cs : List Char) (place : Nat) : Option (Nat × Nat) :=
  if cs.contains '\n' then
    let before := cs.take place
    some (before.count '\n' + 1, (before.reverse.takeWhile (· != '\n')).length + 1)
  else none

/-- A character, or one behind a backslash. A backslash at the end has no character behind it. -/
inductive Token where
  | plain (c : Char)
  | escaped (c : Char)
  | dangling
  deriving DecidableEq, Repr

namespace Token

def chars : Token → List Char
  | .plain c => [c]
  | .escaped c => ['\\', c]
  | .dangling => ['\\']

def text (t : Token) : String := String.ofList t.chars

def length (t : Token) : Nat := t.chars.length

def isIn (t : Token) (test : Char → Bool) : Bool :=
  match t with
  | .plain c => test c
  | _ => false

end Token

def tokens : List Char → List Token
  | [] => []
  | ['\\'] => [.dangling]
  | '\\' :: c :: cs => .escaped c :: tokens cs
  | c :: cs => .plain c :: tokens cs

/-- What is left of a pattern, where that stands in it, and what was read: the switches of the whole
pattern, the least and greatest width of each group (none while it is open), the names of groups, how
many groups there were before the outermost look behind, and the groups that conditions ask for. -/
structure Reader where
  rest : List Token
  index : Nat := 0
  switches : List Switch := []
  groups : List (Option (Nat × Nat)) := []
  names : List (List Char × Nat) := []
  behind : Option Nat := none
  asked : List (Nat × Nat) := []
  deriving Repr

abbrev Read := StateT Reader (Except (Refusal × Option Nat))

namespace Read

def refuseAt {α : Type} (place : Nat) (why : Refusal) : Read α := throw (why, some place)

def refuse {α : Type} (why : Refusal) (back : Nat) : Read α := do
  refuseAt ((← get).index - back) why

/-- Go on to some tokens at a place. A lone backslash is refused as soon as it comes next. -/
def goTo (rest : List Token) (index : Nat) : Read Unit := do
  if rest == [.dangling] then refuseAt index .loneBackslash
  modify fun r => { r with rest, index }

def peek : Read (Option Token) := return (← get).rest.head?

def next : Read (Option Token) := do
  match (← get).rest with
  | [] => return none
  | t :: rest =>
    goTo rest ((← get).index + t.length)
    return some t

def take (c : Char) : Read Bool := do
  if (← peek) == some (.plain c) then
    let _ ← next
    return true
  return false

def takeWhile (test : Char → Bool) : Nat → Read (List Char)
  | 0 => return []
  | n + 1 => do
    match ← peek with
    | some (.plain c) =>
      if test c then
        let _ ← next
        return c :: (← takeWhile test n)
      return []
    | _ => return []

/-- Take all characters up to a terminator, which must not come at once. -/
def takeUntil (terminator : Char) (what : String) (done : List Char) : Nat → Read (List Char)
  | 0 => refuse (.missing what) 0
  | fuel + 1 => do
    match ← next with
    | none =>
      if done.isEmpty then refuse (.missing what) 0
      refuse (.unterminatedName terminator) done.length
    | some t =>
      if t == .plain terminator then
        if done.isEmpty then refuse (.missing what) 1
        return done
      takeUntil terminator what (done ++ t.chars) fuel

def skipTo (stop : Token → Bool) (atEnd : Read Unit) : Nat → Read Unit
  | 0 => atEnd
  | fuel + 1 => do
    match ← next with
    | none => atEnd
    | some t => if stop t then return else skipTo stop atEnd fuel

def fuel : Read Nat := return (← get).rest.length + 1

def isClosed (number : Nat) : Read Bool := do
  return number ≠ 0 && ((← get).groups[number - 1]?.join).isSome

/-- Inside a look behind only groups before it can be referred to. -/
def checkBehind (number : Nat) : Read Unit := do
  match (← get).behind with
  | none => return
  | some count =>
    if !(← isClosed number) then refuse .openGroup 0
    if number ≥ count then refuse .sameLookBehind 0

def openGroup (name : Option (List Char)) : Read Nat := do
  let r ← get
  let number := r.groups.length + 1
  match name with
  | none => set { r with groups := r.groups ++ [none] }
  | some name =>
    match r.names.lookup name with
    | some former =>
      refuse (.repeatedName (String.ofList name) number former) (name.length + 1)
    | none =>
      set { r with groups := r.groups ++ [none], names := (name, number) :: r.names }
  return number

def closeGroup (number : Nat) (width : Nat × Nat) : Read Unit :=
  modify fun r => { r with groups := r.groups.set (number - 1) (some width) }

end Read
end OrmCodemod.Pattern
