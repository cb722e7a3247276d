import OrmCodemod.Pattern.Reader

/-!
Reading a regular expression: branches of items, with groups of every kind, and at last the checks that
need the whole of it.
-/

namespace OrmCodemod.Pattern

open Text Read

def ofDigits (base : Nat) (cs : List Char) : Nat :=
  cs.foldl (fun n c => n * base +
    (if c.isDigit then c.toNat - 0x30 else 10 + (c.toLower.toNat - 0x61))) 0

def isOctal (c : Char) : Bool := '0' ≤ c && c ≤ '7'

def isHex (c : Char) : Bool := c.isDigit || ('a' ≤ c.toLower && c.toLower ≤ 'f')

def categoryOf : Char → Option ClassItem
  | 'w' => some (.category .word true)
  | 'W' => some (.category .word false)
  | 'd' => some (.category .digit true)
  | 'D' => some (.category .digit false)
  | 's' => some (.category .space true)
  | 'S' => some (.category .space false)
  | _ => none

def controlOf : Char → Option Nat
  | 'a' => some 0x07
  | 'b' => some 0x08
  | 'f' => some 0x0C
  | 'n' => some 0x0A
  | 'r' => some 0x0D
  | 't' => some 0x09
  | 'v' => some 0x0B
  | _ => none

def anchorOf : Char → Option Anchor
  | 'A' => some .textStart
  | 'Z' => some .textEnd
  | 'b' => some .boundary
  | 'B' => some .noBoundary
  | _ => none

/-- How many digits follow a letter that names a character by its number. -/
def hexDigitsOf : Char → Option Nat
  | 'x' => some 2
  | 'u' => some 4
  | 'U' => some 8
  | _ => none

def refuseEscape {α : Type} (why : String → Refusal) (shown : List Char) : Read α :=
  refuse (why (String.ofList shown)) shown.length

def hexEscape (c : Char) (digits : Nat) : Read Nat := do
  let ds ← takeWhile isHex digits
  let shown := '\\' :: c :: ds
  if ds.length ≠ digits then refuseEscape .incompleteEscape shown
  let code := ofDigits 16 ds
  if code > 0x10FFFF then refuseEscape .badEscape shown
  return code

/-- A character by its name; none is known. -/
def namedEscape : Read Nat := do
  if !(← take '{') then refuse (.missing "\x7b") 0
  let name ← takeUntil '}' "character name" [] (← fuel)
  refuse (.unknownCharacter (String.ofList name)) (name.length + 4)

def octalEscape (c : Char) : Read Nat := do
  let ds := c :: (← takeWhile isOctal 2)
  let code := ofDigits 8 ds
  if code > 0o377 then refuseEscape .hugeOctal ('\\' :: ds)
  return code

def classEscape (c : Char) : Read ClassItem := do
  if let some code := controlOf c then return .char code
  if let some item := categoryOf c then return item
  if let some digits := hexDigitsOf c then return .char (← hexEscape c digits)
  if c == 'N' then return .char (← namedEscape)
  if isOctal c then return .char (← octalEscape c)
  if c.isAlphanum then refuseEscape .badEscape ['\\', c]
  return .char c.toNat

/-- A group by its number, or a character by its number in three octal digits. -/
def numberEscape (c : Char) : Read Regex := do
  let second ← takeWhile Char.isDigit 1
  let third ← if isOctal c && !second.isEmpty && second.all isOctal then takeWhile isOctal 1 else pure []
  let ds := c :: second ++ third
  if third.isEmpty then
    let number := ofDigits 10 ds
    if number > (← get).groups.length then refuse (.unknownGroup number) ds.length
    if !(← isClosed number) then refuse .openGroup (ds.length + 1)
    checkBehind number
    return .reference number
  let code := ofDigits 8 ds
  if code > 0o377 then refuseEscape .hugeOctal ('\\' :: ds)
  return .char code

def escape (c : Char) : Read Regex := do
  if let some a := anchorOf c then return .anchor a
  if let some item := categoryOf c then return .oneOf true [item]
  if let some code := controlOf c then return .char code
  if let some digits := hexDigitsOf c then return .char (← hexEscape c digits)
  if c == 'N' then return .char (← namedEscape)
  if c == '0' then return .char (ofDigits 8 (← takeWhile isOctal 2))
  if c.isDigit then numberEscape c
  else if c.isAlpha then refuseEscape .badEscape ['\\', c]
  else return .char c.toNat

def classItem (t : Token) : Read ClassItem :=
  match t with
  | .plain c => return .char c.toNat
  | .escaped c => classEscape c
  | .dangling => refuse .loneBackslash 0

/-- The entries of a set up to its bracket; a bracket that comes first is an entry. -/
def classItems (opened : Nat) (done : List ClassItem) : Nat → Read (List ClassItem)
  | 0 => refuseAt opened .unclosedClass
  | fuel + 1 => do
    match ← next with
    | none => refuseAt opened .unclosedClass
    | some low =>
      if low == .plain ']' && !done.isEmpty then return done
      let a ← classItem low
      if !(← take '-') then classItems opened (done ++ [a]) fuel
      else
        match ← next with
        | none => refuseAt opened .unclosedClass
        | some high =>
          if high == .plain ']' then return done ++ [a, .char 0x2D]
          let b ← classItem high
          let bad : Read (List ClassItem) :=
            refuse (.badRange low.text high.text) (low.length + 1 + high.length)
          match a, b with
          | .char x, .char y =>
            if y < x then bad else classItems opened (done ++ [.range x y]) fuel
          | _, _ => bad

def noBound : Nat := 4294967295

/-- How often the item before is repeated, by the mark that was read; a brace may be one like any other
character. -/
def quantifier (mark : Char) : Read (Option (Nat × Option Nat)) := do
  match mark with
  | '*' => return some (0, none)
  | '+' => return some (1, none)
  | '?' => return some (0, some 1)
  | _ =>
    if (← peek) == some (.plain '}') then return none
    let before ← get
    let low ← takeWhile Char.isDigit (← fuel)
    let high ← if ← take ',' then takeWhile Char.isDigit (← fuel) else pure low
    if !(← take '}') then
      set before
      return none
    let least := ofDigits 10 low
    let most := if high.isEmpty then none else some (ofDigits 10 high)
    if least ≥ noBound || most.any (· ≥ noBound) then throw (.hugeInterval, none)
    if most.any (· < least) then refuseAt before.index .emptyInterval
    return some (least, most)

/-- The item before a mark at a place, to be repeated, and those before that. -/
def repeatable (place : Nat) (done : List Regex) : Read (Regex × List Regex) :=
  match done with
  | [] => refuseAt place .nothingToRepeat
  | .anchor _ :: _ => refuseAt place .nothingToRepeat
  | .times _ _ _ _ :: _ => refuseAt place .repeatedTwice
  | r :: rest => return (r, rest)

/-- The mark behind a repetition that says which number of rounds is preferred. -/
def greed : Read Greed := do
  if ← take '?' then return .lazy
  if ← take '+' then return .possessive
  return .greedy

def sequenceOf (items : List Regex) : Regex := items.foldr .seq .empty

/-- The least and the greatest width of an expression whose groups have these widths. -/
def Regex.width (groups : List (Option (Nat × Nat))) : Regex → Nat × Nat
  | .empty | .anchor _ | .ahead _ _ | .behind _ _ _ => (0, 0)
  | .char _ | .any | .oneOf _ _ => (1, 1)
  | .seq a b => ((a.width groups).1 + (b.width groups).1, (a.width groups).2 + (b.width groups).2)
  | .alt a b =>
    (min (a.width groups).1 (b.width groups).1, max (a.width groups).2 (b.width groups).2)
  | .times _ least most r =>
    let (low, high) := r.width groups
    (low * least, match most with
      | some m => high * m
      | none => if high == 0 then 0 else 2 ^ 64)
  | .group _ r | .switched _ _ r | .atomic r => r.width groups
  | .reference number => (groups[number - 1]?.join).getD (0, 0)
  | .condition _ yes no =>
    (min (yes.width groups).1 (no.width groups).1, max (yes.width groups).2 (no.width groups).2)

/-- What an opened parenthesis begins. A comment, switches of the whole pattern and a reference by name
are read to their end. -/
inductive Opening where
  | comment
  | wholeSwitches
  | reference (number : Nat)
  | capture (number : Nat)
  | switched (on off : List Switch)
  | atomic
  | look (ahead positive : Bool)
  | condition (number : Nat)
  deriving Repr

def groupName (terminator : Char) : Read (List Char) := do
  let name ← takeUntil terminator "group name" [] (← fuel)
  if !isIdentifier name then refuse (.badName (String.ofList name)) (name.length + 1)
  return name

def namedGroup (name : List Char) : Read Nat := do
  match (← get).names.lookup name with
  | some number => return number
  | none => refuse (.unknownName (String.ofList name)) (name.length + 1)

def digitValue (c : Char) : Nat :=
  if c.isDigit then c.toNat - 0x30
  else
    match decimalRanges.find? fun r => r.1 ≤ c.toNat && c.toNat ≤ r.2 with
    | some r => (c.toNat - r.1) % 10
    | none => 0

def digitsOf : List Char → Option (List Nat)
  | [] => none
  | [c] => if isDecimal c then some [digitValue c] else none
  | c :: '_' :: cs => if isDecimal c then (digitsOf cs).map (digitValue c :: ·) else none
  | c :: cs => if isDecimal c then (digitsOf cs).map (digitValue c :: ·) else none

/-- A number as one may write it: with blanks around it, a sign, and underscores between digits. -/
def numberOf? (cs : List Char) : Option Nat :=
  let value (ds : List Char) := (digitsOf ds).map (List.foldl (fun n d => n * 10 + d) 0)
  match trimChars cs with
  | '+' :: ds => value ds
  | '-' :: ds => (value ds).filter (· == 0)
  | ds => value ds

def mostGroups : Nat := 1073741823

/-- The group that a condition asks for, by name or number; groups of a number may come later. -/
def conditionGroup : Read Nat := do
  let name ← takeUntil ')' "group name" [] (← fuel)
  let number ←
    if isIdentifier name then namedGroup name
    else
      match numberOf? name with
      | none => refuse (.badName (String.ofList name)) (name.length + 1)
      | some 0 => refuse .badNumber (name.length + 1)
      | some number =>
        if number ≥ mostGroups then refuse (.unknownGroup number) (name.length + 1)
        let r ← get
        if (r.asked.lookup number).isNone then
          set { r with asked := r.asked ++ [(number, r.index - name.length - 1)] }
        pure number
  checkBehind number
  return number

def refuseSwitch {α : Type} (t : Option Token) (expected : String) : Read α :=
  match t with
  | none => refuse (.missing expected) 0
  | some t =>
    if t.isIn isLetter then refuse .unknownSwitch t.length else refuse (.missing expected) t.length

def switchOf (t : Option Token) : Option Switch :=
  match t with
  | some (.plain c) => Switch.ofChar c
  | _ => none

/-- Switches to turn on, from a token on, and the token behind them. -/
def switchesOn (on : List Switch) (t : Token) : Nat → Read (List Switch × Option Token)
  | 0 => refuseSwitch (some t) "-, : or )"
  | fuel + 1 => do
    match switchOf (some t) with
    | none => refuseSwitch (some t) "-, : or )"
    | some s =>
      if s == .locale then refuse (.badSwitches "cannot use 'L' flag with a str pattern") 0
      let on := on ++ [s]
      if s.isAlphabet && on.any fun o => o.isAlphabet && o != s then
        refuse (.badSwitches "flags 'a', 'u' and 'L' are incompatible") 0
      match ← next with
      | none => refuseSwitch none "-, : or )"
      | some t => if t.isIn [')', '-', ':'].contains then return (on, t) else switchesOn on t fuel

def switchesOff (off : List Switch) (expected : String) (t : Option Token) : Nat → Read (List Switch)
  | 0 => refuseSwitch t expected
  | fuel + 1 => do
    match switchOf t with
    | none => refuseSwitch t expected
    | some s =>
      if s.isAlphabet then refuse (.badSwitches "cannot turn off flags 'a', 'u' and 'L'") 0
      let off := off ++ [s]
      let t ← next
      if t == some (.plain ':') then return off else switchesOff off ":" t fuel

/-- The switches after an opened parenthesis and its question mark, from a token on. -/
def switches (t : Token) : Read Opening := do
  let (on, stop) ←
    if t == .plain '-' then pure ([], some t) else switchesOn [] t (← fuel)
  if stop == some (.plain ')') then
    modify fun r => { r with switches := r.switches ++ on }
    return .wholeSwitches
  if on.contains .template then refuse (.badSwitches "cannot turn on global flag") 1
  let off ← if stop == some (.plain '-') then switchesOff [] "flag" (← next) (← fuel) else pure []
  if off.contains .template then refuse (.badSwitches "cannot turn off global flag") 1
  if on.any off.contains then refuse (.badSwitches "flag turned on and off") 1
  return .switched on off

/-- What stands between the parenthesis opened at a place, with its question mark, and its contents. -/
def extension (start : Nat) : Read Opening := do
  match ← next with
  | none => refuse .unexpectedEnd 0
  | some t =>
    let unknown (before : String) (t : Token) : Read Opening :=
      refuse (.unknownExtension (before ++ t.text)) (before.length + t.length)
    match t with
    | .plain 'P' =>
      if ← take '<' then
        let name ← groupName '>'
        return .capture (← openGroup (some name))
      if ← take '=' then
        let name ← groupName ')'
        let number ← namedGroup name
        if !(← isClosed number) then refuse .openGroup (name.length + 1)
        checkBehind number
        return .reference number
      match ← next with
      | none => refuse .unexpectedEnd 0
      | some t => unknown "?P" t
    | .plain ':' => return .switched [] []
    | .plain '#' =>
      skipTo (· == .plain ')') (refuseAt start .unclosedComment) (← fuel)
      return .comment
    | .plain '=' => return .look true true
    | .plain '!' => return .look true false
    | .plain '<' =>
      match ← next with
      | none => refuse .unexpectedEnd 0
      | some (.plain '=') => return .look false true
      | some (.plain '!') => return .look false false
      | some t => unknown "?<" t
    | .plain '(' => return .condition (← conditionGroup)
    | .plain '>' => return .atomic
    | t => if t == .plain '-' || (switchOf (some t)).isSome then switches t else unknown "?" t

def opens (start : Nat) : Read Opening := do
  if ← take '?' then extension start else return .capture (← openGroup none)

def close (start : Nat) : Read Unit := do
  if !(← take ')') then refuseAt start .unclosedGroup

mutual

def alternatives (fuel : Nat) (verbose nested first : Bool) : Read Regex :=
  match fuel with
  | 0 => refuse .unclosedGroup 0
  | fuel + 1 => do
    let a ← items fuel verbose first []
    if ← take '|' then
      let r ← get
      let verbose := if nested then verbose else r.switches.contains .verbose
      return .alt a (← alternatives fuel verbose nested false)
    return a

/-- Items up to a bar, a closing parenthesis or the end; `done` holds those read, last first. Switches of
the whole pattern can only stand before all items of the first alternative. -/
def items (fuel : Nat) (verbose first : Bool) (done : List Regex) : Read Regex :=
  match fuel with
  | 0 => refuse .unclosedGroup 0
  | fuel + 1 => do
    match ← peek with
    | none => return sequenceOf done.reverse
    | some (.plain '|') => return sequenceOf done.reverse
    | some (.plain ')') => return sequenceOf done.reverse
    | some t =>
      let start := (← get).index
      let _ ← next
      if verbose && t.isIn [' ', '\t', '\n', '\r', '\x0b', '\x0c'].contains then
        items fuel verbose first done
      else if verbose && t == .plain '#' then
        skipTo (· == .plain '\n') (pure ()) (← Read.fuel)
        items fuel verbose first done
      else
        match t with
        | .dangling => refuseAt start .loneBackslash
        | .escaped c => items fuel verbose first ((← escape c) :: done)
        | .plain '.' => items fuel verbose first (.any :: done)
        | .plain '^' => items fuel verbose first (.anchor .lineStart :: done)
        | .plain '$' => items fuel verbose first (.anchor .lineEnd :: done)
        | .plain '[' =>
          let negative ← take '^'
          let entries ← classItems start [] (← Read.fuel)
          items fuel verbose first (.oneOf (!negative) entries :: done)
        | .plain '(' =>
          let opening ← opens start
          match opening with
          | .comment => items fuel verbose first done
          | .wholeSwitches =>
            if !first || !done.isEmpty then refuseAt start .lateSwitches
            let r ← get
            items fuel (r.switches.contains .verbose) first done
          | .reference number => items fuel verbose first (.reference number :: done)
          | opening => items fuel verbose first ((← group fuel verbose start opening) :: done)
        | .plain c =>
          if ['*', '+', '?', '{'].contains c then
            match ← quantifier c with
            | none => items fuel verbose first (.char c.toNat :: done)
            | some (least, most) =>
              let (r, rest) ← repeatable start done
              items fuel verbose first (.times (← greed) least most r :: rest)
          else items fuel verbose first (.char c.toNat :: done)

def group (fuel : Nat) (verbose : Bool) (start : Nat) (opening : Opening) : Read Regex :=
  match fuel with
  | 0 => refuse .unclosedGroup 0
  | fuel + 1 => do
    match opening with
    | .look ahead positive =>
      let outer := (← get).behind
      if !ahead && outer.isNone then
        modify fun r => { r with behind := some (r.groups.length + 1) }
      let r ← alternatives fuel verbose true false
      modify fun r => { r with behind := outer }
      close start
      if ahead then return .ahead positive r
      return .behind positive (r.width (← get).groups) r
    | .condition number =>
      let yes ← items fuel verbose false []
      let no ← if ← take '|' then items fuel verbose false [] else pure .empty
      if (← peek) == some (.plain '|') then refuse .thirdBranch 0
      close start
      return .condition number yes no
    | .capture number =>
      let r ← alternatives fuel verbose true false
      close start
      closeGroup number (r.width (← get).groups)
      return .group number r
    | .switched on off =>
      let r ← alternatives fuel ((verbose || on.contains .verbose) && !off.contains .verbose) true false
      close start
      return if on.isEmpty && off.isEmpty then .seq r .empty else .switched on off r
    | .atomic =>
      let r ← alternatives fuel verbose true false
      close start
      return .atomic r
    | .comment => return .empty
    | .wholeSwitches => return .empty
    | .reference number => return .reference number

end

/-- What is refused only when the whole is known: a look behind of no certain width, and repetitions in
a template. -/
def Regex.check (template : Bool) : Regex → Except Refusal Unit
  | .empty | .char _ | .any | .oneOf _ _ | .anchor _ | .reference _ => .ok ()
  | .seq a b | .alt a b | .condition _ a b => do a.check template; b.check template
  | .times greed _ _ r => do
    if template then throw (.templateRepeat greed)
    r.check template
  | .group _ r | .switched _ _ r | .atomic r | .ahead _ r => r.check template
  | .behind _ width r => do
    if width.1 > noBound then throw .hugeWidth
    if width.1 ≠ width.2 then throw .openWidth
    r.check template

def whole (fuel : Nat) : Read Regex := do
  let start ← get
  goTo start.rest 0
  let r ← alternatives fuel false false true
  let switches := (← get).switches
  if switches.contains .ascii && switches.contains .unicode then throw (.mixedAlphabets, none)
  if (← peek).isSome then refuse .unopenedGroup 0
  let state ← get
  match state.asked.find? fun a => a.1 > state.groups.length with
  | some (number, place) => refuseAt place (.unknownGroup number)
  | none =>
    match r.check (switches.contains .template) with
    | .error why => throw (why, none)
    | .ok () => return .switched switches [] r

def parse (text : String) : Except PatternError Regex :=
  let cs := text.toList
  match (whole (3 * cs.length + 3)).run { rest := tokens cs } with
  | .ok (r, _) => .ok r
  | .error (refusal, place) => .error ⟨refusal, place, place.bind (lineOf cs)⟩

end OrmCodemod.Pattern
