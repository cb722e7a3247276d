import OrmCodemod.Pattern.CaseTwins
import OrmCodemod.Text.Case
import OrmCodemod.Text.Blank

/-!
Regular expressions over characters, and what it means that one matches at the start of a text. The
meaning of an expression at a spot of a text is the list of spots it can lead to, the preferred one
first: an atomic group, a possessive repetition and a look around take the first and forget the
others.
-/

namespace OrmCodemod.Pattern

open Text

/-- What can be switched on for a pattern or a part of it. -/
inductive Switch where
  | ignoreCase
  | locale
  | multiLine
  | dotAll
  | verbose
  | ascii
  | template
  | unicode
  deriving DecidableEq, Repr

namespace Switch

def ofChar : Char → Option Switch
  | 'i' => some .ignoreCase
  | 'L' => some .locale
  | 'm' => some .multiLine
  | 's' => some .dotAll
  | 'x' => some .verbose
  | 'a' => some .ascii
  | 't' => some .template
  | 'u' => some .unicode
  | _ => none

/-- The switches that say which characters there are; a pattern has one of them. -/
def isAlphabet (s : Switch) : Bool := s == .ascii || s == .locale || s == .unicode

/-- The switches of a part of a pattern with some of its own. -/
def change (now on off : List Switch) : List Switch :=
  let kept := if on.any isAlphabet then now.filter (!·.isAlphabet) else now
  (kept ++ on).filter fun s => !off.contains s

end Switch

/-- The classes of characters that have an escape of their own. -/
inductive Category where
  | word
  | digit
  | space
  deriving DecidableEq, Repr

/-- One entry of a set of characters; characters are told by their numbers, which need be none. -/
inductive ClassItem where
  | char (code : Nat)
  | range (low high : Nat)
  | category (kind : Category) (positive : Bool)
  deriving DecidableEq, Repr

/-- A test of where a spot lies. -/
inductive Anchor where
  | lineStart
  | lineEnd
  | textStart
  | textEnd
  | boundary
  | noBoundary
  deriving DecidableEq, Repr

/-- How many rounds a repetition prefers; a possessive one gives none of its rounds back. -/
inductive Greed where
  | greedy
  | lazy
  | possessive
  deriving DecidableEq, Repr

/-- A regular expression. -/
inductive Regex where
  | empty
  | char (code : Nat)
  | any
  | oneOf (positive : Bool) (items : List ClassItem)
  | anchor (a : Anchor)
  | seq (a b : Regex)
  | alt (a b : Regex)
  | times (greed : Greed) (least : Nat) (most : Option Nat) (r : Regex)
  | group (number : Nat) (r : Regex)
  | switched (on off : List Switch) (r : Regex)
  | atomic (r : Regex)
  | ahead (positive : Bool) (r : Regex)
  | behind (positive : Bool) (width : Nat × Nat) (r : Regex)
  | reference (number : Nat)
  | condition (number : Nat) (yes no : Regex)
  deriving Repr

/-- Whether two characters are the same, or the same but for their case. -/
def sameChar (ignoreCase : Bool) (want have_ : Char) : Bool :=
  if ignoreCase then
    let want := lowerSimple want
    let have_ := lowerSimple have_
    want == have_ || ((caseTwins.lookup want.toNat).getD []).contains have_.toNat
  else want == have_

/-- A character in lower case, as far as its alphabet has cases. -/
def lowered (switches : List Switch) (c : Char) : Char :=
  if switches.contains .ascii then c.toLower else lowerSimple c

/-- Whether a character is the one of a number, but for its case if that is ignored. -/
def sameCode (switches : List Switch) (code : Nat) (c : Char) : Bool :=
  code == c.toNat || (switches.contains .ignoreCase && code == (Char.ofNat code).toNat &&
    if switches.contains .ascii then (Char.ofNat code).toLower == c.toLower
    else sameChar true (Char.ofNat code) c)

def casePreimages (low : Nat) : List Nat :=
  let small := (if 0x61 ≤ low && low ≤ 0x7A then [low - 0x20] else []) ++
    (if low == 0x69 then [0x130] else [])
  low :: small ++ lowerShifts.filterMap fun row =>
    let n := Int.toNat (low - row.2.2.2)
    if row.1 ≤ n && n ≤ row.2.1 && (n - row.1) % row.2.2.1 == 0 then some n else none

/-- The numbers of the characters that are the same as one but for their case. -/
def caseVariants (switches : List Switch) (c : Char) : List Nat :=
  if switches.contains .ascii then [c.toLower.toNat, c.toUpper.toNat]
  else
    let low := (lowerSimple c).toNat
    (low :: (caseTwins.lookup low).getD []).flatMap casePreimages

def Category.holds (switches : List Switch) (kind : Category) (c : Char) : Bool :=
  let plain := !switches.contains .ascii || c.toNat < 128
  match kind with
  | .word => plain && isWordChar c
  | .digit => plain && isDecimal c
  | .space =>
    if switches.contains .ascii then c == ' ' || (0x09 ≤ c.toNat && c.toNat ≤ 0x0D) else isBlank c

def ClassItem.holds (switches : List Switch) (item : ClassItem) (c : Char) : Bool :=
  match item with
  | .char code => sameCode switches code c
  | .range low high =>
    (low ≤ c.toNat && c.toNat ≤ high) || (switches.contains .ignoreCase &&
      (caseVariants switches c).any fun n => low ≤ n && n ≤ high)
  | .category kind positive => kind.holds switches c == positive

/-- A spot of a text: the characters before it, the nearest first, those after it, and where the
groups met so far were last entered and left. -/
structure Spot where
  before : List Char
  rest : List Char
  entered : List (Nat × Nat) := []
  left : List (Nat × Nat) := []
  deriving DecidableEq, Repr

namespace Spot

def index (s : Spot) : Nat := s.before.length

/-- The spot behind the next character, if that passes a test. -/
def step (s : Spot) (test : Char → Bool) : List Spot :=
  match s.rest with
  | c :: rest => if test c then [{ s with before := c :: s.before, rest }] else []
  | [] => []

/-- The spot behind the next characters, if they are those given. -/
def eat (s : Spot) (same : Char → Char → Bool) : List Char → List Spot
  | [] => [s]
  | c :: cs => (s.step (same c)).flatMap fun t => t.eat same cs

def back (s : Spot) : Nat → Option Spot
  | 0 => some s
  | n + 1 =>
    match s.before with
    | c :: before => back { s with before, rest := c :: s.rest } n
    | [] => none

def mark (marks : List (Nat × Nat)) (number index : Nat) : List (Nat × Nat) :=
  (number, index) :: marks.filter fun m => m.1 != number

def enter (s : Spot) (number : Nat) : Spot := { s with entered := mark s.entered number s.index }

def leave (s : Spot) (number : Nat) : Spot := { s with left := mark s.left number s.index }

def matched? (s : Spot) (number : Nat) : Option (List Char) :=
  match s.entered.lookup number, s.left.lookup number with
  | some a, some b => if a ≤ b then some (((s.before.reverse ++ s.rest).drop a).take (b - a)) else none
  | _, _ => none

def withGroups (s t : Spot) : Spot := { s with entered := t.entered, left := t.left }

def same (s t : Spot) : Bool := s.index == t.index && s.entered == t.entered && s.left == t.left

/-- Spots without repetition, each where it comes first. -/
def distinct (spots : List Spot) : List Spot :=
  (spots.foldl (fun acc s => if acc.any s.same then acc else s :: acc) []).reverse

/-- Whether a word ends or starts at a spot; in a text of no characters nothing is told of words. -/
def atBoundary (switches : List Switch) (s : Spot) (wanted : Bool) : Bool :=
  let isWord (c : Option Char) := c.any (Category.word.holds switches)
  !(s.before.isEmpty && s.rest.isEmpty) &&
    (isWord s.before.head? != isWord s.rest.head?) == wanted

end Spot

def Anchor.holds (switches : List Switch) (a : Anchor) (s : Spot) : Bool :=
  let several := switches.contains .multiLine
  match a with
  | .lineStart => s.before.isEmpty || (several && s.before.head? == some '\n')
  | .lineEnd => s.rest.isEmpty || s.rest == ['\n'] || (several && s.rest.head? == some '\n')
  | .textStart => s.before.isEmpty
  | .textEnd => s.rest.isEmpty
  | .boundary => s.atBoundary switches true
  | .noBoundary => s.atBoundary switches false

/-- The spots after rounds of a step that can be given back. A round that is not asked for and starts
where the last such one did would go on for ever. -/
def rounds (lazily : Bool) (step : Spot → List Spot) : Nat → Nat → Option Nat → Option Nat → Spot →
    List Spot
  | 0, _, _, _, _ => []
  | fuel + 1, least + 1, most, last, s =>
    (step s).flatMap (rounds lazily step fuel least (most.map (· - 1)) last)
  | fuel + 1, 0, most, last, s =>
    let more :=
      if most == some 0 || last == some s.index then []
      else (step s).flatMap (rounds lazily step fuel 0 (most.map (· - 1)) (some s.index))
    if lazily then s :: more else more ++ [s]

/-- The spot after as many rounds of a step as there are, none of them given back. -/
def roundsKept (step : Spot → List Spot) : Nat → Nat → Option Nat → Option Nat → Spot → Option Spot
  | 0, _, _, _, _ => none
  | fuel + 1, least + 1, most, last, s =>
    (step s).head?.bind (roundsKept step fuel least (most.map (· - 1)) last)
  | fuel + 1, 0, most, last, s =>
    if most == some 0 || last == some s.index then some s
    else
      match (step s).head? with
      | none => some s
      | some t => roundsKept step fuel 0 (most.map (· - 1)) (some s.index) t

namespace Regex

/-- The spots that the expression leads to, the preferred one first. -/
def spots : Regex → List Switch → Spot → List Spot
  | .empty, _, s => [s]
  | .char code, switches, s => s.step (sameCode switches code)
  | .any, switches, s => s.step fun c => c != '\n' || switches.contains .dotAll
  | .oneOf positive items, switches, s => s.step fun c => items.any (·.holds switches c) == positive
  | .anchor a, switches, s => if a.holds switches s then [s] else []
  | .seq a b, switches, s => Spot.distinct ((a.spots switches s).flatMap (b.spots switches))
  | .alt a b, switches, s => Spot.distinct (a.spots switches s ++ b.spots switches s)
  | .times greed least most r, switches, s =>
    let fuel := least + s.rest.length + 2
    match greed with
    | .greedy => Spot.distinct (rounds false (r.spots switches) fuel least most none s)
    | .lazy => Spot.distinct (rounds true (r.spots switches) fuel least most none s)
    | .possessive => (roundsKept (r.spots switches) fuel least most none s).toList
  | .group number r, switches, s => (r.spots switches (s.enter number)).map (·.leave number)
  | .switched on off r, switches, s => r.spots (Switch.change switches on off) s
  | .atomic r, switches, s => (r.spots switches s).head?.toList
  | .ahead positive r, switches, s =>
    match (r.spots switches s).head? with
    | some t => if positive then [s.withGroups t] else []
    | none => if positive then [] else [s]
  | .behind positive width r, switches, s =>
    match (s.back width.1).bind fun t => (r.spots switches t).head? with
    | some t => if positive then [s.withGroups t] else []
    | none => if positive then [] else [s]
  | .reference number, switches, s =>
    match s.matched? number with
    | none => []
    | some cs => s.eat (fun c d =>
        c == d || (switches.contains .ignoreCase && lowered switches c == lowered switches d)) cs
  | .condition number yes no, switches, s =>
    if (s.matched? number).isSome then yes.spots switches s else no.spots switches s

def matchesStart (r : Regex) (text : String) : Bool := !(r.spots [] ⟨[], text.toList, [], []⟩).isEmpty

end Regex
end OrmCodemod.Pattern
