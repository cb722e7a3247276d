import OrmCodemod.Text.CaseTable
import OrmCodemod.Text.WordTable

/-!
Full Unicode case: lowering a text, raising one character, and the word classes of a pattern. A
capital sigma is lowered to its final form exactly when a cased character stands before it and none
after it, ignorable characters not counted.
-/

namespace OrmCodemod.Text

def inRanges (table : List (Nat × Nat)) (n : Nat) : Bool :=
  table.any fun r => r.1 ≤ n && n ≤ r.2

/-- The shift a table gives to a code point, if any row holds it. -/
def shiftOf (table : List (Nat × Nat × Nat × Int)) (n : Nat) : Option Int :=
  (table.find? fun r => r.1 ≤ n && n ≤ r.2.1 && (n - r.1) % r.2.2.1 == 0).map (·.2.2.2)

def shifted (table : List (Nat × Nat × Nat × Int)) (c : Char) : Char :=
  match shiftOf table c.toNat with
  | some d => Char.ofNat (Int.toNat (c.toNat + d))
  | none => c

def lowerSimple (c : Char) : Char :=
  if c.toNat < 128 then c.toLower
  else if c.toNat = 0x130 then 'i'
  else shifted lowerShifts c

/-- Lower case of a character on its own; only the dotted capital I gives two. -/
def lowerChar (c : Char) : List Char :=
  if c.toNat = 0x130 then ['i', Char.ofNat 0x307] else [lowerSimple c]

def upperChar (c : Char) : List Char :=
  if c.toNat < 128 then [c.toUpper]
  else match upperExpansions.lookup c.toNat with
    | some ns => ns.map Char.ofNat
    | none => [shifted upperShifts c]

/-- The nearest character that the case context does not look past has a case. -/
def seesCased (cs : List Char) : Bool :=
  match cs.dropWhile fun c => inRanges caseIgnorableRanges c.toNat with
  | c :: _ => inRanges casedRanges c.toNat
  | [] => false

/-- Lower `cs`, which stands after `before` (kept backwards). -/
def lowerAfter (before : List Char) : List Char → List Char
  | [] => []
  | c :: rest =>
    (if c.toNat = 0x3A3 then
        [Char.ofNat (if seesCased before && !seesCased rest then 0x3C2 else 0x3C3)]
      else lowerChar c) ++ lowerAfter (c :: before) rest

def lower (s : String) : String := String.ofList (lowerAfter [] s.toList)

def lowerFirst (s : String) : String :=
  match s.toList with
  | [] => ""
  | c :: rest => String.ofList (lowerAfter [] [c] ++ rest)

def upperFirst (s : String) : String :=
  match s.toList with
  | [] => ""
  | c :: rest => String.ofList (upperChar c ++ rest)

def isWordChar (c : Char) : Bool :=
  if c.toNat < 128 then c.isAlphanum || c == '_' else inRanges alphanumericRanges c.toNat

def isDecimal (c : Char) : Bool :=
  if c.toNat < 128 then c.isDigit else inRanges decimalRanges c.toNat

end OrmCodemod.Text
