/-!
UTF-8 as lists of bytes. `decode` refuses at the first byte that cannot belong to a character and
says which bytes it could not take and why.
-/

namespace OrmCodemod.Text

abbrev Bytes := List UInt8

def encodeChar (c : Char) : Bytes :=
  let n := c.toNat
  if n < 0x80 then [n.toUInt8]
  else if n < 0x800 then [(0xC0 + n / 0x40).toUInt8, (0x80 + n % 0x40).toUInt8]
  else if n < 0x10000 then
    [(0xE0 + n / 0x1000).toUInt8, (0x80 + n / 0x40 % 0x40).toUInt8, (0x80 + n % 0x40).toUInt8]
  else
    [(0xF0 + n / 0x40000).toUInt8, (0x80 + n / 0x1000 % 0x40).toUInt8,
      (0x80 + n / 0x40 % 0x40).toUInt8, (0x80 + n % 0x40).toUInt8]

def encode (s : String) : Bytes := s.toList.flatMap encodeChar

/-- Why a byte sequence is no text. -/
inductive Refusal where
  | badStart
  | badContinuation
  | endOfData
  deriving DecidableEq, Repr

/-- Where decoding stopped: the first byte refused, its offset, how many bytes, and why. -/
structure DecodeError where
  byte : UInt8
  start : Nat
  count : Nat
  refusal : Refusal
  deriving DecidableEq, Repr

def isTail (b : UInt8) : Bool := 0x80 ≤ b && b ≤ 0xBF

/-- How many bytes a lead byte asks for in all; none if it cannot lead. -/
def leadLength (b : UInt8) : Nat :=
  if b < 0x80 then 1
  else if b < 0xC2 then 0
  else if b < 0xE0 then 2
  else if b < 0xF0 then 3
  else if b < 0xF5 then 4
  else 0

/-- The second byte a lead byte admits: any continuation byte, less the overlong, surrogate and
too large ranges. -/
def admitsSecond (lead second : UInt8) : Bool :=
  isTail second &&
    !(lead == 0xE0 && second < 0xA0) && !(lead == 0xED && 0xA0 ≤ second) &&
    !(lead == 0xF0 && second < 0x90) && !(lead == 0xF4 && 0x90 ≤ second)

def scalarOf (lead : UInt8) (tail : Bytes) : Nat :=
  let head := match tail.length with
    | 0 => lead.toNat
    | 1 => lead.toNat - 0xC0
    | 2 => lead.toNat - 0xE0
    | _ => lead.toNat - 0xF0
  tail.foldl (fun n b => n * 0x40 + (b.toNat - 0x80)) head

/-- Check the bytes after `lead`: the tail of the character and what follows it, or how many bytes
belong to the refused run and why. -/
def takeTail (lead : UInt8) (rest : Bytes) : Except (Nat × Refusal) (Bytes × Bytes) :=
  match leadLength lead, rest with
  | 0, _ => .error (1, .badStart)
  | 1, rest => .ok ([], rest)
  | _, [] => .error (1, .endOfData)
  | 2, b :: rest => if admitsSecond lead b then .ok ([b], rest) else .error (1, .badContinuation)
  | n, b :: rest =>
    if !admitsSecond lead b then .error (1, .badContinuation)
    else match rest with
      | [] => .error (2, .endOfData)
      | c :: rest =>
        if !isTail c then .error (2, .badContinuation)
        else if n = 3 then .ok ([b, c], rest)
        else match rest with
          | [] => .error (3, .endOfData)
          | d :: rest => if isTail d then .ok ([b, c, d], rest) else .error (3, .badContinuation)

/-- Decode from byte `pos` on, at most `fuel` characters; every character takes a byte. -/
def decodeFrom : Nat → Nat → Bytes → Except DecodeError (List Char)
  | _, _, [] => .ok []
  | 0, _, _ => .ok []
  | fuel + 1, pos, lead :: rest =>
    match takeTail lead rest with
    | .error (count, why) => .error ⟨lead, pos, count, why⟩
    | .ok (tail, rest) => do
      let more ← decodeFrom fuel (pos + 1 + tail.length) rest
      pure (Char.ofNat (scalarOf lead tail) :: more)

def decodeChars (bs : Bytes) : Except DecodeError (List Char) := decodeFrom bs.length 0 bs

def decode (bs : Bytes) : Except DecodeError String := (decodeChars bs).map String.ofList

def hexByte (b : UInt8) : String :=
  String.ofList [Nat.digitChar (b.toNat / 16), Nat.digitChar (b.toNat % 16)]

def Refusal.message : Refusal → String
  | .badStart => "invalid start byte"
  | .badContinuation => "invalid continuation byte"
  | .endOfData => "unexpected end of data"

/-- The report of a refused byte, or of a refused run of bytes. -/
def DecodeError.message (e : DecodeError) : String :=
  if e.count = 1 then
    s!"'utf-8' codec can't decode byte 0x{hexByte e.byte} in position {e.start}: {e.refusal.message}"
  else
    s!"'utf-8' codec can't decode bytes in position {e.start}-{e.start + e.count - 1}: " ++
      e.refusal.message

end OrmCodemod.Text
