import OrmCodemod.Text.Case
import OrmCodemod.Text.Blank

/-!
Loose data, as configuration and callers give it, and how typed values are read out of it. A reading
goes on after a fault with a stand-in, so that every fault of a record is reported, in the order of
its fields.
-/

namespace OrmCodemod

/-- Data without a type of its own. -/
inductive Data where
  | null
  | bool (b : Bool)
  | int (n : Int)
  | text (s : String)
  | list (items : List Data)
  | record (entries : List (String × Data))
  deriving Inhabited

/-- A step of the way to a value: the name of an entry, or the index in a list. -/
inductive Step where
  | entry (name : String)
  | index (n : Nat)
  deriving DecidableEq, Repr

/-- What is wrong with a value. -/
inductive IssueKind where
  | missing
  | notText
  | notListed
  | notMember
  | notRecord
  | notModel
  | notList
  | notBool
  | unreadableBool
  | notInt
  | unreadableInt
  deriving DecidableEq, Repr

/-- A fault and where it is. -/
structure Issue where
  path : List Step
  kind : IssueKind
  deriving DecidableEq, Repr

abbrev Reading (α : Type) := StateM (List Issue) α

namespace Reading

def fault {α : Type} (path : List Step) (kind : IssueKind) (standIn : α) : Reading α := do
  modify (· ++ [⟨path, kind⟩])
  return standIn

def result {α : Type} (r : Reading α) : Except (List Issue) α :=
  match r.run [] with
  | (a, []) => .ok a
  | (_, issues) => .error issues

def text (path : List Step) : Data → Reading String
  | .text s => return s
  | _ => fault path .notText ""

/-- A switch: a truth value, zero or one, or one of the usual words. -/
def bool (path : List Step) : Data → Reading Bool
  | .bool b => return b
  | .int n =>
    if n == 0 then return false
    else if n == 1 then return true
    else fault path .unreadableBool false
  | .text s =>
    let w := Text.lower s
    if ["1", "on", "t", "true", "y", "yes"].contains w then return true
    else if ["0", "off", "f", "false", "n", "no"].contains w then return false
    else fault path .unreadableBool false
  | _ => fault path .notBool false

def int (path : List Step) : Data → Reading Int
  | .int n => return n
  | .bool b => return if b then 1 else 0
  | .text s =>
    let cs := Text.trimChars s.toList
    let cs := if cs.head? == some '+' then cs.drop 1 else cs
    match (String.ofList cs).toInt? with
    | some n => return n
    | none => fault path .unreadableInt 0
  | _ => fault path .notInt 0

def member {α : Type} (all : List α) (name : α → String) (standIn : α) (path : List Step) :
    Data → Reading α
  | .text s =>
    match all.find? fun a => name a == s with
    | some a => return a
    | none => fault path .notMember standIn
  | _ => fault path .notMember standIn

def nullable {α : Type} (read : List Step → Data → Reading α) (path : List Step) :
    Data → Reading (Option α)
  | .null => return none
  | d => some <$> read path d

def itemsFrom {α : Type} (read : List Step → Data → Reading α) (path : List Step) :
    Nat → List Data → Reading (List α)
  | _, [] => return []
  | n, d :: ds => do
    let a ← read (path ++ [.index n]) d
    let rest ← itemsFrom read path (n + 1) ds
    return a :: rest

def list {α : Type} (read : List Step → Data → Reading α) (path : List Step) :
    Data → Reading (List α)
  | .list ds => itemsFrom read path 0 ds
  | _ => fault path .notList []

def entries {α : Type} (read : List Step → Data → Reading α) (path : List Step) :
    Data → Reading (List (String × α))
  | .record es => es.mapM fun e => do return (e.1, ← read (path ++ [.entry e.1]) e.2)
  | _ => fault path .notRecord []

def required {α : Type} (read : List Step → Data → Reading α) (standIn : α) (name : String)
    (path : List Step) (es : List (String × Data)) : Reading α :=
  match es.lookup name with
  | some d => read (path ++ [.entry name]) d
  | none => fault (path ++ [.entry name]) .missing standIn

def given {α : Type} (read : List Step → Data → Reading α) (default : α) (name : String)
    (path : List Step) (es : List (String × Data)) : Reading α :=
  match es.lookup name with
  | some d => read (path ++ [.entry name]) d
  | none => return default

end Reading
end OrmCodemod
