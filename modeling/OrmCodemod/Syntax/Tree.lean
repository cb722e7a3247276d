import OrmCodemod.Syntax.Kind
import OrmCodemod.Text.Utf8

/-!
Concrete syntax trees. Every token and every comment of the source is a node, and a node knows the
bytes it covers, so that a source can be edited without printing it anew.
-/

namespace OrmCodemod.Syntax

open Text

/-- A node: its kind, its role in the parent, the bytes `[start, stop)` it covers, its children. -/
inductive Tree where
  | node (kind : Kind) (role : Option Role) (start stop : Nat) (children : List Tree)
  deriving Repr

/-- The elements of `xs` from `a` up to `b`; past the end there are none. -/
def slice {α : Type} (xs : List α) (a b : Nat) : List α := (xs.drop a).take (b - a)

namespace Tree

def kind : Tree → Kind
  | node k _ _ _ _ => k

def role : Tree → Option Role
  | node _ r _ _ _ => r

def start : Tree → Nat
  | node _ _ a _ _ => a

def stop : Tree → Nat
  | node _ _ _ b _ => b

def children : Tree → List Tree
  | node _ _ _ _ cs => cs

def withRole (r : Role) : Tree → Tree
  | node k _ a b cs => node k (some r) a b cs

def withKind (k : NodeKind) : Tree → Tree
  | node _ r a b cs => node (.named k) r a b cs

def is (t : Tree) (k : NodeKind) : Bool := t.kind == .named k

def isAny (t : Tree) (ks : List NodeKind) : Bool := ks.any t.is

def isToken (t : Tree) (text : String) : Bool := t.kind == .token text

def child? (t : Tree) (r : Role) : Option Tree := t.children.find? fun c => c.role == some r

def namedChildren (t : Tree) : List Tree := t.children.filter (·.kind.isNamed)

def significant (t : Tree) : List Tree := t.namedChildren.filter fun c => !c.is .comment

def bytes (t : Tree) (source : Bytes) : Bytes := slice source t.start t.stop

/-- The text of a node; nodes start and end between characters. -/
def text (t : Tree) (source : Bytes) : String := (decode (t.bytes source)).toOption.getD ""

mutual

def size : Tree → Nat
  | node _ _ _ _ cs => 1 + sizeAll cs

def sizeAll : List Tree → Nat
  | [] => 0
  | t :: ts => size t + sizeAll ts

end

end Tree
end OrmCodemod.Syntax
