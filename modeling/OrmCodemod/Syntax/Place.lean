import OrmCodemod.Syntax.Tree

/-!
A place is a node together with the way up to the root, so that the nodes around it (parent,
siblings, enclosing statement and class) can be asked for.
-/

namespace OrmCodemod.Syntax

open Text

/-- One step of the way up: the parent, the siblings before the node, nearest first, and those
after it. -/
structure Crumb where
  parent : Tree
  before : List Tree
  after : List Tree

/-- A node and its way up, nearest parent first. -/
structure Place where
  tree : Tree
  path : List Crumb := []

namespace Place

def up? (p : Place) : Option Place :=
  match p.path with
  | [] => none
  | c :: path => some ⟨c.parent, path⟩

/-- The places of `after`, children of `parent` that follow `before`. -/
def childrenFrom (parent : Place) (before : List Tree) : List Tree → List Place
  | [] => []
  | t :: after =>
    ⟨t, ⟨parent.tree, before, after⟩ :: parent.path⟩ :: childrenFrom parent (t :: before) after

def children (p : Place) : List Place := childrenFrom p [] p.tree.children

def child? (p : Place) (r : Role) : Option Place :=
  p.children.find? fun c => c.tree.role == some r

def namedChildren (p : Place) : List Place := p.children.filter (·.tree.kind.isNamed)

def significant (p : Place) : List Place := p.namedChildren.filter fun c => !c.tree.is .comment

def before (p : Place) : List Tree :=
  match p.path with
  | [] => []
  | c :: _ => c.before

def after (p : Place) : List Tree :=
  match p.path with
  | [] => []
  | c :: _ => c.after

def start (p : Place) : Nat := p.tree.start

def stop (p : Place) : Nat := p.tree.stop

def text (p : Place) (source : Bytes) : String := p.tree.text source

def same (p q : Place) : Bool :=
  p.start == q.start && p.stop == q.stop && p.tree.kind == q.tree.kind

/-- One step of a walk over a stack of places: a place met first is put back behind its children, a
place met again is given out. -/
def walkStep : List (Place × Bool) → Option Place × List (Place × Bool)
  | [] => (none, [])
  | (p, true) :: stack => (some p, stack)
  | (p, false) :: stack => (none, p.children.map (·, false) ++ (p, true) :: stack)

def walk : Nat → List (Place × Bool) → List Place
  | 0, _ => []
  | n + 1, stack =>
    match walkStep stack with
    | (some p, stack) => p :: walk n stack
    | (none, stack) => walk n stack

/-- Every place below and at `p`, inner ones before the ones around them. Each node is met twice. -/
def all (p : Place) : List Place := walk (2 * p.tree.size) [(p, false)]

/-- The places whose kind has one of the given names, inner ones first. -/
def findByKind (p : Place) (names : List String) : List Place :=
  p.all.filter fun q => names.contains q.tree.kind.name

def find (p : Place) (kinds : List NodeKind) : List Place :=
  p.all.filter fun q => q.tree.isAny kinds

def climb (tree : Tree) : List Crumb → Place
  | [] => ⟨tree, []⟩
  | c :: path =>
    if c.parent.isAny [.program, .statementBlock, .classBody, .switchCase, .switchDefault] then
      ⟨tree, c :: path⟩
    else climb c.parent path

def statement (p : Place) : Place := climb p.tree p.path

def classKinds : List NodeKind := [.classDeclaration, .abstractClassDeclaration, .classExpr]

def classAbove : List Crumb → Option Place
  | [] => none
  | c :: path => if c.parent.isAny classKinds then some ⟨c.parent, path⟩ else classAbove path

def enclosingClass (p : Place) : Option Place := classAbove p.path

end Place
end OrmCodemod.Syntax
