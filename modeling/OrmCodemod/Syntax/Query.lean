import OrmCodemod.Syntax.Place
import OrmCodemod.Text.Blank

/-!
Questions about nodes: arguments of calls, members of object literals, decorators, annotated types,
and the two shapes of calls that a pass looks for.
-/

namespace OrmCodemod.Syntax

open Text

namespace Tree

def callArguments (call : Tree) : List Tree :=
  match call.child? .arguments with
  | some args => if args.is .arguments then args.significant else []
  | none => []

def stringValue (t : Tree) (source : Bytes) : Option String :=
  if t.is .stringLiteral then some (String.ofList ((t.text source).toList.drop 1).dropLast) else none

/-- The key of a member of an object literal; spreads, methods and computed keys have none. -/
def memberKey (member : Tree) (source : Bytes) : Option String :=
  if member.is .shorthandPropertyIdentifier then some (member.text source)
  else if member.is .pair then
    match member.child? .key with
    | none => none
    | some key =>
      if key.is .stringLiteral then key.stringValue source
      else if key.isAny [.propertyIdentifier, .numberLiteral] then some (key.text source)
      else none
  else none

def memberValue (member : Tree) : Option Tree :=
  if member.is .pair then member.child? .value
  else if member.is .shorthandPropertyIdentifier then some member
  else none

def findMember (object : Tree) (key : String) (source : Bytes) : Option Tree :=
  object.significant.find? fun m => m.memberKey source == some key

def decoratorExpression (decorator : Tree) : Option Tree := decorator.significant.head?

/-- The name of a decorator: of the function it calls or refers to, without what qualifies it. -/
def decoratorName (decorator : Tree) (source : Bytes) : Option String := do
  let expression ← decorator.decoratorExpression
  let callee ← if expression.is .callExpression then expression.child? .callee else some expression
  if callee.is .identifier then some (callee.text source)
  else if callee.is .memberExpression then (callee.child? .property).map (·.text source)
  else none

def decoratorArguments (decorator : Tree) : List Tree :=
  match decorator.decoratorExpression with
  | some e => if e.is .callExpression then e.callArguments else []
  | none => []

def annotatedType (t : Tree) : Option Tree := do
  let ascription ← t.child? .ascription
  if ascription.is .typeAscription then ascription.significant.head? else some ascription

def genericArgument (type : Tree) (generic : String) (source : Bytes) : Option String := do
  if !type.is .genericType then none
  let name ← type.child? .name
  if name.text source != generic then none
  let args ← type.child? .typeArguments
  let first ← args.significant.head?
  if first.isAny [.typeIdentifier, .nestedTypeIdentifier] then some (first.text source) else none

def className (t : Tree) (source : Bytes) : Option String :=
  (t.child? .name).map (·.text source)

end Tree

namespace Place

/-- The decorators of a class or field, those before `export` first. -/
def decorators (p : Place) : List Tree :=
  let own := p.tree.children.filter (·.is .decorator)
  match p.up? with
  | some parent =>
    if p.tree.isAny classKinds && parent.tree.is .exportStatement then
      parent.tree.children.filter (·.is .decorator) ++ own
    else own
  | none => own

/-- A call `owner.member.method(...)`, with its parts. -/
structure RepositoryCall where
  call : Place
  callee : Tree
  receiver : Tree
  member : Tree
  method : Tree
  arguments : Tree

/-- A call `registrar.method(...)`, with its parts. -/
structure Registration where
  call : Place
  registrar : Tree
  method : Tree
  arguments : Tree

def repositoryCall? (p : Place) : Option RepositoryCall := do
  if !p.tree.is .callExpression then none
  let callee ← p.tree.child? .callee
  let arguments ← p.tree.child? .arguments
  let method ← callee.child? .property
  let receiver ← callee.child? .object
  let member ← receiver.child? .property
  if callee.is .memberExpression && receiver.is .memberExpression && arguments.is .arguments &&
      method.is .propertyIdentifier && member.is .propertyIdentifier then
    some ⟨p, callee, receiver, member, method, arguments⟩
  else none

def registration? (p : Place) : Option Registration := do
  if !p.tree.is .callExpression then none
  let callee ← p.tree.child? .callee
  let arguments ← p.tree.child? .arguments
  let method ← callee.child? .property
  let registrar ← callee.child? .object
  if callee.is .memberExpression && registrar.is .identifier && arguments.is .arguments &&
      method.is .propertyIdentifier then
    some ⟨p, registrar, method, arguments⟩
  else none

def repositoryCalls (p : Place) : List RepositoryCall := p.all.filterMap repositoryCall?

def registrations (p : Place) : List Registration := p.all.filterMap registration?

end Place

/-- The bytes between the start of a line and an offset in it. -/
def lineHead (source : Bytes) (offset : Nat) : Bytes :=
  ((source.take offset).reverse.takeWhile (· != 10)).reverse

/-- The blanks between the start of a line and an offset, or nothing if other text stands there. -/
def lineIndent (source : Bytes) (offset : Nat) : String :=
  let head := lineHead source offset
  if head.all isBlankByte then String.ofList (head.map fun b => Char.ofNat b.toNat) else ""

def lineNumber (source : Bytes) (offset : Nat) : Nat := (source.take offset).count 10 + 1

end OrmCodemod.Syntax
