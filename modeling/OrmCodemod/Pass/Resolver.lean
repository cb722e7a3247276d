import OrmCodemod.Syntax.Query
import OrmCodemod.Log

/-!
Which model a repository call works on. The name of the class around the call tells it, or else the
declared type of the repository member; an explicit mapping of classes and members goes first.
-/

namespace OrmCodemod.Resolver

open Syntax Text

def repositoryType : String := "Repository"

def repositoryMember (call : Tree) (source : Bytes) : Option String := do
  let callee ← call.child? .callee
  if !callee.is .memberExpression then none
  let receiver ← callee.child? .object
  if !receiver.is .memberExpression then none
  let owner ← receiver.child? .object
  if !owner.is .thisExpr then none
  let property ← receiver.child? .property
  some (property.text source)

/-- The entity of a field or parameter of type `Repository<Entity>`. -/
def declaredEntity (t : Tree) (source : Bytes) : Option String := do
  let type ← t.annotatedType
  let entity ← type.genericArgument repositoryType source
  if entity == "" then none else some entity

def isParameterProperty (param : Tree) : Bool :=
  param.children.any fun c => c.is .accessibilityModifier || c.isToken "readonly"

/-- The entity of a member of a class: from a field, or else from a parameter property of the class
itself. -/
def memberEntity (class_ : Place) (member : String) (source : Bytes) : Option String := do
  let body ← class_.child? .body
  let ofField := body.tree.namedChildren.findSome? fun child => do
    if !child.isAny [.publicFieldDefinition, .fieldDefinition] then none
    let name ← child.child? .name
    if name.text source == member then declaredEntity child source else none
  let ofParameter := (body.find [.requiredParameter, .optionalParameter]).findSome? fun param => do
    let around ← param.enclosingClass
    if !around.same class_ || !isParameterProperty param.tree then none
    let pattern ← param.tree.child? .pattern
    if pattern.text source == member then declaredEntity param.tree source else none
  ofField <|> ofParameter

/-- What stands before `Service`, `Controller` or `Repository` at the end of a class name. -/
def modelOfClassName (name : String) : Option String :=
  ["Service", "Controller", "Repository"].findSome? fun ending =>
    let cs := name.toList
    let n := cs.length - ending.length
    if 0 < n && cs.drop n == ending.toList then some (String.ofList (cs.take n)) else none

/-- The model by convention, and what there is to say where none is found. -/
def byConvention (call : Place) (source : Bytes) : Option String × List LogEntry :=
  match call.enclosingClass with
  | none => (none, [])
  | some class_ =>
    let name := class_.tree.className source
    match name.bind modelOfClassName with
    | some model => (some model, [])
    | none =>
      match repositoryMember call.tree source with
      | none => (none, [])
      | some member =>
        match memberEntity class_ member source with
        | some entity => (some entity, [])
        | none =>
          let shown := name.getD "None"
          (none, [⟨.debug, s!"No model found for {shown}.{member}"⟩])

/-- The model that a mapping gives to the class around a call, or else to its member. -/
def byMapping (mapping : List (String × String)) (call : Place) (source : Bytes) : Option String :=
  let ofClass := do
    let class_ ← call.enclosingClass
    let name ← class_.tree.className source
    mapping.lookup name
  ofClass <|> (repositoryMember call.tree source).bind fun member => mapping.lookup member

/-- The model of a call: by the mapping first, then by convention. -/
def resolve (mapping : List (String × String)) (call : Place) (source : Bytes) :
    Option String × List LogEntry :=
  match byMapping mapping call source with
  | some model => (some model, [])
  | none => byConvention call source

end OrmCodemod.Resolver
