import OrmCodemod.Pass.Session
import OrmCodemod.Proofs.Nesting
import OrmCodemod.Proofs.Utf8
import OrmCodemod.Syntax.Cursor

/-! What the tree of a parsed source is like, as tests of its nodes: that nodes are nested and stand
between characters, with nothing but white space between them, that statements fill their lines,
and that calls, arguments and blocks have their own tokens where the grammar has them. -/

namespace OrmCodemod

open Syntax Text

namespace Editor

def blankBetween (source : Bytes) (a b : Nat) : Bool :=
  match decode (slice source a b) with
  | .ok s => s.toList.all isSpace
  | .error _ => false

def spaced (source : Bytes) : List Tree → Bool
  | a :: b :: rest => blankBetween source a.stop b.start && spaced source (b :: rest)
  | _ => true

end Editor

namespace Syntax.Tree

def aligned (source : Bytes) (t : Tree) : Bool :=
  isBoundary source t.start && isBoundary source t.stop

/-- The node is not empty, does not start with a blank, and has more than blanks before its end in its
last line. (A comment of a line may end in blanks.) -/
def edged (source : Bytes) (t : Tree) : Bool :=
  t.start < t.stop && !source[t.start]?.any isBlankByte && !(lineHead source t.stop).all isBlankByte

def trimmed (source : Bytes) (t : Tree) : Bool := t.children.isEmpty || t.edged source

def closedCall (t : Tree) : Bool :=
  !t.is .callExpression || (t.child? .arguments).all fun a =>
    !a.is .arguments || (a.start < a.stop && a.stop == t.stop)

/-- The kinds of nodes that hold statements or members after a token of their own. -/
def blockKinds : List NodeKind := [.statementBlock, .classBody, .switchCase, .switchDefault]

def ownToken (t : Tree) : Bool :=
  !t.isAny blockKinds || t.children.head?.all fun c => c.children.isEmpty && c.start < c.stop

/-- Arguments start with a token of their own, and the names of properties are tokens. -/
def tokened (t : Tree) : Bool :=
  (!t.is .arguments || t.children.head?.all fun c => c.children.isEmpty && c.start < c.stop) &&
    (!t.is .propertyIdentifier || t.children.isEmpty)

def expressionKinds : List NodeKind :=
  [.identifier, .undefinedLiteral, .thisExpr, .superExpr, .trueLiteral, .falseLiteral, .nullLiteral,
    .numberLiteral, .stringLiteral, .templateString, .regexLiteral, .object, .array,
    .functionExpression, .generatorFunction, .arrowFunction, .classExpr, .metaProperty,
    .privatePropertyIdentifier, .parenthesizedExpression, .memberExpression, .subscriptExpression,
    .callExpression, .newExpression, .nonNullExpression, .instantiationExpression, .asExpression,
    .satisfiesExpression, .typeAssertion, .unaryExpression, .updateExpression, .binaryExpression,
    .ternaryExpression, .assignmentExpression, .augmentedAssignmentExpression, .awaitExpression,
    .yieldExpression, .internalModule, .jsxElement, .jsxSelfClosingElement]

def isExpression (t : Tree) : Bool := t.isAny expressionKinds

/-- An argument of a call: an expression, or several spread from one. -/
def isArgument (t : Tree) : Bool := t.isExpression || t.is .spreadElement

/-- A member of an object literal: a method or accessor, several members spread from an expression, a
shorthand, or a key with a value. -/
def isMember (t : Tree) : Bool :=
  t.isAny [.spreadElement, .methodDefinition, .shorthandPropertyIdentifier] ||
    (t.is .pair && (t.child? .value).any isExpression)

/-- Calls have arguments, and object literals members; no member is empty. -/
def composed (t : Tree) : Bool :=
  (!t.is .arguments || t.significant.all isArgument) &&
    (!t.is .object || t.significant.all fun m => m.isMember && m.start < m.stop)

def blockless (t : Tree) : Bool :=
  t.everyNode fun s => !s.isAny (.program :: blockKinds)

def blocklessBut (r : Role) (t : Tree) : Bool :=
  (t.children.eraseP fun c => c.role == some r).all blockless

/-- The kinds of nodes that a pass converts, or that hold statements. -/
def activeKinds : List NodeKind := .callExpression :: .methodDefinition :: .program :: blockKinds

def inert (t : Tree) : Bool := t.everyNode fun s => !s.isAny activeKinds

/-- In an import, only the object behind `with` can hold more than names. -/
def imports (t : Tree) : Bool :=
  !t.is .importStatement || t.children.all fun c => c.is .importAttribute || c.inert

/-- Statements stand in the significant children of a node only; of a member expression in its object, of
a member of an object literal in its value, or in the key if it is computed. -/
def shelters (t : Tree) : Bool :=
  (t.children.all fun c => (c.kind.isNamed && !c.is .comment) || c.blockless) &&
    (!t.is .memberExpression || t.blocklessBut .object) &&
    (!t.is .pair || (t.child? .key).any (·.is .computedPropertyName) || t.blocklessBut .value) &&
    (!t.is .shorthandPropertyIdentifier || t.blockless)

end Syntax.Tree

namespace SourceUnit

variable (u : SourceUnit)

/-- The nodes of a unit are nested and lie in its source. -/
structure Nested : Prop where
  fits : u.root.stop ≤ u.source.length
  ordered : u.root.everyNode Tree.ordered = true

/-- The root is a program, and its statements fill their first and last lines. -/
structure TopLevel : Prop extends u.Nested where
  program : u.root.is .program = true
  trimmed : u.root.children.all (Tree.trimmed u.source) = true

/-- The statements of a unit fill their first and last lines, and its nodes stand between characters. -/
structure Sited : Prop extends u.TopLevel where
  aligned : u.root.everyNode (Tree.aligned u.source) = true

/-- The nodes of a unit are nested, only white space stands between them, and its statements fill their
first and last lines. -/
structure WellFormed : Prop extends u.TopLevel where
  spaced : u.root.everyNode (Editor.spaced u.source ·.children) = true

/-- The nodes of a unit are nested, and its calls end with their arguments. -/
structure Closed : Prop extends u.Nested where
  calls : u.root.everyNode Tree.closedCall = true

/-- Below the root there are no programs, and blocks start with tokens of their own. -/
structure Shaped : Prop extends u.Closed where
  blocks : (u.root.children.all fun c => c.everyNode fun t => !t.is .program && t.ownToken) = true

/-- A unit in which edits can be followed from stage to stage. -/
structure Regular : Prop extends u.Shaped, u.Sited where
  tokens : u.root.everyNode Tree.tokened = true

end SourceUnit

instance (u : SourceUnit) : Decidable u.Regular :=
  decidable_of_iff (u.root.stop ≤ u.source.length ∧ u.root.everyNode Tree.ordered = true ∧
      u.root.everyNode Tree.closedCall = true ∧
      (u.root.children.all fun c => c.everyNode fun t => !t.is .program && t.ownToken) = true ∧
      u.root.is .program = true ∧ u.root.children.all (Tree.trimmed u.source) = true ∧
      u.root.everyNode Tree.tokened = true ∧ u.root.everyNode (Tree.aligned u.source) = true)
    ⟨fun ⟨h1, h2, h3, h4, h5, h6, h7, h8⟩ => {
        fits := h1, ordered := h2, calls := h3, blocks := h4, program := h5, trimmed := h6,
        tokens := h7, aligned := h8 },
      fun h => ⟨h.fits, h.ordered, h.calls, h.blocks, h.program, h.trimmed, h.tokens, h.aligned⟩⟩

/-- Argument lists and object literals of a unit are made as the grammar has them. -/
structure SourceUnit.Composed (u : SourceUnit) : Prop extends u.Closed where
  composed : u.root.everyNode Tree.composed = true

instance (u : SourceUnit) : Decidable u.Composed :=
  decidable_of_iff (u.root.stop ≤ u.source.length ∧ u.root.everyNode Tree.ordered = true ∧
      u.root.everyNode Tree.closedCall = true ∧ u.root.everyNode Tree.composed = true)
    ⟨fun ⟨h1, h2, h3, h4⟩ => ⟨⟨⟨h1, h2⟩, h3⟩, h4⟩, fun h => ⟨h.fits, h.ordered, h.calls, h.composed⟩⟩

/-- A unit in which statements stand only where the grammar has them, as in every parsed source. -/
structure SourceUnit.Sheltered (u : SourceUnit) : Prop extends u.Regular, u.Composed where
  sheltered : u.root.everyNode Tree.shelters = true

instance (u : SourceUnit) : Decidable u.Sheltered :=
  decidable_of_iff (u.Regular ∧ u.Composed ∧ u.root.everyNode Tree.shelters = true)
    ⟨fun ⟨h1, h2, h3⟩ => { h1, h2 with sheltered := h3 },
      fun h => ⟨h.toRegular, h.toComposed, h.sheltered⟩⟩

end OrmCodemod
