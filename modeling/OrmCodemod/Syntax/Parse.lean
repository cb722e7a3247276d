import OrmCodemod.Syntax.Grammar.Statements
import OrmCodemod.Syntax.Place

/-!
Reading a whole source. `production` ties the modules of the grammar together; a bound that grows
with the source makes the recursion end. A source that the grammar does not cover gives a root
without children, marked as broken, in which there is nothing to find.
-/

namespace OrmCodemod.Syntax

open Grammar

/-- The production of each rule, over the productions in the context. -/
def ruleBody (g : Context) : Rule → Parser Pieces
  | .statement => statement g
  | .block operand => block g operand
  | .expression => expression g
  | .sequence => sequence g
  | .binary level => binary g level
  | .unary => unary g
  | .constructed => constructed g
  | .heritage => heritage g
  | .template => templateString g
  | .object => object g
  | .array => array g
  | .arguments => arguments g
  | .pattern => pattern g
  | .type => type g
  | .typeOperand => typeOperand g
  | .typeArguments => typeArguments g
  | .typeParameters => typeParameters g
  | .callSignature => callSignature g
  | .parameters => parameters g
  | .propertyName => propertyName g
  | .classTail => classTail g
  | .decorators => decorators g
  | .method => method g
  | .element => element g

/-- The productions of a dialect, at most `n` of them inside one another. -/
def production (dialect : Dialect) : Nat → Rule → Parser Pieces
  | 0, _ => failure
  | n + 1, rule => ruleBody ⟨dialect, n, production dialect n⟩ rule

/-- The tree of a source, and whether the grammar failed to cover it. -/
structure Parsed where
  root : Tree
  broken : Bool

def hashBang : Parser Pieces := do
  require ("#!".toList.isPrefixOf (← get).rest)
  leaf (.named .hashBangLine) ((← get).rest.takeWhile fun c => c != '\n' && c != '\r').length

def wholeSource (dialect : Dialect) (bound : Nat) : Parser Pieces := do
  let first ← opt (do
    modify fun c => c.advance (c.rest.takeWhile isSpace).length
    hashBang)
  let body ← many bound (production dialect bound .statement)
  let comments ← trivia
  require (← get).rest.isEmpty
  return first ++ body ++ comments

/-- Read a source. -/
def parse (dialect : Dialect) (source : String) : Parsed :=
  let chars := source.toList
  let size := chars.foldl (fun n c => n + c.utf8Size) 0
  let bound := 32 * (chars.length + 4)
  match wholeSource dialect bound ⟨chars, 0, true⟩ with
  | some (children, _) =>
    let start := (children.head?.map Tree.start).getD size
    ⟨.node (.named .program) none start size children, false⟩
  | none => ⟨.node (.named .program) none 0 size [], true⟩

end OrmCodemod.Syntax
