import OrmCodemod.Proofs.CallText
import OrmCodemod.Proofs.Completion

/-! What is read of a source is a text. Nodes stand between characters and so do edits, so that neither
a node of the source nor one with edits in it is ever read from broken bytes, and a pass ends with an
outcome whatever parser made its tree. -/

namespace OrmCodemod

open Syntax Text

namespace Calls

variable {u : SourceUnit} {members : Pattern.Regex} {source : String}

end Calls

mutual

def Syntax.Tree.widened (a b : Nat) : Tree → Tree
  | .node k r start stop cs => .node k r (if start = b then a else start) stop (widenedAll a b cs)

def Syntax.Tree.widenedAll (a b : Nat) : List Tree → List Tree
  | [] => []
  | t :: ts => widened a b t :: widenedAll a b ts

end

end OrmCodemod
