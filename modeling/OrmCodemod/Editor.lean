import OrmCodemod.Syntax.Query

/-!
Edits of a source, recorded against its own offsets. A replacement drops the edits inside its range,
so that a text composed with `render` takes the place of the edits it already shows. Two
replacements never overlap: a call that would make them is refused and changes nothing.
-/

namespace OrmCodemod

open Syntax Text

/-- Put `replacement` in the place of the bytes `[start, stop)`; `order` counts the edits made. -/
structure Edit where
  start : Nat
  stop : Nat
  replacement : Bytes
  order : Nat
  deriving DecidableEq, Repr

namespace Edit

def isInsertion (e : Edit) : Bool := e.start == e.stop

/-- The edit lies in `[start, stop)`; an insertion on the border does not. -/
def inside (e : Edit) (start stop : Nat) : Bool :=
  if e.isInsertion then start < e.start && e.start < stop
  else start ≤ e.start && e.stop ≤ stop

/-- Printing order: by offset, insertions before a replacement, then as recorded. -/
def precedes (a b : Edit) : Bool :=
  if a.start != b.start then a.start < b.start
  else if a.isInsertion != b.isInsertion then a.isInsertion
  else a.order < b.order

def insertSorted (e : Edit) : List Edit → List Edit
  | [] => [e]
  | x :: xs => if e.precedes x then e :: x :: xs else x :: insertSorted e xs

def sorted (es : List Edit) : List Edit := es.foldl (fun acc e => insertSorted e acc) []

end Edit

/-- The range of an edit and the recorded range it cuts into. -/
structure Overlap where
  start : Nat
  stop : Nat
  otherStart : Nat
  otherStop : Nat
  deriving DecidableEq, Repr

def Overlap.message (o : Overlap) : String :=
  s!"Edit [{o.start}, {o.stop}) overlaps existing edit [{o.otherStart}, {o.otherStop})"

/-- A source and the edits recorded so far, in recording order. -/
structure Editor where
  source : Bytes
  edits : List Edit := []
  next : Nat := 0

namespace Editor

def changed (ed : Editor) : Bool := !ed.edits.isEmpty

def record (ed : Editor) (start stop : Nat) (text : String) : Editor :=
  { ed with edits := ed.edits ++ [⟨start, stop, encode text, ed.next⟩], next := ed.next + 1 }

def replaceRange (ed : Editor) (start stop : Nat) (text : String) : Except Overlap Editor :=
  match ed.edits.find? fun e =>
      !e.inside start stop && !e.isInsertion && e.start < stop && start < e.stop with
  | some e => .error ⟨start, stop, e.start, e.stop⟩
  | none =>
    .ok ({ ed with edits := ed.edits.filter fun e => !e.inside start stop }.record start stop text)

/-- Insert at an offset that is not strictly inside a replaced range. -/
def insertAt (ed : Editor) (offset : Nat) (text : String) : Except Overlap Editor :=
  match ed.edits.find? fun e => !e.isInsertion && e.start < offset && offset < e.stop with
  | some e => .error ⟨offset, offset, e.start, e.stop⟩
  | none => .ok (ed.record offset offset text)

def replace (ed : Editor) (t : Tree) (text : String) : Except Overlap Editor :=
  ed.replaceRange t.start t.stop text

def insertBefore (ed : Editor) (t : Tree) (text : String) : Except Overlap Editor :=
  ed.insertAt t.start text

def remove (ed : Editor) (t : Tree) : Except Overlap Editor := ed.replace t ""

/-- The source from `cursor` to `stop` with sorted edits in place. -/
def splice (source : Bytes) (cursor stop : Nat) : List Edit → Bytes
  | [] => slice source cursor stop
  | e :: es =>
    slice source cursor e.start ++ e.replacement ++ splice source (max cursor e.stop) stop es

def renderBytes (ed : Editor) (start stop : Nat) : Bytes :=
  splice ed.source start stop (Edit.sorted (ed.edits.filter (·.inside start stop)))

/-- The whole source with every edit in it, those on its borders included. -/
def printBytes (ed : Editor) : Bytes :=
  let n := ed.source.length
  splice ed.source 0 n
    (Edit.sorted (ed.edits.filter fun e => e.inside 0 n || (e.isInsertion && e.start ≤ n)))

def render (ed : Editor) (t : Tree) : Except DecodeError String :=
  decode (ed.renderBytes t.start t.stop)

def print (ed : Editor) : Except DecodeError String := decode ed.printBytes

/-- Remove a statement; if it starts its line, with its indentation, and with the rest of its last
line if that is blank. -/
def removeStatement (ed : Editor) (t : Tree) : Except Overlap Editor :=
  let source := ed.source
  if lineIndent source t.start != "" || slice source (t.start - 1) t.start == [10] || t.start == 0 then
    let start := t.start - (lineHead source t.start).length
    let tail := source.drop t.stop
    let line := tail.takeWhile (· != 10)
    let stop := if line.length < tail.length && line.all isBlankByte then t.stop + line.length + 1
      else t.stop
    ed.replaceRange start stop ""
  else ed.replaceRange t.start t.stop ""

/-- Remove an item of a comma-separated list with the comma after it, or else the one before it. -/
def removeListItem (ed : Editor) (p : Place) : Except Overlap Editor :=
  match p.after with
  | comma :: rest =>
    if comma.isToken "," then
      let stop := match rest with
        | next :: _ => next.start
        | [] => comma.stop
      ed.replaceRange p.start stop ""
    else before
  | [] => before
where
  before : Except Overlap Editor :=
    match p.before with
    | comma :: _ =>
      if comma.isToken "," then ed.replaceRange comma.start p.stop "" else ed.remove p.tree
    | [] => ed.remove p.tree

/-- A comment without the layout of its lines. -/
def normalizeComment (comment : String) : String :=
  joinWith "\n" ((lines (trimChars comment.toList)).map fun l => String.ofList (trimChars l))

def leadingComments (ed : Editor) (statement : Place) : List String :=
  (statement.before.takeWhile (·.is .comment)).map fun c => normalizeComment (c.text ed.source)

/-- Cut at line feeds; `line` holds the current line backwards. -/
def splitLines (line : List Char) : List Char → List String
  | [] => [String.ofList line.reverse]
  | c :: rest =>
    if c = '\n' then String.ofList line.reverse :: splitLines [] rest else splitLines (c :: line) rest

/-- A comment as it is written before a statement: every later line that is not empty is indented,
and so is the statement after it. -/
def commentText (indent comment : String) : String :=
  let body := match splitLines [] comment.toList with
    | [] => ""
    | first :: rest =>
      joinWith "\n" (first :: rest.map fun line => if line == "" then line else indent ++ line)
  body ++ "\n" ++ indent

/-- Put a comment on a line of its own before the statement that holds a node, unless it is there
already, in the source or as an edit. Tells whether it was put. -/
def insertCommentBefore (ed : Editor) (p : Place) (comment : String) :
    Except Overlap (Bool × Editor) :=
  let statement := p.statement
  if (ed.leadingComments statement).contains (normalizeComment comment) then .ok (false, ed)
  else
    let text := commentText (lineIndent ed.source statement.start) comment
    if ed.edits.any fun e =>
        e.isInsertion && e.start == statement.start && e.replacement == encode text then
      .ok (false, ed)
    else (ed.insertAt statement.start text).map fun ed => (true, ed)

end Editor
end OrmCodemod
