import OrmCodemod.Text.Case
import OrmCodemod.Text.Blank

/-!
Slash-separated paths. Empty and `.` components are dropped when a path is read, `..` is kept. The
suffix of a name is what stands from its last dot on, unless that dot is the first or the last
character of the name.
-/

namespace OrmCodemod

/-- A path: its root (empty, one slash or two) and its components. -/
structure Path where
  root : String := ""
  parts : List String
  deriving DecidableEq, Repr

namespace Path

/-- Cut at slashes; `part` holds the current component backwards. -/
def splitFrom (part : List Char) : List Char → List String
  | [] => [String.ofList part.reverse]
  | c :: rest =>
    if c = '/' then String.ofList part.reverse :: splitFrom [] rest else splitFrom (c :: part) rest

/-- Read a path. Exactly two leading slashes are a root of their own. -/
def ofString (s : String) : Path :=
  let cs := s.toList
  let root := match (cs.takeWhile (· = '/')).length with
    | 0 => ""
    | 2 => "//"
    | _ => "/"
  ⟨root, (splitFrom [] cs).filter fun p => p != "" && p != "."⟩

def toString (p : Path) : String :=
  let body := Text.joinWith "/" p.parts
  if p.root == "" && body == "" then "." else p.root ++ body

def name (p : Path) : String := p.parts.getLast?.getD ""

def suffixOf (name : String) : String :=
  let cs := name.toList
  let tail := (cs.reverse.takeWhile (· ≠ '.')).reverse
  if tail.length + 1 < cs.length && !tail.isEmpty then String.ofList ('.' :: tail) else ""

def suffix (p : Path) : String := suffixOf p.name

def parent (p : Path) : Path := { p with parts := p.parts.dropLast }

/-- The folder that a path leads from: the working folder, or the root if the path is absolute. -/
def origin (folder : List String) (p : Path) : List String := if p.root == "" then folder else []

def child (p : Path) (part : String) : Path := { p with parts := p.parts ++ [part] }

end Path
end OrmCodemod
