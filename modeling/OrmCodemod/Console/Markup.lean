import OrmCodemod.Text.Blank

/-!
Console text with style tags in square brackets. On a plain console a tag leaves no trace; a
backslash before its bracket makes it text. A closing tag needs an open one to close.
-/

namespace OrmCodemod.Console

/-- A closing tag without an open one, as it is written and where. -/
structure MarkupError where
  tag : String
  position : Nat
  named : Bool
  deriving DecidableEq, Repr

def MarkupError.message (e : MarkupError) : String :=
  if e.named then
    s!"closing tag '{e.tag}' at position {e.position} doesn't match any open tag"
  else s!"closing tag '[/]' at position {e.position} has nothing to close"

/-- The inside of a tag whose bracket was just read, if it is one: it starts with a small letter, a
hash, a slash or an at sign, and goes on without another opening bracket. -/
def tagInside (cs : List Char) : Option (List Char) :=
  match cs with
  | c :: rest =>
    if ('a' ≤ c && c ≤ 'z') || c == '#' || c == '/' || c == '@' then
      let inner := rest.takeWhile fun d => d != ']' && d != '['
      if (rest.drop inner.length).head? == some ']' then some (c :: inner) else none
    else none
  | [] => none

def styleName (cs : List Char) : String :=
  String.ofList ((Text.trimChars (cs.takeWhile (· != '='))).map Char.toLower)

/-- A plain stretch, in which an escaped bracket is a bracket. -/
def unescape : List Char → List Char
  | '\\' :: '[' :: rest => '[' :: unescape rest
  | c :: rest => c :: unescape rest
  | [] => []

/-- Drop the tags of a text from a position on; `stretch` is the plain text read since the last tag,
backwards, and `open_` are the styles open, last first. -/
def dropTags : Nat → Nat → List String → List Char → List Char → Except MarkupError (List Char)
  | 0, _, _, stretch, cs => .ok (unescape stretch.reverse ++ cs)
  | _, _, _, stretch, [] => .ok (unescape stretch.reverse)
  | fuel + 1, pos, open_, stretch, c :: rest =>
    let slashes := (c :: rest).takeWhile (· == '\\')
    let after := (c :: rest).drop slashes.length
    match after with
    | '[' :: more =>
      match tagInside more with
      | some inside =>
        let whole := slashes.length + inside.length + 2
        let halves := List.replicate (slashes.length / 2) '\\'
        let next := (c :: rest).drop whole
        let here := unescape stretch.reverse ++ unescape halves
        if slashes.length % 2 == 1 then do
          let tail ← dropTags fuel (pos + whole) open_ [] next
          return here ++ ('[' :: inside) ++ [']'] ++ tail
        else
          match inside with
          | '/' :: name =>
            let start := pos + 2 * (slashes.length / 2)
            let style := styleName name
            if style == "" then
              match open_ with
              | [] => .error ⟨"[/]", start, false⟩
              | _ :: open_ => do return here ++ (← dropTags fuel (pos + whole) open_ [] next)
            else if open_.contains style then do
              return here ++ (← dropTags fuel (pos + whole) (open_.erase style) [] next)
            else .error ⟨String.ofList (('[' :: inside) ++ [']']), start, true⟩
          | name => do
            return here ++ (← dropTags fuel (pos + whole) (styleName name :: open_) [] next)
      | none =>
        dropTags fuel (pos + slashes.length + 1) open_ ('[' :: (slashes ++ stretch)) more
    | _ =>
      if slashes.isEmpty then dropTags fuel (pos + 1) open_ (c :: stretch) rest
      else dropTags fuel (pos + slashes.length) open_ (slashes ++ stretch) after

def plain (s : String) : Except MarkupError String :=
  (dropTags (s.length + 1) 0 [] [] s.toList).map String.ofList

end OrmCodemod.Console
