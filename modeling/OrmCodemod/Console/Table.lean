import OrmCodemod.Text.Width

/-!
A table of two columns in a box with a heavy head. A column is as wide as its widest cell.
-/

namespace OrmCodemod.Console

open Text

def cell (w : Nat) (s : String) : String := s ++ String.ofList (List.replicate (w - width s) ' ')

def rule (left across cross right : String) (a b : Nat) : String :=
  let line (n : Nat) : String := String.join (List.replicate (n + 2) across)
  left ++ line a ++ cross ++ line b ++ right ++ "\n"

def row (bar : String) (a b : Nat) (cells : String × String) : String :=
  bar ++ " " ++ cell a cells.1 ++ " " ++ bar ++ " " ++ cell b cells.2 ++ " " ++ bar ++ "\n"

def table (head : String × String) (rows : List (String × String)) : String :=
  let a := ((head :: rows).map fun r => width r.1).foldl max 0
  let b := ((head :: rows).map fun r => width r.2).foldl max 0
  rule "┏" "━" "┳" "┓" a b ++ row "┃" a b head ++ rule "┡" "━" "╇" "┩" a b ++
    String.join (rows.map (row "│" a b)) ++ rule "└" "─" "┴" "┘" a b

end OrmCodemod.Console
