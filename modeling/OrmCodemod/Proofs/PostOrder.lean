import OrmCodemod.Proofs.Walk

/-! A walk gives the places out in post-order, however the tree is shaped: those below the children one
child after the other, and then the place itself. -/

namespace OrmCodemod.Syntax.Place

mutual

def postOrder (path : List Crumb) : Tree → List Place
  | .node k r a b cs =>
    postOrderIn (.node k r a b cs) path [] cs ++ [⟨.node k r a b cs, path⟩]

/-- The places below the children of a node, and at them; `before` are the siblings before, nearest
first. -/
def postOrderIn (parent : Tree) (path : List Crumb) (before : List Tree) : List Tree → List Place
  | [] => []
  | t :: after =>
    postOrder (⟨parent, before, after⟩ :: path) t ++ postOrderIn parent path (t :: before) after

end

theorem postOrder_eq (p : Place) :
    postOrder p.path p.tree = postOrderIn p.tree p.path [] p.tree.children ++ [p] := by
  obtain ⟨⟨k, role, a, b, cs⟩, path⟩ := p
  rw [postOrder]
  rfl

/-- What a stack is still to give out: for a place met first all that is below it, and it. -/
def pending : List (Place × Bool) → List Place
  | [] => []
  | (p, true) :: stack => p :: pending stack
  | (p, false) :: stack => postOrder p.path p.tree ++ pending stack

/-- How many steps a stack takes: two for every node at or below a place met first. -/
def work : List (Place × Bool) → Nat
  | [] => 0
  | (_, true) :: stack => work stack + 1
  | (p, false) :: stack => 2 * p.tree.size + work stack

def stackAfter : Nat → List (Place × Bool) → List (Place × Bool)
  | 0, stack => stack
  | n + 1, stack => stackAfter n (walkStep stack).2

variable {stack : List (Place × Bool)}

theorem pending_children (parent : Tree) (path : List Crumb) (before after : List Tree) :
    pending ((childrenFrom ⟨parent, path⟩ before after).map (·, false) ++ stack) =
      postOrderIn parent path before after ++ pending stack := by
  induction after generalizing before with
  | nil => simp [childrenFrom, postOrderIn]
  | cons t after ih =>
    rw [childrenFrom, List.map_cons, List.cons_append, pending, ih, postOrderIn, List.append_assoc]

theorem work_children (parent : Place) (before after : List Tree) :
    work ((childrenFrom parent before after).map (·, false) ++ stack) =
      2 * Tree.sizeAll after + work stack := by
  induction after generalizing before with
  | nil => simp [childrenFrom, Tree.sizeAll]
  | cons t after ih =>
    rw [childrenFrom, List.map_cons, List.cons_append, work, ih, Tree.sizeAll]
    dsimp only
    omega

/-- A step gives out the first of what is to be given out, or nothing, and leaves the rest to do. -/
theorem pending_step (stack : List (Place × Bool)) :
    (walkStep stack).1.toList ++ pending (walkStep stack).2 = pending stack := by
  match stack with
  | [] => rfl
  | (p, true) :: stack => rfl
  | (p, false) :: stack =>
    rw [walkStep, children, pending_children, pending, pending, postOrder_eq]
    simp

/-- A step is one step less to do, although the stack may grow. -/
theorem work_step (stack : List (Place × Bool)) : work (walkStep stack).2 = work stack - 1 := by
  match stack with
  | [] => rfl
  | (p, true) :: stack => rfl
  | (p, false) :: stack =>
    obtain ⟨⟨k, role, a, b, cs⟩, path⟩ := p
    rw [walkStep, children, work_children, work, work, Tree.size, Tree.children]
    omega

/-- What a walk has given out and what its stack is still to give out make up the whole. -/
theorem walk_append_pending (n : Nat) (stack : List (Place × Bool)) :
    walk n stack ++ pending (stackAfter n stack) = pending stack := by
  induction n generalizing stack with
  | zero => rfl
  | succ n ih =>
    rw [← pending_step stack, ← ih (walkStep stack).2, walk, stackAfter]
    rcases walkStep stack with ⟨_ | p, rest⟩ <;> rfl

theorem work_stackAfter (n : Nat) (stack : List (Place × Bool)) :
    work (stackAfter n stack) = work stack - n := by
  induction n generalizing stack with
  | zero => rfl
  | succ n ih =>
    rw [stackAfter, ih, work_step]
    omega

theorem work_eq_zero : work stack = 0 ↔ stack = [] := by
  match stack with
  | [] => simp [work]
  | (p, true) :: stack => simp [work]
  | (⟨.node .., _⟩, false) :: stack => simp [work, Tree.size]

theorem stackAfter_eq_nil {n : Nat} : stackAfter n stack = [] ↔ work stack ≤ n := by
  rw [← work_eq_zero, work_stackAfter]
  omega

theorem all_eq (p : Place) : p.all = postOrder p.path p.tree := by
  have hend : stackAfter (2 * p.tree.size) [(p, false)] = [] := stackAfter_eq_nil.2 le_rfl
  have hwalk := walk_append_pending (2 * p.tree.size) [(p, false)]
  rwa [hend, pending, pending, pending, List.append_nil, List.append_nil] at hwalk

variable {p q : Place} {r : Tree}

theorem child_induction {P : Place → Prop} (h : ∀ p, (∀ q ∈ p.children, P q) → P p) (p : Place) : P p := by
  induction hn : p.tree.size using Nat.strong_induction_on generalizing p with
  | _ n ih =>
    refine h p fun q hq => ih _ ?_ q rfl
    rw [← hn]
    exact Tree.size_child (tree_mem_children hq)

theorem postOrderIn_eq (parent : Tree) (path : List Crumb) (before after : List Tree) :
    postOrderIn parent path before after = (childrenFrom ⟨parent, path⟩ before after).flatMap all := by
  induction after generalizing before with
  | nil => simp [childrenFrom, postOrderIn]
  | cons t after ih => rw [childrenFrom, List.flatMap_cons, all_eq, ← ih, postOrderIn]

/-- A walk gives out what is below the children, one child after the other, and then the place. -/
theorem all_children (p : Place) : p.all = p.children.flatMap all ++ [p] := by
  rw [all_eq, postOrder_eq, postOrderIn_eq, children]

theorem self_mem_all (p : Place) : p ∈ p.all := by
  rw [all_children]
  exact List.mem_append_right _ List.mem_cons_self

theorem child_mem_all (hq : q ∈ p.children) : q ∈ p.all := by
  rw [all_children]
  exact List.mem_append_left _ (List.mem_flatMap.2 ⟨q, hq, self_mem_all q⟩)

/-- What is below a place of a walk is in the walk, and is given out together. -/
theorem all_contained (hq : q ∈ p.all) : q.all <:+: p.all := by
  induction p using child_induction with
  | h p ih =>
    rw [all_children, List.mem_append, List.mem_flatMap, List.mem_singleton] at hq
    rcases hq with ⟨c, hc, hqc⟩ | rfl
    · have hchild : c.all <:+: p.children.flatMap all := by
        rw [List.flatMap_def]
        exact List.infix_of_mem_flatten (List.mem_map_of_mem hc)
      rw [all_children p]
      exact ((ih c hc hqc).trans hchild).trans (List.prefix_append _ _).isInfix
    · exact List.infix_rfl

theorem Rooted.mem_all (hq : q.Rooted r) : q ∈ (⟨r, []⟩ : Place).all := by
  induction hq with
  | root => exact self_mem_all _
  | child _ hq ih => exact (all_contained ih).subset (child_mem_all hq)

theorem path_suffix (hq : q ∈ p.all) : p.path <:+ q.path := by
  induction p using child_induction with
  | h p ih =>
    rw [all_children, List.mem_append, List.mem_flatMap, List.mem_singleton] at hq
    rcases hq with ⟨c, hc, hqc⟩ | rfl
    · obtain ⟨l, r, -, hpath⟩ := mem_children hc
      exact (hpath ▸ List.suffix_cons _ p.path).trans (ih c hc hqc)
    · exact List.suffix_rfl

theorem path_suffixIn (parent : Tree) (path : List Crumb) (before after : List Tree)
    (hq : q ∈ postOrderIn parent path before after) :
    ∃ c : Crumb, c.parent = parent ∧ c :: path <:+ q.path := by
  rw [postOrderIn_eq] at hq
  obtain ⟨p, hp, hqp⟩ := List.mem_flatMap.1 hq
  obtain ⟨l, r, -, hpath⟩ := mem_childrenFrom hp
  exact ⟨_, rfl, hpath ▸ path_suffix hqp⟩

end OrmCodemod.Syntax.Place
