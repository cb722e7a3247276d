import OrmCodemod.Proofs.Places

/-! A walk gives every node out once and after the nodes below it, and a node that is not empty has one
place only. -/

namespace OrmCodemod.Syntax

namespace Tree

theorem parent_unique {r t t' c : Tree} (hr : r.everyNode ordered = true) (ht : Within t r)
    (ht' : Within t' r) (hc : c ∈ t.children) (hc' : c ∈ t'.children) (hne : c.start < c.stop) :
    t = t' := by
  have hsize := size_child hc
  have hsize' := size_child hc'
  rcases within_parent hr ht hc hne ht' (within_of_mem hc') with rfl | h
  · omega
  rcases within_parent hr ht' hc' hne ht (within_of_mem hc) with rfl | h'
  · omega
  exact h.antisymm h'

theorem inOrder_split_unique {a b : Nat} {t : Tree} (hne : t.start < t.stop) :
    ∀ {l r l' r' : List Tree}, inOrder a b (l ++ t :: r) = true → l ++ t :: r = l' ++ t :: r' →
      l = l' ∧ r = r' := by
  intro l
  induction l generalizing a with
  | nil =>
    intro r l' r' h he
    cases l' with
    | nil => exact ⟨rfl, List.tail_eq_of_cons_eq he⟩
    | cons x l' =>
      obtain ⟨rfl, rfl⟩ := List.cons_eq_cons.1 he
      simp only [List.nil_append, inOrder, Bool.and_eq_true] at h
      have := inOrder_mem h.2 (t := t) (by simp)
      omega
  | cons y l ih =>
    intro r l' r' h he
    simp only [List.cons_append, inOrder, Bool.and_eq_true] at h
    cases l' with
    | nil =>
      obtain ⟨rfl, -⟩ := List.cons_eq_cons.1 he
      have := inOrder_mem h.2 (t := y) (by simp)
      omega
    | cons x l' =>
      obtain ⟨rfl, htail⟩ := List.cons_eq_cons.1 he
      obtain ⟨rfl, rfl⟩ := ih h.2 htail
      exact ⟨rfl, rfl⟩

end Tree

namespace Place

theorem Rooted.unique {r : Tree} (hr : r.everyNode Tree.ordered = true) {p : Place}
    (hp : p.Rooted r) : ∀ {q : Place}, q.Rooted r → p.tree = q.tree → p.start < p.stop → p = q := by
  induction hp with
  | root =>
    intro q hq he _
    cases hq with
    | root => rfl
    | @child q' _ hq' hmem =>
      have h1 := Tree.size_child (tree_mem_children hmem)
      have h2 := hq'.within.size_le
      simp only at he
      rw [← he] at h1
      omega
  | @child p' p hp' hmem ih =>
    intro q hq he hne
    cases hq with
    | root =>
      have h1 := Tree.size_child (tree_mem_children hmem)
      have h2 := hp'.within.size_le
      simp only at he
      rw [he] at h1
      omega
    | @child q' _ hq' hmem' =>
      have hc := tree_mem_children hmem
      have hc' := tree_mem_children hmem'
      have hparent : p'.tree = q'.tree :=
        Tree.parent_unique hr hp'.within hq'.within hc (he ▸ hc') hne
      have hrange := Tree.child_range (Tree.everyNode_within hr hp'.within) hc
      obtain rfl := ih hq' hparent (by simp only [Place.start, Place.stop] at hne ⊢; omega)
      obtain ⟨l, s, hl, hpath⟩ := mem_children hmem
      obtain ⟨l', s', hl', hpath'⟩ := mem_children hmem'
      have hin : Tree.inOrder p'.tree.start p'.tree.stop (l ++ p.tree :: s) = true :=
        hl ▸ Tree.test_within hr hp'.within
      obtain ⟨rfl, rfl⟩ := Tree.inOrder_split_unique hne hin
        (hl.symm.trans (by rw [hl', he]))
      obtain ⟨tree, path⟩ := p
      obtain ⟨tree', path'⟩ := q
      simp only at he hpath hpath'
      rw [he, hpath, hpath']

/-- Two places have the same node only if it is empty. -/
def Differ (p q : Place) : Prop := p.tree = q.tree → p.stop ≤ p.start

/-- The second place is not below the first one, unless it is empty. -/
def Later (p q : Place) : Prop := q.tree.Within p.tree → q.stop ≤ q.start

theorem sizeAll_children (p : Place) :
    Tree.sizeAll (p.children.map Place.tree) + 1 = p.tree.size := by
  rw [map_tree_children]
  cases p.tree
  simp only [Tree.children, Tree.size]
  omega

/-- What a walk gives out for a stack of places, and then for the rest of the stack. -/
structure Walked (ps : List Place) (out : List Place) : Prop where
  run : ∀ n stack, walk (2 * Tree.sizeAll (ps.map Place.tree) + n) (ps.map (·, false) ++ stack) =
    out ++ walk n stack
  within : ∀ q ∈ out, ∃ p ∈ ps, q.tree.Within p.tree
  later : out.Pairwise Later

theorem Walked.nil : Walked [] [] :=
  ⟨fun n stack => by simp [Tree.sizeAll], by simp, List.Pairwise.nil⟩

theorem Walked.single {p : Place} {out : List Place} (h : Walked p.children out) :
    Walked [p] (out ++ [p]) where
  run n stack := by
    have hsize := sizeAll_children p
    have hrun := h.run (n + 1) ((p, true) :: stack)
    rw [show 2 * Tree.sizeAll ([p].map Place.tree) + n =
      2 * Tree.sizeAll (p.children.map Place.tree) + (n + 1) + 1 by
        simp only [List.map_cons, List.map_nil, Tree.sizeAll]; omega]
    have hstep : walk (2 * Tree.sizeAll (p.children.map Place.tree) + (n + 1) + 1)
        ((p, false) :: stack) = walk (2 * Tree.sizeAll (p.children.map Place.tree) + (n + 1))
          (p.children.map (·, false) ++ (p, true) :: stack) := rfl
    have hout : walk (n + 1) ((p, true) :: stack) = p :: walk n stack := rfl
    rw [List.map_singleton, List.singleton_append, hstep, hrun, hout, List.append_assoc,
      List.singleton_append]
  within q hq := by
    refine ⟨p, by simp, ?_⟩
    rcases List.mem_append.1 hq with hq | hq
    · obtain ⟨c, hc, hqc⟩ := h.within q hq
      exact hqc.trans (Tree.within_of_mem (tree_mem_children hc))
    · rw [List.mem_singleton.1 hq]
      exact .self
  later := by
    refine List.pairwise_append.2 ⟨h.later, List.pairwise_singleton _ _, ?_⟩
    intro q hq p' hp' hw
    obtain rfl := List.mem_singleton.1 hp'
    obtain ⟨c, hc, hqc⟩ := h.within q hq
    have h1 := (hw.trans hqc).size_le
    have h2 := Tree.size_child (tree_mem_children hc)
    omega

theorem Walked.cons {p : Place} {ps out out' : List Place} {a b : Nat}
    (ho : ∀ q ∈ p :: ps, q.tree.everyNode Tree.ordered = true)
    (hin : Tree.inOrder a b ((p :: ps).map Place.tree) = true)
    (h : Walked [p] out) (h' : Walked ps out') : Walked (p :: ps) (out ++ out') where
  run n stack := by
    have h1 := h.run (2 * Tree.sizeAll (ps.map Place.tree) + n) (ps.map (·, false) ++ stack)
    rw [h'.run n stack] at h1
    simp only [List.map_cons, List.map_nil, List.nil_append, Tree.sizeAll, List.cons_append,
      List.append_assoc, Nat.add_zero, Nat.mul_add] at h1 ⊢
    rw [← h1, Nat.add_assoc]
  within q hq := by
    rcases List.mem_append.1 hq with hq | hq
    · obtain ⟨p', hp', hqp⟩ := h.within q hq
      exact ⟨p', by simp [List.mem_singleton.1 hp'], hqp⟩
    · obtain ⟨p', hp', hqp⟩ := h'.within q hq
      exact ⟨p', by simp [hp'], hqp⟩
  later := by
    refine List.pairwise_append.2 ⟨h.later, h'.later, fun x hx y hy hw => ?_⟩
    obtain ⟨p', hp', hxp⟩ := h.within x hx
    obtain rfl := List.mem_singleton.1 hp'
    obtain ⟨q, hq, hyq⟩ := h'.within y hy
    have h1 := (hw.trans hxp).range (ho p' (by simp))
    have h2 := hyq.range (ho q (by simp [hq]))
    have h3 := (List.pairwise_cons.1 (Tree.inOrder_pairwise hin)).1 q.tree
      (List.mem_map_of_mem hq)
    simp only [Place.start, Place.stop]
    omega

theorem exists_walked (k : Nat) : ∀ ps : List Place, Tree.sizeAll (ps.map Place.tree) ≤ k →
    (∀ p ∈ ps, p.tree.everyNode Tree.ordered = true) →
    ∀ a b, Tree.inOrder a b (ps.map Place.tree) = true → ∃ out, Walked ps out := by
  induction k with
  | zero =>
    intro ps hk _ _ _ _
    cases ps with
    | nil => exact ⟨[], .nil⟩
    | cons p ps =>
      have := sizeAll_children p
      simp only [List.map_cons, Tree.sizeAll] at hk
      omega
  | succ k ih =>
    intro ps
    induction ps with
    | nil => exact fun _ _ _ _ _ => ⟨[], .nil⟩
    | cons p ps ihps =>
      intro hk ho a b hin
      have hsize := sizeAll_children p
      simp only [List.map_cons, Tree.sizeAll] at hk
      have hp := ho p (by simp)
      have hchildren := Tree.everyNode_iff.1 hp
      obtain ⟨out, hout⟩ := ih p.children (by omega)
        (fun c hc => hchildren.2 _ (tree_mem_children hc)) p.tree.start p.tree.stop
        (map_tree_children p ▸ hchildren.1)
      have hrest := hin
      simp only [List.map_cons, Tree.inOrder, Bool.and_eq_true] at hrest
      obtain ⟨out', hout'⟩ := ihps (by omega) (fun q hq => ho q (by simp [hq])) _ b hrest.2
      exact ⟨_, .cons ho hin (.single hout) hout'⟩

/-- A walk gives no node out after one that it is below, unless it is empty. -/
theorem all_later {p : Place} (ho : p.tree.everyNode Tree.ordered = true) :
    p.all.Pairwise Later := by
  have hle := Tree.start_le_stop ho
  obtain ⟨out, hout⟩ := exists_walked _ [p] le_rfl (by simpa using ho) p.tree.start p.tree.stop
    (by simp [Tree.inOrder, hle])
  have hrun := hout.run 0 []
  simp only [List.map_cons, List.map_nil, List.append_nil, Tree.sizeAll, Nat.add_zero, walk] at hrun
  rw [all, hrun]
  exact hout.later

/-- A walk gives no node out twice, unless it is empty. -/
theorem all_differ {p : Place} (ho : p.tree.everyNode Tree.ordered = true) :
    p.all.Pairwise Differ := by
  refine (all_later ho).imp fun {x y} hlater he => ?_
  have := hlater (he ▸ .self)
  simpa only [Place.start, Place.stop, he] using this

end Place
end OrmCodemod.Syntax
