import OrmCodemod.Proofs.PostOrder
import OrmCodemod.Syntax.Parse

/-! The order of a walk. A walk gives out the places at and below its start, each of them once. A place
comes before another one exactly if it is below it, or if it is at or below a sibling before that of the
other one, so that places apart from each other come in the order of the source. -/

namespace OrmCodemod.Syntax.Place

def Reaches (p q : Place) : Prop := Relation.ReflTransGen (fun p q => q ∈ p.children) p q

def Below (x y : Place) : Prop := Relation.TransGen (fun p q => q ∈ p.children) y x

/-- Of two siblings below `p`, or at it, `x` is at or below the first one and `y` at or below the
second one. -/
def Ahead (p x y : Place) : Prop :=
  ∃ q a b, p.Reaches q ∧ [a, b].Sublist q.children ∧ a.Reaches x ∧ b.Reaches y

/-- `x` is below `y`, or ahead of it. -/
def Precedes (p x y : Place) : Prop := x.Below y ∨ p.Ahead x y

variable {p q x y a b : Place} {names : List String}

theorem mem_all_iff : q ∈ p.all ↔ p.Reaches q := by
  induction p using child_induction with
  | h p ih =>
    rw [all_children, List.mem_append, List.mem_flatMap, List.mem_singleton, Reaches,
      Relation.ReflTransGen.cases_head_iff, or_comm, eq_comm]
    exact or_congr_right (exists_congr fun c => and_congr_right fun hc => ih c hc)

theorem mem_below_iff : x ∈ p.children.flatMap all ↔ x.Below p := by
  rw [Below, Relation.TransGen.head'_iff, List.mem_flatMap]
  exact exists_congr fun c => and_congr_right fun _ => mem_all_iff

theorem all_sublist (h : p.Reaches q) : q.all.Sublist p.all := (all_contained (mem_all_iff.2 h)).sublist

theorem Ahead.mono (h : p.Reaches q) (hxy : q.Ahead x y) : p.Ahead x y := by
  obtain ⟨r, a, b, hr, hab, hx, hy⟩ := hxy
  exact ⟨r, a, b, h.trans hr, hab, hx, hy⟩

/-- Of two places of a walk the first one is below the second one, or ahead of it. -/
theorem all_precedes (p : Place) : p.all.Pairwise p.Precedes := by
  induction p using child_induction with
  | h p ih =>
    rw [all_children]
    refine List.pairwise_append.2 ⟨List.pairwise_flatMap.2 ⟨fun c hc => ?_, ?_⟩,
      List.pairwise_singleton _ _, fun x hx y hy => ?_⟩
    · exact (ih c hc).imp fun h => h.imp_right (.mono (.single hc))
    · refine List.pairwise_iff_forall_sublist.2 fun {a b} hab x hx y hy => ?_
      exact .inr ⟨p, a, b, .refl, hab, mem_all_iff.1 hx, mem_all_iff.1 hy⟩
    · rw [List.mem_singleton.1 hy]
      exact .inl (mem_below_iff.1 hx)

theorem pair_sublist_all (hy : p.Reaches y) (h : p.Precedes x y) : [x, y].Sublist p.all := by
  rcases h with hbelow | ⟨q, a, b, hq, hab, hxa, hyb⟩
  · refine List.Sublist.trans ?_ (all_sublist hy)
    rw [all_children]
    exact (List.singleton_sublist.2 (mem_below_iff.2 hbelow)).append (List.Sublist.refl _)
  · refine List.Sublist.trans ?_ (all_sublist hq)
    have hpair : [x, y].Sublist ([a, b].flatMap all) := by
      rw [List.flatMap_cons, List.flatMap_singleton]
      exact (List.singleton_sublist.2 (mem_all_iff.2 hxa)).append
        (List.singleton_sublist.2 (mem_all_iff.2 hyb))
    rw [all_children]
    exact hpair.trans ((hab.flatMap all).trans (List.sublist_append_left _ _))

theorem Reaches.path_suffix (h : p.Reaches q) : p.path <:+ q.path :=
  Place.path_suffix (mem_all_iff.2 h)

theorem Reaches.within (h : p.Reaches q) : q.tree.Within p.tree := by
  induction h with
  | refl => exact .self
  | tail _ hq ih => exact (Tree.within_of_mem (tree_mem_children hq)).trans ih

theorem Below.within (h : x.Below y) : x.tree.Within y.tree :=
  Reaches.within (Relation.TransGen.to_reflTransGen h)

theorem Below.depth (h : x.Below y) : y.path.length < x.path.length := by
  obtain ⟨c, hc, hcx⟩ := Relation.TransGen.head'_iff.1 h
  obtain ⟨l, r, -, hpath⟩ := mem_children hc
  have := (Reaches.path_suffix hcx).length_le
  rw [hpath, List.length_cons] at this
  omega

theorem siblings_apart (hab : [a, b].Sublist q.children) (ha : a.Reaches x) : ¬b.Reaches x := by
  intro hb
  obtain ⟨mid, -, hbefore⟩ := List.pairwise_iff_forall_sublist.1 q.children_between hab
  obtain ⟨l, r, -, hpath⟩ := mem_children (hab.subset List.mem_cons_self)
  obtain ⟨l', r', -, hpath'⟩ := mem_children (hab.subset (List.mem_cons_of_mem _ List.mem_cons_self))
  -- both ways up are the end of one way and equally long, but the second sibling has more before it
  have hlength : a.path.length = b.path.length := by rw [hpath, hpath']; rfl
  have hsuffix := List.suffix_of_suffix_length_le ha.path_suffix hb.path_suffix hlength.le
  have hsame : a.path = b.path := hsuffix.eq_of_length hlength
  have hcount := congrArg List.length hbefore
  simp only [before, hsame, List.length_append, List.length_cons] at hcount
  omega

theorem Precedes.ne (h : p.Precedes x y) : x ≠ y := by
  rintro rfl
  rcases h with hbelow | ⟨q, a, b, -, hab, hxa, hxb⟩
  · exact (lt_irrefl _ hbelow.depth)
  · exact siblings_apart hab hxa hxb

theorem all_nodup (p : Place) : p.all.Nodup := (all_precedes p).imp Precedes.ne

/-- Where the children of every node stand in order inside it, a place that is ahead of another one
ends before the other one starts. -/
theorem Ahead.stop_le (hp : p.tree.everyNode Tree.ordered = true) (h : p.Ahead x y) :
    x.stop ≤ y.start := by
  obtain ⟨q, a, b, hq, hab, hx, hy⟩ := h
  have hordered := Tree.everyNode_within hp hq.within
  have ha := tree_mem_children (hab.subset List.mem_cons_self)
  have hb := tree_mem_children (hab.subset (List.mem_cons_of_mem _ List.mem_cons_self))
  have hnext : a.tree.stop ≤ b.tree.start :=
    List.pairwise_iff_forall_sublist.1 (Tree.inOrder_pairwise (Tree.everyNode_iff.1 hordered).1)
      (map_tree_children q ▸ hab.map Place.tree)
  have hxa := hx.within.range ((Tree.everyNode_iff.1 hordered).2 _ ha)
  have hyb := hy.within.range ((Tree.everyNode_iff.1 hordered).2 _ hb)
  simp only [start, stop]
  omega

theorem mem_findByKind : q ∈ p.findByKind names ↔ p.Reaches q ∧ q.tree.kind.name ∈ names := by
  rw [findByKind, List.mem_filter, mem_all_iff, List.contains_iff_mem]

theorem pair_sublist_findByKind (hx : x ∈ p.findByKind names) (hy : y ∈ p.findByKind names) :
    [x, y].Sublist (p.findByKind names) ↔ p.Precedes x y := by
  constructor
  · intro h
    exact List.pairwise_iff_forall_sublist.1 (all_precedes p) (h.trans List.filter_sublist)
  · intro h
    have hpair := (pair_sublist_all (mem_findByKind.1 hy).1 h).filter
      fun q => names.contains q.tree.kind.name
    rwa [List.filter_eq_self.2] at hpair
    intro q hq
    rcases List.mem_pair.1 hq with rfl | rfl
    · exact (List.mem_filter.1 hx).2
    · exact (List.mem_filter.1 hy).2

/-- A walk ends after two steps for every node, and at any time what it has given out and what its stack
is still to give out are the recursive post-order. So the places of some kinds, tokens included, come out
each once and in this order: after those of them that are below them, and, if apart, as their branches
stand in the source. -/
theorem findByKind_in_post_order (p : Place) (names : List String) :
    (∀ n, stackAfter n [(p, false)] = [] ↔ 2 * p.tree.size ≤ n) ∧
    (∀ n, walk n [(p, false)] ++ pending (stackAfter n [(p, false)]) = postOrder p.path p.tree) ∧
    (p.findByKind names =
      (postOrder p.path p.tree).filter fun q => names.contains q.tree.kind.name) ∧
    (∀ q, q ∈ p.findByKind names ↔ p.Reaches q ∧ q.tree.kind.name ∈ names) ∧
    (p.findByKind names).Nodup ∧
    ∀ x ∈ p.findByKind names, ∀ y ∈ p.findByKind names,
      ([x, y].Sublist (p.findByKind names) ↔ x.Below y ∨ p.Ahead x y) ∧
      (p.tree.everyNode Tree.ordered = true → p.Ahead x y → x.stop ≤ y.start) := by
  have hpending : pending [(p, false)] = postOrder p.path p.tree := by
    rw [pending, pending, List.append_nil]
  refine ⟨fun n => stackAfter_eq_nil, fun n => ?_, ?_, fun q => mem_findByKind,
    (all_nodup p).filter _, fun x hx y hy => ⟨pair_sublist_findByKind hx hy, Ahead.stop_le⟩⟩
  · rw [walk_append_pending, hpending]
  · rw [findByKind, all_eq]

def callsSample : Place := ⟨(parse .typescript "f(g(), h());").root, []⟩

theorem callsSample_calls :
    ((callsSample.findByKind ["call_expression"]).map fun q => (q.start, q.stop)) =
      [(2, 5), (7, 10), (0, 11)] ∧ callsSample.tree.everyNode Tree.ordered = true := by
  decide +kernel

theorem findByKind_in_post_order_sample : ∃ x y z,
    callsSample.findByKind ["call_expression"] = [x, y, z] ∧
      callsSample.Ahead x y ∧ x.stop ≤ y.start ∧ y.Below z := by
  obtain ⟨hranges, hordered⟩ := callsSample_calls
  obtain ⟨-, -, -, hmem, -, h⟩ := findByKind_in_post_order callsSample ["call_expression"]
  obtain ⟨x, y, z, hcalls⟩ : ∃ x y z, callsSample.findByKind ["call_expression"] = [x, y, z] :=
    List.length_eq_three.1 (by simpa using congrArg List.length hranges)
  rw [hcalls] at h hmem hranges
  simp only [List.map_cons, List.map_nil, List.cons.injEq, Prod.mk.injEq] at hranges
  obtain ⟨hxy, hapart⟩ := h x (by simp) y (by simp)
  obtain ⟨hyz, hapart'⟩ := h y (by simp) z (by simp)
  -- the ranges tell which of the two ways to come first it is
  have hbeside : ¬x.Below y := fun hbelow => by
    have hy := Tree.everyNode_within hordered ((hmem y).1 (by simp)).1.within
    have := hbelow.within.range hy
    simp only [start] at hranges
    omega
  have hinside : ¬callsSample.Ahead y z := fun hahead => by
    have := hapart' hordered hahead
    omega
  have hahead := (hxy.1 (by simp)).resolve_left hbeside
  exact ⟨x, y, z, hcalls, hahead, hapart hordered hahead, (hyz.1 (by simp)).resolve_right hinside⟩

end OrmCodemod.Syntax.Place
