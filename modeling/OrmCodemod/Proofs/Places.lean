import OrmCodemod.Proofs.Nesting
import OrmCodemod.Syntax.Query

/-! The places of a tree: those that can be reached from its root child by child. A walk gives out
no other ones, and climbing from one to its statement or up to its parent does not leave them. -/

namespace OrmCodemod.Syntax.Place

/-- Reached from the root of `r`. -/
inductive Rooted (r : Tree) : Place → Prop where
  | root : Rooted r ⟨r, []⟩
  | child {p q : Place} (h : Rooted r p) (hq : q ∈ p.children) : Rooted r q

theorem mem_childrenFrom {parent q : Place} {before after : List Tree}
    (h : q ∈ childrenFrom parent before after) :
    ∃ l r, after = l ++ q.tree :: r ∧
      q.path = ⟨parent.tree, l.reverse ++ before, r⟩ :: parent.path := by
  induction after generalizing before with
  | nil => simp [childrenFrom] at h
  | cons t after ih =>
    rcases List.mem_cons.1 h with rfl | h
    · exact ⟨[], after, rfl, rfl⟩
    · obtain ⟨l, r, rfl, hp⟩ := ih h
      exact ⟨t :: l, r, rfl, by simp [hp]⟩

theorem mem_children {p q : Place} (h : q ∈ p.children) :
    ∃ l r, p.tree.children = l ++ q.tree :: r ∧ q.path = ⟨p.tree, l.reverse, r⟩ :: p.path := by
  obtain ⟨l, r, hl, hp⟩ := mem_childrenFrom h
  exact ⟨l, r, hl, by simp [hp]⟩

/-- `mid` stands between two siblings. -/
def Between (p q : Place) (mid : List Tree) : Prop :=
  p.after = mid ++ q.tree :: q.after ∧ q.before = mid.reverse ++ p.tree :: p.before

theorem childrenFrom_between (parent : Place) (before after : List Tree) :
    (childrenFrom parent before after).Pairwise fun p q => ∃ mid, p.Between q mid := by
  induction after generalizing before with
  | nil => exact List.Pairwise.nil
  | cons t after ih =>
    refine List.pairwise_cons.2 ⟨fun q hq => ?_, ih (t :: before)⟩
    obtain ⟨mid, r, hafter, hpath⟩ := mem_childrenFrom hq
    exact ⟨mid, by simp [Place.after, hpath, hafter], by simp [Place.before, hpath]⟩

theorem children_between (p : Place) : p.children.Pairwise fun q q' => ∃ mid, q.Between q' mid :=
  childrenFrom_between p [] p.tree.children

theorem map_tree_childrenFrom (parent : Place) (before after : List Tree) :
    (childrenFrom parent before after).map Place.tree = after := by
  induction after generalizing before with
  | nil => rfl
  | cons t after ih => simp [childrenFrom, ih]

theorem map_tree_children (p : Place) : p.children.map Place.tree = p.tree.children :=
  map_tree_childrenFrom p [] p.tree.children

theorem tree_mem_children {p q : Place} (h : q ∈ p.children) : q.tree ∈ p.tree.children := by
  obtain ⟨l, r, hl, -⟩ := mem_children h
  simp [hl]

theorem Rooted.within {r : Tree} {p : Place} (h : Rooted r p) : Tree.Within p.tree r := by
  induction h with
  | root => exact .self
  | child _ hq ih => exact (Tree.within_of_mem (tree_mem_children hq)).trans ih

theorem Rooted.siblings {r t : Tree} {c : Crumb} {path : List Crumb}
    (h : Rooted r ⟨t, c :: path⟩) :
    Rooted r ⟨c.parent, path⟩ ∧ c.parent.children = c.before.reverse ++ t :: c.after := by
  cases h with
  | @child p q hp hq =>
    obtain ⟨l, s, hl, hpath⟩ := mem_children hq
    simp only [List.cons.injEq] at hpath
    obtain ⟨rfl, rfl⟩ := hpath
    exact ⟨hp, by simp [hl]⟩

theorem climb_rooted {r : Tree} : ∀ (path : List Crumb) (t : Tree), Rooted r ⟨t, path⟩ →
    Rooted r (climb t path) ∧ Tree.Within t (climb t path).tree := by
  intro path
  induction path with
  | nil => intro t h; exact ⟨h, .self⟩
  | cons c path ih =>
    intro t h
    unfold climb
    split
    · exact ⟨h, .self⟩
    · obtain ⟨hp, hc⟩ := h.siblings
      obtain ⟨h1, h2⟩ := ih _ hp
      exact ⟨h1, (Tree.within_of_mem (by simp [hc])).trans h2⟩

theorem Rooted.statement {r : Tree} {p : Place} (h : Rooted r p) :
    Rooted r p.statement ∧ Tree.Within p.tree p.statement.tree :=
  climb_rooted p.path p.tree h

theorem walk_rooted {r : Tree} : ∀ n stack, (∀ x ∈ stack, Rooted r x.1) →
    ∀ p ∈ walk n stack, Rooted r p := by
  intro n
  induction n with
  | zero => intro stack _ p hp; simp [walk] at hp
  | succ n ih =>
    intro stack hs p hp
    match stack with
    | [] => simp only [walk, walkStep] at hp; exact ih [] (by simp) p hp
    | (q, true) :: stack =>
      rcases List.mem_cons.1 hp with rfl | hp
      · exact hs (p, true) (by simp)
      · exact ih stack (fun x hx => hs x (by simp [hx])) p hp
    | (q, false) :: stack =>
      refine ih _ ?_ p hp
      intro x hx
      have hq : Rooted r q := hs (q, false) (by simp)
      rcases List.mem_append.1 hx with hx | hx
      · obtain ⟨c, hc, rfl⟩ := List.mem_map.1 hx
        exact hq.child hc
      · rcases List.mem_cons.1 hx with rfl | hx
        · exact hq
        · exact hs x (by simp [hx])

theorem all_rooted {r : Tree} {p q : Place} (hp : Rooted r p) (hq : q ∈ p.all) : Rooted r q :=
  walk_rooted _ _ (by simpa using hp) q hq

theorem find_rooted {r : Tree} {p q : Place} {kinds : List NodeKind} (hp : Rooted r p)
    (hq : q ∈ p.find kinds) : Rooted r q :=
  all_rooted hp (List.mem_of_mem_filter hq)

/-- How the parts of a call on a member hang together. -/
structure RepositoryCall.Parts (s : RepositoryCall) : Prop where
  isCall : s.call.tree.is .callExpression = true
  callee : s.call.tree.child? .callee = some s.callee
  arguments : s.call.tree.child? .arguments = some s.arguments
  receiver : s.callee.child? .object = some s.receiver
  method : s.callee.child? .property = some s.method
  calleeKind : s.callee.is .memberExpression = true
  receiverKind : s.receiver.is .memberExpression = true
  argumentsKind : s.arguments.is .arguments = true

theorem repositoryCall?_parts {p : Place} {s : RepositoryCall} (h : p.repositoryCall? = some s) :
    s.call = p ∧ s.Parts := by
  unfold repositoryCall? at h
  cases hk : p.tree.is .callExpression with
  | false => simp [hk] at h
  | true =>
    simp only [hk, Bool.not_true, Bool.false_eq_true, if_false, Option.bind_eq_bind,
      Option.bind_eq_some_iff, Option.ite_none_right_eq_some, Bool.and_eq_true,
      Option.some.injEq] at h
    obtain ⟨callee, h1, args, h2, method, h3, receiver, h4, member, -, ⟨⟨⟨⟨h5, h6⟩, h7⟩, -⟩, -⟩, rfl⟩ := h
    exact ⟨rfl, hk, h1, h2, h4, h3, h5, h6, h7⟩

theorem repositoryCall?_path {p : Place} {s : RepositoryCall} (h : p.repositoryCall? = some s)
    (path : List Crumb) :
    (⟨p.tree, path⟩ : Place).repositoryCall? = some { s with call := ⟨p.tree, path⟩ } := by
  unfold repositoryCall? at h ⊢
  cases hk : p.tree.is .callExpression with
  | false => simp [hk] at h
  | true =>
    simp only [hk, Bool.not_true, Bool.false_eq_true, if_false, Option.bind_eq_bind,
      Option.bind_eq_some_iff, Option.ite_none_right_eq_some, Option.some.injEq] at h ⊢
    obtain ⟨callee, h1, args, h2, method, h3, receiver, h4, member, h5, h6, rfl⟩ := h
    exact ⟨callee, h1, args, h2, method, h3, receiver, h4, member, h5, h6, rfl⟩

theorem mem_repositoryCalls {r : Tree} {p : Place} {s : RepositoryCall} (hp : Rooted r p)
    (h : s ∈ p.repositoryCalls) : Rooted r s.call ∧ s.Parts := by
  obtain ⟨q, hq, hs⟩ := List.mem_filterMap.1 h
  obtain ⟨rfl, hparts⟩ := repositoryCall?_parts hs
  exact ⟨all_rooted hp hq, hparts⟩

theorem registration?_call {p : Place} {s : Registration} (h : p.registration? = some s) :
    s.call = p ∧ p.tree.is .callExpression = true ∧ p.tree.children ≠ [] := by
  unfold registration? at h
  cases hk : p.tree.is .callExpression with
  | false => simp [hk] at h
  | true =>
    simp only [hk, Bool.not_true, Bool.false_eq_true, if_false, Option.bind_eq_bind,
      Option.bind_eq_some_iff, Option.ite_none_right_eq_some, Bool.and_eq_true,
      Option.some.injEq] at h
    obtain ⟨callee, hc, args, -, method, -, registrar, -, -, rfl⟩ := h
    exact ⟨rfl, rfl, List.ne_nil_of_mem (Tree.child?_mem hc)⟩

theorem mem_registrations {r : Tree} {p : Place} {s : Registration} (hp : Rooted r p)
    (h : s ∈ p.registrations) :
    Rooted r s.call ∧ s.call.tree.is .callExpression = true ∧ s.call.tree.children ≠ [] := by
  obtain ⟨q, hq, hs⟩ := List.mem_filterMap.1 h
  obtain ⟨rfl, hk⟩ := registration?_call hs
  exact ⟨all_rooted hp hq, hk⟩

end OrmCodemod.Syntax.Place
