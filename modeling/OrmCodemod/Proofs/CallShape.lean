import OrmCodemod.Proofs.Compose
import OrmCodemod.Proofs.Walk

/-! Where the parts of calls stand. A call is more than any of its children, so that its range tells
it from every other call; and between a call and the nodes whose texts it is composed from stand no
other calls. -/

namespace OrmCodemod

open Syntax Text

namespace Syntax.Tree

/-- Two children, none of them empty, stand one after the other. -/
def Splits (t : Tree) : Prop :=
  ∃ a ∈ t.children, ∃ b ∈ t.children, a.start < a.stop ∧ a.stop ≤ b.start ∧ b.start < b.stop

variable {r s t c : Tree}

theorem Splits.nonempty (h : t.Splits) (ho : t.everyNode ordered = true) : t.start < t.stop := by
  obtain ⟨a, ha, b, hb, h1, h2, h3⟩ := h
  have := child_range ho ha
  have := child_range ho hb
  omega

theorem Splits.child_smaller (h : t.Splits) (ho : t.everyNode ordered = true)
    (hc : c ∈ t.children) : ¬(c.start ≤ t.start ∧ t.stop ≤ c.stop) := by
  obtain ⟨a, ha, b, hb, h1, h2, h3⟩ := h
  intro hcov
  have h4 := child_range ho ha
  have h5 := child_range ho hb
  have hin := (everyNode_iff.1 ho).1
  rcases inOrder_apart hin hc ha with rfl | h6 | h6 <;>
    rcases inOrder_apart hin hc hb with rfl | h7 | h7 <;> omega

theorem Splits.below_smaller (h : t.Splits) (ho : t.everyNode ordered = true) (hs : s.Within t)
    (hne : s ≠ t) : ¬(s.start ≤ t.start ∧ t.stop ≤ s.stop) := by
  cases hs with
  | self => exact absurd rfl hne
  | @child c _ hc hsc =>
    have h1 := h.child_smaller ho hc
    have h2 := hsc.range ((everyNode_iff.1 ho).2 c hc)
    omega

theorem Splits.eq_of_range (hr : r.everyNode ordered = true) (hs : s.Within r) (ht : t.Within r)
    (h : s.Splits) (h' : t.Splits) (hstart : s.start = t.start) (hstop : s.stop = t.stop) :
    s = t := by
  have hne := h.nonempty (everyNode_within hr hs)
  rcases within_or_apart hr hs ht with h1 | h1 | h1 | h1
  · by_contra hne
    exact h'.below_smaller (everyNode_within hr ht) h1 hne ⟨hstart.le, hstop.ge⟩
  · by_contra hne
    exact h.below_smaller (everyNode_within hr hs) h1 (Ne.symm hne) ⟨hstart.ge, hstop.le⟩
  · omega
  · omega

/-- The kinds of nodes on the way from a call to the nodes it is composed from. -/
def linkKinds : List NodeKind := [.memberExpression, .arguments, .object, .pair]

/-- The way from a node down to another goes through such nodes. -/
inductive Chain (t : Tree) : Tree → Prop where
  | child {c : Tree} (hc : c ∈ t.children) (hk : c.isAny linkKinds = true) : Chain t c
  | step {c m : Tree} (h : Chain t c) (hk : c.isAny linkKinds = true) (hm : m ∈ c.children) :
      Chain t m

variable {m y : Tree}

theorem Chain.within (h : Chain t m) : m.Within t ∧ m.size < t.size := by
  induction h with
  | child hc _ => exact ⟨within_of_mem hc, size_child hc⟩
  | step _ _ hm ih => exact ⟨(within_of_mem hm).trans ih.1, (size_child hm).trans ih.2⟩

theorem Chain.above (hr : r.everyNode ordered = true) (ht : t.Within r) (h : Chain t m)
    (hne : m.start < m.stop) (hy : y.Within r) (hmy : m.Within y) :
    y = m ∨ t.Within y ∨ (y.isAny linkKinds = true ∧ Chain t y) := by
  induction h with
  | child hc _ =>
    rcases within_parent hr ht hc hne hy hmy with h1 | h1
    · exact .inl h1
    · exact .inr (.inl h1)
  | @step c m h hk hm ih =>
    have hc := h.within.1.trans ht
    rcases within_parent hr hc hm hne hy hmy with h1 | h1
    · exact .inl h1
    · have hrange := child_range (everyNode_within hr hc) hm
      rcases ih (by omega) h1 with rfl | h2 | h2
      · exact .inr (.inr ⟨hk, h⟩)
      · exact .inr (.inl h2)
      · exact .inr (.inr h2)

theorem nonempty_of_text {source : Bytes} (h : t.text source ≠ "") : t.start < t.stop := by
  by_contra hle
  have hnil : slice source t.start t.stop = [] := by
    rw [slice, Nat.sub_eq_zero_of_le (by omega), List.take_zero]
  rw [text, bytes, hnil] at h
  exact h (by decide)

theorem not_isAny_of_is {k : NodeKind} {ks : List NodeKind} (h : t.is k = true) (hk : k ∉ ks) :
    t.isAny ks = false := by
  rw [is_iff] at h
  rw [isAny, List.any_eq_false]
  intro k' hk' hcon
  rw [is_iff, h, Kind.named.injEq] at hcon
  exact hk (hcon ▸ hk')

end Syntax.Tree

namespace Calls

/-- A call on a member that has a row and an owner. -/
structure Convertible (u : SourceUnit) (x : Place.RepositoryCall) : Prop where
  rooted : x.call.Rooted u.root
  whole : x.call.repositoryCall? = some x
  row : ∃ rule, Rules.rule? (x.method.text u.source) = some rule
  owned : ∃ owner, x.receiver.child? .object = some owner

variable {u : SourceUnit} {x d : Place.RepositoryCall}

theorem Convertible.parts (h : Convertible u x) : x.Parts := (Place.repositoryCall?_parts h.whole).2

theorem nonempty_of_rule {t : Tree} {source : Bytes} {rule : Rules.Rule}
    (h : Rules.rule? (t.text source) = some rule) : t.start < t.stop := by
  refine Tree.nonempty_of_text (t := t) fun (he : t.text source = "") => ?_
  have hnone : Rules.rule? "" = none := by decide
  rw [he, hnone] at h
  cases h

theorem splits_of_parts (hu : u.Closed) (hp : x.Parts) (hw : x.call.tree.Within u.root)
    {rule : Rules.Rule} (hr : Rules.rule? (x.method.text u.source) = some rule) :
    x.callee.start < x.callee.stop ∧ x.callee.stop ≤ x.arguments.start ∧
      x.arguments.start < x.arguments.stop ∧ x.arguments.stop = x.call.stop := by
  have hcallee := Tree.child?_mem hp.callee
  have hargs := Tree.child?_mem hp.arguments
  have ho := Tree.everyNode_within hu.ordered hw
  have hmethod := Tree.child_range ((Tree.everyNode_iff.1 ho).2 _ hcallee) (Tree.child?_mem hp.method)
  have hlt := nonempty_of_rule hr
  have hrange := Tree.child_range ho hcallee
  have hclosed := Tree.test_within hu.calls hw
  rw [Tree.closedCall, hp.isCall, hp.arguments] at hclosed
  simp only [Bool.not_true, Bool.false_or, Option.all_some, hp.argumentsKind, Bool.and_eq_true,
    decide_eq_true_eq, beq_iff_eq] at hclosed
  have hkinds : x.callee ≠ x.arguments := by
    intro he
    have h1 := hp.calleeKind
    have h2 := hp.argumentsKind
    rw [he, Tree.is_iff] at h1
    rw [Tree.is_iff, h1] at h2
    cases h2
  simp only [Place.stop]
  rcases Tree.inOrder_apart (Tree.everyNode_iff.1 ho).1 hcallee hargs with h1 | h1 | h1
  · exact absurd h1 hkinds
  · exact ⟨by omega, h1, hclosed.1, hclosed.2⟩
  · omega

theorem Convertible.order (hu : u.Closed) (h : Convertible u x) :
    x.callee.start < x.callee.stop ∧ x.callee.stop ≤ x.arguments.start ∧
      x.arguments.start < x.arguments.stop ∧ x.arguments.stop = x.call.stop := by
  obtain ⟨rule, hr⟩ := h.row
  exact splits_of_parts hu h.parts h.rooted.within hr

theorem Convertible.splits (hu : u.Closed) (h : Convertible u x) : x.call.tree.Splits := by
  have ho := h.order hu
  exact ⟨x.callee, Tree.child?_mem h.parts.callee, x.arguments, Tree.child?_mem h.parts.arguments,
    ho.1, ho.2.1, ho.2.2.1⟩

def reshapes (u : SourceUnit) (x : Place.RepositoryCall) : Bool :=
  match Rules.rule? (x.method.text u.source) with
  | some rule => (rule.reshape x.call.tree.callArguments (fun _ => "")
      fun m => m.memberKey u.source).isSome
  | none => false

def replacedParts (u : SourceUnit) (x : Place.RepositoryCall) : List Tree :=
  x.callee :: if reshapes u x then [x.arguments] else []

theorem mem_replacedParts {n : Tree} : n ∈ replacedParts u x ↔
    n = x.callee ∨ (reshapes u x = true ∧ n = x.arguments) := by
  unfold replacedParts
  split <;> simp_all

theorem Convertible.part (hu : u.Closed) (h : Convertible u x) {n : Tree} (hn : n ∈ replacedParts u x) :
    n ∈ x.call.tree.children ∧ n.start < n.stop ∧ n.Within u.root ∧ Tree.Chain x.call.tree n := by
  have ho := h.order hu
  have hp := h.parts
  rcases mem_replacedParts.1 hn with rfl | ⟨-, rfl⟩
  · have hmem := Tree.child?_mem hp.callee
    refine ⟨hmem, ho.1, (Tree.within_of_mem hmem).trans h.rooted.within, .child hmem ?_⟩
    simp [Tree.isAny, Tree.linkKinds, hp.calleeKind]
  · have hmem := Tree.child?_mem hp.arguments
    refine ⟨hmem, ho.2.2.1, (Tree.within_of_mem hmem).trans h.rooted.within, .child hmem ?_⟩
    simp [Tree.isAny, Tree.linkKinds, hp.argumentsKind]

theorem Convertible.eq_of_range (hu : u.Closed) (hx : Convertible u x) (hd : Convertible u d)
    (hstart : x.call.start = d.call.start) (hstop : x.call.stop = d.call.stop) : x = d := by
  have htree := Tree.Splits.eq_of_range hu.ordered hx.rooted.within hd.rooted.within (hx.splits hu)
    (hd.splits hu) hstart hstop
  have hne := (hx.splits hu).nonempty (Tree.everyNode_within hu.ordered hx.rooted.within)
  have hplace := hx.rooted.unique hu.ordered hd.rooted htree hne
  have hwhole := hx.whole
  rw [hplace, hd.whole] at hwhole
  exact (Option.some.inj hwhole).symm

theorem Convertible.owner_chain (h : Convertible u x) {owner : Tree}
    (ho : x.receiver.child? .object = some owner) : Tree.Chain x.call.tree owner := by
  have hp := h.parts
  have hlink : ∀ {t : Tree}, t.is .memberExpression = true → t.isAny Tree.linkKinds = true := by
    intro t ht
    simp [Tree.isAny, Tree.linkKinds, ht]
  exact .step (.step (.child (Tree.child?_mem hp.callee) (hlink hp.calleeKind)) (hlink hp.calleeKind)
    (Tree.child?_mem hp.receiver)) (hlink hp.receiverKind) (Tree.child?_mem ho)

theorem Convertible.rendered_chain (h : Convertible u x) {m : Tree}
    (hm : Rules.Rendered x.arguments.significant m) : Tree.Chain x.call.tree m := by
  have hp := h.parts
  have hargs : x.arguments.isAny Tree.linkKinds = true := by
    simp [Tree.isAny, Tree.linkKinds, hp.argumentsKind]
  have hobject : ∀ {t : Tree}, t.is .object = true → t.isAny Tree.linkKinds = true := by
    intro t ht
    simp [Tree.isAny, Tree.linkKinds, ht]
  have hpair : ∀ {t : Tree}, t.is .pair = true → t.isAny Tree.linkKinds = true := by
    intro t ht
    simp [Tree.isAny, Tree.linkKinds, ht]
  have hfirst : ∀ {a : Tree}, a ∈ x.arguments.significant → Tree.Chain x.call.tree a := fun ha =>
    .step (.child (Tree.child?_mem hp.arguments) hargs) hargs (Tree.significant_mem ha)
  cases hm with
  | argument ha => exact hfirst ha
  | member ha ho hm => exact .step (hfirst ha) (hobject ho) (Tree.significant_mem hm)
  | value ha ho hm hp hv =>
    exact .step (.step (hfirst ha) (hobject ho) (Tree.significant_mem hm)) (hpair hp)
      (Tree.child?_mem hv)

def Outside (x d : Place.RepositoryCall) : Prop :=
  ¬(d.call.start ≤ x.call.start ∧ x.call.stop ≤ d.call.stop)

/-- What a call is composed from lies in no part of a call that the call is not in. -/
theorem chain_outside (hu : u.Closed) (hx : Convertible u x) (hd : Convertible u d)
    (hout : Outside x d) {m n : Tree} (hm : Tree.Chain x.call.tree m) (hne : m.start < m.stop)
    (hn : n ∈ replacedParts u d) : ¬m.Within n := by
  intro hmn
  obtain ⟨hnd, -, -, -⟩ := hd.part hu hn
  have hdw := hd.rooted.within
  rcases hm.above hu.ordered hx.rooted.within hne hdw (hmn.trans (Tree.within_of_mem hnd)) with
    h | h | ⟨h, -⟩
  · have h1 := hmn.size_le
    have h2 := Tree.size_child hnd
    rw [h] at h2
    omega
  · have h1 := h.range (Tree.everyNode_within hu.ordered hdw)
    exact hout ⟨h1.1, h1.2.2⟩
  · rw [Tree.not_isAny_of_is hd.parts.isCall (by decide)] at h
    cases h

/-- A part of a call that holds the range of a node holds the node, or is all of it. -/
theorem within_part (hu : u.Closed) (hd : Convertible u d) {t n : Tree} (hn : n ∈ replacedParts u d)
    (ht : t.Within u.root) (hne : t.start < t.stop) (h1 : n.start ≤ t.start) (h2 : t.stop ≤ n.stop) :
    t.Within n := by
  obtain ⟨hnd, hlt, hnr, -⟩ := hd.part hu hn
  have hdw := hd.rooted.within
  rcases Tree.within_or_apart hu.ordered hnr ht with h | h | h | h
  · rcases Tree.within_parent hu.ordered hdw hnd hlt ht h with rfl | h'
    · exact .self
    · have h3 := h'.range (Tree.everyNode_within hu.ordered ht)
      have h4 := (hd.splits hu).child_smaller (Tree.everyNode_within hu.ordered hdw) hnd
      omega
  · exact h
  · omega
  · omega

end Calls

end OrmCodemod
