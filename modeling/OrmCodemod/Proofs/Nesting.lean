import Mathlib.Tactic
import OrmCodemod.Syntax.Place

/-! Nodes of one tree. Where the children of every node stand in order inside it, the ranges of two
nodes either lie one in the other, as the nodes do, or do not overlap. -/

namespace OrmCodemod.Syntax.Tree

/-- `s` is `t` or a node below it. -/
inductive Within (s : Tree) : Tree → Prop where
  | self : Within s s
  | child {c t : Tree} (hc : c ∈ t.children) (h : Within s c) : Within s t

theorem Within.trans {s t r : Tree} (h : Within s t) (h' : Within t r) : Within s r := by
  induction h' with
  | self => exact h
  | child hc _ ih => exact .child hc ih

theorem within_of_mem {c t : Tree} (h : c ∈ t.children) : Within c t := .child h .self

mutual

def everyNode (test : Tree → Bool) : Tree → Bool
  | node k r a b cs => test (node k r a b cs) && everyNodeIn test cs

def everyNodeIn (test : Tree → Bool) : List Tree → Bool
  | [] => true
  | t :: ts => everyNode test t && everyNodeIn test ts

end

theorem everyNodeIn_iff {test : Tree → Bool} {ts : List Tree} :
    everyNodeIn test ts = true ↔ ∀ t ∈ ts, t.everyNode test = true := by
  induction ts with
  | nil => simp [everyNodeIn]
  | cons t ts ih => simp [everyNodeIn, ih]

theorem everyNode_iff {test : Tree → Bool} {t : Tree} :
    t.everyNode test = true ↔ test t = true ∧ ∀ c ∈ t.children, c.everyNode test = true := by
  cases t
  simp [everyNode, everyNodeIn_iff, children]

mutual

theorem everyNode_mono {p q : Tree → Bool} (h : ∀ t, p t = true → q t = true) :
    ∀ t : Tree, t.everyNode p = true → t.everyNode q = true
  | node k r a b cs, ht => by
    rw [everyNode, Bool.and_eq_true] at ht ⊢
    exact ⟨h _ ht.1, everyNodeIn_mono h cs ht.2⟩

theorem everyNodeIn_mono {p q : Tree → Bool} (h : ∀ t, p t = true → q t = true) :
    ∀ ts : List Tree, everyNodeIn p ts = true → everyNodeIn q ts = true
  | [], _ => rfl
  | t :: ts, ht => by
    rw [everyNodeIn, Bool.and_eq_true] at ht ⊢
    exact ⟨everyNode_mono h t ht.1, everyNodeIn_mono h ts ht.2⟩

end

theorem everyNode_within {test : Tree → Bool} {s t : Tree} (ht : t.everyNode test = true)
    (h : Within s t) : s.everyNode test = true := by
  induction h with
  | self => exact ht
  | child hc _ ih => exact ih ((everyNode_iff.1 ht).2 _ hc)

theorem test_within {test : Tree → Bool} {s t : Tree} (ht : t.everyNode test = true)
    (h : Within s t) : test s = true :=
  (everyNode_iff.1 (everyNode_within ht h)).1

def inOrder (a b : Nat) : List Tree → Bool
  | [] => a ≤ b
  | t :: ts => a ≤ t.start && t.start ≤ t.stop && inOrder t.stop b ts

def ordered (t : Tree) : Bool := inOrder t.start t.stop t.children

theorem inOrder_le {a b : Nat} {ts : List Tree} (h : inOrder a b ts = true) : a ≤ b := by
  induction ts generalizing a with
  | nil => simpa [inOrder] using h
  | cons t ts ih =>
    simp only [inOrder, Bool.and_eq_true, decide_eq_true_eq] at h
    have := ih h.2
    omega

theorem inOrder_mem {a b : Nat} {ts : List Tree} (h : inOrder a b ts = true) {t : Tree}
    (ht : t ∈ ts) : a ≤ t.start ∧ t.start ≤ t.stop ∧ t.stop ≤ b := by
  induction ts generalizing a with
  | nil => simp at ht
  | cons c ts ih =>
    simp only [inOrder, Bool.and_eq_true, decide_eq_true_eq] at h
    have hb := inOrder_le h.2
    rcases List.mem_cons.1 ht with rfl | ht
    · omega
    · have := ih h.2 ht
      omega

/-- What can be put together reaches from one end of nodes in order to the other: between the nodes, and
from the start of each to its end. -/
theorem inOrder_chain {R : Nat → Nat → Prop} {a b : Nat} {cs : List Tree}
    (h : inOrder a b cs = true) (hself : ∀ p, R p p)
    (htrans : ∀ p q r, p ≤ q → q ≤ r → R p q → R q r → R p r)
    (hgap : ∀ p q, a ≤ p → p ≤ q → q ≤ b → (p = a ∨ ∃ c ∈ cs, c.stop = p) →
      (q = b ∨ ∃ c ∈ cs, c.start = q) → (∀ c ∈ cs, c.stop ≤ p ∨ q ≤ c.start) → R p q)
    (hnode : ∀ c ∈ cs, c.start < c.stop → R c.start c.stop) : R a b := by
  induction cs generalizing a with
  | nil =>
    rw [inOrder, decide_eq_true_eq] at h
    exact hgap a b le_rfl h le_rfl (.inl rfl) (.inl rfl) (by simp)
  | cons c cs ih =>
    have hc := inOrder_mem h (t := c) (by simp)
    simp only [inOrder, Bool.and_eq_true, decide_eq_true_eq] at h
    obtain ⟨⟨h1, h2⟩, h3⟩ := h
    have hafter : ∀ d ∈ cs, c.stop ≤ d.start := fun d hd => (inOrder_mem h3 hd).1
    have hbefore : R a c.start := by
      refine hgap a c.start le_rfl h1 (by omega) (.inl rfl) (.inr ⟨c, by simp, rfl⟩) fun d hd => ?_
      rcases List.mem_cons.1 hd with rfl | hd
      · exact .inr le_rfl
      · exact .inr (h2.trans (hafter d hd))
    have hself' : R c.start c.stop := by
      rcases Nat.eq_or_lt_of_le h2 with he | hlt
      · exact he ▸ hself _
      · exact hnode c (by simp) hlt
    have hrest : R c.stop b := by
      refine ih h3 (fun p q hp hpq hq hpe hqe hfree => ?_) fun d hd => hnode d (by simp [hd])
      refine hgap p q (by omega) hpq hq (.inr ?_) (hqe.imp_right fun ⟨d, hd, he⟩ =>
        ⟨d, by simp [hd], he⟩) fun d hd => ?_
      · rcases hpe with rfl | ⟨d, hd, he⟩
        · exact ⟨c, by simp, rfl⟩
        · exact ⟨d, by simp [hd], he⟩
      · rcases List.mem_cons.1 hd with rfl | hd
        · exact .inl hp
        · exact hfree d hd
    exact htrans a c.stop b (by omega) hc.2.2 (htrans a c.start c.stop h1 h2 hbefore hself') hrest

theorem inOrder_append {a b : Nat} {l r : List Tree} (h : inOrder a b (l ++ r) = true) :
    ∃ m, inOrder a m l = true ∧ inOrder m b r = true := by
  induction l generalizing a with
  | nil => exact ⟨a, by simp [inOrder], h⟩
  | cons c l ih =>
    simp only [List.cons_append, inOrder, Bool.and_eq_true, decide_eq_true_eq] at h ⊢
    obtain ⟨m, hl, hr⟩ := ih h.2
    exact ⟨m, ⟨h.1, hl⟩, hr⟩

theorem inOrder_apart {a b : Nat} {ts : List Tree} (h : inOrder a b ts = true) {s t : Tree}
    (hs : s ∈ ts) (ht : t ∈ ts) : s = t ∨ s.stop ≤ t.start ∨ t.stop ≤ s.start := by
  induction ts generalizing a with
  | nil => simp at hs
  | cons c ts ih =>
    simp only [inOrder, Bool.and_eq_true, decide_eq_true_eq] at h
    rcases List.mem_cons.1 hs with rfl | hs' <;> rcases List.mem_cons.1 ht with rfl | ht'
    · exact .inl rfl
    · exact .inr (.inl (inOrder_mem h.2 ht').1)
    · exact .inr (.inr (inOrder_mem h.2 hs').1)
    · exact ih h.2 hs' ht'

theorem start_le_stop {t : Tree} (h : t.everyNode ordered = true) : t.start ≤ t.stop :=
  inOrder_le (everyNode_iff.1 h).1

theorem child_range {c t : Tree} (h : t.everyNode ordered = true) (hc : c ∈ t.children) :
    t.start ≤ c.start ∧ c.start ≤ c.stop ∧ c.stop ≤ t.stop :=
  inOrder_mem (everyNode_iff.1 h).1 hc

theorem Within.range {s t : Tree} (h : Within s t) (ht : t.everyNode ordered = true) :
    t.start ≤ s.start ∧ s.start ≤ s.stop ∧ s.stop ≤ t.stop := by
  induction h with
  | self => exact ⟨le_rfl, start_le_stop ht, le_rfl⟩
  | child hc _ ih =>
    have h1 := child_range ht hc
    have h2 := ih ((everyNode_iff.1 ht).2 _ hc)
    omega

theorem within_or_apart {r s t : Tree} (hr : r.everyNode ordered = true) (hs : Within s r)
    (ht : Within t r) : Within s t ∨ Within t s ∨ s.stop ≤ t.start ∨ t.stop ≤ s.start := by
  induction hs with
  | self => exact .inr (.inl ht)
  | @child c r hc hsc ih =>
    cases ht with
    | self => exact .inl (.child hc hsc)
    | @child d _ hd htd =>
      rcases inOrder_apart (everyNode_iff.1 hr).1 hc hd with rfl | hlt | hlt
      · exact ih ((everyNode_iff.1 hr).2 _ hc) htd
      · have h1 := hsc.range ((everyNode_iff.1 hr).2 _ hc)
        have h2 := htd.range ((everyNode_iff.1 hr).2 _ hd)
        omega
      · have h1 := hsc.range ((everyNode_iff.1 hr).2 _ hc)
        have h2 := htd.range ((everyNode_iff.1 hr).2 _ hd)
        omega

theorem sizeAll_mem {c : Tree} {ts : List Tree} (h : c ∈ ts) : c.size ≤ sizeAll ts := by
  induction ts with
  | nil => simp at h
  | cons t ts ih =>
    simp only [sizeAll]
    rcases List.mem_cons.1 h with rfl | h
    · omega
    · have := ih h; omega

theorem size_child {c t : Tree} (h : c ∈ t.children) : c.size < t.size := by
  cases t with
  | node k r a b cs =>
    have := sizeAll_mem h
    simp only [size, children] at this ⊢
    omega

theorem Within.size_le {s t : Tree} (h : Within s t) : s.size ≤ t.size := by
  induction h with
  | self => exact le_rfl
  | child hc _ ih => have := size_child hc; omega

theorem child?_mem {t c : Tree} {r : Role} (h : t.child? r = some c) : c ∈ t.children :=
  List.mem_of_find?_eq_some h

theorem significant_mem {t c : Tree} (h : c ∈ t.significant) : c ∈ t.children :=
  List.mem_of_mem_filter (List.mem_of_mem_filter h)

theorem Within.antisymm {s t : Tree} (h : Within s t) (h' : Within t s) : s = t := by
  cases h with
  | self => rfl
  | child hc h =>
    have h1 := h.size_le
    have h2 := h'.size_le
    have h3 := size_child hc
    omega

/-- A node around a child that is not empty is the child, or is around its parent. -/
theorem within_parent {r t c y : Tree} (hr : r.everyNode ordered = true) (ht : Within t r)
    (hc : c ∈ t.children) (hne : c.start < c.stop) (hy : Within y r) (h : Within c y) :
    y = c ∨ Within t y := by
  have hcr := h.range (everyNode_within hr hy)
  have htr := child_range (everyNode_within hr ht) hc
  rcases within_or_apart hr hy ht with h1 | h1 | h1 | h1
  · cases h1 with
    | self => exact .inr .self
    | @child d _ hd h1 =>
      have hd' := h1.range (everyNode_within hr ((within_of_mem hd).trans ht))
      rcases inOrder_apart (test_within hr ht) hc hd with rfl | h2 | h2
      · exact .inl (h1.antisymm h)
      · omega
      · omega
  · exact .inr h1
  · omega
  · omega

theorem inOrder_pairwise {a b : Nat} {ts : List Tree} (h : inOrder a b ts = true) :
    ts.Pairwise fun s t => s.stop ≤ t.start := by
  induction ts generalizing a with
  | nil => exact List.Pairwise.nil
  | cons t ts ih =>
    simp only [inOrder, Bool.and_eq_true, decide_eq_true_eq] at h
    exact List.pairwise_cons.2 ⟨fun s hs => (inOrder_mem h.2 hs).1, ih h.2⟩

theorem is_iff {t : Tree} {k : NodeKind} : t.is k = true ↔ t.kind = .named k := by
  simp [is]

end OrmCodemod.Syntax.Tree
