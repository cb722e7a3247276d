import OrmCodemod.Proofs.Converting

/-! What stands between the callee and the arguments of a call. An advisory stands before a statement,
a statement stands in a block, and a block starts with a token of its own; so no advisory stands right
before the arguments, and none before them but where a block does. -/

namespace OrmCodemod

open Syntax Text Pass

namespace Syntax

namespace Tree

def nodesIn (t : Tree) (a b : Nat) : List Tree :=
  t.children.filter fun c => a ≤ c.start && c.stop ≤ b

variable {t c : Tree} {a b : Nat}

theorem mem_nodesIn : c ∈ t.nodesIn a b ↔ c ∈ t.children ∧ a ≤ c.start ∧ c.stop ≤ b := by
  simp [nodesIn]

theorem inOrder_of_pairwise {ts : List Tree} (hab : a ≤ b)
    (hin : ∀ t ∈ ts, a ≤ t.start ∧ t.start ≤ t.stop ∧ t.stop ≤ b)
    (h : ts.Pairwise fun s t => s.stop ≤ t.start) : inOrder a b ts = true := by
  induction ts generalizing a with
  | nil => simpa [inOrder] using hab
  | cons t ts ih =>
    obtain ⟨h1, h2⟩ := List.pairwise_cons.1 h
    obtain ⟨h3, h4, h5⟩ := hin t (by simp)
    simp only [inOrder, Bool.and_eq_true, decide_eq_true_eq]
    refine ⟨⟨h3, h4⟩, ih h5 (fun s hs => ?_) h2⟩
    exact ⟨h1 s hs, (hin s (by simp [hs])).2⟩

theorem nodesIn_inOrder (h : t.ordered = true) (hab : a ≤ b) :
    inOrder a b (t.nodesIn a b) = true := by
  refine inOrder_of_pairwise hab (fun c hc => ?_) ((inOrder_pairwise h).filter _)
  obtain ⟨hmem, h1, h2⟩ := mem_nodesIn.1 hc
  exact ⟨h1, (inOrder_mem h hmem).2.1, h2⟩

theorem Within.eq_or_below (h : c.Within t) : c = t ∨ ∃ d ∈ t.children, c.Within d := by
  cases h with
  | self => exact .inl rfl
  | child hd h => exact .inr ⟨_, hd, h⟩

theorem Within.not_leaf (h : c.Within t) (hc : c.children ≠ []) : t.children ≠ [] := by
  cases h with
  | self => exact hc
  | child hmem _ => exact List.ne_nil_of_mem hmem

/-- Where a block starts with a token of its own, what has children in it starts later. -/
theorem ownToken_before (ho : t.ordered = true) (h : t.ownToken = true)
    (hk : t.isAny blockKinds = true) (hc : c ∈ t.children) (hcc : c.children ≠ []) :
    t.start < c.start := by
  simp only [ordered] at ho
  simp only [ownToken, hk, Bool.not_true, Bool.false_or] at h
  cases hcs : t.children with
  | nil => simp [hcs] at hc
  | cons f rest =>
    rw [hcs, List.head?_cons, Option.all_some, Bool.and_eq_true, List.isEmpty_iff,
      decide_eq_true_eq] at h
    rw [hcs, inOrder] at ho
    simp only [Bool.and_eq_true, decide_eq_true_eq] at ho
    rcases List.mem_cons.1 (hcs ▸ hc) with rfl | hc
    · exact absurd h.1 hcc
    · have := inOrder_mem ho.2 hc
      omega

theorem annotatedType_within {s : Tree} (h : t.annotatedType = some s) : s.Within t := by
  simp only [annotatedType, Option.bind_eq_bind, Option.bind_eq_some_iff] at h
  obtain ⟨ascription, ha, h⟩ := h
  have hin := within_of_mem (child?_mem ha)
  split at h
  · exact (within_of_mem (significant_mem (List.mem_of_mem_head? h))).trans hin
  · exact Option.some.inj h ▸ hin

theorem genericArgument_name {source : Bytes} {generic arg : String}
    (h : t.genericArgument generic source = some arg) :
    ∃ name : Tree, name.Within t ∧ name.text source = generic := by
  unfold genericArgument at h
  split at h
  · cases h
  simp only [Option.bind_eq_bind, Option.bind_eq_some_iff] at h
  obtain ⟨name, hname, h⟩ := h
  split at h
  · cases h
  · rename_i htext
    exact ⟨name, within_of_mem (child?_mem hname), by simpa using htext⟩

theorem decoratorName_within {source : Bytes} {name : String}
    (h : t.decoratorName source = some name) : ∃ s : Tree, s.Within t ∧ s.text source = name := by
  unfold decoratorName at h
  simp only [Option.bind_eq_bind, Option.bind_eq_some_iff] at h
  obtain ⟨expression, he, h⟩ := h
  have hin : expression.Within t := within_of_mem (significant_mem (List.mem_of_mem_head? he))
  have hcallee : ∀ callee : Tree, callee.Within t →
      (if callee.is .identifier then some (callee.text source)
        else if callee.is .memberExpression then (callee.child? .property).map (·.text source)
        else none) = some name → ∃ s : Tree, s.Within t ∧ s.text source = name := by
    intro callee hc h
    split at h
    · exact ⟨callee, hc, Option.some.inj h⟩
    split at h
    · obtain ⟨property, hp, hs⟩ := Option.map_eq_some_iff.1 h
      exact ⟨property, (within_of_mem (child?_mem hp)).trans hc, hs⟩
    · cases h
  split at h
  · obtain ⟨callee, hc, h⟩ := Option.bind_eq_some_iff.1 h
    exact hcallee callee ((within_of_mem (child?_mem hc)).trans hin) h
  · exact hcallee expression hin h

end Tree

namespace Place

theorem climb_parent {r : Tree} : ∀ (path : List Crumb) (t : Tree), Rooted r ⟨t, path⟩ →
    (climb t path).tree = r ∨ ∃ b : Tree, b.Within r ∧ (climb t path).tree ∈ b.children ∧
      b.isAny (.program :: Tree.blockKinds) = true := by
  intro path
  induction path with
  | nil =>
    intro t h
    cases h with
    | root => exact .inl rfl
    | child _ hmem =>
      obtain ⟨_, _, -, hpath⟩ := mem_children hmem
      cases hpath
  | cons c path ih =>
    intro t h
    obtain ⟨hp, hc⟩ := h.siblings
    unfold climb
    split
    · rename_i hk
      exact .inr ⟨c.parent, hp.within, by simp [hc], hk⟩
    · exact ih _ hp

theorem Rooted.statement_parent {r : Tree} {p : Place} (h : Rooted r p) :
    p.statement.tree = r ∨ ∃ b : Tree, b.Within r ∧ p.statement.tree ∈ b.children ∧
      b.isAny (.program :: Tree.blockKinds) = true :=
  climb_parent p.path p.tree h

end Place

end Syntax

theorem SourceUnit.Shaped.block {u : SourceUnit} (hu : u.Shaped) {t c b : Tree}
    (ht : t.Within u.root) (hc : c ∈ t.children) (hb : b.Within c)
    (hk : b.isAny (.program :: Tree.blockKinds) = true) :
    b.isAny Tree.blockKinds = true ∧ b.ownToken = true := by
  have hall := List.all_eq_true.1 hu.blocks
  have hbelow : (!b.is .program && b.ownToken) = true := by
    cases ht with
    | self => exact Tree.test_within (hall c hc) hb
    | @child d _ hd h => exact Tree.test_within (hall d hd) (hb.trans ((Tree.within_of_mem hc).trans h))
  rw [Bool.and_eq_true, Bool.not_eq_true'] at hbelow
  rw [Tree.isAny, List.any_cons, hbelow.1, Bool.false_or] at hk
  exact ⟨hk, hbelow.2⟩

/-- An insertion before the statement of a place that is neither empty nor a leaf. -/
def IsNote (u : SourceUnit) (e : Edit) : Prop :=
  e.start = e.stop ∧ ∃ q : Place, q.Rooted u.root ∧ q.start < q.stop ∧ q.tree.children ≠ [] ∧
    e.start = q.statement.start

/-- A note in a node that holds no statements itself is strictly inside a child, with a block. -/
theorem IsNote.cases {u : SourceUnit} (hu : u.Shaped) {e : Edit} (he : IsNote u e) {t : Tree}
    (ht : t.Within u.root) (hk : t.isAny (.program :: Tree.blockKinds) = false) :
    e.start ≤ t.start ∨ t.stop ≤ e.start ∨ ∃ c ∈ t.children, c.start < e.start ∧ e.start < c.stop ∧
      ∃ b : Tree, b.Within c ∧ b.isAny Tree.blockKinds = true := by
  obtain ⟨-, q, hq, hne, hleaf, hstart⟩ := he
  obtain ⟨hs, hqs⟩ := hq.statement
  have hr := hu.ordered
  have hrange := hqs.range (Tree.everyNode_within hr hs.within)
  simp only [Place.start, Place.stop] at hne hstart
  rcases Tree.within_or_apart hr hs.within ht with h | h | h | h
  · cases h with
    | self => exact .inl hstart.le
    | @child c _ hc h =>
      have hcr := (Tree.within_of_mem hc).trans ht
      rcases hq.statement_parent with hroot | ⟨b, hb, hsb, hkb⟩
      · have h1 := h.size_le
        have h2 := hcr.size_le
        have h3 := ht.size_le
        have h4 := Tree.size_child hc
        rw [hroot] at h1
        omega
      rcases Tree.within_parent hr hb hsb (by omega) hcr h with rfl | hbc
      · rw [Tree.parent_unique hr ht hb hc hsb (by omega), hkb] at hk
        cases hk
      · obtain ⟨hblock, hown⟩ := hu.block ht hc hbc hkb
        have h1 := Tree.ownToken_before (Tree.test_within hr hb) hown hblock hsb (hqs.not_leaf hleaf)
        have h2 := hbc.range (Tree.everyNode_within hr hcr)
        have h3 := h.range (Tree.everyNode_within hr hcr)
        exact .inr (.inr ⟨c, hc, by omega, by omega, b, hbc, hblock⟩)
  · have := h.range (Tree.everyNode_within hr hs.within)
    exact .inl (by omega)
  · exact .inl (by omega)
  · exact .inr (.inl (by omega))

/-- Texts in the places of all children, seen in a stretch that cuts into none of them. -/
theorem View.fill_nodesIn {v : View} {t : Tree} (ho : t.ordered = true) {f g : Tree → Bytes}
    {a b p : Nat}
    (hcut : ∀ c ∈ t.children, c.start < c.stop →
      c.stop ≤ a ∨ b ≤ c.start ∨ (a ≤ c.start ∧ c.stop ≤ b))
    (hfg : ∀ c ∈ t.nodesIn a b, c.start < c.stop → f c = g c) (h1 : a ≤ p) (h2 : p < b) :
    (v.fill t.children f).shown p = (v.fill (t.nodesIn a b) g).shown p ∧
      (v.fill t.children f).inserted p = (v.fill (t.nodesIn a b) g).inserted p := by
  have hin := Tree.nodesIn_inOrder ho (h1.trans h2.le)
  have hmem : ∀ c ∈ t.children, c.start ≤ p → p < c.stop → c ∈ t.nodesIn a b := by
    intro c hc h3 h4
    have := hcut c hc (by omega)
    exact Tree.mem_nodesIn.2 ⟨hc, by omega, by omega⟩
  constructor
  · by_cases h : ∃ c ∈ t.children, c.start ≤ p ∧ p < c.stop
    · obtain ⟨c, hc, h3, h4⟩ := h
      have hc' := hmem c hc h3 h4
      rw [fill_shown_of_mem ho hc h3 h4, fill_shown_of_mem hin hc' h3 h4, hfg c hc' (by omega)]
    · push Not at h
      rw [fill_shown_of_free fun c hc hh => absurd hh.2 (h c hc hh.1).not_gt,
        fill_shown_of_free fun c hc hh =>
          absurd hh.2 (h c (Tree.mem_nodesIn.1 hc).1 hh.1).not_gt]
  · by_cases h : ∃ c ∈ t.children, c.start < p ∧ p < c.stop
    · obtain ⟨c, hc, h3, h4⟩ := h
      rw [fill_inserted_of_mem hc h3 h4, fill_inserted_of_mem (hmem c hc h3.le h4) h3 h4]
    · push Not at h
      rw [fill_inserted_of_free fun c hc hh => absurd hh.2 (h c hc hh.1).not_gt,
        fill_inserted_of_free fun c hc hh =>
          absurd hh.2 (h c (Tree.mem_nodesIn.1 hc).1 hh.1).not_gt]

namespace Calls

variable {u : SourceUnit} {x : Place.RepositoryCall}

namespace Scene

/-- A stretch of a node: what stands around, with the texts of the children there. -/
def stretch (σ : Scene) (t : Tree) (a b : Nat) : Bytes :=
  ((σ.around.fill (t.nodesIn a b) σ.text).hide t.start).span a b

variable {σ : Scene} {rule : Rules.Rule} {owner : Tree}

/-- Beside callee and arguments, the pieces of a call are the texts of its children. -/
theorem span_eq_stretch (hu : u.Closed) (hx : Convertible u x)
    (hconv : σ.conversion? x.call.tree = some (conversion u x rule owner)) {a b : Nat}
    (hcallee : x.callee.stop ≤ a ∨ b ≤ x.callee.start)
    (hargs : x.arguments.stop ≤ a ∨ b ≤ x.arguments.start)
    (hcut : ∀ c ∈ x.call.tree.children, c.start < c.stop →
      c.stop ≤ a ∨ b ≤ c.start ∨ (a ≤ c.start ∧ c.stop ≤ b)) :
    ((σ.around.fill x.call.tree.children (σ.piece σ.text x.call.tree)).hide
      x.call.tree.start).span a b = σ.stretch x.call.tree a b := by
  have ho := Tree.test_within hu.ordered hx.rooted.within
  have hlt := hx.order hu
  have hpiece : ∀ c ∈ x.call.tree.nodesIn a b, c.start < c.stop →
      σ.piece σ.text x.call.tree c = σ.text c := by
    intro c hc hne
    obtain ⟨-, h3, h4⟩ := Tree.mem_nodesIn.1 hc
    unfold piece
    rw [hconv]
    refine (if_neg ?_).trans (if_neg ?_)
    · rw [sameRange_iff]
      simp only [conversion]
      omega
    · rw [sameRange_iff]
      simp only [conversion]
      omega
  refine View.span_congr fun p h1 h2 => ?_
  obtain ⟨hshown, hinserted⟩ := View.fill_nodesIn (v := σ.around) ho hcut hpiece h1 h2
  simp only [View.cell, View.hide, hshown, hinserted]

/-- The text of a converted call, where no advisory stands right before its parts. -/
theorem text_call (hunit : σ.unit = u) (hu : u.Closed) (hx : Convertible u x)
    (hconv : σ.conversion? x.call.tree = some (conversion u x rule owner))
    (hcallee : x.callee.start ≠ x.call.start → σ.around.inserted x.callee.start = [])
    (hargs : σ.around.inserted x.arguments.start = []) :
    σ.text x.call.tree = σ.stretch x.call.tree x.call.start x.callee.start ++
      encode ((conversion u x rule owner).calleeText u (render σ.text)) ++
      σ.stretch x.call.tree x.callee.stop x.arguments.start ++
      (((conversion u x rule owner).argumentsText u (render σ.text)).map encode).getD
        (σ.text x.arguments) := by
  have ho := Tree.test_within hu.ordered hx.rooted.within
  have hmem := Tree.child?_mem hx.parts.callee
  have hmem' := Tree.child?_mem hx.parts.arguments
  obtain ⟨h1, h2, h3, h4⟩ := hx.order hu
  have h5 := (Tree.inOrder_mem ho hmem).1
  simp only [Place.start, Place.stop] at h4 hcallee ⊢
  -- a part shows its piece: nothing is inserted on its left border
  have hpart : ∀ c ∈ x.call.tree.children, c.start < c.stop →
      (c.start ≠ x.call.tree.start → σ.around.inserted c.start = []) →
      ((σ.around.fill x.call.tree.children (σ.piece σ.text x.call.tree)).hide
        x.call.tree.start).span c.start c.stop = σ.piece σ.text x.call.tree c := by
    intro c hc hne hins
    have hfree : ∀ d ∈ x.call.tree.children, ¬(d.start < c.start ∧ c.start < d.stop) := by
      intro d hd hh
      rcases Tree.inOrder_apart ho hc hd with rfl | h | h <;> omega
    rw [View.hide_span _ (Tree.inOrder_mem ho hc).1 hne, View.fill_span ho hc hne,
      View.fill_inserted_of_free hfree]
    by_cases he : c.start = x.call.tree.start
    · rw [if_pos he, List.nil_append]
    · rw [if_neg he, hins he, List.nil_append]
  have hapart : ∀ d ∈ x.call.tree.children, ∀ c ∈ x.call.tree.children,
      (c.start = d.start ∧ c.stop = d.stop) ∨ c.stop ≤ d.start ∨ d.stop ≤ c.start := by
    intro d hd c hc
    rcases Tree.inOrder_apart ho hc hd with rfl | h
    · exact .inl ⟨rfl, rfl⟩
    · exact .inr h
  have hlead := span_eq_stretch (a := x.call.tree.start) (b := x.callee.start) hu hx hconv
    (.inr le_rfl) (.inr (by omega)) fun c hc _ => by
      have h6 := (Tree.inOrder_mem ho hc).1
      have h7 := hapart _ hmem c hc
      omega
  have hgap := span_eq_stretch (a := x.callee.stop) (b := x.arguments.start) hu hx hconv
    (.inl le_rfl) (.inr le_rfl) fun c hc _ => by
      have h6 := hapart _ hmem c hc
      have h7 := hapart _ hmem' c hc
      omega
  rw [text_eq ho, compose, ← h4, ← View.span_append _ (by omega : _ ≤ x.arguments.start) h3.le,
    ← View.span_append _ (by omega : _ ≤ x.callee.stop) h2, ← View.span_append _ h5 h1.le,
    hlead, hgap, hpart _ hmem h1 hcallee, hpart _ hmem' h3 fun _ => hargs,
    piece_callee hunit hconv, piece_arguments hunit hu hx hconv]

end Scene

/-- A node in which stand neither statements nor methods, and which is no parameter. -/
def plain (t : Tree) : Bool :=
  !t.isAny [.requiredParameter, .optionalParameter] &&
    t.everyNode fun s => !s.isAny (.methodDefinition :: Tree.blockKinds)

def between (x : Place.RepositoryCall) : List Tree :=
  x.call.tree.nodesIn x.callee.stop x.arguments.start

/-- No parameter list stands between callee and arguments, where all is plain. -/
theorem parameters_elsewhere (hu : u.Closed) (hx : Convertible u x) {method params : Place}
    (hm : method.Rooted u.root) (hk : method.tree.is .methodDefinition = true)
    (hparams : params ∈ method.children) (hne : params.start < params.stop) {c : Tree}
    (hc : c ∈ x.call.tree.children) (hplain : plain c = true) : ¬params.tree.Within c := by
  intro hw
  have hr := hu.ordered
  have ht := hx.rooted.within
  have hf := Place.tree_mem_children hparams
  rcases Tree.within_parent hr hm.within hf hne ((Tree.within_of_mem hc).trans ht) hw with rfl | h
  · have hcall := hx.parts.isCall
    rw [Tree.parent_unique hr ht hm.within hc hf hne, Tree.is_iff] at hcall
    rw [Tree.is_iff, hcall] at hk
    cases hk
  · rw [plain, Bool.and_eq_true] at hplain
    have hnot := Tree.test_within hplain.2 h
    simp [Tree.isAny, hk] at hnot

/-- A repository parameter is not empty: the name of its type or of its decorator stands in it. -/
theorem IsInjected.nonempty (hu : u.Nested) {p : Place} (h : IsInjected u p) :
    p.start < p.stop := by
  obtain ⟨params, hf, hmem⟩ := h.rooted
  have hp := Tree.everyNode_within hu.ordered (hf.child hmem).within
  obtain ⟨-, -, -, -, -, -, -, -, -, hrepo⟩ := h
  obtain ⟨n, hn, htext⟩ : ∃ n : Tree, n.Within p.tree ∧ n.text u.source ≠ "" := by
    rw [isRepositoryParameter, Bool.or_eq_true, Option.isSome_iff_exists, List.any_eq_true] at hrepo
    rcases hrepo with ⟨arg, harg⟩ | ⟨d, hd, hname⟩
    · obtain ⟨type, htype, harg⟩ := Option.bind_eq_some_iff.1 harg
      obtain ⟨n, hn, htext⟩ := Tree.genericArgument_name harg
      exact ⟨n, hn.trans (Tree.annotatedType_within htype), by simp [htext, Resolver.repositoryType]⟩
    · rw [Bool.and_eq_true, beq_iff_eq] at hname
      obtain ⟨n, hn, htext⟩ := Tree.decoratorName_within hname.2
      exact ⟨n, hn.trans (Tree.within_of_mem hd), by simp [htext, injectionDecorator]⟩
  have h1 := Tree.nonempty_of_text htext
  have h2 := hn.range hp
  simp only [Place.start, Place.stop]
  omega

/-- A node of a call that covers a range which reaches into a plain stretch is plain. -/
theorem plain_child (hu : u.Closed) (hx : Convertible u x) (hplain : (between x).all plain = true)
    {c : Tree} (hc : c ∈ x.call.tree.children) {a b : Nat} (ha : c.start ≤ a) (hb : b ≤ c.stop)
    (hleft : x.callee.stop < b) (hright : a < x.arguments.start) : plain c = true := by
  have ho := Tree.test_within hu.ordered hx.rooted.within
  obtain ⟨h1, h2, h3, h4⟩ := hx.order hu
  simp only [Place.stop] at h4
  refine List.all_eq_true.1 hplain c (Tree.mem_nodesIn.2 ⟨hc, ?_, ?_⟩)
  · rcases Tree.inOrder_apart ho hc (Tree.child?_mem hx.parts.callee) with rfl | h | h <;> omega
  · rcases Tree.inOrder_apart ho hc (Tree.child?_mem hx.parts.arguments) with rfl | h | h <;> omega

theorem IsInjected.beside (hu : u.Closed) (hx : Convertible u x) {p : Place} (hp : IsInjected u p)
    (hfree : ¬(p.start ≤ x.call.start ∧ x.call.stop ≤ p.stop))
    (hplain : (between x).all plain = true) :
    p.stop ≤ x.callee.stop ∨ x.arguments.start ≤ p.start := by
  have hr := hu.ordered
  have ht := hx.rooted.within
  have hne := hp.nonempty hu.toNested
  obtain ⟨method, params, hm, hk, hparams, hpm⟩ := hp.places
  have hpc := Place.tree_mem_children hpm
  have hfr := (hm.child hparams).within
  have hpr := ((hm.child hparams).child hpm).within
  have hkind : p.tree.isAny [.requiredParameter, .optionalParameter] = true := by
    obtain ⟨-, -, -, -, -, -, -, -, hkind, -⟩ := hp
    exact hkind
  obtain ⟨h1, h2, h3, h4⟩ := hx.order hu
  have h5 := (Tree.inOrder_mem (Tree.test_within hr ht) (Tree.child?_mem hx.parts.callee)).1
  simp only [Place.start, Place.stop] at h4 hfree hne ⊢
  by_contra hcon
  push Not at hcon
  rcases Tree.within_or_apart hr hpr ht with h | h | h | h
  · rcases h.eq_or_below with heq | ⟨c, hc, hw⟩
    · rw [heq, Tree.not_isAny_of_is hx.parts.isCall (by decide)] at hkind
      cases hkind
    · have hrange := hw.range (Tree.everyNode_within hr ((Tree.within_of_mem hc).trans ht))
      have hpl := plain_child hu hx hplain hc hrange.1 hrange.2.2 hcon.1 hcon.2
      rcases Tree.within_parent hr hfr hpc hne ((Tree.within_of_mem hc).trans ht) hw with rfl | hpw
      · simp [plain, hkind] at hpl
      · have := Tree.child_range (Tree.everyNode_within hr hfr) hpc
        refine parameters_elsewhere hu hx hm hk hparams ?_ hc hpl hpw
        simp only [Place.start, Place.stop]
        omega
  · have := h.range (Tree.everyNode_within hr hpr)
    omega
  · omega
  · omega

theorem IsInjected.item_beside (hu : u.Closed) (hx : Convertible u x) {p : Place}
    (hp : IsInjected u p) (hne : (Editor.itemRange p).1 < (Editor.itemRange p).2)
    (hfree : ¬((Editor.itemRange p).1 ≤ x.call.start ∧ x.call.stop ≤ (Editor.itemRange p).2))
    (hplain : (between x).all plain = true) :
    (Editor.itemRange p).2 ≤ x.callee.stop ∨ x.arguments.start ≤ (Editor.itemRange p).1 := by
  have hr := hu.ordered
  have ht := hx.rooted.within
  have hmem := Tree.child?_mem hx.parts.callee
  have hmem' := Tree.child?_mem hx.parts.arguments
  obtain ⟨method, params, hm, hk, hparams, hpm⟩ := hp.places
  have hf := hm.child hparams
  have hb := Editor.itemRange_bounds hf hpm hr
  obtain ⟨h1, h2, h3, h4⟩ := hx.order hu
  have h5 := (Tree.inOrder_mem (Tree.test_within hr ht) hmem).1
  simp only [Place.start, Place.stop] at h4 hb hfree ⊢
  by_contra hcon
  push Not at hcon
  rcases Editor.itemRange_within hf hpm hr ht with ⟨y, hy, -, h8, h9, hw⟩ | h | h | h
  · have := hw.range (Tree.everyNode_within hr ((Tree.within_of_mem hy).trans hf.within))
    omega
  · rcases h.eq_or_below with heq | ⟨c, hc, hw⟩
    · -- the call would be the parameter list, and the parameter a node of the stretch
      have hpart : ∀ y ∈ x.call.tree.children, y.isAny Tree.linkKinds = true →
          y.stop ≤ (Editor.itemRange p).1 ∨ (Editor.itemRange p).2 ≤ y.start := by
        intro y hy hlink
        rcases Editor.itemRange_siblings hf hpm hr (heq ▸ hy) with h8 | h8 | ⟨rfl | h8, -⟩
        · exact .inl h8
        · exact .inr h8
        · rw [hp.not_link] at hlink
          cases hlink
        · rw [not_link_of_token h8] at hlink
          cases hlink
      have h8 := hpart _ hmem (by simp [Tree.isAny, Tree.linkKinds, hx.parts.calleeKind])
      have h9 := hpart _ hmem' (by simp [Tree.isAny, Tree.linkKinds, hx.parts.argumentsKind])
      have hpl : plain p.tree = true := by
        refine List.all_eq_true.1 hplain _ (Tree.mem_nodesIn.2 ⟨?_, by omega, by omega⟩)
        exact heq ▸ Place.tree_mem_children hpm
      obtain ⟨-, -, -, -, -, -, -, -, hkind, -⟩ := hp
      simp [plain, hkind] at hpl
    · have hrange := hw.range (Tree.everyNode_within hr ((Tree.within_of_mem hc).trans ht))
      have hpl := plain_child hu hx hplain hc (by omega) (by omega) hcon.1 hcon.2
      refine parameters_elsewhere hu hx hm hk hparams ?_ hc hpl hw
      simp only [Place.start, Place.stop]
      omega
  · omega
  · omega

/-- What edits do to the parameters of constructors is done beside a plain stretch of a call. -/
theorem IsInjectionEdit.beside (hu : u.Closed) (hx : Convertible u x) {e : Edit}
    (he : IsInjectionEdit u e) (hne : e.start < e.stop)
    (hfree : ¬(e.start ≤ x.call.start ∧ x.call.stop ≤ e.stop))
    (hplain : (between x).all plain = true) :
    e.stop ≤ x.callee.stop ∨ x.arguments.start ≤ e.start := by
  cases he with
  | client p hp on _ =>
    obtain ⟨hstart, hstop⟩ := on
    rw [hstart, hstop] at hfree ⊢
    exact hp.beside hu hx hfree hplain
  | removal p hp hstart hstop _ =>
    rw [hstart, hstop] at hne hfree ⊢
    exact hp.item_beside hu hx hne hfree hplain

theorem IsInjectionEdit.nonempty (hu : u.Nested) {e : Edit} (h : IsInjectionEdit u e) :
    e.start < e.stop := by
  cases h with
  | client p hp on _ =>
    have := hp.nonempty hu
    obtain ⟨h1, h2⟩ := on
    simp only [Place.start, Place.stop] at this
    omega
  | removal p hp h1 h2 _ =>
    have := hp.nonempty hu
    obtain ⟨params, hf, hmem⟩ := hp.rooted
    have := Editor.itemRange_bounds hf hmem hu.ordered
    omega

/-- An editor holds notes, and edits of parameters in which the call does not lie. -/
structure Annotated (u : SourceUnit) (x : Place.RepositoryCall) (ed : Editor) : Prop where
  source : ed.source = u.source
  edits : ∀ e ∈ ed.edits, IsNote u e ∨
    (IsInjectionEdit u e ∧ ¬(e.start ≤ x.call.start ∧ x.call.stop ≤ e.stop))

section Notes

variable {ed : Editor}

theorem Annotated.inserted_child (hu : u.Shaped) (h : Annotated u x ed) (hx : Convertible u x)
    {c : Tree} (hc : c ∈ x.call.tree.children) (hne : c.start < c.stop)
    (hlater : c.start ≠ x.call.start) : ed.view.inserted c.start = [] := by
  have ht := hx.rooted.within
  have ho := Tree.test_within hu.ordered ht
  have hrange := Tree.inOrder_mem ho hc
  refine Edit.inserted_of_free fun e he heq hstart => ?_
  simp only [Place.start] at hlater
  rcases h.edits e he with hnote | ⟨hinj, -⟩
  · rcases hnote.cases hu ht (Tree.not_isAny_of_is hx.parts.isCall (by decide)) with
      h1 | h1 | ⟨d, hd, h1, h2, -⟩
    · omega
    · omega
    · rcases Tree.inOrder_apart ho hc hd with rfl | h3 | h3 <;> omega
  · have := hinj.nonempty hu.toNested
    omega

theorem Annotated.between_source (hu : u.Shaped) (h : Annotated u x ed) (hx : Convertible u x)
    (hplain : (between x).all plain = true) {p : Nat} (h1 : x.callee.stop ≤ p)
    (h2 : p < x.arguments.start) :
    ed.view.shown p = slice u.source p (p + 1) ∧ ed.view.inserted p = [] := by
  have ht := hx.rooted.within
  have ho := Tree.test_within hu.ordered ht
  have hmem := Tree.child?_mem hx.parts.callee
  have hmem' := Tree.child?_mem hx.parts.arguments
  have horder := hx.order hu.toClosed
  have hrange := Tree.inOrder_mem ho hmem
  have hrange' := Tree.inOrder_mem ho hmem'
  constructor
  · rw [← h.source]
    refine Edit.shown_of_free fun e he => ?_
    rw [← Bool.not_eq_true, Edit.covers_iff]
    rcases h.edits e he with hnote | ⟨hinj, hfree⟩
    · have := hnote.1
      omega
    · have := hinj.beside hu.toClosed hx (hinj.nonempty hu.toNested) hfree hplain
      omega
  · refine Edit.inserted_of_free fun e he heq hstart => ?_
    rcases h.edits e he with hnote | ⟨hinj, -⟩
    · rcases hnote.cases hu ht (Tree.not_isAny_of_is hx.parts.isCall (by decide)) with
        h3 | h3 | ⟨d, hd, h3, h4, b, hb, hk⟩
      · omega
      · omega
      · -- the note would be in a node of the stretch, which holds no block
        have hd' : d ∈ between x := by
          refine Tree.mem_nodesIn.2 ⟨hd, ?_, ?_⟩
          · rcases Tree.inOrder_apart ho hd hmem with h5 | h5 | h5
            · have := congrArg Tree.stop h5
              omega
            · omega
            · omega
          · rcases Tree.inOrder_apart ho hd hmem' with h5 | h5 | h5
            · have := congrArg Tree.start h5
              omega
            · omega
            · omega
        have hpl := List.all_eq_true.1 hplain d hd'
        rw [plain, Bool.and_eq_true] at hpl
        have hnot := Tree.test_within hpl.2 hb
        rw [Tree.isAny] at hk
        rw [Tree.isAny, List.any_cons, hk, Bool.or_true] at hnot
        cases hnot
    · have := hinj.nonempty hu.toNested
      omega

/-- The text of a plain stretch that no converted call lies in is that of the source. -/
theorem stretch_source (hu : u.Shaped) (h : Annotated u x ed) (hx : Convertible u x)
    (hplain : (between x).all plain = true) {K : List Place.RepositoryCall}
    (hK : ∀ y ∈ K, ¬(x.callee.stop ≤ y.call.start ∧ y.call.stop ≤ x.arguments.start)) :
    (scene u ed.view K).stretch x.call.tree x.callee.stop x.arguments.start =
      slice u.source x.callee.stop x.arguments.start := by
  have ht := hx.rooted.within
  have ho := Tree.test_within hu.ordered ht
  have horder := hx.order hu.toClosed
  have hrange := Tree.inOrder_mem ho (Tree.child?_mem hx.parts.callee)
  have hin : Tree.inOrder x.callee.stop x.arguments.start (between x) = true :=
    Tree.nodesIn_inOrder ho horder.2.1
  -- no call is converted in a node of the stretch, which so shows what stands around
  have htext : ∀ c ∈ between x, (ed.view.hide c.start).span c.start c.stop =
      (scene u ed.view K).text c := by
    intro c hc
    obtain ⟨hmem, h1, h2⟩ := Tree.mem_nodesIn.1 hc
    have hcr := (Tree.within_of_mem hmem).trans ht
    have hco := Tree.everyNode_within hu.ordered hcr
    rw [(Shows.refl u ed.view).text hu.toClosed (by simp) hcr (by simp [Covered, taken])]
    refine Scene.text_congr (scene_unit u _ _ [] K) hco (fun _ _ _ => rfl) (fun _ _ _ => rfl) fun s hs => ?_
    have hnone : K.find? (fun y => Scene.sameRange y.call.tree s) = none := by
      refine List.find?_eq_none.2 fun y hy => ?_
      rw [Scene.sameRange_iff]
      intro he
      have hsr := hs.range hco
      refine hK y hy ?_
      simp only [Place.start, Place.stop]
      omega
    simp [scene, hnone]
  have hspan : ((ed.view.fill (between x) (scene u ed.view K).text).hide x.call.tree.start).span
      x.callee.stop x.arguments.start = ed.view.span x.callee.stop x.arguments.start := by
    refine View.span_eq_of_pieces hin (fun p h1 h2 hf => ?_) fun c hc hne => ?_
    · rw [View.hide_cell_of_ne _ (by omega), View.cell, View.cell, View.fill_shown_of_free hf,
        View.fill_inserted_of_free fun c hc hh => hf c hc ⟨hh.1.le, hh.2⟩]
    · obtain ⟨hmem, h1, h2⟩ := Tree.mem_nodesIn.1 hc
      have hfree : ∀ d ∈ between x, ¬(d.start < c.start ∧ c.start < d.stop) := by
        intro d hd hh
        rcases Tree.inOrder_apart hin hc hd with rfl | h3 | h3 <;> omega
      rw [View.hide_span _ (by omega) hne, if_neg (by omega), View.fill_span hin hc hne, ← htext c hc,
        View.fill_inserted_of_free hfree, ← View.span_hide _ hne]
  rw [Scene.stretch]
  refine hspan.trans (View.span_source horder.2.1 fun p h1 h2 => ?_)
  obtain ⟨hshown, hins⟩ := h.between_source hu hx hplain h1 h2
  rw [View.cell, hshown, hins, List.nil_append]

end Notes

end Calls

end OrmCodemod
