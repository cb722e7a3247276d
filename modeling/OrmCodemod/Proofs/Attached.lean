import OrmCodemod.Proofs.Mirror

/-! Advisories and their statements. What a pass prints is put together from the nodes of the source,
each statement of a program or a block right after its advisories. Only at the head of the source is the
order that of the edits: an import line that comes after an advisory stands between the advisory and the
first statement. -/

namespace OrmCodemod

open Syntax Text Pass

def View.bare (v : View) : View := { v with inserted := fun _ => [] }

theorem View.bare_fill_inserted (v : View) (cs : List Tree) (piece : Tree → Bytes) (p : Nat) :
    (v.bare.fill cs piece).inserted p = [] := by
  simp [View.fill, View.bare]

theorem View.fill_inserted_start {v : View} {cs : List Tree} {piece : Tree → Bytes} {a b : Nat}
    (h : Tree.inOrder a b cs = true) {c : Tree} (hc : c ∈ cs) (hne : c.start < c.stop) :
    (v.fill cs piece).inserted c.start = v.inserted c.start := by
  refine View.fill_inserted_of_free fun d hd hh => ?_
  rcases Tree.inOrder_apart h hc hd with rfl | h1 | h1 <;> omega

theorem Syntax.Place.climb_below {r : Tree} (hr : r.is .program = true) :
    ∀ (path : List Crumb) (t : Tree), Rooted r ⟨t, path⟩ → path ≠ [] →
      ∃ b : Tree, b.Within r ∧ (climb t path).tree ∈ b.children ∧
        b.isAny (.program :: Tree.blockKinds) = true := by
  intro path
  induction path with
  | nil => exact fun t _ h => absurd rfl h
  | cons c path ih =>
    intro t h _
    obtain ⟨hp, hc⟩ := h.siblings
    unfold climb
    split
    · rename_i hk
      exact ⟨c.parent, hp.within, by simp [hc], hk⟩
    · rename_i hk
      refine ih _ hp ?_
      rintro rfl
      -- the last parent is the root
      cases hp with
      | root => simp [Tree.isAny, hr] at hk
      | child _ hmem =>
        obtain ⟨_, _, -, hpath⟩ := mem_children hmem
        cases hpath

theorem Syntax.Place.Rooted.statement_below {r : Tree} {p : Place} (h : Rooted r p)
    (hr : r.is .program = true) (hp : p.tree.isAny [.program] = false) :
    ∃ b : Tree, b.Within r ∧ p.statement.tree ∈ b.children ∧
      b.isAny (.program :: Tree.blockKinds) = true := by
  refine climb_below hr p.path p.tree h fun hpath => ?_
  cases h with
  | root => simp [Tree.isAny, hr] at hp
  | child _ hmem =>
    obtain ⟨_, _, -, h⟩ := mem_children hmem
    simp [hpath] at h

/-- Texts of two sorts, told apart by their first bytes, are in order exactly if their concatenation
is. -/
theorem sorted_flatten_iff {x y : UInt8} (hxy : x ≠ y) (first : Bytes → Bool) {texts : List Bytes}
    (h : ∀ b ∈ texts, b.head? = some (if first b then x else y)) :
    texts.flatten = (texts.filter first ++ texts.filter fun b => !first b).flatten ↔
      texts.Pairwise fun a b => first b = true → first a = true := by
  induction texts with
  | nil => simp
  | cons a texts ih =>
    have ih := ih fun b hb => h b (by simp [hb])
    cases ha : first a with
    | true => simpa [ha] using ih
    | false =>
      have hcond : ((a :: texts).Pairwise fun a b => first b = true → first a = true) ↔
          texts.filter first = [] := by
        rw [List.filter_eq_nil_iff, List.pairwise_cons]
        refine ⟨fun hp b hb hf => ?_, fun hnone => ?_⟩
        · have := hp.1 b hb hf
          simp [ha] at this
        · exact ⟨fun b hb hf => absurd hf (hnone b hb), List.pairwise_of_forall_mem_list
            fun _ _ b hb hf => absurd hf (hnone b hb)⟩
      rw [hcond]
      cases hlines : texts.filter first with
      | nil =>
        have hall : (texts.filter fun b => !first b) = texts := by
          refine List.filter_eq_self.2 fun b hb => ?_
          have := List.filter_eq_nil_iff.1 hlines b hb
          simpa using this
        simp [ha, hlines, hall]
      | cons b rest =>
        -- the concatenations differ in their first bytes
        obtain ⟨hb, hf⟩ := List.mem_filter.1 (hlines ▸ List.mem_cons_self : b ∈ texts.filter first)
        have h1 := h a (by simp)
        have h2 := h b (by simp [hb])
        rw [ha] at h1
        rw [hf] at h2
        refine ⟨fun heq => ?_, fun hnil => by simp at hnil⟩
        have := congrArg List.head? heq
        simp [ha, hlines, h1, h2, List.head?_append, hxy.symm] at this

namespace Editor

theorem splitLines_first (line cs : List Char) :
    ∃ rest more, splitLines line cs = String.ofList (line.reverse ++ rest) :: more := by
  induction cs generalizing line with
  | nil => exact ⟨[], [], by simp [splitLines]⟩
  | cons c cs ih =>
    unfold splitLines
    split
    · exact ⟨[], splitLines [] cs, by simp⟩
    · obtain ⟨rest, more, h⟩ := ih (c :: line)
      exact ⟨c :: rest, more, by simp [h]⟩

theorem splitLines_append {l : List Char} (hl : '\n' ∉ l) (line cs : List Char) :
    splitLines line (l ++ cs) = splitLines (l.reverse ++ line) cs := by
  induction l generalizing line with
  | nil => rfl
  | cons c l ih =>
    rw [List.cons_append, splitLines, if_neg fun h => hl (by simp [h]), ih fun h => hl (by simp [h])]
    simp

theorem commentText_prefix {comment : String} {l : List Char} (h : l <+: comment.toList)
    (hl : '\n' ∉ l) (indent : String) : l <+: (commentText indent comment).toList := by
  obtain ⟨cs, hcs⟩ := h
  obtain ⟨rest, more, hlines⟩ := splitLines_first (l.reverse ++ []) cs
  rw [← splitLines_append hl, hcs] at hlines
  unfold commentText
  rw [hlines]
  cases more <;> simp [joinWith]

end Editor

def Imports.lineTexts (u : SourceUnit) : List Bytes :=
  [encode (importLine u u.settings.clientService u.settings.clientServicePath),
    encode (importLine u u.settings.moduleName u.settings.modulePath)]

theorem Imports.mem_lineTexts {u : SourceUnit} {symbol path : String} (h : isWanted u symbol path) :
    encode (importLine u symbol path) ∈ lineTexts u := by
  rcases h with ⟨rfl, rfl⟩ | ⟨rfl, rfl⟩ <;> simp [lineTexts]

theorem Imports.importLine_head (u : SourceUnit) (symbol path : String) :
    (encode (importLine u symbol path)).head? = some 105 := by
  have hfirst : (encode "import \x7b ").head? = some 105 := by
    rw [show "import \x7b " = String.ofList _ from rfl, encode_ofList]
    rfl
  simp only [importLine, encode_append, List.append_assoc]
  rw [List.head?_append, hfirst]
  rfl

theorem Imports.lineTexts_head {u : SourceUnit} {text : Bytes} (h : text ∈ lineTexts u) :
    text.head? = some 105 := by
  simp only [lineTexts, List.mem_cons, List.not_mem_nil, or_false] at h
  rcases h with rfl | rfl <;> exact importLine_head _ _ _

namespace Calls

variable {u : SourceUnit} {σ : Scene} {t c : Tree} {p : Nat}

def IsStatement (u : SourceUnit) (s : Tree) : Prop :=
  ∃ b : Tree, b.Within u.root ∧ b.isAny (.program :: Tree.blockKinds) = true ∧ s ∈ b.children ∧
    s.children ≠ [] ∧ s.start < s.stop

/-- A statement that starts in a node is one of its own statements, starts strictly inside a child, or
is around the node. -/
theorem IsStatement.cases {s : Tree} (hu : u.Shaped) (h : IsStatement u s) (ht : t.Within u.root)
    (h1 : t.start ≤ s.start) (h2 : s.start < t.stop) :
    (s.start = t.start ∧ t ≠ u.root) ∨
    (t.isAny (.program :: Tree.blockKinds) = true ∧ s ∈ t.children ∧ s.children ≠ []) ∨
    ∃ d ∈ t.children, d.start < s.start ∧ s.start < d.stop := by
  obtain ⟨b, hb, hk, hs, hleaf, hne⟩ := h
  have hr := hu.ordered
  have hsr := (Tree.within_of_mem hs).trans hb
  have hbelow : s ≠ u.root := by
    rintro rfl
    have := hb.size_le
    have := Tree.size_child hs
    omega
  rcases Tree.within_or_apart hr hsr ht with h | h | h | h
  · rcases h.eq_or_below with rfl | ⟨d, hd, hsd⟩
    · exact .inl ⟨rfl, hbelow⟩
    have hdr := (Tree.within_of_mem hd).trans ht
    have hrange := hsd.range (Tree.everyNode_within hr hdr)
    rcases Tree.within_parent hr hb hs hne hdr hsd with rfl | hbd
    · obtain rfl := Tree.parent_unique hr ht hb hd hs hne
      exact .inr (.inl ⟨hk, hd, hleaf⟩)
    · obtain ⟨hblock, hown⟩ := hu.block ht hd hbd hk
      have h3 := Tree.ownToken_before (Tree.test_within hr hb) hown hblock hs hleaf
      have h4 := hbd.range (Tree.everyNode_within hr hdr)
      exact .inr (.inr ⟨d, hd, by omega, by omega⟩)
  · have hrange := h.range (Tree.everyNode_within hr hsr)
    refine .inl ⟨by omega, ?_⟩
    rintro rfl
    exact hbelow (hsr.antisymm h)
  · omega
  · omega

theorem IsStatement.nonempty {s : Tree} (h : IsStatement u s) : s.start < s.stop := by
  obtain ⟨-, -, -, -, -, h⟩ := h
  exact h

theorem IsStatement.not_inside {s : Tree} (hu : u.Nested) (ht : t.Within u.root)
    (hnone : ∀ b : Tree, b.Within t → b.isAny (.program :: Tree.blockKinds) = false)
    (hs : IsStatement u s) : ¬(t.start < s.start ∧ s.start < t.stop) := by
  rintro ⟨h1, h2⟩
  obtain ⟨b, hbr, hk, hsb, -, hlt⟩ := hs
  have hsr := (Tree.within_of_mem hsb).trans hbr
  rcases Tree.within_or_apart hu.ordered hsr ht with hw | hw | hw | hw
  · -- the block of the statement would be in the node
    rcases Tree.within_parent hu.ordered hbr hsb hlt ht hw with heq | hbp
    · rw [heq] at h1
      omega
    · rw [hnone b hbp] at hk
      cases hk
  · have := hw.range (Tree.everyNode_within hu.ordered hsr)
    omega
  · omega
  · omega

namespace Scene

/-- What is inserted before a child: before a statement, its advisories. -/
def label (σ : Scene) (t c : Tree) : Bytes :=
  if t.isAny (.program :: Tree.blockKinds) && !c.children.isEmpty then σ.around.inserted c.start else []

/-- The text of a node, put together from the texts of its children, each statement right after its
advisories. -/
def joined (σ : Scene) (t : Tree) : Bytes :=
  (σ.around.bare.fill t.children fun c => σ.label t c ++
    σ.piece (fun m => if _ : m.size < t.size then σ.joined m else []) t c).span t.start t.stop
termination_by t.size

def whole (σ : Scene) : Bytes :=
  (σ.around.bare.fill [σ.unit.root] σ.joined).span 0 σ.unit.source.length

/-- All insertions stand where statements start. -/
def Labelled (σ : Scene) : Prop :=
  ∀ p, σ.around.inserted p ≠ [] → ∃ s, IsStatement σ.unit s ∧ s.start = p

theorem joined_eq (ho : t.ordered = true) : σ.joined t =
    (σ.around.bare.fill t.children fun c => σ.label t c ++ σ.piece σ.joined t c).span t.start t.stop := by
  rw [joined]
  refine View.span_congr fun p _ _ => ?_
  simp only [View.cell, View.bare_fill_inserted]
  rw [View.fill_shown_congr rfl fun c hc hne => ?_]
  congr 1
  refine piece_congr ho hc hne rfl rfl fun m hm => ?_
  have h1 := hm.size_le
  have h2 := Tree.size_child hc
  rw [dif_pos (by omega)]

theorem Labelled.gap (hσ : σ.Labelled) (hu : σ.unit.Shaped) (ht : t.Within σ.unit.root)
    (h1 : t.start ≤ p) (h2 : p < t.stop) (hfree : ∀ d ∈ t.children, ¬(d.start ≤ p ∧ p < d.stop))
    (hfirst : p = t.start → t = σ.unit.root) : σ.around.inserted p = [] := by
  by_contra hne
  obtain ⟨s, hs, rfl⟩ := hσ p hne
  rcases hs.cases hu ht h1 h2 with ⟨h3, h4⟩ | ⟨-, hmem, -⟩ | ⟨d, hd, h3, h4⟩
  · exact h4 (hfirst h3)
  · exact hfree s hmem ⟨le_rfl, hs.nonempty⟩
  · exact hfree d hd ⟨h3.le, h4⟩

theorem Labelled.label_eq (hσ : σ.Labelled) (hu : σ.unit.Shaped) (ht : t.Within σ.unit.root)
    (hc : c ∈ t.children) (hne : c.start < c.stop) (hfirst : c.start = t.start → t = σ.unit.root) :
    σ.label t c = σ.around.inserted c.start := by
  have ho := Tree.test_within hu.ordered ht
  have hrange := Tree.inOrder_mem ho hc
  unfold label
  split
  · rfl
  rename_i hnot
  by_contra hins
  obtain ⟨s, hs, hstart⟩ := hσ _ (Ne.symm hins)
  have hlt := hs.nonempty
  rcases hs.cases hu ht (by omega) (by omega) with ⟨h1, h2⟩ | ⟨hk, hmem, hleaf⟩ | ⟨d, hd, h1, h2⟩
  · exact h2 (hfirst (by omega))
  · rcases Tree.inOrder_apart ho hmem hc with rfl | h3 | h3
    · exact hnot (by simp [hk, hleaf])
    · omega
    · omega
  · rcases Tree.inOrder_apart ho hd hc with rfl | h3 | h3 <;> omega

theorem label_first (hu : σ.unit.Shaped) (ht : t.Within σ.unit.root) (hroot : t ≠ σ.unit.root)
    (hc : c ∈ t.children) (hfirst : c.start = t.start) : σ.label t c = [] := by
  unfold label
  split
  · rename_i hk
    simp only [Bool.and_eq_true, Bool.not_eq_true', List.isEmpty_eq_false_iff] at hk
    cases ht with
    | self => exact absurd rfl hroot
    | @child d _ hd h =>
      obtain ⟨hblock, hown⟩ := hu.block .self hd h hk.1
      have ho := Tree.test_within hu.ordered (h.trans (Tree.within_of_mem hd))
      have := Tree.ownToken_before ho hown hblock hc hk.2
      omega
  · rfl

/-- The pieces of the children are the same, however their texts are put together. -/
theorem fill_span_joined (ho : t.ordered = true) {w : View}
    (hgap : ∀ p, t.start ≤ p → p < t.stop → (∀ d ∈ t.children, ¬(d.start ≤ p ∧ p < d.stop)) →
      w.cell p = σ.around.shown p)
    (hpiece : ∀ c ∈ t.children, c.start < c.stop →
      w.span c.start c.stop = σ.label t c ++ σ.piece σ.joined t c) :
    w.span t.start t.stop = σ.joined t := by
  rw [joined_eq ho]
  refine View.span_eq_of_pieces ho (fun p h1 h2 hf => ?_) fun c hc hne => ?_
  · rw [hgap p h1 h2 hf, View.cell, View.bare_fill_inserted, View.fill_shown_of_free hf]
    rfl
  · rw [hpiece c hc hne, View.span_hide _ hne, View.bare_fill_inserted, View.fill_span ho hc hne]
    rfl

/-- The text of a node below the root is put together from its children and their advisories. -/
theorem Labelled.text_eq_joined (hσ : σ.Labelled) (hu : σ.unit.Shaped) :
    ∀ {t : Tree}, t.Within σ.unit.root → t ≠ σ.unit.root → σ.text t = σ.joined t := by
  suffices ∀ n (t : Tree), t.size ≤ n → t.Within σ.unit.root → t ≠ σ.unit.root →
      σ.text t = σ.joined t from fun {t} => this t.size t le_rfl
  intro n
  induction n with
  | zero =>
    intro t hn
    cases t
    simp only [Tree.size] at hn
    omega
  | succ n ih =>
    intro t hn ht hroot
    have ho := Tree.test_within hu.ordered ht
    rw [text_eq ho, compose]
    refine fill_span_joined ho (fun p h1 h2 hf => ?_) fun c hc hne => ?_
    · by_cases hp : p = t.start
      · rw [hp, View.hide_cell_self, View.fill_shown_of_free (hp ▸ hf)]
      · rw [View.hide_cell_of_ne _ hp, View.cell, View.fill_shown_of_free hf,
          View.fill_inserted_of_free fun d hd hh => hf d hd ⟨hh.1.le, hh.2⟩,
          hσ.gap hu ht h1 h2 hf fun h => absurd h hp, List.nil_append]
    · have hrange := Tree.inOrder_mem ho hc
      have hpiece : σ.piece σ.text t c = σ.piece σ.joined t c := by
        refine piece_congr ho hc hne rfl rfl fun m hm => ?_
        have h1 := hm.size_le
        have h2 := Tree.size_child hc
        refine ih m (by omega) ((hm.trans (Tree.within_of_mem hc)).trans ht) ?_
        rintro rfl
        have h3 := ht.size_le
        omega
      rw [View.hide_span _ hrange.1 hne, View.fill_span ho hc hne, hpiece,
        View.fill_inserted_start ho hc hne]
      split
      · rename_i hfirst
        rw [label_first hu ht hroot hc hfirst]
      · rename_i hlater
        rw [hσ.label_eq hu ht hc hne fun h => absurd h hlater]

theorem Labelled.root_eq_joined (hσ : σ.Labelled) (hu : σ.unit.Shaped)
    (hne : σ.unit.root.start < σ.unit.root.stop) :
    σ.around.inserted σ.unit.root.start ++ σ.text σ.unit.root = σ.joined σ.unit.root := by
  have ho := Tree.test_within hu.ordered .self
  have hfirst : (σ.around.fill σ.unit.root.children (σ.piece σ.text σ.unit.root)).inserted
      σ.unit.root.start = σ.around.inserted σ.unit.root.start := by
    refine View.fill_inserted_of_free fun d hd hh => ?_
    have := Tree.inOrder_mem ho hd
    omega
  rw [text_eq ho, compose, ← hfirst, ← View.span_hide _ hne]
  refine fill_span_joined ho (fun p h1 h2 hf => ?_) fun c hc hne => ?_
  · rw [View.cell, View.fill_shown_of_free hf,
      View.fill_inserted_of_free fun d hd hh => hf d hd ⟨hh.1.le, hh.2⟩,
      hσ.gap hu .self h1 h2 hf fun _ => rfl, List.nil_append]
  · have hpiece : σ.piece σ.text σ.unit.root c = σ.piece σ.joined σ.unit.root c := by
      refine piece_congr ho hc hne rfl rfl fun m hm => ?_
      refine hσ.text_eq_joined hu (hm.trans (Tree.within_of_mem hc)) ?_
      rintro rfl
      have h1 := hm.size_le
      have h2 := Tree.size_child hc
      omega
    rw [View.span_hide _ hne, View.fill_span ho hc hne, hpiece, View.fill_inserted_start ho hc hne,
      hσ.label_eq hu .self hc hne fun _ => rfl]

/-- What is printed is put together from the nodes, each statement right after its advisories. -/
theorem Labelled.print_eq_whole (hσ : σ.Labelled) (hu : σ.unit.Shaped) : σ.print = σ.whole := by
  have hroot := hu.node .self
  have hstart : ∀ p, ¬(σ.unit.root.start ≤ p ∧ p < σ.unit.root.stop) → σ.around.inserted p = [] := by
    intro p hp
    by_contra hne
    obtain ⟨s, ⟨b, hb, -, hs, -, h1⟩, rfl⟩ := hσ p hne
    have := ((Tree.within_of_mem hs).trans hb).range hu.ordered
    exact hp (by omega)
  have hin : Tree.inOrder 0 σ.unit.source.length [σ.unit.root] = true := by
    simp only [Tree.inOrder, Bool.and_eq_true, decide_eq_true_eq]
    omega
  rw [print, whole, hstart _ (by omega), List.append_nil]
  refine View.span_eq_of_pieces hin (fun p _ _ hf => ?_) fun c hc hne => ?_
  · rw [View.cell, View.cell, View.fill_shown_of_free hf, View.fill_shown_of_free hf,
      View.bare_fill_inserted, View.fill_inserted_of_free fun d hd hh => hf d hd ⟨hh.1.le, hh.2⟩,
      hstart p (hf _ (by simp))]
    rfl
  · obtain rfl := List.mem_singleton.1 hc
    rw [View.span_hide (σ.around.fill _ _) hne, View.span_hide (σ.around.bare.fill _ _) hne,
      View.fill_span hin hc hne, View.fill_span hin hc hne, View.fill_inserted_start hin hc hne, View.bare_fill_inserted,
      hσ.root_eq_joined hu hne]
    rfl

end Scene

variable {K : List Place.RepositoryCall} {v : View} {sh ed : Editor}

theorem scene_print_head (hu : u.Nested) :
    (scene u v K).print = v.inserted 0 ++ (scene u (v.hide 0) K).print := by
  have htext : ∀ t, t.Within u.root → (scene u v K).text t = (scene u (v.hide 0) K).text t := by
    intro t ht
    refine Scene.text_congr (scene_unit u _ _ _ _) (Tree.everyNode_within hu.ordered ht)
      (fun _ _ _ => rfl) (fun q h1 _ => ?_) fun _ _ => rfl
    simp only [scene, View.hide, if_neg (show q ≠ 0 by omega)]
  have hshown : ∀ p, (v.fill [u.root] (scene u v K).text).shown p =
      ((v.hide 0).fill [u.root] (scene u (v.hide 0) K).text).shown p := fun p =>
    View.fill_shown_congr rfl fun c hc _ => by rw [List.mem_singleton.1 hc, htext _ .self]
  have hinserted : ∀ p, p ≠ 0 → (v.fill [u.root] (scene u v K).text).inserted p =
      ((v.hide 0).fill [u.root] (scene u (v.hide 0) K).text).inserted p := fun p hp =>
    View.fill_inserted_congr (by simp [View.hide, hp])
  have hhead : (v.fill [u.root] (scene u v K).text).inserted 0 = v.inserted 0 :=
    View.fill_inserted_of_free fun _ _ h => by omega
  have hhidden : ((v.hide 0).fill [u.root] (scene u (v.hide 0) K).text).inserted 0 = [] := by
    rw [View.fill_inserted_of_free fun _ _ h => by omega]
    simp [View.hide]
  simp only [Scene.print, scene]
  rcases Nat.eq_zero_or_pos u.source.length with hzero | hpos
  · simp [hzero, View.hide]
  · have hspan : (v.fill [u.root] (scene u v K).text).span 0 u.source.length = v.inserted 0 ++
        ((v.hide 0).fill [u.root] (scene u (v.hide 0) K).text).span 0 u.source.length := by
      rw [View.span_hide (v.fill _ _) hpos, View.span_hide ((v.hide 0).fill _ _) hpos, hhead, hhidden, List.nil_append]
      congr 1
      refine View.span_congr fun p _ _ => ?_
      by_cases hp : p = 0
      · rw [hp, View.hide_cell_self, View.hide_cell_self, hshown]
      · rw [View.hide_cell_of_ne _ hp, View.hide_cell_of_ne _ hp, View.cell, View.cell, hshown,
          hinserted p hp]
    have hend : (v.hide 0).inserted u.source.length = v.inserted u.source.length := by
      simp [View.hide, hpos.ne']
    rw [hend, ← List.append_assoc]
    exact congrArg (· ++ _) hspan

theorem advisory_opens {comment : String} (h : comment ∈ advisoryTexts) :
    ∃ c ∈ ['/', '*'], ['/', c] <+: comment.toList := by
  have hopens : ∀ {s : String} {c d : Char} {cs : List Char}, s = String.ofList (c :: d :: cs) →
      [c, d] <+: s.toList := by
    rintro s c d cs rfl
    rw [String.toList_ofList]
    exact ⟨cs, rfl⟩
  have happend : ∀ {s t : String}, (∃ c ∈ ['/', '*'], ['/', c] <+: s.toList) →
      ∃ c ∈ ['/', '*'], ['/', c] <+: (s ++ t).toList := by
    rintro s t ⟨c, hc, hs⟩
    rw [String.toList_append]
    exact ⟨c, hc, hs.trans (List.prefix_append _ _)⟩
  simp only [advisoryTexts, List.mem_cons, List.not_mem_nil, or_false] at h
  rcases h with rfl | rfl | rfl | rfl | rfl
  · delta Entities.entityAdvisory
    exact happend ⟨'/', by simp, hopens rfl⟩
  · exact ⟨'/', by simp, hopens rfl⟩
  · exact ⟨'/', by simp, hopens rfl⟩
  · delta Rules.builderExample
    simp only [joinWith]
    exact happend (happend ⟨'*', by simp, hopens rfl⟩)
  · exact ⟨'/', by simp, hopens rfl⟩

theorem advisory_written (indent : String) {comment : String} (h : comment ∈ advisoryTexts) :
    ∃ b ∈ ([47, 42] : Bytes), [47, b] <+: encode (Editor.commentText indent comment) := by
  obtain ⟨c, hc, hopens⟩ := advisory_opens h
  have hline : '\n' ∉ ['/', c] := by
    fin_cases hc <;> decide
  obtain ⟨rest, hrest⟩ := Editor.commentText_prefix hopens hline indent
  rw [encode_eq, ← hrest, encodeChars_append]
  fin_cases hc
  · exact ⟨47, by simp, List.prefix_append _ _⟩
  · exact ⟨42, by simp, List.prefix_append _ _⟩

theorem advisory_head (indent : String) {comment : String} (h : comment ∈ advisoryTexts) :
    (encode (Editor.commentText indent comment)).head? = some 47 := by
  obtain ⟨b, -, rest, hrest⟩ := advisory_written indent h
  rw [← hrest]
  rfl

theorem view_inserted (ed : Editor) (p : Nat) : ed.view.inserted p = (ed.notesAt p).flatten := by
  simp [Editor.view, Edit.view, Editor.notesAt, List.flatMap]

/-- What a pass inserts is an advisory before a statement, or an import line at the head. -/
theorem Around.insertion (hu : u.Regular) {e : Edit} (h : Around u e) (hins : e.start = e.stop) :
    (∃ q comment, comment ∈ advisoryTexts ∧ e.IsAdvisory u q comment ∧
        IsStatement u q.statement.tree) ∨
      (e.start = 0 ∧ e.replacement ∈ Imports.lineTexts u) := by
  cases h with
  | advisory q comment rooted nonempty inner below listed before =>
    obtain ⟨b, hb, hs, hk⟩ := rooted.statement_below hu.program below
    have hw := rooted.statement
    have hrange := hw.2.range (Tree.everyNode_within hu.ordered hw.1.within)
    simp only [Place.start, Place.stop] at nonempty
    exact .inl ⟨q, comment, listed, before, b, hb, hk, hs, hw.2.not_leaf inner, by omega⟩
  | line symbol path wanted start stop text => exact .inr ⟨start, text ▸ Imports.mem_lineTexts wanted⟩
  | injection edit => exact absurd hins (edit.nonempty hu.toNested).ne
  | registration site mem on _ =>
    have := Imports.registration_nonempty hu.toNested mem
    rw [on.1, on.2] at hins
    exact absurd hins this.ne
  | clause p path clause _ _ _ _ on nonempty =>
    rw [on.1, on.2] at hins
    exact absurd hins nonempty.ne
  | statement p path _ _ _ nonempty takes _ =>
    have h1 := takes.start_le
    have h2 := takes.le_stop
    simp only [Place.start, Place.stop] at nonempty
    omega

def headLines (u : SourceUnit) (ed : Editor) : List Bytes :=
  (ed.notesAt 0).filter (Imports.lineTexts u).contains

def headAdvisories (u : SourceUnit) (ed : Editor) : List Bytes :=
  (ed.notesAt 0).filter fun text => !(Imports.lineTexts u).contains text

/-- The source with its calls converted and its advisories before the statements, at the head too. -/
def attached (u : SourceUnit) (K : List Place.RepositoryCall) (sh : Editor) : Scene :=
  scene u ((sh.view.hide 0).put 0 (headAdvisories u sh).flatten) K

theorem mem_notesAt {text : Bytes} :
    text ∈ ed.notesAt p ↔ ∃ e ∈ ed.edits, e.start = e.stop ∧ e.start = p ∧ e.replacement = text := by
  simp only [Editor.notesAt, List.mem_map, List.mem_filter, Bool.and_eq_true, Edit.isInsertion_iff,
    beq_iff_eq, and_assoc]

/-- What is inserted stands where a statement starts, but for import lines at the head. -/
theorem Mirrors.inserted_before {all : List Place.RepositoryCall} (hu : u.Regular)
    (h : Mirrors u all K sh ed) {text : Bytes} (htext : text ∈ sh.notesAt p)
    (hor : text ∉ Imports.lineTexts u ∨ p ≠ 0) : ∃ s, IsStatement u s ∧ s.start = p := by
  obtain ⟨e, he, hins, rfl, rfl⟩ := mem_notesAt.1 htext
  rcases (h.around.all e he).insertion hu hins with ⟨q, _, -, hadv, hs⟩ | ⟨h1, h2⟩
  · exact ⟨_, hs, hadv.1.symm⟩
  · rcases hor with h3 | h3
    · exact absurd h2 h3
    · exact absurd h1 h3

theorem Mirrors.labelled {all : List Place.RepositoryCall} (hu : u.Regular)
    (h : Mirrors u all K sh ed) : (attached u K sh).Labelled := by
  intro p hp
  by_cases hzero : p = 0
  · subst hzero
    have hne : (headAdvisories u sh).flatten ≠ [] := by
      simpa [attached, scene, View.put, View.hide] using hp
    obtain ⟨text, htext⟩ := List.exists_mem_of_ne_nil (headAdvisories u sh) fun h =>
      hne (by simp [h])
    obtain ⟨hmem, hnot⟩ := List.mem_filter.1 htext
    have hline : text ∉ Imports.lineTexts u := by simpa using hnot
    exact h.inserted_before hu hmem (.inl hline)
  · have hne : (sh.notesAt p).flatten ≠ [] := by
      rw [← view_inserted]
      simpa [attached, scene, View.put, View.hide, hzero] using hp
    obtain ⟨text, hmem⟩ := List.exists_mem_of_ne_nil (sh.notesAt p) fun h => hne (by simp [h])
    exact h.inserted_before hu hmem (.inr hzero)

/-- What starts with a slash is an advisory, what starts with a letter an import line. -/
theorem Mirrors.head_byte {all : List Place.RepositoryCall} (hu : u.Regular)
    (h : Mirrors u all K sh ed) {text : Bytes} (htext : text ∈ sh.notesAt 0) :
    text.head? = some (if (Imports.lineTexts u).contains text then 105 else 47) := by
  obtain ⟨e, he, hins, -, rfl⟩ := mem_notesAt.1 htext
  split
  · rename_i hline
    exact Imports.lineTexts_head (List.contains_iff_mem.1 hline)
  · rename_i hline
    rcases (h.around.all e he).insertion hu hins with ⟨q, comment, hc, hadv, -⟩ | ⟨-, hmem⟩
    · rw [hadv.2.2]
      exact advisory_head _ hc
    · exact absurd (List.contains_iff_mem.2 hmem) hline

/-- Advisories and their statements. Every insertion of a pass is an advisory before the statement of
its place, or an import line at the head of the source. What is printed are the insertions at the head
in the order in which they were made, and then the source put together from its nodes, each statement
right after its advisories. So the first statement has its advisories right before it exactly if no
line was added after one of them. -/
theorem advisories_attached_iff (u : SourceUnit) (hu : u.Regular) (source : String)
    (hsource : u.source = encode source) (members : Pattern.Regex)
    (hm : Pattern.parse u.settings.memberPattern = .ok members) (s : Session)
    (hs : s.editor = { source := u.source }) :
    ∃ s' o K sh, (Outcome.stages u).result s = (.ok (), s') ∧ Ended u source members s' o K sh ∧
      (∀ e ∈ sh.edits, e.start = e.stop →
        (∃ q comment, comment ∈ advisoryTexts ∧ e.IsAdvisory u q comment ∧
            IsStatement u q.statement.tree) ∨
          (e.start = 0 ∧ e.replacement ∈ Imports.lineTexts u)) ∧
      (s'.flags.any = true →
        encode o.output =
          (s'.editor.notesAt 0).flatten ++ (scene u (sh.view.hide 0) K).whole ∧
        (encode o.output = (headLines u s'.editor).flatten ++ (attached u K sh).whole ↔
          (s'.editor.notesAt 0).Pairwise fun a b =>
            b ∈ Imports.lineTexts u → a ∈ Imports.lineTexts u)) := by
  obtain ⟨s', o, K, sh, hrun, hended, -⟩ := pass_ended hu hsource hm hs
  have hmirrors := hended.mirrors
  have hnotes : s'.editor.notesAt 0 = sh.notesAt 0 := hmirrors.notes 0 fun _ _ => by omega
  have hheads : headLines u s'.editor = headLines u sh := by rw [headLines, headLines, hnotes]
  refine ⟨s', o, K, sh, hrun, hended, fun e he hins => (hmirrors.around.all e he).insertion hu hins,
    fun hfired => ?_⟩
  have hlabelled := hmirrors.labelled hu
  have hrest : (scene u (sh.view.hide 0) K).Labelled := by
    intro p hp
    by_cases hzero : p = 0
    · simp [scene, View.hide, hzero] at hp
    · exact hlabelled p (by simpa [attached, scene, View.put, View.hide, hzero] using hp)
  have hprint : encode o.output =
      (sh.notesAt 0).flatten ++ (scene u (sh.view.hide 0) K).whole := by
    rw [hended.printed hfired, scene_print_head hu.toNested, view_inserted,
      hrest.print_eq_whole hu.toShaped]
  have hwhole : (attached u K sh).whole =
      (headAdvisories u sh).flatten ++ (scene u (sh.view.hide 0) K).whole := by
    have hview : ((sh.view.hide 0).put 0 (headAdvisories u sh).flatten).hide 0 = sh.view.hide 0 := by
      ext p <;> by_cases hp : p = 0 <;> simp [View.put, View.hide, hp]
    rw [← hlabelled.print_eq_whole hu.toShaped, attached, scene_print_head hu.toNested, hview,
      hrest.print_eq_whole hu.toShaped]
    simp [View.put, View.hide]
  rw [hnotes, hheads]
  refine ⟨hprint, ?_⟩
  rw [hprint, hwhole, ← List.append_assoc, List.append_left_inj, ← List.flatten_append]
  have hiff := sorted_flatten_iff (by decide : (105 : UInt8) ≠ 47) (Imports.lineTexts u).contains
    fun b hb => hmirrors.head_byte hu hb
  simpa only [headLines, headAdvisories, List.contains_iff_mem] using hiff

/-- An entity import at the head of a source, which is noted before the import of the source library
brings in the client. -/
def partedSample : String :=
  "import \x7b User \x7d from './user.entity';\nimport \x7b Repository \x7d from 'typeorm';\n"

def partedUnit : SourceUnit := ⟨encode partedSample, (parse .typescript partedSample).root, {}⟩

def partedRun : Except Fault Unit × Session :=
  (Outcome.stages partedUnit).result
    (Outcome.start partedUnit.source (parse .typescript partedSample) none)

theorem partedSample_run : partedRun.1.toOption = some () ∧
    partedRun.2.flags.any = true ∧
    partedRun.2.editor.notesAt 0 =
      [encode (Editor.commentText "" Imports.entityImportAdvisory),
        encode (Imports.importLine partedUnit "PrismaService" "./prisma.service")] ∧
    (Outcome.ofSession {} partedSample partedRun.2).toOption.map (·.output) =
      some "// TODO: review this entity import; Prisma generated types may replace it.\nimport \x7b PrismaService \x7d from './prisma.service';\nimport \x7b User \x7d from './user.entity';\n" := by
  decide +kernel

theorem advisories_attached_iff_sample : ∃ s' o K sh,
    partedRun = (.ok (), s') ∧ Outcome.ofSession {} partedSample s' = .ok o ∧
    encode o.output ≠ (headLines partedUnit s'.editor).flatten ++ (attached partedUnit K sh).whole := by
  obtain ⟨-, hfired, hnotes, -⟩ := partedSample_run
  obtain ⟨s', o, K, sh, hrun, hended, -, h⟩ := advisories_attached_iff partedUnit
    (parse_sheltered .typescript partedSample {}).toRegular partedSample (by simp only [partedUnit]) _
    Settings.exists_members.choose_spec (Outcome.start partedUnit.source (parse .typescript partedSample) none) rfl
  rw [partedRun, hrun] at hfired hnotes
  refine ⟨s', o, K, sh, hrun, hended.outcome, fun heq => ?_⟩
  have hsorted := (h hfired).2.1 heq
  rw [hnotes, List.pairwise_pair] at hsorted
  -- the advisory would have to be an import line
  have hline := hsorted (Imports.mem_lineTexts (.inl ⟨rfl, rfl⟩))
  have hlisted : Imports.entityImportAdvisory ∈ advisoryTexts := by simp [advisoryTexts]
  have hslash := advisory_head "" hlisted
  simp only [Imports.lineTexts, List.mem_cons, List.not_mem_nil, or_false] at hline
  rcases hline with hline | hline <;> rw [hline, Imports.importLine_head] at hslash <;>
    simp at hslash

/-- The advisory stands before the import of the client, and not before the import it is for. -/
theorem advisory_parted_sample :
    ∃ o, (Outcome.ofSource .typescript {} partedSample none).1 = .ok o ∧
      "types may replace it.\nimport \x7b PrismaService \x7d".toList <:+: o.output.toList ∧
      ¬"types may replace it.\nimport \x7b User \x7d".toList <:+: o.output.toList := by
  obtain ⟨hdone, -, -, hout⟩ := partedSample_run
  obtain ⟨o, ho, hout⟩ := exists_ok_of_map hout
  obtain ⟨s, hs⟩ := exists_eq_ok_of_fst hdone
  rw [hs] at ho
  dsimp only [partedRun, partedUnit] at hs
  refine ⟨o, by rw [Outcome.ofSource_eq, hs]; exact ho, ?_⟩
  rw [hout, Text.infix_iff rfl rfl, Text.infix_iff rfl rfl]
  set_option maxRecDepth 2000 in decide

end Calls

end OrmCodemod
