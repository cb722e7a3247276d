import OrmCodemod.Proofs.Injection
import OrmCodemod.Proofs.ListItems
import OrmCodemod.Proofs.Mirror
import OrmCodemod.Proofs.Wrapping

/-! The parameters of a constructor once its repositories are swapped. The client stands for the first
parameter that holds a repository, the other ones that do are gone, and the rest are as they were, with
commas between them. Of the modifiers of the first one the client keeps those of access and `readonly`,
and it is private where there is none of access. -/

namespace OrmCodemod

open Syntax Text Pass

namespace Calls

open Editor (itemRange sharesComma Emptied)

section Modifiers

variable {u : SourceUnit} {t : Tree}

def keptModifiers (t : Tree) : List Tree :=
  t.children.filter fun c => c.is .accessibilityModifier || c.isToken "readonly"

/-- A modifier of access stands before `readonly` and is not spelled like it. -/
def modifiersInOrder (source : Bytes) (t : Tree) : Bool :=
  match keptModifiers t with
  | [] => true
  | m :: rest =>
    if m.is .accessibilityModifier then m.text source != "readonly"
    else m.text source == "readonly" && rest.all (!·.is .accessibilityModifier)

/-- The client with the modifiers of a parameter, and private if none of them is of access. -/
def clientText (u : SourceUnit) (t : Tree) : String :=
  joinWith " " ((if t.children.any (·.is .accessibilityModifier) then [] else ["private"]) ++
    (keptModifiers t).map (·.text u.source)) ++ s!" {u.settings.clientMember}: {u.settings.clientService}"

theorem any_access : t.children.any (·.is .accessibilityModifier) =
    (keptModifiers t).any (·.is .accessibilityModifier) := by
  rw [keptModifiers, List.any_filter]
  refine List.any_congr rfl fun c => ?_
  cases c.is .accessibilityModifier <;> simp

theorem clientParameter_eq (h : modifiersInOrder u.source t = true) :
    clientParameter u t = clientText u t := by
  unfold clientParameter clientText
  rw [any_access]
  unfold modifiersInOrder at h
  change joinWith " " (if ((keptModifiers t).map (·.text u.source)).isEmpty ||
      ((keptModifiers t).map (·.text u.source)).head? == some "readonly" then
    "private" :: (keptModifiers t).map (·.text u.source)
    else (keptModifiers t).map (·.text u.source)) ++ _ = _
  cases hkept : keptModifiers t with
  | nil => rfl
  | cons m rest =>
    simp only [hkept] at h
    split at h
    · rename_i haccess
      have hne : m.text u.source ≠ "readonly" := by simpa using h
      simp [haccess, hne]
    · rename_i haccess
      rw [Bool.and_eq_true, beq_iff_eq, List.all_eq_true] at h
      have hnone : rest.any (·.is .accessibilityModifier) = false :=
        List.any_eq_false.2 fun c hc => by simpa using h.2 c hc
      simp [haccess, hnone, h.1]

end Modifiers

section Places

variable {u : SourceUnit} {method params first p : Place} {others : List Place} {before : Editor}

def holdsRepository (u : SourceUnit) (t : Tree) : Bool :=
  t.isAny [.requiredParameter, .optionalParameter] && isRepositoryParameter u t

theorem injected_eq (hparams : method.child? .parameters = some params)
    (hinj : injected u method = first :: others) :
    params.namedChildren.filter (fun p => holdsRepository u p.tree) = first :: others := by
  unfold injected at hinj
  rw [hparams] at hinj
  split at hinj
  · rename_i name params' _ heq
    cases heq
    split at hinj
    · cases hinj
    · exact hinj
  · cases hinj

/-- What stands for a parameter: the client for the first one that holds a repository, nothing for the
other ones that do, and else the text that it has. -/
def standIn (u : SourceUnit) (before : Editor) (first p : Place) : Option Bytes :=
  if holdsRepository u p.tree then
    if p.start = first.start then some (encode (clientText u first.tree)) else none
  else some (before.renderBytes p.start p.stop)

theorem standIn_none (h : standIn u before first p = none) :
    holdsRepository u p.tree = true ∧ p.start ≠ first.start := by
  unfold standIn at h
  split at h
  · split at h
    · cases h
    · exact ⟨‹_›, ‹_›⟩
  · cases h

end Places

section Earlier

variable {u : SourceUnit} {done : List Place} {params method : Place}

/-- The kinds of nodes in which edits are made before a constructor is converted. -/
def editedKinds : List NodeKind := .methodDefinition :: Tree.blockKinds

def unedited (t : Tree) : Bool := t.everyNode fun s => !s.isAny editedKinds

theorem named_of_edited {source : Bytes} {t y d : Tree} (h : t.isList source = true) (hy : y ∈ t.children)
    (hd : d.Within y) (hkind : d.isAny editedKinds = true) : y.kind.isNamed = true := by
  rcases Tree.isList_leaf h hy with hnamed | hleaf
  · exact hnamed
  · obtain rfl : d = y := hd.eq_or_below.resolve_right (by simp [hleaf])
    obtain ⟨k, -, hk⟩ := List.any_eq_true.1 hkind
    rw [Tree.is_iff.1 hk]
    rfl

def OnlyNotes (u : SourceUnit) (e : Edit) : Prop := e.start = e.stop → IsNote u e

theorem convertConstructors_notes (hu : u.Nested)
    (hdone : ∀ m ∈ done, m ∈ u.place.find [.methodDefinition]) {E : Fault → Session → Prop} :
    Holds (fun s => Recorded u (OnlyNotes u) s.editor) (done.forM (convertConstructor u))
      (fun _ s => Recorded u (OnlyNotes u) s.editor) E :=
  Holds.forM (I := fun _ s => Recorded u (OnlyNotes u) s.editor) fun l m r hl =>
    convertConstructor_holds hu (fun _ he heq => absurd heq (he.nonempty hu).ne)
      (hdone m (by simp [hl]))

/-- An edit is apart from a list, or in a node of it in which stand statements or methods. -/
def IsNested (list : Place) (e : Edit) : Prop :=
  e.stop ≤ list.start ∨ list.stop ≤ e.start ∨ ∃ y ∈ list.tree.children,
    e.inside y.start y.stop = true ∧ ∃ b : Tree, b.Within y ∧ b.isAny editedKinds = true

theorem nested_of_note (hu : u.Shaped) (hparams : params.Rooted u.root)
    (hkind : params.tree.is .formalParameters = true) {e : Edit} (heq : e.start = e.stop)
    (he : IsNote u e) : IsNested params e := by
  rcases he.cases hu hparams.within (Tree.not_isAny_of_is hkind (by decide)) with
    h | h | ⟨c, hc, h1, h2, b, hb, hk⟩
  · refine .inl ?_
    rw [← heq]
    exact h
  · exact .inr (.inl h)
  · refine .inr (.inr ⟨c, hc, Edit.inside_iff.2 (.inl ⟨heq, h1, h2⟩), b, hb, ?_⟩)
    rw [editedKinds, Tree.isAny, List.any_cons, Bool.or_eq_true]
    exact .inr hk

/-- A part of another method that does not hold the list's own is apart from the list, or in it with the
whole of the method. -/
theorem nested_of_part (hu : u.Shaped) (hm : method.Rooted u.root) (hparams : params ∈ method.children)
    (hkind : params.tree.is .formalParameters = true) (hne : params.start < params.stop) {m g : Place}
    (hmroot : m.Rooted u.root) (hlater : m.Later method) (hmk : m.tree.is .methodDefinition = true)
    (hg : g ∈ m.children) {e : Edit} (heq : e.start ≠ e.stop) (hle : e.start ≤ e.stop)
    (h1 : g.start ≤ e.start) (h2 : e.stop ≤ g.stop) : IsNested params e := by
  have hr := hu.ordered
  have hf := Place.tree_mem_children hparams
  have hfr := (hm.child hparams).within
  have hg' := Place.tree_mem_children hg
  have hgr := (hmroot.child hg).within
  unfold IsNested
  simp only [Place.start, Place.stop] at hne h1 h2 ⊢
  have hnot : ¬method.tree.Within m.tree := by
    intro hw
    have hempty := hlater hw
    have := Tree.child_range (Tree.everyNode_within hr hm.within) hf
    simp only [Place.start, Place.stop] at hempty
    omega
  have hother : g.tree ≠ params.tree := by
    intro h
    rw [h] at hg'
    exact hnot (Tree.parent_unique hr hm.within hmroot.within hf hg' hne ▸ .self)
  rcases Tree.within_or_apart hr hgr hfr with h | h | h | h
  · obtain ⟨y, hy, hw⟩ := h.eq_or_below.resolve_left hother
    have hyr := (Tree.within_of_mem hy).trans hfr
    have hrange := hw.range (Tree.everyNode_within hr hyr)
    have hin : e.inside y.start y.stop = true :=
      Edit.inside_iff.2 (.inr ⟨heq, by omega, by omega⟩)
    rcases Tree.within_parent hr hmroot.within hg' (by omega) hyr hw with rfl | hmy
    · rw [Tree.is_iff] at hkind hmk
      rw [Tree.parent_unique hr hfr hmroot.within hy hg' (by omega), hmk] at hkind
      cases hkind
    · exact .inr (.inr ⟨y, hy, hin, m.tree, hmy, by simp [editedKinds, Tree.isAny, hmk]⟩)
  · rcases Tree.within_parent hr hm.within hf hne hgr h with hsame | hw
    · exact absurd hsame hother
    · exact absurd (hw.trans (Tree.within_of_mem hg')) hnot
  · exact .inl (by omega)
  · exact .inr (.inl (by omega))

/-- What earlier constructors and notes did to a parameter list, they did to a node of it in which stand
statements or methods. -/
theorem nested_of_confined (hu : u.Shaped) (hm : method.Rooted u.root) (hparams : params ∈ method.children)
    (hkind : params.tree.is .formalParameters = true) (hne : params.start < params.stop)
    (hdone : ∀ m ∈ done, (m.Rooted u.root ∧ m.Later method) ∧ m.tree.is .methodDefinition = true)
    {e : Edit} (he : Confined done e) (hnote : OnlyNotes u e) (hle : e.start ≤ e.stop) :
    IsNested params e := by
  by_cases heq : e.start = e.stop
  · exact nested_of_note hu (hm.child hparams) hkind heq (hnote heq)
  · obtain ⟨m, hmem, g, hg, h1, h2⟩ := he.resolve_left heq
    obtain ⟨⟨hmroot, hlater⟩, hmk⟩ := hdone m hmem
    exact nested_of_part hu hm hparams hkind hne hmroot hlater hmk hg heq hle h1 h2

end Earlier

def swapChanges (u : SourceUnit) (first : Place) (others : List Place) : List Editor.Change :=
  arrival u first :: others.map departure

/-- A parameter list in an editor when its repositories are to be swapped, and no two of the parameters
to remove share a comma. -/
structure SwapReady (u : SourceUnit) (params first : Place) (others : List Place) (before : Editor) :
    Prop where
  listed : Listed u params (first :: others)
  filtered : params.namedChildren.filter (fun p => holdsRepository u p.tree) = first :: others
  isList : params.tree.isList u.source = true
  modifiers : modifiersInOrder u.source first.tree = true
  source : before.source = u.source
  sound : before.Sound
  untangled : Untangled others
  spared : Spared before first others
  nested : ∀ e ∈ before.edits, IsNested params e

namespace SwapReady

variable {u : SourceUnit} {params first p q : Place} {others : List Place} {before : Editor}
  (h : SwapReady u params first others before) (hu : u.Nested)
include h

theorem mem_repositories : (p ∈ params.namedChildren ∧ holdsRepository u p.tree = true) ↔
    p = first ∨ p ∈ others := by
  rw [← List.mem_cons, ← h.filtered, List.mem_filter]

include hu

theorem before_first (hp : p ∈ others) : first.stop ≤ (itemRange p).1 :=
  ((List.pairwise_cons.1 (h.listed.pairwise hu)).1 p hp).1

/-- Exactly the parameters to remove have nothing that stands for them. -/
theorem standIn_none_iff (hp : p ∈ params.namedChildren) :
    standIn u before first p = none ↔ p ∈ others := by
  constructor
  · intro hnone
    obtain ⟨hholds, hstart⟩ := standIn_none hnone
    rcases h.mem_repositories.1 ⟨hp, hholds⟩ with rfl | hmem
    · exact absurd rfl hstart
    · exact hmem
  · intro hmem
    have hholds := (h.mem_repositories.2 (.inr hmem)).2
    have hle := h.before_first hu hmem
    have hfirst := h.listed.bounds hu (p := first) (by simp)
    have hb := h.listed.bounds hu (p := p) (by simp [hmem])
    rw [standIn, if_pos hholds, if_neg (by omega)]

theorem fits : before.Fits (swapChanges u first others) := by
  have hrange : ∀ p ∈ first :: others, p.start < p.stop ∧ (itemRange p).1 < (itemRange p).2 ∧
      p.stop ≤ before.source.length ∧ (itemRange p).2 ≤ before.source.length := by
    intro p hp
    have hb := h.listed.bounds hu hp
    have hn := hu.node h.listed.rooted.within
    rw [h.source]
    simp only [Place.start, Place.stop] at *
    omega
  refine ⟨fun c hc => ?_, fun c hc => ?_, ?_⟩
  · rcases List.mem_cons.1 hc with rfl | hc
    · exact h.spared.first
    · obtain ⟨p, hp, rfl⟩ := List.mem_map.1 hc
      exact h.spared.others p hp
  · rcases List.mem_cons.1 hc with rfl | hc
    · have := hrange first (by simp)
      exact ⟨this.1, this.2.2.1⟩
    · obtain ⟨p, hp, rfl⟩ := List.mem_map.1 hc
      have := hrange p (by simp [hp])
      exact ⟨this.2.1, this.2.2.2⟩
  · refine List.pairwise_cons.2 ⟨fun c hc => ?_, List.pairwise_map.2 ?_⟩
    · obtain ⟨p, hp, rfl⟩ := List.mem_map.1 hc
      exact h.before_first hu hp
    · refine ((List.pairwise_cons.1 (h.listed.pairwise hu)).2.and h.untangled).imp ?_
      rintro p q ⟨⟨-, hiff⟩, hno⟩
      dsimp only [departure]
      by_contra hlt
      rw [hiff.2 (by omega)] at hno
      cases hno

theorem shows : before.ShowsChanges (swapChanges u first others) := (h.fits hu).shows h.sound

omit hu in
/-- Nothing cuts into a part of the list that holds or spares every node of it. -/
theorem clear {a b : Nat} (ha : params.start ≤ a) (hb : b ≤ params.stop)
    (hparts : ∀ y ∈ params.tree.children, (a ≤ y.start ∧ y.stop ≤ b) ∨ y.stop ≤ a ∨ b ≤ y.start) :
    before.Clear a b := by
  intro e he
  rcases h.nested e he with hle | hle | ⟨y, hy, hin, -⟩
  · exact .inr (.inl (by omega))
  · exact .inr (.inr (by omega))
  · rw [Edit.inside_iff] at hin ⊢
    have := h.sound.range e he
    have := hparts y hy
    omega

omit h hu in
/-- What the editor shows of a range of the list is what it renders, where nothing is inserted at its
start. -/
theorem span_rendered {ed : Editor} (hs : ed.Sound) {a b : Nat} (ha : params.start ≤ a) (hab : a ≤ b)
    (hclear : ed.Clear a b) (hins : a < b → (ed.view.hide params.start).inserted a = []) :
    (ed.view.hide params.start).span a b = ed.renderBytes a b := by
  rw [Editor.renderBytes_eq hs hab hclear]
  rcases Nat.eq_or_lt_of_le hab with rfl | hlt
  · simp
  · rw [View.hide_span _ ha hlt]
    by_cases hstart : a = params.start
    · rw [if_pos hstart, List.nil_append]
    · have hnone := hins hlt
      simp only [View.hide, if_neg hstart] at hnone
      rw [if_neg hstart, hnone, List.nil_append]

theorem inserted_child {c : Tree} (hc : c ∈ params.tree.children) (hlt : c.start < params.stop) :
    ((before.changedBy (swapChanges u first others)).view.hide params.start).inserted c.start = [] := by
  have ho := Tree.test_within hu.ordered h.listed.rooted.within
  simp only [View.hide]
  split
  · rfl
  rename_i hstart
  have hcr := Tree.inOrder_mem ho hc
  refine Edit.inserted_of_free fun e he heq hat => ?_
  rcases Editor.mem_changedBy he with he | ⟨d, hd, h1, h2⟩
  · rcases h.nested e he with hle | hle | ⟨y, hy, hin, -⟩
    · simp only [Place.start, Place.stop] at *
      omega
    · omega
    · rw [Edit.inside_iff] at hin
      rcases Tree.inOrder_apart ho hc hy with rfl | h3 | h3 <;> omega
  · have := (h.fits hu).range d hd
    omega

theorem changes_apart_kept (hp : p ∈ params.namedChildren) (hkept : holdsRepository u p.tree = false) :
    ∀ c ∈ swapChanges u first others, c.stop ≤ p.start ∨ p.stop ≤ c.start := by
  obtain ⟨hchild, hnamed⟩ := Emptied.mem_named.1 hp
  have ho := Tree.test_within hu.ordered h.listed.rooted.within
  have hother : ∀ q ∈ first :: others, q.tree ≠ p.tree := by
    intro q hq heq
    have := (h.mem_repositories.2 (List.mem_cons.1 hq)).2
    rw [heq, hkept] at this
    cases this
  intro c hc
  rcases List.mem_cons.1 hc with rfl | hc
  · rcases Tree.inOrder_apart ho (Place.tree_mem_children (h.listed.mem (p := first) (by simp)))
      (Place.tree_mem_children hchild) with heq | hle | hle
    · exact absurd heq (hother first (by simp))
    · exact .inl hle
    · exact .inr hle
  · obtain ⟨q, hq, rfl⟩ := List.mem_map.1 hc
    rcases Editor.itemRange_siblings h.listed.rooted (h.listed.mem (p := q) (by simp [hq])) hu.ordered
      (Place.tree_mem_children hchild) with hle | hle | ⟨heq | hcomma, -⟩
    · exact .inr hle
    · exact .inl hle
    · exact absurd heq.symm (hother q (by simp [hq]))
    · rw [Emptied.not_comma hnamed] at hcomma
      cases hcomma

theorem span_left (hp : p ∈ params.namedChildren) {text : Bytes}
    (htext : standIn u before first p = some text) :
    ((before.changedBy (swapChanges u first others)).view.hide params.start).span p.start p.stop =
      text := by
  have hshows := h.shows hu
  obtain ⟨hchild, -⟩ := Emptied.mem_named.1 hp
  have hpr := Place.child_range h.listed.rooted hu.ordered hchild
  have ho := Tree.test_within hu.ordered h.listed.rooted.within
  have hins : p.start < p.stop → ((before.changedBy (swapChanges u first others)).view.hide
      params.start).inserted p.start = [] := fun hlt =>
    h.inserted_child hu (Place.tree_mem_children hchild)
      (by simp only [Place.start, Place.stop] at *; omega)
  unfold standIn at htext
  split at htext
  · rename_i hholds
    split at htext
    · rename_i hstart
      obtain rfl : p = first := by
        refine (h.mem_repositories.1 ⟨hp, hholds⟩).resolve_right fun hmem => ?_
        have hnone := (h.standIn_none_iff hu hp).2 hmem
        simp [standIn, hholds, hstart] at hnone
      have hmem : arrival u p ∈ swapChanges u p others := List.mem_cons_self
      rw [span_rendered hshows.sound hpr.1 hpr.2.1 ((h.fits hu).clear_change hmem) hins]
      have := hshows.texts _ hmem
      rw [arrival, clientParameter_eq h.modifiers] at this
      exact this.trans (Option.some.inj htext)
    · cases htext
  · rename_i hkept
    have happart := h.changes_apart_kept hu hp (by simpa using hkept)
    have hclear : before.Clear p.start p.stop := by
      refine h.clear hpr.1 hpr.2.2 fun y hy => ?_
      rcases Tree.inOrder_apart ho hy (Place.tree_mem_children hchild) with rfl | hle | hle
      · exact .inl ⟨le_rfl, le_rfl⟩
      · exact .inr (.inl hle)
      · exact .inr (.inr hle)
    rw [span_rendered hshows.sound hpr.1 hpr.2.1 (Editor.changedBy_clear hclear fun c hc =>
      ⟨((h.fits hu).range c hc).1, .inr (happart c hc)⟩) hins, hshows.apart _ _ happart]
    exact Option.some.inj htext

theorem span_gone (hp : p ∈ others) :
    ((before.changedBy (swapChanges u first others)).view.hide params.start).span (itemRange p).1
      (itemRange p).2 = [] := by
  have hshows := h.shows hu
  have hmem : departure p ∈ swapChanges u first others :=
    List.mem_cons_of_mem _ (List.mem_map_of_mem hp)
  have hchild := h.listed.mem (p := p) (by simp [hp])
  have hb := h.listed.bounds hu (p := p) (by simp [hp])
  have hclear : (before.changedBy (swapChanges u first others)).Clear (itemRange p).1 (itemRange p).2 :=
    (h.fits hu).clear_change hmem
  rw [span_rendered hshows.sound hb.1 (by omega) hclear fun _ => ?_]
  · exact hshows.texts _ hmem
  · rcases Editor.itemRange_fst p with hstart | ⟨comma, hcomma, -, -, hstart⟩
    · rw [hstart]
      exact h.inserted_child hu (Place.tree_mem_children hchild) (by
        simp only [Place.start, Place.stop] at *
        omega)
    · obtain ⟨l, r, hsplit, hpath⟩ := Place.mem_children hchild
      have hbefore : p.before = l.reverse := by simp [Place.before, hpath]
      have hin : comma ∈ params.tree.children := by
        rw [hsplit]
        refine List.mem_append_left _ (List.mem_reverse.1 ?_)
        rw [← hbefore]
        exact List.mem_of_mem_head? hcomma
      rw [hstart]
      exact h.inserted_child hu hin (by omega)

theorem span_free {a b : Nat} (ha : params.start ≤ a) (hab : a ≤ b) (hb : b ≤ params.stop)
    (hitems : ∀ p ∈ params.namedChildren, p.stop ≤ a ∨ b ≤ p.start)
    (hgone : ∀ p ∈ others, (itemRange p).2 ≤ a ∨ b ≤ (itemRange p).1) :
    ((before.changedBy (swapChanges u first others)).view.hide params.start).span a b =
      slice u.source a b := by
  have hfirst := (h.mem_repositories.2 (.inl rfl)).1
  -- no edit covers an offset of the range or inserts there
  have hfree : ∀ e ∈ (before.changedBy (swapChanges u first others)).edits,
      e.start ≤ e.stop ∧ (e.stop ≤ params.start ∨ (e.start = e.stop ∧ e.stop < a) ∨
        (e.start < e.stop ∧ e.stop ≤ a) ∨ b ≤ e.start) := by
    intro e he
    refine ⟨((h.shows hu).sound.range e he).1, ?_⟩
    rcases Editor.mem_changedBy he with he | ⟨c, hc, h1, h2⟩
    · have hrange := (h.sound.range e he).1
      rcases h.nested e he with hle | hle | ⟨y, hy, hin, d, hd, hkind⟩
      · exact .inl hle
      · exact .inr (.inr (.inr (by omega)))
      · have hnamed := named_of_edited h.isList hy hd hkind
        rw [← Place.map_tree_children] at hy
        obtain ⟨p, hp, rfl⟩ := List.mem_map.1 hy
        have := hitems p (Emptied.mem_named.2 ⟨hp, hnamed⟩)
        rw [Edit.inside_iff] at hin
        simp only [Place.start, Place.stop] at *
        omega
    · have hne := ((h.fits hu).range c hc).1
      rcases List.mem_cons.1 hc with rfl | hc
      · have := hitems first hfirst
        simp only [arrival] at h1 h2 hne
        omega
      · obtain ⟨p, hp, rfl⟩ := List.mem_map.1 hc
        have := hgone p hp
        simp only [departure] at h1 h2 hne
        omega
  have hsource : (before.changedBy (swapChanges u first others)).source = u.source := h.source
  refine View.span_source hab fun o h1 h2 => ?_
  have hshown : (before.changedBy (swapChanges u first others)).view.shown o =
      slice u.source o (o + 1) := by
    rw [← hsource]
    refine Edit.shown_of_free fun e he => ?_
    rw [← Bool.not_eq_true, Edit.covers_iff]
    have := hfree e he
    omega
  have hins : ((before.changedBy (swapChanges u first others)).view.hide params.start).inserted o = [] := by
    simp only [View.hide]
    split
    · rfl
    · refine Edit.inserted_of_free fun e he heq hat => ?_
      have := hfree e he
      omega
  rw [View.cell, hins, List.nil_append]
  exact hshown

theorem emptied : Emptied u.source params (standIn u before first)
    ((before.changedBy (swapChanges u first others)).view.hide params.start) where
  left p hp text htext := h.span_left hu hp htext
  gone p hp hnone := by
    have hmem := (h.standIn_none_iff hu hp).1 hnone
    exact ⟨(h.listed.bounds hu (p := p) (by simp [hmem])).2.2.1, h.span_gone hu hmem⟩
  apart p hp q hq hnone hnone' hle := by
    have hmem := (h.standIn_none_iff hu hp).1 hnone
    have hmem' := (h.standIn_none_iff hu hq).1 hnone'
    have hp' := h.listed.bounds hu (p := p) (by simp [hmem])
    have hq' := h.listed.bounds hu (p := q) (by simp [hmem'])
    let Apart (p q : Place) : Prop := (itemRange p).2 ≤ (itemRange q).1 ∨ (itemRange q).2 ≤ (itemRange p).1
    have : Std.Symm Apart := ⟨fun _ _ h => h.symm⟩
    have hpair : others.Pairwise Apart :=
      (List.pairwise_map.1 (List.pairwise_cons.1 (h.fits hu).inOrder).2).imp fun hle => .inl hle
    have hne : p ≠ q := by
      rintro rfl
      omega
    rcases hpair.forall hmem hmem' hne with hlt | hlt
    · exact hlt
    · omega
  free a b ha hab hb hitems hgone := by
    refine h.span_free hu ha hab hb hitems fun p hp => ?_
    have hin := (h.mem_repositories.2 (.inr hp)).1
    exact hgone p hin ((h.standIn_none_iff hu hin).2 hp)

theorem clear_list :
    (before.changedBy (swapChanges u first others)).Clear params.start params.stop := by
  have hbounds := h.listed.bounds hu (p := first) (by simp)
  have ho := Tree.test_within hu.ordered h.listed.rooted.within
  refine Editor.changedBy_clear (h.clear le_rfl le_rfl fun y hy => .inl ?_) fun c hc =>
    ⟨((h.fits hu).range c hc).1, .inl ?_⟩
  · exact ⟨(Tree.inOrder_mem ho hy).1, (Tree.inOrder_mem ho hy).2.2⟩
  · rcases List.mem_cons.1 hc with rfl | hc
    · simp only [arrival]
      omega
    · obtain ⟨p, hp, rfl⟩ := List.mem_map.1 hc
      have := h.listed.bounds hu (p := p) (by simp [hp])
      simp only [departure]
      omega

/-- Once the swap is made the list reads as the texts that stand for the parameters. -/
theorem reads : ReadsAs (encode "(" :: (commaed (closedByComma params.tree.children.tail)
    (params.namedChildren.filterMap (standIn u before first)) ++ [encode ")"]))
    ((before.changedBy (swapChanges u first others)).renderBytes params.start params.stop) := by
  have hrange : params.start ≤ params.stop := (hu.node h.listed.rooted.within).1
  rw [Editor.renderBytes_eq (h.shows hu).sound hrange (h.clear_list hu)]
  refine (h.emptied hu).reads_list h.listed.rooted hu.ordered h.isList fun p hp hnone => ?_
  -- the first of them holds no repository, or is the first one that does
  obtain ⟨rest, hrest⟩ : ∃ rest, params.namedChildren = p :: rest := List.head?_eq_some_iff.1 hp
  have hfirst := h.filtered
  rw [hrest, List.filter_cons, if_pos (standIn_none hnone).1] at hfirst
  exact (standIn_none hnone).2 (congrArg Place.start (List.cons.inj hfirst).1)

theorem text_unedited (hp : p ∈ params.namedChildren) (hplain : unedited p.tree = true) :
    before.renderBytes p.start p.stop = slice u.source p.start p.stop := by
  obtain ⟨hchild, -⟩ := Emptied.mem_named.1 hp
  have hpr := Place.child_range h.listed.rooted hu.ordered hchild
  have ho := Tree.test_within hu.ordered h.listed.rooted.within
  have hnone : before.edits.filter (·.inside p.start p.stop) = [] := by
    refine List.filter_eq_nil_iff.2 fun e he hin => ?_
    have hrange := h.sound.range e he
    rw [Edit.inside_iff] at hin
    rcases h.nested e he with hle | hle | ⟨y, hy, hin', d, hd, hkind⟩
    · omega
    · omega
    · rw [Edit.inside_iff] at hin'
      rcases Tree.inOrder_apart ho (Place.tree_mem_children hchild) hy with rfl | hle | hle
      · have := Tree.test_within hplain hd
        simp [hkind] at this
      · simp only [Place.start, Place.stop] at *
        omega
      · simp only [Place.start, Place.stop] at *
        omega
  rw [Editor.renderBytes, hnone, ← h.source]
  rfl

end SwapReady

/-- A constructor with repositories in a list of parameters, before it is converted: its edits are those of
earlier constructors and notes. -/
theorem swapReady_of_confined {u : SourceUnit} {method params first : Place}
    {done others : List Place} {ed : Editor} (hu : u.Shaped)
    (hm : method ∈ u.place.find [.methodDefinition])
    (hdone : ∀ m ∈ done, (m.Rooted u.root ∧ m.Later method) ∧ m.tree.is .methodDefinition = true)
    (hinj : injected u method = first :: others) (hparams : method.child? .parameters = some params)
    (hkind : params.tree.is .formalParameters = true) (hlist : params.tree.isList u.source = true)
    (hmodifiers : modifiersInOrder u.source first.tree = true) (huntangled : Untangled others)
    (hconfined : Recorded u (Confined done) ed) (hnotes : Recorded u (OnlyNotes u) ed) :
    SwapReady u params first others ed := by
  have hroot := Place.find_rooted u.place_rooted hm
  have hmem : params ∈ method.children := List.mem_of_find?_eq_some hparams
  have hfiltered := injected_eq hparams hinj
  have hlisted : Listed u params (first :: others) := by
    refine ⟨hroot.child hmem, ?_, fun p hp => mem_injected hm (hinj ▸ hp)⟩
    rw [← hfiltered]
    exact List.filter_sublist.trans List.filter_sublist
  have hne := hlisted.bounds hu.toNested (p := first) (by simp)
  refine ⟨hlisted, hfiltered, hlist, hmodifiers, hconfined.source, hconfined.sound, huntangled,
    spared_of_confined hu.toNested hroot hmem hlisted (fun m hm => (hdone m hm).1) hconfined.all,
    fun e he => ?_⟩
  exact nested_of_confined hu hroot hmem hkind (by omega) hdone (hconfined.all e he) (hnotes.all e he)
    (hconfined.sound.range e he).1

/-- A constructor whose swap ends without an overlap has, but for white space, the list of parameters with
the client for the first one that holds a repository and without the other ones that do; the rest have the
texts they had before, and so those of the source where no statements and no methods stand in them. -/
theorem parameters_swapped (u : SourceUnit) (hu : u.Shaped) (s : Session)
    (hs : Recorded u (IsNote u) s.editor) (done rest : List Place) (method : Place)
    (hfind : u.place.find [.methodDefinition] = done ++ method :: rest) (first : Place)
    (others : List Place) (hinj : injected u method = first :: others) (params : Place)
    (hparams : method.child? .parameters = some params)
    (hkind : params.tree.is .formalParameters = true) (hlist : params.tree.isList u.source = true)
    (hmodifiers : modifiersInOrder u.source first.tree = true) :
    ∃ before after, (done.forM (convertConstructor u)).result s = (.ok (), before) ∧
      (convertConstructor u method).result before = (.ok (), after) ∧
      (((swap u first others).result before).1 = .ok () →
        ReadsAs (encode "(" :: (commaed (closedByComma params.tree.children.tail)
          (params.namedChildren.filterMap (standIn u before.editor first)) ++ [encode ")"]))
          (after.editor.renderBytes params.start params.stop) ∧
        (∃ l r, after.editor.printBytes =
          l ++ after.editor.renderBytes params.start params.stop ++ r) ∧
        ∀ p ∈ params.namedChildren, unedited p.tree = true →
          before.editor.renderBytes p.start p.stop = slice u.source p.start p.stop) := by
  have hfound : ∀ m ∈ done, m ∈ u.place.find [.methodDefinition] := fun m hm =>
    hfind ▸ List.mem_append_left _ hm
  have hm : method ∈ u.place.find [.methodDefinition] := by simp [hfind]
  obtain ⟨_, before, hrun, hconfined⟩ := (convertConstructors_confined (E := fun _ _ => False)
    hu.toNested hfound).exists_ok (hs.imp fun _ he => he.1)
  have hnotes := (convertConstructors_notes (E := fun _ _ => False) hu.toNested hfound).ok
    (hs.imp fun _ he _ => he) hrun
  have hlater := methods_later hu.toNested hfind
  obtain ⟨params', hparams', hlisted⟩ := injected_listed hm (by simp [hinj])
  rw [hinj] at hlisted
  have hspared := spared_of_confined hu.toNested (Place.find_rooted u.place_rooted hm) hparams' hlisted
    hlater hconfined.all
  obtain ⟨after, hres, hcases⟩ := convertConstructor_result hu.toNested hinj hlisted hspared
  refine ⟨before, after, hrun, hres, fun hok => ?_⟩
  have hun : Untangled others := by
    rcases swap_result hu.toNested hlisted hspared with ⟨hun, -⟩ | ⟨_, _, _, _, -, -, -, herror⟩
    · exact hun
    · rw [herror] at hok
      cases hok
  have hswapped : IsSwapped u first others before after := by
    rcases hcases with ⟨-, hswapped⟩ | hhalf
    · exact hswapped
    · exact absurd hun (hhalf.not_whole hconfined.sound).1
  have hdone : ∀ m ∈ done, (m.Rooted u.root ∧ m.Later method) ∧ m.tree.is .methodDefinition = true :=
    fun m hmem => ⟨hlater m hmem, by simpa [Tree.isAny] using (List.mem_filter.1 (hfound m hmem)).2⟩
  have h := swapReady_of_confined hu hm hdone hinj hparams hkind hlist hmodifiers hun hconfined hnotes
  have heditor : after.editor = before.editor.changedBy (swapChanges u first others) := by
    rw [hswapped]
    rfl
  have hsource : (before.editor.changedBy (swapChanges u first others)).source = u.source := h.source
  have hrange := hu.node h.listed.rooted.within
  rw [heditor]
  refine ⟨h.reads hu.toNested, ⟨_, _, Editor.printBytes_around (h.shows hu.toNested).sound hrange.1 ?_
    (h.clear_list hu.toNested)⟩, fun p hp hplain => h.text_unedited hu.toNested hp hplain⟩
  rw [hsource]
  exact hrange.2

/-- Repositories between other parameters, and a comma after the last one. -/
def mixedSample : String :=
  "class A \x7b constructor(b: B, @InjectRepository(X) readonly xs: Repository<X>, " ++
    "private ys: Repository<Y>, c = 1,) \x7b\x7d \x7d"

def mixedUnit : SourceUnit := ⟨encode mixedSample, (parse .typescript mixedSample).root, {}⟩

def mixedStart : Session := { editor := { source := mixedUnit.source } }

theorem mixedUnit_told :
    (mixedUnit.place.find [.methodDefinition]).map (fun m =>
      ((injected mixedUnit m).length, (m.child? .parameters).isSome)) = [(2, true)] ∧
    ∀ m ∈ mixedUnit.place.find [.methodDefinition], ∀ params ∈ (m.child? .parameters).toList,
      ∀ first ∈ (injected mixedUnit m).head?.toList,
        params.tree.is .formalParameters = true ∧ params.tree.isList mixedUnit.source = true ∧
        modifiersInOrder mixedUnit.source first.tree = true ∧
        ((swap mixedUnit first (injected mixedUnit m).tail).result mixedStart).1.isOk = true ∧
        closedByComma params.tree.children.tail = true ∧
        params.namedChildren.filterMap (standIn mixedUnit mixedStart.editor first) =
          [encode "b: B", encode "private readonly prisma: PrismaService", encode "c = 1"] := by
  decide +kernel

theorem parameters_swapped_sample : ∃ (method params : Place) (after : Session),
    mixedUnit.place.find [.methodDefinition] = [method] ∧
    (convertConstructor mixedUnit method).result mixedStart = (.ok (), after) ∧
    ReadsAs (["(", "b: B", ",", "private readonly prisma: PrismaService", ",", "c = 1", ",", ")"].map
      encode) (after.editor.renderBytes params.start params.stop) := by
  obtain ⟨hmethods, htold⟩ := mixedUnit_told
  obtain ⟨method, hfind⟩ : ∃ method, mixedUnit.place.find [.methodDefinition] = [method] :=
    List.length_eq_one_iff.1 (by simpa using congrArg List.length hmethods)
  rw [hfind] at hmethods htold
  simp only [List.map_cons, List.map_nil, List.cons.injEq, Prod.mk.injEq, and_true] at hmethods
  obtain ⟨params, hparams⟩ := Option.isSome_iff_exists.1 hmethods.2
  cases hinj : injected mixedUnit method with
  | nil => simp [hinj] at hmethods
  | cons first others =>
    obtain ⟨hkind, hlist, hmodifiers, hok, hclosed, htexts⟩ := htold method List.mem_cons_self params
      (by simp [hparams]) first (by simp [hinj])
    rw [hinj, List.tail_cons] at hok
    obtain ⟨before, after, hbefore, hafter, hswap⟩ := parameters_swapped mixedUnit
      (parse_sheltered .typescript mixedSample {}).toShaped mixedStart (Recorded.fresh _ _) [] [] method hfind first others hinj params hparams hkind hlist
      hmodifiers
    obtain rfl : mixedStart = before := (Prod.ext_iff.1 hbefore).2
    have hended : ((swap mixedUnit first others).result mixedStart).1 = .ok () := by
      cases hres : ((swap mixedUnit first others).result mixedStart).1 with
      | ok _ => rfl
      | error e => simp [hres, Except.isOk, Except.toBool] at hok
    obtain ⟨hreads, -, -⟩ := hswap hended
    rw [hclosed, htexts] at hreads
    exact ⟨method, params, after, hfind, hafter, hreads⟩

/-- A repository parameter with a modifier of another sort, and a class with a constructor after it. -/
def overrideSample : String :=
  "class A extends B \x7b constructor(private override readonly a: Repository<X>, " ++
    "b = class \x7b constructor(c: Repository<Y>) \x7b\x7d \x7d) \x7b super(); \x7d \x7d"

def overrideUnit : SourceUnit := ⟨encode overrideSample, (parse .typescript overrideSample).root, {}⟩

theorem overrideSample_output : (parse .typescript overrideSample).broken = false ∧
    (overrideUnit.place.find [.methodDefinition]).map (fun m =>
      ((injected overrideUnit m).length, (m.child? .parameters).map fun params =>
        params.namedChildren.map (·.text overrideUnit.source))) =
      [(1, some ["c: Repository<Y>"]),
        (1, some ["private override readonly a: Repository<X>",
          "b = class \x7b constructor(c: Repository<Y>) \x7b\x7d \x7d"])] ∧
    (Outcome.ofSource .typescript {} overrideSample none).1.toOption.map (·.output) =
      some "class A extends B \x7b constructor(private readonly prisma: PrismaService, b = class \x7b constructor(private prisma: PrismaService) \x7b\x7d \x7d) \x7b super(); \x7d \x7d" := by
  decide +kernel

/-- The client has not got the modifier, nor the parameter after it its text. -/
theorem parameters_changed_sample : (parse .typescript overrideSample).broken = false ∧
    (overrideUnit.place.find [.methodDefinition]).map (fun m =>
      ((injected overrideUnit m).length, (m.child? .parameters).map fun params =>
        params.namedChildren.map (·.text overrideUnit.source))) =
      [(1, some ["c: Repository<Y>"]),
        (1, some ["private override readonly a: Repository<X>",
          "b = class \x7b constructor(c: Repository<Y>) \x7b\x7d \x7d"])] ∧
    ∃ o, (Outcome.ofSource .typescript {} overrideSample none).1 = .ok o ∧
      ¬"override".toList <:+: o.output.toList ∧
      ¬"b = class \x7b constructor(c: Repository<Y>) \x7b\x7d \x7d".toList <:+: o.output.toList := by
  obtain ⟨hbroken, hparameters, hout⟩ := overrideSample_output
  obtain ⟨o, ho, hout⟩ := exists_ok_of_map hout
  refine ⟨hbroken, hparameters, o, ho, ?_⟩
  rw [hout, Text.infix_iff rfl rfl, Text.infix_iff rfl rfl]
  decide +kernel

end Calls

end OrmCodemod
