import OrmCodemod.Proofs.Removal
import OrmCodemod.Proofs.Requests
import OrmCodemod.Proofs.Utf8

/-! Items that go out of a list. A list is written as items with commas between them, and maybe one
after the last item. Where items go, each with one comma and no two of them with the same one, the list
reads, but for white space, as the items that are left with commas between them. -/

namespace OrmCodemod

open Syntax Text

def Blank (bs : Bytes) : Prop := ∃ cs : List Char, cs.all isSpace = true ∧ bs = encodeChars cs

theorem Blank.nil : Blank [] := ⟨[], rfl, rfl⟩

theorem Blank.append {bs bs' : Bytes} (h : Blank bs) (h' : Blank bs') : Blank (bs ++ bs') := by
  obtain ⟨cs, hcs, rfl⟩ := h
  obtain ⟨cs', hcs', rfl⟩ := h'
  exact ⟨cs ++ cs', by rw [List.all_append, hcs, hcs', Bool.and_self], (encodeChars_append cs cs').symm⟩

theorem Editor.blank_between {source : Bytes} {a b : Nat} (h : blankBetween source a b = true) :
    Blank (slice source a b) := by
  unfold blankBetween at h
  split at h
  · rename_i s hs
    exact ⟨s.toList, h, by rw [← encode_eq, encode_of_decode hs]⟩
  · cases h

/-- The bytes are texts one after the other, with white space between and around them. -/
inductive ReadsAs : List Bytes → Bytes → Prop where
  | done {gap : Bytes} (blank : Blank gap) : ReadsAs [] gap
  | next {gap text rest : Bytes} {texts : List Bytes} (blank : Blank gap) (reads : ReadsAs texts rest) :
      ReadsAs (text :: texts) (gap ++ text ++ rest)

namespace ReadsAs

variable {texts texts' : List Bytes} {bs bs' gap : Bytes}

theorem text (t : Bytes) : ReadsAs [t] t := by
  have h : ReadsAs [t] ([] ++ t ++ []) := .next Blank.nil (.done Blank.nil)
  rwa [List.nil_append, List.append_nil] at h

theorem after_blank (hgap : Blank gap) (h : ReadsAs texts bs) : ReadsAs texts (gap ++ bs) := by
  cases h with
  | done hblank => exact .done (hgap.append hblank)
  | next hblank hreads =>
    rw [← List.append_assoc, ← List.append_assoc]
    exact .next (hgap.append hblank) hreads

theorem append (h : ReadsAs texts bs) (h' : ReadsAs texts' bs') :
    ReadsAs (texts ++ texts') (bs ++ bs') := by
  induction h with
  | done hblank => exact h'.after_blank hblank
  | next hblank _ ih =>
    rw [List.append_assoc]
    exact .next hblank ih

end ReadsAs

/-- Texts with commas between them, and one after the last text if it is `closed` by one. -/
def commaed (closed : Bool) : List Bytes → List Bytes
  | [] => []
  | t :: ts => t :: (if ts.isEmpty && !closed then [] else encode "," :: commaed closed ts)

namespace Syntax

def Tree.spells (source : Bytes) (t : Tree) (text : String) : Bool :=
  t.isToken text && t.children.isEmpty && t.bytes source == encode text

def Tree.closes (source : Bytes) (stop : Nat) (t : Tree) : Bool := t.spells source ")" && t.stop == stop

/-- Items with commas between them, and maybe one after the last of them, up to a parenthesis. -/
def itemsUpTo (source : Bytes) (stop : Nat) : List Tree → Bool
  | [] => false
  | [closing] => closing.closes source stop
  | [item, closing] => item.kind.isNamed && closing.closes source stop
  | item :: comma :: next :: rest =>
    item.kind.isNamed && comma.spells source "," && itemsUpTo source stop (next :: rest)

/-- Items in parentheses, with commas and nothing else but white space between them. -/
def Tree.isList (source : Bytes) (t : Tree) : Bool :=
  Editor.spaced source t.children &&
    match t.children with
    | [] => false
    | opening :: rest =>
      opening.spells source "(" && opening.start == t.start && itemsUpTo source t.stop rest

/-- Of items up to a parenthesis: the last one has a comma after it, if there is one. -/
def closedByComma : List Tree → Bool
  | [_, _] => false
  | _ :: _ :: rest => closedByComma rest
  | _ => true

section Spells

variable {source : Bytes} {t : Tree} {text : String}

theorem Tree.spells_iff : t.spells source text = true ↔
    t.kind = .token text ∧ t.children = [] ∧ slice source t.start t.stop = encode text := by
  simp [spells, isToken, bytes, and_assoc]

theorem Tree.spells_unnamed (h : t.spells source text = true) : t.kind.isNamed = false := by
  rw [(Tree.spells_iff.1 h).1]
  rfl

theorem Tree.closes_spells {stop : Nat} (h : t.closes source stop = true) :
    t.spells source ")" = true :=
  (Bool.and_eq_true _ _ ▸ h).1

theorem Tree.spells_nonempty (h : t.spells source text = true) (hne : encode text ≠ []) :
    t.start < t.stop := by
  by_contra hle
  refine hne ?_
  rw [← (Tree.spells_iff.1 h).2.2, slice, Nat.sub_eq_zero_of_le (by omega), List.take_zero]

end Spells

/-- What comes first is the parenthesis, or an item with the parenthesis or a comma behind it. -/
theorem itemsUpTo_cases {source : Bytes} {stop : Nat} {p : Place} {r : List Place}
    (h : itemsUpTo source stop ((p :: r).map Place.tree) = true) :
    (r = [] ∧ p.tree.closes source stop = true) ∨
      (p.tree.kind.isNamed = true ∧
        ((∃ closing, r = [closing] ∧ closing.tree.closes source stop = true) ∨
          ∃ c q r', r = c :: q :: r' ∧ c.tree.spells source "," = true ∧
            itemsUpTo source stop ((q :: r').map Place.tree) = true)) := by
  match r with
  | [] => exact .inl ⟨rfl, h⟩
  | [closing] =>
    rw [List.map_cons, List.map_singleton, itemsUpTo, Bool.and_eq_true] at h
    exact .inr ⟨h.1, .inl ⟨closing, rfl, h.2⟩⟩
  | c :: q :: r' =>
    rw [List.map_cons, List.map_cons, List.map_cons, itemsUpTo, Bool.and_eq_true,
      Bool.and_eq_true, ← List.map_cons] at h
    exact .inr ⟨h.1.1, .inr ⟨c, q, r', rfl, h.1.2, h.2⟩⟩

theorem itemsUpTo_leaf {source : Bytes} {stop : Nat} {y : Tree} : ∀ {ts : List Tree},
    itemsUpTo source stop ts = true → y ∈ ts → y.kind.isNamed = true ∨ y.children = []
  | [_], h, hy => by
    rw [List.mem_singleton.1 hy]
    exact .inr (Tree.spells_iff.1 (Tree.closes_spells h)).2.1
  | [_, _], h, hy => by
    rw [itemsUpTo, Bool.and_eq_true] at h
    rcases List.mem_cons.1 hy with rfl | hy
    · exact .inl h.1
    · rw [List.mem_singleton.1 hy]
      exact .inr (Tree.spells_iff.1 (Tree.closes_spells h.2)).2.1
  | _ :: _ :: _ :: _, h, hy => by
    rw [itemsUpTo, Bool.and_eq_true, Bool.and_eq_true] at h
    rcases List.mem_cons.1 hy with rfl | hy
    · exact .inl h.1.1
    · rcases List.mem_cons.1 hy with rfl | hy
      · exact .inr (Tree.spells_iff.1 h.1.2).2.1
      · exact itemsUpTo_leaf h.2 hy

theorem Tree.isList_leaf {source : Bytes} {t y : Tree} (h : t.isList source = true)
    (hy : y ∈ t.children) : y.kind.isNamed = true ∨ y.children = [] := by
  rw [isList, Bool.and_eq_true] at h
  cases hchildren : t.children with
  | nil => simp [hchildren] at hy
  | cons opening rest =>
    simp only [hchildren, Bool.and_eq_true] at h
    rcases List.mem_cons.1 (hchildren ▸ hy) with rfl | hy
    · exact .inr (Tree.spells_iff.1 h.2.1.1).2.1
    · exact itemsUpTo_leaf h.2.2 hy

namespace Place

variable {f p q : Place} {l r : List Place}

theorem childrenFrom_split {parent : Place} {before after : List Tree}
    (h : childrenFrom parent before after = l ++ p :: r) :
    p.after = r.map tree ∧ p.before = (l.map tree).reverse ++ before := by
  induction l generalizing before after with
  | nil =>
    cases after with
    | nil => cases h
    | cons t after =>
      obtain ⟨rfl, rfl⟩ := List.cons.inj h
      exact ⟨(map_tree_childrenFrom ..).symm, rfl⟩
  | cons x l ih =>
    cases after with
    | nil => cases h
    | cons t after =>
      obtain ⟨hhead, htail⟩ := List.cons.inj h
      obtain ⟨hafter, hbefore⟩ := ih htail
      exact ⟨hafter, by simp [hbefore, ← hhead]⟩

/-- A child has the children behind it after it, and those in front of it before it. -/
theorem children_split (h : f.children = l ++ p :: r) :
    p.after = r.map tree ∧ p.before = (l.map tree).reverse := by
  simpa using childrenFrom_split h

variable {root : Tree}

theorem children_inOrder (hf : f.Rooted root) (ho : root.everyNode Tree.ordered = true) :
    f.children.Pairwise fun p q => p.stop ≤ q.start := by
  have h := Tree.inOrder_pairwise (Tree.test_within ho hf.within)
  rw [← map_tree_children] at h
  exact List.pairwise_map.1 h

theorem child_range (hf : f.Rooted root) (ho : root.everyNode Tree.ordered = true)
    (hp : p ∈ f.children) : f.start ≤ p.start ∧ p.start ≤ p.stop ∧ p.stop ≤ f.stop :=
  Tree.inOrder_mem (Tree.test_within ho hf.within) (tree_mem_children hp)

end Place

end Syntax

namespace Editor

open Place

section Ranges

variable {root : Tree} {f p q y : Place} {l r : List Place}

theorem itemRange_le (hf : f.Rooted root) (ho : root.everyNode Tree.ordered = true) (hq : q ∈ f.children)
    (hy : y ∈ f.children) (hne : q.start < q.stop) (hle : q.stop ≤ y.start)
    (hcomma : y.tree.isToken "," = false) : (itemRange q).2 ≤ y.start := by
  have hb := itemRange_bounds hf hq ho
  have hr := child_range hf ho hy
  rcases itemRange_siblings hf hq ho (tree_mem_children hy) with h | h | ⟨h | h, -⟩
  · simp only [Place.start, Place.stop] at *
    omega
  · exact h
  · have hstart := congrArg Tree.start h
    simp only [Place.start, Place.stop] at *
    omega
  · rw [hcomma] at h
    cases h

/-- An item that goes takes nothing along of what stands before the one in front of it. -/
theorem le_itemRange (hf : f.Rooted root) (ho : root.everyNode Tree.ordered = true)
    (hsplit : f.children = l ++ p :: r) (hq : q ∈ r) (hcomma : p.tree.isToken "," = false) :
    p.stop ≤ (itemRange q).1 := by
  have hpair := children_between f
  rw [hsplit] at hpair
  obtain ⟨mid, hmid⟩ := (List.pairwise_cons.1 (List.pairwise_append.1 hpair).2.1).1 q hq
  exact stop_le_itemRange hf (by simp [hsplit]) ho hmid hcomma

theorem itemRange_last {source : Bytes} {c closing : Place} (hsplit : f.children = l ++ [c, q, closing])
    (hcomma : c.tree.spells source "," = true) (hclosing : closing.tree.closes source f.stop = true) :
    itemRange q = (c.start, q.stop) := by
  have hq : f.children = (l ++ [c]) ++ q :: [closing] := by simp [hsplit]
  obtain ⟨hafter, hbefore⟩ := children_split hq
  have hkind := (Tree.spells_iff.1 (Tree.closes_spells hclosing)).1
  rw [itemRange_of_no_comma (by simp [commaFirst, hafter, Tree.isToken, hkind])]
  exact fromBefore_of_comma (by simpa using hbefore) (by simp [Tree.isToken, (Tree.spells_iff.1 hcomma).1])

theorem itemRange_of_next {source : Bytes} {c : Place} (hsplit : f.children = l ++ p :: c :: q :: r)
    (hcomma : c.tree.spells source "," = true) : itemRange p = (p.start, q.start) := by
  rw [itemRange_of_comma (by simpa using (children_split hsplit).1)
    (by simp [Tree.isToken, (Tree.spells_iff.1 hcomma).1])]
  rfl

end Ranges

def textsLeft (stands : Place → Option Bytes) (ps : List Place) : List Bytes :=
  (ps.filter (·.tree.kind.isNamed)).filterMap stands

/-- A list of which some items are gone in a view, each with a comma and no two with the same one: a text
stands for each of the others, and what neither an item nor a range that is gone reaches into is as in
the source. -/
structure Emptied (source : Bytes) (f : Place) (stands : Place → Option Bytes) (v : View) : Prop where
  left : ∀ p ∈ f.namedChildren, ∀ text, stands p = some text → v.span p.start p.stop = text
  gone : ∀ p ∈ f.namedChildren, stands p = none →
    p.start < p.stop ∧ v.span (itemRange p).1 (itemRange p).2 = []
  apart : ∀ p ∈ f.namedChildren, ∀ q ∈ f.namedChildren, stands p = none → stands q = none →
    p.stop ≤ q.start → (itemRange p).2 ≤ (itemRange q).1
  free : ∀ a b, f.start ≤ a → a ≤ b → b ≤ f.stop →
    (∀ p ∈ f.namedChildren, p.stop ≤ a ∨ b ≤ p.start) →
    (∀ p ∈ f.namedChildren, stands p = none → (itemRange p).2 ≤ a ∨ b ≤ (itemRange p).1) →
    v.span a b = slice source a b

/-- The list reads, from a node on, as the texts that stand for items with commas between them and the
parenthesis behind them. All of the items may be gone only if a comma was after the last of them. -/
structure ReadsFrom (f : Place) (stands : Place → Option Bytes) (v : View) (p : Place) (r : List Place) :
    Prop where
  closed : textsLeft stands (p :: r) = [] → closedByComma ((p :: r).map Place.tree) = true
  reads : ReadsAs (commaed (closedByComma ((p :: r).map Place.tree)) (textsLeft stands (p :: r)) ++
    [encode ")"]) (v.span p.start f.stop)

namespace Emptied

variable {source : Bytes} {f p c q closing : Place} {stands : Place → Option Bytes} {v : View} {root : Tree}
  {l r : List Place} {b : Nat} {text : Bytes}

theorem mem_named : p ∈ f.namedChildren ↔ p ∈ f.children ∧ p.tree.kind.isNamed = true :=
  List.mem_filter

theorem textsLeft_unnamed {ps : List Place} (hp : p.tree.kind.isNamed = false) :
    textsLeft stands (p :: ps) = textsLeft stands ps := by
  simp [textsLeft, hp]

theorem not_comma (h : p.tree.kind.isNamed = true) : p.tree.isToken "," = false := by
  cases hk : p.tree.kind with
  | token text => simp [hk, Kind.isNamed] at h
  | named k => simp [Tree.isToken, hk]

theorem blank_gap (hspaced : spaced source f.tree.children = true)
    (hsplit : f.children = l ++ p :: q :: r) : Blank (slice source p.stop q.start) := by
  rw [← map_tree_children, hsplit, List.map_append, List.map_cons, List.map_cons] at hspaced
  exact blank_between (spaced_middle hspaced)

variable (h : Emptied source f stands v) (hf : f.Rooted root) (ho : root.everyNode Tree.ordered = true)
include h hf ho

/-- What stands behind a node, up to where a later item or a later range that is gone starts. -/
theorem free_behind (hsplit : f.children = l ++ p :: r) (hp : p.tree.isToken "," = false)
    (hself : p.tree.kind.isNamed = true → stands p = none → (itemRange p).2 ≤ p.stop)
    (hpb : p.stop ≤ b) (hb : b ≤ f.stop) (hitems : ∀ y ∈ r, y.tree.kind.isNamed = true → b ≤ y.start)
    (hgone : ∀ y ∈ r, y.tree.kind.isNamed = true → stands y = none → b ≤ (itemRange y).1) :
    v.span p.stop b = slice source p.stop b := by
  have hmem : p ∈ f.children := by simp [hsplit]
  have hpr := child_range hf ho hmem
  have horder := children_inOrder hf ho
  rw [hsplit] at horder
  have hbefore : ∀ y ∈ l, y.stop ≤ p.start := fun y hy =>
    (List.pairwise_append.1 horder).2.2 y hy p List.mem_cons_self
  have hcases : ∀ y ∈ f.namedChildren, y ∈ l ∨ y = p ∨ y ∈ r := by
    intro y hy
    have := (mem_named.1 hy).1
    rw [hsplit] at this
    simpa using this
  refine h.free _ _ (by omega) hpb hb (fun y hy => ?_) fun y hy hnone => ?_
  · rcases hcases y hy with hl | rfl | hr
    · have := hbefore y hl
      exact .inl (by omega)
    · exact .inl le_rfl
    · exact .inr (hitems y hr (mem_named.1 hy).2)
  · rcases hcases y hy with hl | rfl | hr
    · have := itemRange_le hf ho (mem_named.1 hy).1 hmem (h.gone y hy hnone).1 (hbefore y hl) hp
      exact .inl (by omega)
    · exact .inl (hself (mem_named.1 hy).2 hnone)
    · exact .inr (hgone y hr (mem_named.1 hy).2 hnone)

theorem span_closing (hsplit : f.children = l ++ [closing])
    (hclosing : closing.tree.closes source f.stop = true) : v.span closing.start f.stop = encode ")" := by
  rw [Tree.closes, Bool.and_eq_true, beq_iff_eq] at hclosing
  obtain ⟨hspells, hstop⟩ := hclosing
  obtain ⟨hkind, -, htext⟩ := Tree.spells_iff.1 hspells
  have hmem : closing ∈ f.children := by simp [hsplit]
  have hr := child_range hf ho hmem
  have hbefore : ∀ y ∈ f.namedChildren, y ∈ f.children ∧ y.stop ≤ closing.start := by
    intro y hy
    obtain ⟨hy, hnamed⟩ := mem_named.1 hy
    refine ⟨hy, ?_⟩
    have horder := children_inOrder hf ho
    rw [hsplit] at horder hy
    rcases List.mem_append.1 hy with hy | hy
    · exact (List.pairwise_append.1 horder).2.2 y hy closing List.mem_cons_self
    · rw [List.mem_singleton.1 hy, Tree.spells_unnamed hspells] at hnamed
      cases hnamed
  rw [h.free _ _ hr.1 (by omega) le_rfl (fun y hy => .inl (hbefore y hy).2) fun y hy hnone => .inl ?_,
    ← htext]
  · exact congrArg (slice source closing.start) hstop.symm
  · exact itemRange_le hf ho (hbefore y hy).1 hmem (h.gone y hy hnone).1 (hbefore y hy).2
      (by simp [Tree.isToken, hkind])

theorem reads_closing (hsplit : f.children = l ++ [closing])
    (hclosing : closing.tree.closes source f.stop = true) : ReadsFrom f stands v closing [] := by
  have hunnamed := Tree.spells_unnamed (Tree.closes_spells hclosing)
  have hnone : textsLeft stands [closing] = [] := by simp [textsLeft, hunnamed]
  refine ⟨fun _ => rfl, ?_⟩
  rw [hnone, h.span_closing hf ho hsplit hclosing]
  exact .text _

variable (hspaced : spaced source f.tree.children = true)
include hspaced

theorem reads_last (hsplit : f.children = l ++ [p, closing]) (hnamed : p.tree.kind.isNamed = true)
    (hclosing : closing.tree.closes source f.stop = true)
    (hself : stands p = none → (itemRange p).2 ≤ p.stop) :
    ReadsAs [encode ")"] (v.span p.stop f.stop) := by
  have hunnamed := Tree.spells_unnamed (Tree.closes_spells hclosing)
  have hcr := child_range hf ho (p := closing) (by simp [hsplit])
  have hpc : p.stop ≤ closing.start := by
    have horder := children_inOrder hf ho
    rw [hsplit] at horder
    exact (List.pairwise_cons.1 (List.pairwise_append.1 horder).2.1).1 closing List.mem_cons_self
  have hnone : ∀ y ∈ [closing], y.tree.kind.isNamed = true → False := by
    intro y hy hy'
    rw [List.mem_singleton.1 hy, hunnamed] at hy'
    cases hy'
  rw [← v.span_append hpc (by omega), h.span_closing hf ho (l := l ++ [p]) (by simp [hsplit]) hclosing,
    h.free_behind hf ho hsplit (not_comma hnamed) (fun _ => hself) hpc (by omega)
      (fun y hy hy' => (hnone y hy hy').elim) fun y hy hy' => (hnone y hy hy').elim]
  exact (ReadsAs.text _).after_blank (blank_gap hspaced hsplit)

section Comma

variable (hsplit : f.children = l ++ p :: c :: q :: r) (hnamed : p.tree.kind.isNamed = true)
  (hspells : c.tree.spells source "," = true)
include hsplit hnamed hspells

omit h hspaced hnamed in
theorem comma_between : p.start ≤ p.stop ∧ p.stop ≤ c.start ∧ c.start < c.stop ∧ c.stop ≤ q.start ∧
    q.start ≤ q.stop ∧ q.stop ≤ f.stop ∧ ∀ y ∈ r, q.stop ≤ y.start := by
  have horder := children_inOrder hf ho
  rw [hsplit] at horder
  have h1 := (List.pairwise_append.1 horder).2.1
  have h2 := (List.pairwise_cons.1 h1).2
  have hp := child_range hf ho (p := p) (by simp [hsplit])
  have hq := child_range hf ho (p := q) (by simp [hsplit])
  exact ⟨hp.2.1, (List.pairwise_cons.1 h1).1 c List.mem_cons_self,
    Tree.spells_nonempty hspells (by decide), (List.pairwise_cons.1 h2).1 q List.mem_cons_self,
    hq.2.1, hq.2.2, (List.pairwise_cons.1 (List.pairwise_cons.1 h2).2).1⟩

omit hspaced in
theorem reads_gone (hstands : stands p = none) (hread : ReadsFrom f stands v q r) :
    ReadsFrom f stands v p (c :: q :: r) := by
  obtain ⟨h1, h2, h3, h4, h5, h6, -⟩ := comma_between hf ho hsplit hspells
  have htexts : textsLeft stands (p :: c :: q :: r) = textsLeft stands (q :: r) := by
    simp [textsLeft, hnamed, hstands, Tree.spells_unnamed hspells]
  have hgone := (h.gone p (mem_named.2 ⟨by simp [hsplit], hnamed⟩) hstands).2
  rw [itemRange_of_next hsplit hspells] at hgone
  refine ⟨fun hnone => hread.closed (htexts ▸ hnone), ?_⟩
  rw [← v.span_append (by omega : p.start ≤ q.start) (by omega), hgone, htexts]
  exact hread.reads

theorem reads_left (hstands : stands p = some text) (hread : ReadsFrom f stands v q r)
    (hqgone : q.tree.kind.isNamed = true → stands q = none → q.start ≤ (itemRange q).1)
    (hq : r ≠ [] → q.tree.kind.isNamed = true) : ReadsFrom f stands v p (c :: q :: r) := by
  obtain ⟨h1, h2, h3, h4, h5, h6, h7⟩ := comma_between hf ho hsplit hspells
  have htexts : textsLeft stands (p :: c :: q :: r) = text :: textsLeft stands (q :: r) := by
    simp [textsLeft, hnamed, hstands, Tree.spells_unnamed hspells]
  have hfree : v.span p.stop q.start = slice source p.stop q.start := by
    refine h.free_behind hf ho hsplit (not_comma hnamed) (fun _ hnone => ?_) (by omega) (by omega)
      (fun y hy hy' => ?_) fun y hy hy' hnone => ?_
    · rw [hstands] at hnone
      cases hnone
    · rcases List.mem_cons.1 hy with rfl | hy
      · rw [Tree.spells_unnamed hspells] at hy'
        cases hy'
      · rcases List.mem_cons.1 hy with rfl | hy
        · exact le_rfl
        · have := h7 y hy
          omega
    · rcases List.mem_cons.1 hy with rfl | hy
      · rw [Tree.spells_unnamed hspells] at hy'
        cases hy'
      · rcases List.mem_cons.1 hy with rfl | hy
        · exact hqgone hy' hnone
        · have := le_itemRange hf ho (l := l ++ [p, c]) (by simp [hsplit]) hy
            (not_comma (hq (List.ne_nil_of_mem hy)))
          omega
  have hspan : v.span p.start f.stop = text ++ (slice source p.stop c.start ++ encode "," ++
      (slice source c.stop q.start ++ v.span q.start f.stop)) := by
    rw [← v.span_append h1 (by omega : p.stop ≤ f.stop),
      ← v.span_append (by omega : p.stop ≤ q.start) (by omega), hfree,
      h.left p (mem_named.2 ⟨by simp [hsplit], hnamed⟩) text hstands,
      ← View.slice_append source (by omega : p.stop ≤ c.stop) h4,
      ← View.slice_append source h2 h3.le]
    have hcomma : slice source c.start c.stop = encode "," := (Tree.spells_iff.1 hspells).2.2
    rw [hcomma]
    simp only [List.append_assoc]
  refine ⟨fun hnone => by simp [htexts] at hnone, ?_⟩
  have hclosed : closedByComma ((p :: c :: q :: r).map Place.tree) =
      closedByComma ((q :: r).map Place.tree) := by
    simp [closedByComma]
  have hpieces : commaed (closedByComma ((q :: r).map Place.tree)) (text :: textsLeft stands (q :: r)) =
      text :: encode "," :: commaed (closedByComma ((q :: r).map Place.tree))
        (textsLeft stands (q :: r)) := by
    rw [commaed, if_neg]
    simp only [Bool.and_eq_true, List.isEmpty_iff, Bool.not_eq_true', not_and, Bool.not_eq_false]
    exact hread.closed
  rw [htexts, hclosed, hpieces, hspan]
  refine (ReadsAs.text text).append (.next ?_ (hread.reads.after_blank ?_))
  · exact blank_gap hspaced hsplit
  · exact blank_gap (l := l ++ [p]) (r := r) hspaced (by simp [hsplit])

omit hsplit in
theorem reads_before_last (hlast : f.children = l ++ [p, c, q, closing]) (hstands : stands p = some text)
    (hclosing : closing.tree.closes source f.stop = true) (hq : q.tree.kind.isNamed = true)
    (hgone : stands q = none) : ReadsFrom f stands v p [c, q, closing] := by
  have hunnamed := Tree.spells_unnamed (Tree.closes_spells hclosing)
  obtain ⟨h1, h2, h3, h4, h5, h6, -⟩ := comma_between hf ho hlast hspells
  have htexts : textsLeft stands [p, c, q, closing] = [text] := by
    simp [textsLeft, hnamed, hstands, Tree.spells_unnamed hspells, hq, hgone, hunnamed]
  have hrange : itemRange q = (c.start, q.stop) :=
    itemRange_last (l := l ++ [p]) (by simp [hlast]) hspells hclosing
  have hempty := (h.gone q (mem_named.2 ⟨by simp [hlast], hq⟩) hgone).2
  rw [hrange] at hempty
  have hfree : v.span p.stop c.start = slice source p.stop c.start := by
    refine h.free_behind hf ho hlast (not_comma hnamed) (fun _ hnone => ?_) h2 (by omega)
      (fun y hy hy' => ?_) fun y hy hy' _ => ?_
    · rw [hstands] at hnone
      cases hnone
    · simp only [List.mem_cons, List.not_mem_nil, or_false] at hy
      rcases hy with rfl | rfl | rfl
      · exact le_rfl
      · omega
      · rw [hunnamed] at hy'
        cases hy'
    · simp only [List.mem_cons, List.not_mem_nil, or_false] at hy
      rcases hy with rfl | rfl | rfl
      · rw [Tree.spells_unnamed hspells] at hy'
        cases hy'
      · rw [hrange]
      · rw [hunnamed] at hy'
        cases hy'
  have hspan : v.span p.start f.stop = text ++ (slice source p.stop c.start ++ v.span q.stop f.stop) := by
    rw [← v.span_append h1 (by omega : p.stop ≤ f.stop),
      ← v.span_append (by omega : p.stop ≤ c.start) (by omega),
      ← v.span_append (by omega : c.start ≤ q.stop) h6, hfree, hempty,
      h.left p (mem_named.2 ⟨by simp [hlast], hnamed⟩) text hstands, List.nil_append]
  refine ⟨fun hnone => by simp [htexts] at hnone, ?_⟩
  rw [htexts, hspan]
  refine (ReadsAs.text text).append (ReadsAs.after_blank (blank_gap hspaced hlast) ?_)
  exact h.reads_last hf ho hspaced (l := l ++ [p, c]) (by simp [hlast]) hq hclosing
    fun _ => by rw [hrange]

end Comma

/-- The list reads, from any item on, as the texts that stand for the items with commas between them;
of the last item there has to be one if it has no comma before it. -/
theorem reads : ∀ (r : List Place) (p : Place) (l : List Place), f.children = l ++ p :: r →
    itemsUpTo source f.stop ((p :: r).map Place.tree) = true →
    (∀ closing, r = [closing] → stands p ≠ none) → ReadsFrom f stands v p r
  | [], closing, l, hsplit, hitems, _ => h.reads_closing hf ho hsplit hitems
  | [closing], p, l, hsplit, hitems, hlast => by
    rw [List.map_cons, List.map_singleton, itemsUpTo, Bool.and_eq_true] at hitems
    obtain ⟨hnamed, hclosing⟩ := hitems
    obtain ⟨text, htext⟩ := Option.ne_none_iff_exists'.1 (hlast closing rfl)
    have hmem : p ∈ f.children := by simp [hsplit]
    have hpr := child_range hf ho hmem
    have htexts : textsLeft stands [p, closing] = [text] := by
      simp [textsLeft, hnamed, Tree.spells_unnamed (Tree.closes_spells hclosing), htext]
    refine ⟨fun hnone => by simp [htexts] at hnone, ?_⟩
    rw [htexts, ← v.span_append hpr.2.1 hpr.2.2, h.left p (mem_named.2 ⟨hmem, hnamed⟩) text htext]
    refine (ReadsAs.text text).append (h.reads_last hf ho hspaced hsplit hnamed hclosing fun hnone => ?_)
    rw [htext] at hnone
    cases hnone
  | c :: q :: r, p, l, hsplit, hitems, _ => by
    rw [List.map_cons, List.map_cons, List.map_cons, itemsUpTo, Bool.and_eq_true,
      Bool.and_eq_true, ← List.map_cons] at hitems
    obtain ⟨⟨hnamed, hspells⟩, hrest⟩ := hitems
    have hsplit' : f.children = (l ++ [p, c]) ++ q :: r := by simp [hsplit]
    obtain ⟨h1, h2, h3, h4, -⟩ := comma_between hf ho hsplit hspells
    have ih := reads r q (l ++ [p, c]) hsplit' hrest
    have hcases := itemsUpTo_cases hrest
    cases hstands : stands p with
    | none =>
      refine h.reads_gone hf ho hsplit hnamed hspells hstands (ih fun closing hr hq => ?_)
      subst hr
      obtain ⟨hnil, -⟩ | ⟨hqn, ⟨closing', heq, hclosing⟩ | ⟨_, _, _, heq, -⟩⟩ := hcases
      · cases hnil
      · -- both would go with the comma between them
        cases heq
        have happart := h.apart p (mem_named.2 ⟨by simp [hsplit], hnamed⟩) q
          (mem_named.2 ⟨by simp [hsplit], hqn⟩) hstands hq (by omega)
        rw [itemRange_of_next hsplit hspells,
          itemRange_last (l := l ++ [p]) (by simp [hsplit]) hspells hclosing] at happart
        dsimp only at happart
        omega
      · cases heq
    | some text =>
      obtain ⟨rfl, hclosing⟩ | ⟨hqn, ⟨closing, rfl, hclosing⟩ | ⟨c', q', r', rfl, hspells', -⟩⟩ := hcases
      · refine h.reads_left hf ho hspaced hsplit hnamed hspells hstands (ih nofun) (fun hqn => ?_)
          fun hne => absurd rfl hne
        rw [Tree.spells_unnamed (Tree.closes_spells hclosing)] at hqn
        cases hqn
      · cases hq : stands q with
        | none => exact h.reads_before_last hf ho hspaced hnamed hspells hsplit hstands hclosing hqn hq
        | some text' =>
          refine h.reads_left hf ho hspaced hsplit hnamed hspells hstands (ih fun _ _ => ?_)
            (fun _ hnone => ?_) fun _ => hqn
          · simp [hq]
          · rw [hq] at hnone
            cases hnone
      · refine h.reads_left hf ho hspaced hsplit hnamed hspells hstands (ih nofun) (fun _ _ => ?_)
          fun _ => hqn
        rw [itemRange_of_next hsplit' hspells']

omit hspaced in
/-- Up to the first item that is left, or to the parenthesis behind the items, the list is as in the
source. -/
theorem span_opening {opening : Place} (hsplit : f.children = opening :: p :: r)
    (hopening : opening.tree.kind.isNamed = false) (hp : p.tree.isToken "," = false)
    (hself : p.tree.kind.isNamed = true → stands p ≠ none) :
    v.span f.start p.start = slice source f.start p.start := by
  have horder := children_inOrder hf ho
  rw [hsplit] at horder
  have hpr := child_range hf ho (p := p) (by simp [hsplit])
  have hcases : ∀ y ∈ f.namedChildren, y = p ∨ (y ∈ r ∧ p.stop ≤ y.start) := by
    intro y hy
    obtain ⟨hy, hnamed⟩ := mem_named.1 hy
    rw [hsplit] at hy
    rcases List.mem_cons.1 hy with rfl | hy
    · rw [hopening] at hnamed
      cases hnamed
    · exact (List.mem_cons.1 hy).imp_right fun hy =>
        ⟨hy, (List.pairwise_cons.1 (List.pairwise_cons.1 horder).2).1 y hy⟩
  refine h.free _ _ le_rfl hpr.1 (by omega) (fun y hy => .inr ?_) fun y hy hnone => .inr ?_
  · rcases hcases y hy with rfl | ⟨-, hle⟩
    · exact le_rfl
    · omega
  · rcases hcases y hy with rfl | ⟨hr, -⟩
    · exact absurd hnone (hself (mem_named.1 hy).2)
    · have := le_itemRange hf ho (l := [opening]) (by simpa using hsplit) hr hp
      omega

omit hspaced in
/-- A list whose first item is left reads as the texts that stand for its items, with commas between them
and in parentheses. -/
theorem reads_list (hlist : f.tree.isList source = true)
    (hfirst : ∀ p ∈ f.namedChildren.head?, stands p ≠ none) :
    ReadsAs (encode "(" :: (commaed (closedByComma f.tree.children.tail)
      (f.namedChildren.filterMap stands) ++ [encode ")"])) (v.span f.start f.stop) := by
  rw [Tree.isList, Bool.and_eq_true] at hlist
  obtain ⟨hspaced, hlist⟩ := hlist
  split at hlist
  · cases hlist
  rename_i opening rest hchildren
  rw [Bool.and_eq_true, Bool.and_eq_true, beq_iff_eq] at hlist
  obtain ⟨⟨hopening, hstart⟩, hitems⟩ := hlist
  rw [← map_tree_children] at hchildren
  obtain ⟨o, ps, hsplit, rfl, rfl⟩ := List.map_eq_cons_iff.1 hchildren
  cases ps with
  | nil => cases hitems
  | cons p r =>
    have hunnamed := Tree.spells_unnamed hopening
    have hcases := itemsUpTo_cases hitems
    have hself : p.tree.kind.isNamed = true → stands p ≠ none := by
      intro hp
      refine hfirst p ?_
      simp [namedChildren, hsplit, hunnamed, hp]
    have hcomma : p.tree.isToken "," = false := by
      rcases hcases with ⟨-, hclosing⟩ | ⟨hp, -⟩
      · simp [Tree.isToken, (Tree.spells_iff.1 (Tree.closes_spells hclosing)).1]
      · exact not_comma hp
    have hlead := h.span_opening hf ho hsplit hunnamed hcomma hself
    have hread := h.reads hf ho hspaced r p [o] (by simpa using hsplit) hitems fun closing hr => by
      refine hself ?_
      rcases hcases with ⟨rfl, -⟩ | ⟨hp, -⟩
      · cases hr
      · exact hp
    have hop : o.stop ≤ p.start := by
      have horder := children_inOrder hf ho
      rw [hsplit] at horder
      exact (List.pairwise_cons.1 horder).1 p List.mem_cons_self
    have hpr := child_range hf ho (p := p) (by simp [hsplit])
    have hor := child_range hf ho (p := o) (by simp [hsplit])
    have hstart' : f.start = o.start := hstart.symm
    have hparen : slice source f.start o.stop = encode "(" := hstart' ▸ (Tree.spells_iff.1 hopening).2.2
    have htexts : f.namedChildren.filterMap stands = textsLeft stands (p :: r) := by
      rw [← textsLeft_unnamed hunnamed, textsLeft, ← hsplit]
      rfl
    rw [← map_tree_children, hsplit, List.map_cons, List.tail_cons, htexts,
      ← v.span_append hpr.1 (by omega), hlead,
      ← View.slice_append source (by omega) hop, hparen, List.append_assoc]
    exact (ReadsAs.text _).append
      (hread.reads.after_blank (blank_gap (l := []) hspaced (by simpa using hsplit)))

end Emptied

end Editor

end OrmCodemod
