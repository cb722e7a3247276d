import Mathlib.Data.List.Flatten
import OrmCodemod.Editor
import OrmCodemod.Proofs.Sorting

/-! What an editor shows, offset by offset: the texts inserted there and what stands for the byte.
Printing and rendering only read this view, and recording an edit changes it in one place. -/

namespace OrmCodemod

open Syntax Text

/-- What stands at every offset: insertions, then the byte or what replaces it. -/
@[ext] structure View where
  inserted : Nat → Bytes
  shown : Nat → Bytes

namespace View

def cell (v : View) (p : Nat) : Bytes := v.inserted p ++ v.shown p

def span (v : View) (a b : Nat) : Bytes := (List.range' a (b - a)).flatMap v.cell

def hide (v : View) (a : Nat) : View :=
  { v with inserted := fun p => if p = a then [] else v.inserted p }

def replace (v : View) (a b : Nat) (text : Bytes) : View where
  inserted p := if a < p ∧ p < b then [] else v.inserted p
  shown p := if p = a then text else if a < p ∧ p < b then [] else v.shown p

def put (v : View) (a : Nat) (text : Bytes) : View :=
  { v with inserted := fun p => if p = a then v.inserted p ++ text else v.inserted p }

@[simp] theorem span_self (v : View) (a : Nat) : v.span a a = [] := by simp [span]

theorem range'_split {a b c : Nat} (h1 : a ≤ b) (h2 : b ≤ c) :
    List.range' a (c - a) = List.range' a (b - a) ++ List.range' b (c - b) := by
  have := List.range'_append_1 (s := a) (m := b - a) (n := c - b)
  rw [show a + (b - a) = b by omega, show b - a + (c - b) = c - a by omega] at this
  exact this.symm

theorem span_append (v : View) {a b c : Nat} (h1 : a ≤ b) (h2 : b ≤ c) :
    v.span a b ++ v.span b c = v.span a c := by
  simp [span, range'_split h1 h2]

theorem span_cons (v : View) {a b : Nat} (h : a < b) :
    v.span a b = v.cell a ++ v.span (a + 1) b := by
  rw [← v.span_append (Nat.le_succ a) h]
  simp [span]

theorem span_congr {v w : View} {a b : Nat} (h : ∀ p, a ≤ p → p < b → v.cell p = w.cell p) :
    v.span a b = w.span a b := by
  unfold span
  refine List.flatMap_congr fun p hp => ?_
  rw [List.mem_range'_1] at hp
  exact h p hp.1 (by omega)

theorem slice_append {α : Type} (xs : List α) {a b c : Nat} (h1 : a ≤ b) (h2 : b ≤ c) :
    slice xs a b ++ slice xs b c = slice xs a c := by
  unfold slice
  rw [show c - a = (b - a) + (c - b) by omega, List.take_add, List.drop_drop,
    show a + (b - a) = b by omega]

theorem span_source {v : View} {source : Bytes} {a b : Nat} (hab : a ≤ b)
    (h : ∀ p, a ≤ p → p < b → v.cell p = slice source p (p + 1)) :
    v.span a b = slice source a b := by
  obtain ⟨k, rfl⟩ := Nat.exists_eq_add_of_le hab
  induction k with
  | zero => simp [slice]
  | succ k ih =>
    rw [← v.span_append (b := a + k) (by omega) (by omega),
      ← slice_append source (b := a + k) (by omega) (by omega),
      ih (by omega) fun p h1 h2 => h p h1 (by omega)]
    rw [v.span_cons (by omega), show a + (k + 1) = a + k + 1 by omega, v.span_self,
      h (a + k) (by omega) (by omega), List.append_nil]

theorem hide_cell_of_ne (v : View) {a p : Nat} (h : p ≠ a) : (v.hide a).cell p = v.cell p := by
  simp [cell, hide, h]

theorem hide_cell_self (v : View) (a : Nat) : (v.hide a).cell a = v.shown a := by
  simp [cell, hide]

theorem hide_span_of_lt (v : View) {a b c : Nat} (h : c < a) :
    (v.hide c).span a b = v.span a b :=
  span_congr fun p hp _ => v.hide_cell_of_ne (by omega)

theorem span_hide (v : View) {a b : Nat} (h : a < b) :
    v.span a b = v.inserted a ++ (v.hide a).span a b := by
  rw [v.span_cons h, (v.hide a).span_cons h, hide_cell_self, hide_span_of_lt v (Nat.lt_succ_self a),
    cell, List.append_assoc]

/-- Insertions on the left border are hidden only if they are on the border hidden. -/
theorem hide_span (v : View) {a c d : Nat} (hac : a ≤ c) (hcd : c < d) :
    (v.hide a).span c d = (if c = a then [] else v.inserted c) ++ (v.hide c).span c d := by
  by_cases h : c = a
  · simp [h]
  · rw [if_neg h, hide_span_of_lt v (by omega), span_hide v hcd]

theorem replace_inserted (v : View) {a b p : Nat} {text : Bytes} (h : ¬(a < p ∧ p < b)) :
    (v.replace a b text).inserted p = v.inserted p := by
  simp [replace, h]

theorem replace_shown (v : View) {a b p : Nat} {text : Bytes} (hab : a < b)
    (h : ¬(a ≤ p ∧ p < b)) : (v.replace a b text).shown p = v.shown p := by
  simp only [replace]
  rw [if_neg (by omega), if_neg (by omega)]

theorem replace_span_apart (v : View) {a b p q : Nat} {text : Bytes} (hab : a < b)
    (hapart : q ≤ a ∨ b ≤ p) : ((v.replace a b text).hide p).span p q = (v.hide p).span p q := by
  refine span_congr fun i h1 h2 => ?_
  simp only [cell, hide, replace_shown v hab (by omega : ¬(a ≤ i ∧ i < b)),
    replace_inserted v (by omega : ¬(a < i ∧ i < b))]

theorem replace_span (v : View) {a b : Nat} {text : Bytes} (hab : a < b) :
    ((v.replace a b text).hide a).span a b = text := by
  have hrest : ((v.replace a b text).hide a).span (a + 1) b = [] := by
    refine List.flatMap_eq_nil_iff.2 fun p hp => ?_
    rw [List.mem_range'_1] at hp
    rw [hide_cell_of_ne _ (by omega)]
    simp only [cell, replace]
    rw [if_pos (by omega), if_neg (by omega), if_pos (by omega), List.nil_append]
  rw [span_cons _ hab, hrest, hide_cell_self, List.append_nil]
  simp [replace]

end View

namespace Edit

/-- The ranges do not overlap; an insertion may stand on a border. -/
def Apart (a b : Edit) : Prop := a.stop ≤ b.start ∨ b.stop ≤ a.start

instance : Std.Symm Apart := ⟨fun _ _ h => h.symm⟩

def covers (e : Edit) (p : Nat) : Bool := !e.isInsertion && e.start ≤ p && p < e.stop

theorem isInsertion_iff {e : Edit} : e.isInsertion = true ↔ e.start = e.stop := by
  simp [isInsertion]

theorem covers_iff {e : Edit} {p : Nat} : e.covers p = true ↔ e.start ≤ p ∧ p < e.stop := by
  simp only [covers, isInsertion, Bool.and_eq_true, Bool.not_eq_true', beq_eq_false_iff_ne, ne_eq,
    decide_eq_true_eq]
  omega

theorem inside_iff {e : Edit} {a b : Nat} : e.inside a b = true ↔
    (e.start = e.stop ∧ a < e.start ∧ e.start < b) ∨
      (e.start ≠ e.stop ∧ a ≤ e.start ∧ e.stop ≤ b) := by
  by_cases h : e.start = e.stop <;> simp [inside, isInsertion, h]

theorem precedes_weak : Sorting.Weak precedes where
  trans a b c := by
    simp only [precedes, isInsertion]
    grind
  asymm a b := by
    simp only [precedes, isInsertion]
    grind

theorem insertSorted_eq (e : Edit) (es : List Edit) :
    insertSorted e es = Sorting.insertBy precedes e es := by
  induction es with
  | nil => rfl
  | cons x xs ih => simp [insertSorted, Sorting.insertBy, ih]

theorem sorted_eq (es : List Edit) : sorted es = Sorting.sortBy precedes es := by
  simp only [sorted, Sorting.sortBy, insertSorted_eq]

def view (source : Bytes) (es : List Edit) : View where
  inserted p := (es.filter fun e => e.isInsertion && e.start == p).flatMap (·.replacement)
  shown p :=
    match es.find? (·.covers p) with
    | some e => if e.start = p then e.replacement else []
    | none => slice source p (p + 1)

theorem shown_of_covers {source : Bytes} {es : List Edit} {e : Edit} {p : Nat}
    (hap : es.Pairwise Apart) (he : e ∈ es) (hp : e.covers p = true) :
    (view source es).shown p = if e.start = p then e.replacement else [] := by
  cases hf : es.find? (·.covers p) with
  | none => simp_all
  | some e' =>
    have hp' : e'.covers p = true := by simpa using List.find?_some hf
    have hmem := List.mem_of_find?_eq_some hf
    have : e' = e := by
      by_contra hne
      have h := hap.forall hmem he hne
      rw [covers_iff] at hp hp'
      unfold Apart at h
      omega
    simp [view, hf, this]

theorem shown_of_free {source : Bytes} {es : List Edit} {p : Nat}
    (h : ∀ e ∈ es, e.covers p = false) : (view source es).shown p = slice source p (p + 1) := by
  have : es.find? (·.covers p) = none := by simpa using h
  simp [view, this]

theorem inserted_of_free {source : Bytes} {es : List Edit} {p : Nat}
    (h : ∀ e ∈ es, e.start = e.stop → e.start ≠ p) : (view source es).inserted p = [] := by
  have : es.filter (fun e => e.isInsertion && e.start == p) = [] := by
    simpa [isInsertion] using h
  simp [view, this]

theorem shown_filter (source : Bytes) {es : List Edit} {q : Edit → Bool} {p : Nat}
    (hap : es.Pairwise Apart) (h : ∀ e ∈ es, e.covers p = true → q e = true) :
    (view source (es.filter q)).shown p = (view source es).shown p := by
  by_cases hcov : ∃ e ∈ es, e.covers p = true
  · obtain ⟨e, he, hep⟩ := hcov
    rw [shown_of_covers (hap.filter q) (List.mem_filter.2 ⟨he, h e he hep⟩) hep,
      shown_of_covers hap he hep]
  · have hfree : ∀ e ∈ es, e.covers p = false := by simpa using hcov
    rw [shown_of_free hfree, shown_of_free fun e he => hfree e (List.mem_of_mem_filter he)]

theorem inserted_filter (source : Bytes) {es : List Edit} {q : Edit → Bool} {p : Nat}
    (h : ∀ e ∈ es, e.start = e.stop → e.start = p → q e = true) :
    (view source (es.filter q)).inserted p = (view source es).inserted p := by
  simp only [view, List.filter_filter]
  congr 1
  refine List.filter_congr fun e he => ?_
  rw [Bool.eq_iff_iff]
  simp only [Bool.and_eq_true, isInsertion_iff, beq_iff_eq, and_iff_left_iff_imp]
  exact fun hp => h e he hp.1 hp.2

theorem inserted_cons (source : Bytes) (e : Edit) (es : List Edit) (p : Nat) :
    (view source (e :: es)).inserted p =
      (if e.start = e.stop ∧ e.start = p then e.replacement else []) ++
        (view source es).inserted p := by
  simp only [view, List.filter_cons, isInsertion, Bool.and_eq_true, beq_iff_eq]
  split <;> simp

theorem shown_cons (source : Bytes) (e : Edit) (es : List Edit) (p : Nat) :
    (view source (e :: es)).shown p =
      if e.start ≤ p ∧ p < e.stop then (if e.start = p then e.replacement else [])
      else (view source es).shown p := by
  simp only [view, List.find?_cons]
  cases h : e.covers p with
  | true => rw [if_pos (covers_iff.1 h)]
  | false => rw [if_neg fun hc => by simp [covers_iff.2 hc] at h]

theorem pairwise_sorted {es : List Edit} (hr : ∀ e ∈ es, e.start ≤ e.stop)
    (hap : es.Pairwise Apart) : (sorted es).Pairwise fun a b => a.stop ≤ b.start := by
  have hperm := Sorting.sortBy_perm precedes es
  rw [sorted_eq]
  have hap' : (Sorting.sortBy precedes es).Pairwise Apart :=
    (hperm.pairwise_iff fun h => h.symm).2 hap
  refine (hap'.and (Sorting.sortBy_sorted precedes_weak es)).imp_of_mem ?_
  intro a b ha hb h
  have h1 := hr a (hperm.mem_iff.1 ha)
  have h2 := hr b (hperm.mem_iff.1 hb)
  obtain ⟨h3, h4⟩ := h
  unfold Apart at h3
  simp only [precedes, isInsertion] at h4
  grind

theorem view_sorted (source : Bytes) {es : List Edit} (hap : es.Pairwise Apart)
    (ho : es.Pairwise fun a b => a.order < b.order) : view source (sorted es) = view source es := by
  have hperm := Sorting.sortBy_perm precedes es
  rw [sorted_eq]
  ext1
  · funext p
    simp only [view]
    rw [Sorting.filter_sortBy precedes_weak]
    refine ho.imp fun {a b} hab ha hb => ?_
    simp only [Bool.and_eq_true, beq_iff_eq] at ha hb
    simp only [precedes, isInsertion, beq_iff_eq] at ha hb ⊢
    grind
  · funext p
    by_cases h : ∃ e ∈ es, e.covers p = true
    · obtain ⟨e, he, hp⟩ := h
      rw [shown_of_covers hap he hp, shown_of_covers _ (hperm.mem_iff.2 he) hp]
      exact (hperm.pairwise_iff fun h => h.symm).2 hap
    · have hf : ∀ e ∈ es, e.covers p = false := by simpa using h
      rw [shown_of_free hf, shown_of_free fun e he => hf e (hperm.mem_iff.1 he)]

theorem span_cons_insertion (source : Bytes) {e : Edit} {es : List Edit} {stop : Nat}
    (heq : e.start = e.stop) (h : e.stop ≤ stop) :
    (view source (e :: es)).span e.start stop ++ (view source (e :: es)).inserted stop =
      e.replacement ++ ((view source es).span e.stop stop ++ (view source es).inserted stop) := by
  have hins : ∀ p, (view source (e :: es)).inserted p =
      (if p = e.start then e.replacement else []) ++ (view source es).inserted p := by
    intro p
    rw [inserted_cons]
    congr 1
    exact if_congr ⟨fun h => h.2.symm, fun h => ⟨heq, h.symm⟩⟩ rfl rfl
  have hcell : ∀ p, (view source (e :: es)).cell p =
      (if p = e.start then e.replacement else []) ++ (view source es).cell p := by
    intro p
    have hnot : ¬(e.start ≤ p ∧ p < e.stop) := by omega
    rw [View.cell, hins, shown_cons, if_neg hnot, List.append_assoc]
    rfl
  rw [← heq] at h ⊢
  rcases Nat.eq_or_lt_of_le h with hst | hst
  · simp [hst, hins]
  · have hrest : (view source (e :: es)).span (e.start + 1) stop =
        (view source es).span (e.start + 1) stop := by
      refine View.span_congr fun p hp _ => ?_
      rw [hcell, if_neg (by omega), List.nil_append]
    rw [View.span_cons _ hst, View.span_cons _ hst, hcell, hins, hrest, if_pos rfl,
      if_neg (by omega)]
    simp

/-- The text of a replacement stands at its start, and nothing from there to its end. -/
theorem span_cons_replacement (source : Bytes) {e : Edit} {es : List Edit} {stop : Nat}
    (hlt : e.start < e.stop) (h : e.stop ≤ stop) (hes : ∀ x ∈ es, e.stop ≤ x.start) :
    (view source (e :: es)).span e.start stop ++ (view source (e :: es)).inserted stop =
      e.replacement ++ ((view source es).span e.stop stop ++ (view source es).inserted stop) := by
  have hrest : ∀ p, e.stop ≤ p → (view source (e :: es)).cell p = (view source es).cell p ∧
      (view source (e :: es)).inserted p = (view source es).inserted p := by
    intro p hp
    simp only [View.cell, inserted_cons, shown_cons]
    rw [if_neg (by omega), if_neg (by omega)]
    exact ⟨rfl, rfl⟩
  have hin : ∀ p, e.start ≤ p → p < e.stop → (view source (e :: es)).cell p =
      if e.start = p then e.replacement else [] := by
    intro p h4 h5
    have hnone : (view source es).inserted p = [] := by
      refine inserted_of_free fun x hx _ => ?_
      have := hes x hx
      omega
    simp only [View.cell, inserted_cons, shown_cons, hnone]
    rw [if_neg (by omega), if_pos ⟨h4, h5⟩]
    rfl
  have hnil : (view source (e :: es)).span (e.start + 1) e.stop = [] := by
    refine List.flatMap_eq_nil_iff.2 fun p hp => ?_
    rw [List.mem_range'_1] at hp
    rw [hin p (by omega) (by omega), if_neg (by omega)]
  rw [← View.span_append _ (Nat.le_of_lt hlt) h, View.span_cons _ hlt, hnil, hin _ le_rfl hlt,
    if_pos rfl, (hrest stop h).2, View.span_congr fun p h _ => (hrest p h).1]
  simp

theorem splice_eq (source : Bytes) (stop : Nat) : ∀ (es : List Edit) (cursor : Nat),
    (es.Pairwise fun a b => a.stop ≤ b.start) →
    (∀ e ∈ es, cursor ≤ e.start ∧ e.start ≤ e.stop ∧ e.stop ≤ stop) → cursor ≤ stop →
    Editor.splice source cursor stop es =
      (view source es).span cursor stop ++ (view source es).inserted stop := by
  intro es
  induction es with
  | nil =>
    intro cursor _ _ hc
    have hspan : (view source []).span cursor stop = slice source cursor stop :=
      View.span_source hc fun p _ _ => by simp [View.cell, view]
    rw [hspan, Editor.splice]
    simp [view]
  | cons e es ih =>
    intro cursor hp hr hc
    obtain ⟨hp1, hp2⟩ := List.pairwise_cons.1 hp
    obtain ⟨h1, h2, h3⟩ := hr e (by simp)
    have hes : ∀ x ∈ es, e.stop ≤ x.start ∧ x.start ≤ x.stop ∧ x.stop ≤ stop :=
      fun x hx => ⟨hp1 x hx, (hr x (by simp [hx])).2⟩
    have hedit : (view source (e :: es)).span e.start stop ++
        (view source (e :: es)).inserted stop =
          e.replacement ++ ((view source es).span e.stop stop ++ (view source es).inserted stop) := by
      rcases Nat.eq_or_lt_of_le h2 with heq | hlt
      · exact span_cons_insertion source heq h3
      · exact span_cons_replacement source hlt h3 hp1
    have hhead : (view source (e :: es)).span cursor e.start = slice source cursor e.start := by
      refine View.span_source h1 fun p _ hpe => ?_
      have hnone : (view source (e :: es)).inserted p = [] := by
        refine inserted_of_free fun x hx _ => ?_
        rcases List.mem_cons.1 hx with rfl | hx
        · omega
        · have := hes x hx
          omega
      rw [View.cell, hnone, List.nil_append]
      refine shown_of_free fun x hx => ?_
      have : p < x.start := by
        rcases List.mem_cons.1 hx with rfl | hx
        · omega
        · have := hes x hx
          omega
      simp [covers, this]
    rw [Editor.splice, max_eq_right (by omega), ih e.stop hp2 hes h3,
      ← View.span_append _ h1 (show e.start ≤ stop by omega), hhead]
    simp only [List.append_assoc]
    rw [hedit]

theorem splice_sorted (source : Bytes) {es : List Edit} {a b : Nat} (hab : a ≤ b)
    (hr : ∀ e ∈ es, a ≤ e.start ∧ e.start ≤ e.stop ∧ e.stop ≤ b) (hap : es.Pairwise Apart)
    (ho : es.Pairwise fun x y => x.order < y.order) :
    Editor.splice source a b (sorted es) =
      (view source es).span a b ++ (view source es).inserted b := by
  have hperm := Sorting.sortBy_perm precedes es
  rw [← sorted_eq] at hperm
  rw [splice_eq source b _ a (pairwise_sorted (fun e he => (hr e he).2.1) hap)
    (fun e he => hr e (hperm.mem_iff.1 he)) hab, view_sorted source hap ho]

end Edit

namespace Editor

def view (ed : Editor) : View := Edit.view ed.source ed.edits

/-- Edits lie in the source, apart from one another, and are numbered as they were recorded. -/
structure Sound (ed : Editor) : Prop where
  range : ∀ e ∈ ed.edits, e.start ≤ e.stop ∧ e.stop ≤ ed.source.length
  apart : ed.edits.Pairwise Edit.Apart
  orders : ed.edits.Pairwise fun a b => a.order < b.order
  fresh : ∀ e ∈ ed.edits, e.order < ed.next

/-- No edit cuts into `[a, b)`: each lies inside or outside. -/
def Clear (ed : Editor) (a b : Nat) : Prop :=
  ∀ e ∈ ed.edits, e.inside a b = true ∨ e.stop ≤ a ∨ b ≤ e.start

theorem sound_fresh (source : Bytes) : Sound { source } := by
  constructor <;> simp

theorem printBytes_eq {ed : Editor} (h : ed.Sound) :
    ed.printBytes = ed.view.span 0 ed.source.length ++ ed.view.inserted ed.source.length := by
  have hall : ed.edits.filter (fun e => e.inside 0 ed.source.length ||
      (e.isInsertion && e.start ≤ ed.source.length)) = ed.edits := by
    refine List.filter_eq_self.2 fun e he => ?_
    have := h.range e he
    simp only [Bool.or_eq_true, Edit.inside_iff, Bool.and_eq_true, Edit.isInsertion_iff,
      decide_eq_true_eq]
    omega
  dsimp only [printBytes]
  rw [hall, Edit.splice_sorted ed.source (Nat.zero_le _)
    (fun e he => ⟨Nat.zero_le _, h.range e he⟩) h.apart h.orders]
  rfl

/-- Nothing but insertions stands at the end of the source. -/
theorem shown_length {ed : Editor} (h : ed.Sound) : ed.view.shown ed.source.length = [] := by
  have hfree : ed.view.shown ed.source.length =
      slice ed.source ed.source.length (ed.source.length + 1) := by
    refine Edit.shown_of_free fun e he => ?_
    have := h.range e he
    rw [← Bool.not_eq_true, Edit.covers_iff]
    omega
  rw [hfree, slice, List.drop_length, List.take_nil]

theorem printBytes_eq_span {ed : Editor} (h : ed.Sound) :
    ed.printBytes = ed.view.span 0 (ed.source.length + 1) := by
  rw [printBytes_eq h, ← View.span_append _ (Nat.zero_le _) (Nat.le_succ ed.source.length),
    View.span_cons _ (Nat.lt_succ_self _), View.span_self, View.cell, shown_length h,
    List.append_nil, List.append_nil]

/-- A range that no edit cuts into is rendered as it is shown, less the insertions on its left
border. -/
theorem renderBytes_eq {ed : Editor} (h : ed.Sound) {a b : Nat} (hab : a ≤ b) (hc : ed.Clear a b) :
    ed.renderBytes a b = (ed.view.hide a).span a b := by
  set es := ed.edits.filter (·.inside a b) with hes
  have hr : ∀ e ∈ es, a ≤ e.start ∧ e.start ≤ e.stop ∧ e.stop ≤ b := by
    intro e he
    obtain ⟨hmem, hin⟩ := List.mem_filter.1 he
    rw [Edit.inside_iff] at hin
    have := h.range e hmem
    omega
  -- an insertion on a border is not inside
  have hborder : ∀ p, p = a ∨ p = b → (Edit.view ed.source es).inserted p = [] := by
    intro p hp
    refine Edit.inserted_of_free fun e he heq => ?_
    have hin := (List.mem_filter.1 he).2
    rw [Edit.inside_iff] at hin
    omega
  unfold renderBytes
  rw [Edit.splice_sorted ed.source hab hr (h.apart.filter _) (h.orders.filter _),
    hborder b (.inr rfl), List.append_nil]
  refine View.span_congr fun p hp1 hp2 => ?_
  have hshown : (Edit.view ed.source es).shown p = ed.view.shown p := by
    refine Edit.shown_filter ed.source h.apart fun e he hep => ?_
    have := Edit.covers_iff.1 hep
    rcases hc e he with h1 | h1 | h1
    · exact h1
    · omega
    · omega
  have hins : (Edit.view ed.source es).inserted p = (ed.view.hide a).inserted p := by
    simp only [View.hide]
    split
    · exact hborder p (.inl ‹_›)
    · refine Edit.inserted_filter ed.source fun e _ heq hp => ?_
      rw [Edit.inside_iff]
      omega
  rw [View.cell, View.cell, hins, hshown]
  rfl

def kept (ed : Editor) : Bytes :=
  (List.range ed.source.length).flatMap fun p =>
    if ed.edits.any (·.covers p) then [] else slice ed.source p (p + 1)

theorem kept_sublist_printBytes {ed : Editor} (h : ed.Sound) : ed.kept.Sublist ed.printBytes := by
  rw [printBytes_eq h]
  refine List.Sublist.trans ?_ (List.sublist_append_left _ _)
  unfold kept View.span
  rw [List.range_eq_range', Nat.sub_zero]
  refine List.Sublist.flatMap_right _ fun p _ => ?_
  split
  · exact List.nil_sublist _
  · rename_i hcov
    rw [Bool.not_eq_true, List.any_eq_false] at hcov
    have : ed.view.shown p = slice ed.source p (p + 1) :=
      Edit.shown_of_free fun e he => by simpa using hcov e he
    rw [View.cell, this]
    exact List.sublist_append_right _ _

theorem kept_sublist_source (ed : Editor) : ed.kept.Sublist ed.source := by
  have hsource : ed.source = (List.range ed.source.length).flatMap fun p =>
      slice ed.source p (p + 1) := by
    have h : (Edit.view ed.source []).span 0 ed.source.length =
        slice ed.source 0 ed.source.length :=
      View.span_source (Nat.zero_le _) fun p _ _ => by simp [View.cell, Edit.view]
    rw [View.span, ← List.range_eq_range', slice, List.drop_zero, Nat.sub_zero, List.take_length] at h
    refine h.symm.trans (List.flatMap_congr fun p _ => ?_)
    simp [View.cell, Edit.view]
  conv_rhs => rw [hsource]
  refine List.Sublist.flatMap_right _ fun p _ => ?_
  split
  · exact List.nil_sublist _
  · exact List.Sublist.refl _

theorem slice_infix_printBytes {ed : Editor} (h : ed.Sound) {a b : Nat} (hab : a ≤ b)
    (hb : b ≤ ed.source.length) (hf : ∀ e ∈ ed.edits, e.stop ≤ a ∨ b ≤ e.start) :
    slice ed.source a b <:+: ed.printBytes := by
  rcases Nat.eq_or_lt_of_le hab with rfl | hlt
  · simp [slice]
  have hrange : (ed.view.hide a).span a b = slice ed.source a b := by
    refine View.span_source hab fun p hp1 hp2 => ?_
    have hshown : ed.view.shown p = slice ed.source p (p + 1) := by
      refine Edit.shown_of_free fun e he => ?_
      rw [← Bool.not_eq_true, Edit.covers_iff]
      have := hf e he
      omega
    have hins : (ed.view.hide a).inserted p = [] := by
      simp only [View.hide]
      split
      · rfl
      · refine Edit.inserted_of_free fun e he heq => ?_
        have := hf e he
        omega
    rw [View.cell, hins, List.nil_append]
    exact hshown
  rw [printBytes_eq h, ← View.span_append _ (Nat.zero_le a) (hab.trans hb),
    ← View.span_append _ hab hb, View.span_hide _ hlt, hrange]
  refine ⟨ed.view.span 0 a ++ ed.view.inserted a,
    ed.view.span b ed.source.length ++ ed.view.inserted ed.source.length, ?_⟩
  simp only [List.append_assoc]

def outside (es : List Edit) (a b : Nat) : List Edit := es.filter fun e => !e.inside a b

theorem mem_outside {es : List Edit} {a b : Nat} {e : Edit} :
    e ∈ outside es a b ↔ e ∈ es ∧ e.inside a b = false := by
  simp [outside]

/-- A replacement is refused exactly where an edit cuts into its range. -/
theorem replaceRange_eq_ok {ed ed' : Editor} {a b : Nat} {text : String} :
    ed.replaceRange a b text = .ok ed' ↔
      ed.Clear a b ∧
        ed' = { ed with
          edits := outside ed.edits a b ++ [⟨a, b, encode text, ed.next⟩], next := ed.next + 1 } := by
  have hclear : ed.edits.find? (fun e => !e.inside a b && !e.isInsertion && e.start < b &&
      a < e.stop) = none ↔ ed.Clear a b := by
    rw [List.find?_eq_none]
    refine forall₂_congr fun e _ => ?_
    simp only [Bool.and_eq_true, Bool.not_eq_true', decide_eq_true_eq, ← Bool.not_eq_true,
      Edit.inside_iff, Edit.isInsertion_iff]
    omega
  unfold replaceRange
  split
  · rename_i e he
    have : ¬ed.Clear a b := by rw [← hclear, he]; simp
    simp [this]
  · rename_i he
    simp only [hclear.1 he, true_and, Except.ok.injEq, record]
    exact eq_comm

/-- An insertion is refused exactly where its offset is strictly inside a replacement. -/
theorem insertAt_eq_ok {ed ed' : Editor} {p : Nat} {text : String} :
    ed.insertAt p text = .ok ed' ↔ ed.Clear p p ∧ ed' = ed.record p p text := by
  have hclear : ed.edits.find? (fun e => !e.isInsertion && e.start < p && p < e.stop) = none ↔
      ed.Clear p p := by
    rw [List.find?_eq_none]
    refine forall₂_congr fun e _ => ?_
    simp only [Bool.and_eq_true, Bool.not_eq_true', decide_eq_true_eq, ← Bool.not_eq_true,
      Edit.inside_iff, Edit.isInsertion_iff]
    omega
  unfold insertAt
  split
  · rename_i e he
    have : ¬ed.Clear p p := by rw [← hclear, he]; simp
    simp [this]
  · rename_i he
    simp only [hclear.1 he, true_and, Except.ok.injEq]
    exact eq_comm

theorem Clear.not_error {ed : Editor} {a b : Nat} (h : ed.Clear a b) {text : String} {o : Overlap} :
    ed.replaceRange a b text ≠ .error o := by
  intro he
  have : ed.replaceRange a b text = .ok _ := replaceRange_eq_ok.2 ⟨h, rfl⟩
  simp [he] at this

theorem Clear.insertAt_not_error {ed : Editor} {p : Nat} (h : ed.Clear p p) {text : String}
    {o : Overlap} : ed.insertAt p text ≠ .error o := by
  intro he
  have : ed.insertAt p text = .ok _ := insertAt_eq_ok.2 ⟨h, rfl⟩
  simp [he] at this

theorem Sound.replaced {ed ed' : Editor} (h : ed.Sound) {a b : Nat} {text : String} (hab : a ≤ b)
    (hb : b ≤ ed.source.length) (he : ed.replaceRange a b text = .ok ed') : ed'.Sound := by
  obtain ⟨hc, rfl⟩ := replaceRange_eq_ok.1 he
  have hsub : (outside ed.edits a b).Sublist ed.edits := List.filter_sublist
  constructor
  · intro e he
    rcases List.mem_append.1 he with he | he
    · exact h.range e (hsub.subset he)
    · obtain rfl := List.mem_singleton.1 he
      exact ⟨hab, hb⟩
  · refine List.pairwise_append.2 ⟨h.apart.sublist hsub, List.pairwise_singleton _ _, ?_⟩
    intro e he x hx
    obtain rfl := List.mem_singleton.1 hx
    obtain ⟨h1, h2⟩ := mem_outside.1 he
    rcases hc e h1 with h3 | h3
    · simp [h2] at h3
    · exact h3
  · refine List.pairwise_append.2 ⟨h.orders.sublist hsub, List.pairwise_singleton _ _, ?_⟩
    intro e he x hx
    obtain rfl := List.mem_singleton.1 hx
    exact h.fresh e (hsub.subset he)
  · intro e he
    rcases List.mem_append.1 he with he | he
    · exact (h.fresh e (hsub.subset he)).trans (Nat.lt_succ_self _)
    · obtain rfl := List.mem_singleton.1 he
      exact Nat.lt_succ_self _

theorem Sound.outside_self {ed : Editor} (h : ed.Sound) (p : Nat) :
    outside ed.edits p p = ed.edits := by
  refine List.filter_eq_self.2 fun e he => ?_
  have := h.range e he
  rw [Bool.not_eq_true', ← Bool.not_eq_true, Edit.inside_iff]
  omega

theorem insertAt_eq_replaceRange {ed : Editor} (h : ed.Sound) (p : Nat) (text : String) {ed' : Editor} :
    ed.insertAt p text = .ok ed' ↔ ed.replaceRange p p text = .ok ed' := by
  rw [insertAt_eq_ok, replaceRange_eq_ok, h.outside_self]
  rfl

theorem Sound.insertedAt {ed ed' : Editor} (h : ed.Sound) {p : Nat} {text : String}
    (hp : p ≤ ed.source.length) (he : ed.insertAt p text = .ok ed') : ed'.Sound :=
  h.replaced le_rfl hp ((insertAt_eq_replaceRange h p text).1 he)

theorem view_replaced {ed ed' : Editor} (h : ed.Sound) {a b : Nat} {text : String} (hab : a < b)
    (hb : b ≤ ed.source.length) (he : ed.replaceRange a b text = .ok ed') :
    ed'.view = ed.view.replace a b (encode text) := by
  have hs := h.replaced hab.le hb he
  obtain ⟨hc, rfl⟩ := replaceRange_eq_ok.1 he
  ext1
  · funext p
    simp only [view, Edit.view, View.replace, List.filter_append, List.flatMap_append, outside,
      List.filter_filter]
    have hnew : [(⟨a, b, encode text, ed.next⟩ : Edit)].filter
        (fun e => e.isInsertion && e.start == p) = [] := by
      simp [Edit.isInsertion, hab.ne]
    rw [hnew, List.flatMap_nil, List.append_nil]
    split
    · rename_i hp
      rw [List.filter_eq_nil_iff.2]
      · rfl
      · intro e he
        simp only [Bool.and_eq_true, Bool.not_eq_true', ← Bool.not_eq_true, Edit.inside_iff,
          Edit.isInsertion_iff, beq_iff_eq]
        omega
    · rename_i hp
      congr 1
      refine List.filter_congr fun e he => ?_
      rw [Bool.eq_iff_iff]
      simp only [Bool.and_eq_true, Bool.not_eq_true', ← Bool.not_eq_true, Edit.inside_iff,
        Edit.isInsertion_iff, beq_iff_eq]
      omega
  · funext p
    simp only [View.replace]
    by_cases hp : a ≤ p ∧ p < b
    · have hcov := Edit.covers_iff (e := ⟨a, b, encode text, ed.next⟩).2 hp
      rw [view, Edit.shown_of_covers hs.apart (by simp) hcov]
      simp only
      by_cases hpa : p = a
      · simp [hpa]
      · rw [if_neg (by omega), if_neg hpa, if_pos (by omega)]
    · rw [if_neg (by omega), if_neg (by omega)]
      by_cases hcov : ∃ e ∈ ed.edits, e.covers p = true
      · obtain ⟨e, he, hep⟩ := hcov
        have hout : e.inside a b = false := by
          rw [← Bool.not_eq_true, Edit.inside_iff]
          have := Edit.covers_iff.1 hep
          omega
        rw [view, Edit.shown_of_covers hs.apart
          (List.mem_append_left _ (mem_outside.2 ⟨he, hout⟩)) hep]
        exact (Edit.shown_of_covers h.apart he hep).symm
      · have hf : ∀ e ∈ ed.edits, e.covers p = false := by simpa using hcov
        rw [view, Edit.shown_of_free]
        · exact (Edit.shown_of_free hf).symm
        · intro e he
          rcases List.mem_append.1 he with he | he
          · exact hf e (mem_outside.1 he).1
          · obtain rfl := List.mem_singleton.1 he
            rw [← Bool.not_eq_true, Edit.covers_iff]
            exact hp

theorem view_insertedAt {ed ed' : Editor} {p : Nat} {text : String}
    (he : ed.insertAt p text = .ok ed') : ed'.view = ed.view.put p (encode text) := by
  obtain ⟨-, rfl⟩ := insertAt_eq_ok.1 he
  ext1
  · funext q
    simp only [view, Edit.view, record, View.put, List.filter_append, List.flatMap_append]
    by_cases hq : q = p
    · simp [Edit.isInsertion, hq]
    · simp [Edit.isInsertion, hq, Ne.symm hq]
  · funext q
    have hnot : (⟨p, p, encode text, ed.next⟩ : Edit).covers q = false := by
      simp [Edit.covers, Edit.isInsertion]
    simp only [view, Edit.view, record, View.put, List.find?_append, List.find?_singleton, hnot]
    simp

end Editor
end OrmCodemod
