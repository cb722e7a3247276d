import OrmCodemod.Proofs.Alignment
import OrmCodemod.Proofs.Pieces

/-! A range and what stands around it. A printed source is the text before a range, the rendering of
the range and the text after it, and the texts around only read the edits outside the range. So a
range that is replaced by its own rendering, with more text on both sides, prints with that text and
is else unchanged. -/

namespace OrmCodemod

open Syntax Text

namespace View

theorem replace_own (v : View) {a b c d : Nat} {text : Bytes} (hca : c ≤ a) (hab : a < b)
    (hbd : b ≤ d) (ht : text = (v.hide a).span a b) :
    ((v.replace a b text).hide c).span c d = (v.hide c).span c d := by
  have hout : ∀ p, ¬(a ≤ p ∧ p < b) → ((v.replace a b text).hide c).cell p = (v.hide c).cell p := by
    intro p hp
    have hshown : (v.replace a b text).shown p = v.shown p := v.replace_shown hab hp
    have hins : (v.replace a b text).inserted p = v.inserted p := v.replace_inserted (by omega)
    simp only [cell, hide, hshown, hins]
  have hin : ((v.replace a b text).hide c).span a b = (v.hide c).span a b := by
    rw [hide_span _ hca hab, hide_span _ hca hab, v.replace_span hab, ht,
      v.replace_inserted (by omega)]
  rw [← span_append _ hca (hab.le.trans hbd), ← span_append _ hab.le hbd, hin,
    ← span_append (v.hide c) hca (hab.le.trans hbd), ← span_append (v.hide c) hab.le hbd,
    span_congr fun p _ hp => hout p (by omega), span_congr fun p hp _ => hout p (by omega)]

@[simp] theorem put_nil (v : View) (a : Nat) : v.put a [] = v := by
  ext1
  · funext p
    simp [put]
  · rfl

end View

namespace Editor

/-- What stands before an offset: the source up to it with the edits that end there or before. -/
def textBefore (source : Bytes) (es : List Edit) (a : Nat) : Bytes :=
  splice source 0 a (Edit.sorted (es.filter fun e => e.stop ≤ a))

/-- What stands behind `[a, b)`: the source from there with the edits that end behind `a`. -/
def textAfter (source : Bytes) (es : List Edit) (a b : Nat) : Bytes :=
  splice source b source.length (Edit.sorted (es.filter fun e => a < e.stop))

variable {ed ed' : Editor} {a b : Nat} {text : String}

theorem textBefore_eq (h : ed.Sound) (hab : a ≤ b) (hc : ed.Clear a b) :
    textBefore ed.source (outside ed.edits a b) a = ed.view.span 0 a ++ ed.view.inserted a := by
  have hr : ∀ e ∈ (outside ed.edits a b).filter fun e => e.stop ≤ a,
      0 ≤ e.start ∧ e.start ≤ e.stop ∧ e.stop ≤ a := by
    intro e he
    obtain ⟨hmem, hstop⟩ := List.mem_filter.1 he
    exact ⟨Nat.zero_le _, (h.range e (mem_outside.1 hmem).1).1, by simpa using hstop⟩
  have hinserted : ∀ p, p ≤ a → (Edit.view ed.source
      ((outside ed.edits a b).filter fun e => e.stop ≤ a)).inserted p = ed.view.inserted p := by
    intro p hp
    rw [outside, List.filter_filter]
    refine Edit.inserted_filter ed.source fun e _ heq hstart => ?_
    simp only [Bool.and_eq_true, decide_eq_true_eq, Bool.not_eq_true', ← Bool.not_eq_true,
      Edit.inside_iff]
    omega
  have hshown : ∀ p, p < a → (Edit.view ed.source
      ((outside ed.edits a b).filter fun e => e.stop ≤ a)).shown p = ed.view.shown p := by
    intro p hp
    rw [outside, List.filter_filter]
    refine Edit.shown_filter ed.source h.apart fun e he hep => ?_
    have hcov := Edit.covers_iff.1 hep
    have hclear := hc e he
    simp only [Bool.and_eq_true, decide_eq_true_eq, Bool.not_eq_true', ← Bool.not_eq_true,
      Edit.inside_iff] at hclear ⊢
    omega
  rw [textBefore, Edit.splice_sorted ed.source (Nat.zero_le a) hr ((h.apart.filter _).filter _)
    ((h.orders.filter _).filter _), hinserted a le_rfl]
  congr 1
  exact View.span_congr fun p _ hp => by rw [View.cell, View.cell, hinserted p hp.le, hshown p hp]

theorem textAfter_eq (h : ed.Sound) (hab : a ≤ b) (hb : b ≤ ed.source.length) (hc : ed.Clear a b) :
    textAfter ed.source (outside ed.edits a b) a b =
      (ed.view.hide a).span b (ed.source.length + 1) := by
  set es := (outside ed.edits a b).filter fun e => a < e.stop with hes
  have hmem : ∀ e ∈ es, e ∈ ed.edits ∧ e.inside a b = false ∧ a < e.stop := by
    intro e he
    obtain ⟨hmem, hstop⟩ := List.mem_filter.1 he
    exact ⟨(mem_outside.1 hmem).1, (mem_outside.1 hmem).2, by simpa using hstop⟩
  have hr : ∀ e ∈ es, b ≤ e.start ∧ e.start ≤ e.stop ∧ e.stop ≤ ed.source.length := by
    intro e he
    obtain ⟨h1, h2, h3⟩ := hmem e he
    have hrange := h.range e h1
    rcases hc e h1 with h4 | h4 | h4
    · simp [h2] at h4
    · omega
    · exact ⟨h4, hrange⟩
  have hinserted : ∀ p, b ≤ p →
      (Edit.view ed.source es).inserted p = (ed.view.hide a).inserted p := by
    intro p hp
    simp only [View.hide]
    split
    · refine Edit.inserted_of_free fun e he heq => ?_
      have := (hmem e he).2.2
      omega
    · rw [hes, outside, List.filter_filter]
      refine Edit.inserted_filter ed.source fun e _ heq hstart => ?_
      simp only [Bool.and_eq_true, decide_eq_true_eq, Bool.not_eq_true', ← Bool.not_eq_true,
        Edit.inside_iff]
      omega
  have hshown : ∀ p, b ≤ p → (Edit.view ed.source es).shown p = ed.view.shown p := by
    intro p hp
    rw [hes, outside, List.filter_filter]
    refine Edit.shown_filter ed.source h.apart fun e he hep => ?_
    have hcov := Edit.covers_iff.1 hep
    have hrange := h.range e he
    simp only [Bool.and_eq_true, decide_eq_true_eq, Bool.not_eq_true', ← Bool.not_eq_true,
      Edit.inside_iff]
    omega
  have hend : (ed.view.hide a).shown ed.source.length = [] := shown_length h
  rw [textAfter, Edit.splice_sorted ed.source hb hr ((h.apart.filter _).filter _)
    ((h.orders.filter _).filter _), ← View.span_append _ hb (Nat.le_succ _),
    View.span_cons (ed.view.hide a) (Nat.lt_succ_self _), View.span_self, View.cell, hend,
    List.append_nil, List.append_nil, hinserted _ hb]
  congr 1
  exact View.span_congr fun p hp _ => by
    rw [View.cell, View.cell, hinserted p hp, hshown p hp]
    rfl

theorem printBytes_around (h : ed.Sound) (hab : a ≤ b) (hb : b ≤ ed.source.length)
    (hc : ed.Clear a b) :
    ed.printBytes = textBefore ed.source (outside ed.edits a b) a ++ ed.renderBytes a b ++
      textAfter ed.source (outside ed.edits a b) a b := by
  rw [printBytes_eq_span h, textBefore_eq h hab hc, textAfter_eq h hab hb hc, renderBytes_eq h hab hc,
    ← View.span_append _ (Nat.zero_le a) (by omega : a ≤ ed.source.length + 1),
    View.span_hide _ (by omega : a < ed.source.length + 1),
    ← View.span_append (ed.view.hide a) hab (by omega : b ≤ ed.source.length + 1)]
  simp only [List.append_assoc]

/-- A range that is replaced prints its new text, and around it what it printed before. -/
theorem printBytes_replaced (h : ed.Sound) (hab : a ≤ b) (hb : b ≤ ed.source.length)
    (he : ed.replaceRange a b text = .ok ed') :
    ed'.printBytes = textBefore ed.source (outside ed.edits a b) a ++ encode text ++
      textAfter ed.source (outside ed.edits a b) a b := by
  have hs := h.replaced hab hb he
  have hc := (replaceRange_eq_ok.1 he).1
  have hsource : ed'.source = ed.source := by
    obtain ⟨-, rfl⟩ := replaceRange_eq_ok.1 he
    rfl
  rw [printBytes_eq_span hs, hsource, textBefore_eq h hab hc, textAfter_eq h hab hb hc,
    ← View.span_append _ (Nat.zero_le a) (by omega : a ≤ ed.source.length + 1),
    View.span_hide _ (by omega : a < ed.source.length + 1)]
  rcases Nat.eq_or_lt_of_le hab with rfl | hlt
  · -- an empty range: the text comes behind the insertions at its offset
    have hview := view_insertedAt ((insertAt_eq_replaceRange h a text).2 he)
    have hbefore : ed'.view.span 0 a = ed.view.span 0 a := by
      refine View.span_congr fun p _ hp => ?_
      simp [hview, View.cell, View.put, hp.ne]
    have hinserted : ed'.view.inserted a = ed.view.inserted a ++ encode text := by
      simp [hview, View.put]
    have hafter : ed'.view.hide a = ed.view.hide a := by
      ext1
      · funext p
        by_cases hp : p = a <;> simp [hview, View.put, View.hide, hp]
      · simp [hview, View.put, View.hide]
    rw [hbefore, hinserted, hafter]
    simp only [List.append_assoc]
  · have hview := view_replaced h hlt hb he
    have hbefore : ed'.view.span 0 a = ed.view.span 0 a := by
      refine View.span_congr fun p _ hp => ?_
      rw [hview, View.cell, View.replace_inserted _ (by omega), View.replace_shown _ hlt (by omega)]
      rfl
    have hafter : (ed'.view.hide a).span b (ed.source.length + 1) =
        (ed.view.hide a).span b (ed.source.length + 1) := by
      refine View.span_congr fun p hp _ => ?_
      rw [View.hide_cell_of_ne _ (by omega), View.hide_cell_of_ne _ (by omega), hview, View.cell,
        View.replace_inserted _ (by omega), View.replace_shown _ hlt (by omega)]
      rfl
    have hinserted : ed'.view.inserted a = ed.view.inserted a := by
      rw [hview, View.replace_inserted _ (by omega)]
    have hself : (ed'.view.hide a).span a b = encode text := by
      rw [hview, View.replace_span _ hlt]
    rw [← View.span_append (ed'.view.hide a) hab (by omega : b ≤ ed.source.length + 1), hself,
      hbefore, hinserted, hafter]
    simp only [List.append_assoc]

def focus (ed : Editor) (c d : Nat) : Editor := { ed with edits := ed.edits.filter (·.inside c d) }

variable {c d : Nat}

theorem focus_sound (h : ed.Sound) : (ed.focus c d).Sound where
  range e he := h.range e (List.mem_of_mem_filter he)
  apart := h.apart.filter _
  orders := h.orders.filter _
  fresh e he := h.fresh e (List.mem_of_mem_filter he)

theorem focus_clear : (ed.focus c d).Clear c d := fun _ hmem => .inl (List.mem_filter.1 hmem).2

/-- A range is rendered from the edits inside it, and so from those inside a range around it. -/
theorem renderBytes_focus (ed : Editor) (hca : c ≤ a) (hbd : b ≤ d) :
    (ed.focus c d).renderBytes a b = ed.renderBytes a b := by
  simp only [renderBytes, focus, List.filter_filter]
  congr 2
  refine List.filter_congr fun e _ => ?_
  rw [Bool.eq_iff_iff, Bool.and_eq_true, Edit.inside_iff, Edit.inside_iff]
  omega

/-- Replacing a range and looking at a range around it can be done in either order. -/
theorem focus_replaced (he : ed.replaceRange a b text = .ok ed')
    (hin : (⟨a, b, encode text, ed.next⟩ : Edit).inside c d = true) :
    (ed.focus c d).replaceRange a b text = .ok (ed'.focus c d) := by
  obtain ⟨hc, rfl⟩ := replaceRange_eq_ok.1 he
  refine replaceRange_eq_ok.2 ⟨fun e hmem => hc e (List.mem_of_mem_filter hmem), ?_⟩
  simp only [focus, outside, List.filter_append, List.filter_singleton, hin, cond_true,
    List.filter_filter, Bool.and_comm]

theorem renderBytes_put_nothing (h : ed.Sound) (ha : a ≤ ed.source.length)
    (he : ed.insertAt a text = .ok ed') (htext : encode text = []) (hcd : c ≤ d) :
    ed'.renderBytes c d = ed.renderBytes c d := by
  rw [← renderBytes_focus ed' le_rfl le_rfl, ← renderBytes_focus ed le_rfl le_rfl]
  have he' := (insertAt_eq_replaceRange h a text).1 he
  by_cases hin : (⟨a, a, encode text, ed.next⟩ : Edit).inside c d = true
  · have hs := focus_sound (c := c) (d := d) h
    have hput := focus_replaced he' hin
    have hview := view_insertedAt ((insertAt_eq_replaceRange hs a text).2 hput)
    rw [htext, View.put_nil] at hview
    rw [renderBytes_eq (hs.replaced le_rfl ha hput) hcd focus_clear, renderBytes_eq hs hcd focus_clear,
      hview]
  · -- on a border or outside, it is not looked at
    have hfocus : (ed'.focus c d).edits = (ed.focus c d).edits ∧ ed'.source = ed.source := by
      obtain ⟨-, rfl⟩ := insertAt_eq_ok.1 he
      simp [focus, record, hin]
    simp only [renderBytes, hfocus.1]
    simp only [focus, hfocus.2]

/-- A range that is replaced by its own rendering changes no rendering around it. -/
theorem renderBytes_own (h : ed.Sound) (hab : a ≤ b) (hb : b ≤ ed.source.length)
    (he : ed.replaceRange a b text = .ok ed') (htext : encode text = ed.renderBytes a b)
    (hca : c ≤ a) (hbd : b ≤ d) : ed'.renderBytes c d = ed.renderBytes c d := by
  rcases Nat.eq_or_lt_of_le hab with rfl | hlt
  · have hempty : ed.renderBytes a a = [] := by
      rw [renderBytes_eq h le_rfl (replaceRange_eq_ok.1 he).1, View.span_self]
    exact renderBytes_put_nothing h hb ((insertAt_eq_replaceRange h a text).2 he)
      (htext.trans hempty) (hca.trans hbd)
  · have hs := focus_sound (c := c) (d := d) h
    have he' := focus_replaced he (Edit.inside_iff.2 (.inr ⟨hlt.ne, hca, hbd⟩))
    rw [← renderBytes_focus ed' le_rfl le_rfl, ← renderBytes_focus ed le_rfl le_rfl,
      renderBytes_eq (hs.replaced hab hb he') (by omega) focus_clear,
      renderBytes_eq hs (by omega) focus_clear, view_replaced hs hlt hb he']
    refine View.replace_own _ hca hlt hbd ?_
    rw [htext, ← renderBytes_focus ed hca hbd, renderBytes_eq hs hab (replaceRange_eq_ok.1 he').1]

/-- How a range and what stands around it make up a printed source, and what wrapping it does. -/
structure Composes (ed : Editor) (a b : Nat) (before after : Bytes) : Prop where
  printed : ed.printBytes = before ++ ed.renderBytes a b ++ after
  left : ∃ l, before = l ++ (ed.insertionsAt a).flatMap (·.replacement)
  right : a < b → ∃ r, after = (ed.insertionsAt b).flatMap (·.replacement) ++ r
  wrapped : ∀ inner, decode (ed.renderBytes a b) = .ok inner → ∀ l r, ∃ ed',
    ed.replaceRange a b (l ++ inner ++ r) = .ok ed' ∧
    ed'.printBytes = before ++ (encode l ++ ed.renderBytes a b ++ encode r) ++ after
  own : ∀ inner, decode (ed.renderBytes a b) = .ok inner → ∃ ed',
    ed.replaceRange a b inner = .ok ed' ∧ ed'.printBytes = ed.printBytes ∧
    ∀ c d, c ≤ a → b ≤ d → ed'.renderBytes c d = ed.renderBytes c d

theorem composes_of_clear (h : ed.Sound) (hab : a ≤ b) (hb : b ≤ ed.source.length)
    (hc : ed.Clear a b) : ed.Composes a b (textBefore ed.source (outside ed.edits a b) a)
      (textAfter ed.source (outside ed.edits a b) a b) where
  printed := printBytes_around h hab hb hc
  left := ⟨_, textBefore_eq h hab hc⟩
  right hlt := by
    rw [textAfter_eq h hab hb hc, View.hide_span _ hab (by omega), if_neg (by omega)]
    exact ⟨_, rfl⟩
  wrapped inner hinner l r := by
    have hok : ed.replaceRange a b (l ++ inner ++ r) = .ok _ := replaceRange_eq_ok.2 ⟨hc, rfl⟩
    refine ⟨_, hok, ?_⟩
    rw [printBytes_replaced h hab hb hok, encode_append, encode_append, encode_of_decode hinner]
  own inner hinner := by
    have hok : ed.replaceRange a b inner = .ok _ := replaceRange_eq_ok.2 ⟨hc, rfl⟩
    have htext := encode_of_decode hinner
    refine ⟨_, hok, ?_, fun c d hca hbd => renderBytes_own h hab hb hok htext hca hbd⟩
    rw [printBytes_replaced h hab hb hok, htext, ← printBytes_around h hab hb hc]

/-- Where edits and a range lie between characters, the range and what stands around it are texts. -/
theorem texts_around {source : String} (hsource : ed.source = encode source)
    (ha : isBoundary (encode source) a = true) (hb : isBoundary (encode source) b = true)
    (hes : ∀ e ∈ ed.edits, e.Aligned (encode source) ∧ ∃ text, e.replacement = encode text) :
    ∃ l inner r, textBefore ed.source (outside ed.edits a b) a = encode l ∧
      ed.renderBytes a b = encode inner ∧
      textAfter ed.source (outside ed.edits a b) a b = encode r := by
  have hsub : ∀ q : Edit → Bool, ∀ e ∈ Edit.sorted ((outside ed.edits a b).filter q),
      e.Aligned (encode source) ∧ ∃ text, e.replacement = encode text :=
    fun q e he => hes e (mem_outside.1 (List.mem_of_mem_filter (sorted_subset he))).1
  have hinside : ∀ e ∈ Edit.sorted (ed.edits.filter (·.inside a b)),
      e.Aligned (encode source) ∧ ∃ text, e.replacement = encode text :=
    fun e he => hes e (List.mem_of_mem_filter (sorted_subset he))
  rw [hsource]
  rw [encode_eq] at *
  obtain ⟨l, hl⟩ := splice_encoded ha _ 0 (isBoundary_zero _) (hsub fun e => e.stop ≤ a)
  obtain ⟨m, hm⟩ := splice_encoded hb _ a ha hinside
  obtain ⟨r, hr⟩ := splice_encoded (isBoundary_length _) _ b hb (hsub fun e => a < e.stop)
  refine ⟨String.ofList l, String.ofList m, String.ofList r, ?_, ?_, ?_⟩ <;> rw [encode_ofList]
  · exact hl
  · rw [renderBytes, hsource]
    exact hm
  · exact hr

end Editor

/-- The call starts and ends between characters. -/
def Request.Aligned {source : Bytes} (r : Request source.length) : Prop :=
  isBoundary source r.start = true ∧ isBoundary source r.stop = true

instance {source : Bytes} (r : Request source.length) : Decidable r.Aligned :=
  inferInstanceAs (Decidable (_ ∧ _))

open Editor in
/-- After any calls, a range that can be replaced prints as its rendering, between texts that only hang
on the edits outside it, and wrapping its rendering puts the wrapper between the same texts; where
calls and range lie between characters, all of these are texts. -/
theorem Editor.render_composes (source : Bytes) (rs : List (Request source.length)) (a b : Nat)
    (hab : a ≤ b) (hb : b ≤ source.length)
    (hfree : ∃ text ed', (Request.reached source rs).replaceRange a b text = .ok ed') :
    let ed := Request.reached source rs
    let before := textBefore source (outside ed.edits a b) a
    let after := textAfter source (outside ed.edits a b) a b
    ed.Composes a b before after ∧
    ∀ text : String, source = encode text → (∀ r ∈ rs, r.Aligned) →
      isBoundary source a = true → isBoundary source b = true →
      ∃ l inner r, before = encode l ∧ after = encode r ∧
        decode (ed.renderBytes a b) = .ok inner ∧ ed.print = .ok (l ++ inner ++ r) ∧
        ∀ x y, ∃ ed', ed.replaceRange a b (x ++ inner ++ y) = .ok ed' ∧
          ed'.print = .ok (l ++ (x ++ inner ++ y) ++ r) := by
  obtain ⟨hsound, hsource⟩ := Request.reached_sound rs
  obtain ⟨_, _, hok⟩ := hfree
  have hcomposes := composes_of_clear hsound hab
    (hb.trans (congrArg List.length hsource).ge) (replaceRange_eq_ok.1 hok).1
  have hedits := Request.reached_edits rs
  generalize Request.reached source rs = ed at *
  subst hsource
  refine ⟨hcomposes, fun text htext haligned ha hb' => ?_⟩
  rw [htext] at ha hb'
  obtain ⟨l, inner, r, hl, hinner, hr⟩ := texts_around htext ha hb' fun e he => by
    obtain ⟨q, hq, h1, h2, h3⟩ := hedits e he
    have := haligned q hq
    exact ⟨by rw [Edit.Aligned, h1, h2, ← htext]; exact this, _, h3⟩
  have hdecode : decode (ed.renderBytes a b) = .ok inner := by rw [hinner, decode_encode]
  refine ⟨l, inner, r, hl, hr, hdecode, ?_, fun x y => ?_⟩
  · rw [print, hcomposes.printed, hl, hr, hinner, ← encode_append, ← encode_append, decode_encode]
  · obtain ⟨ed', hed', hprint⟩ := hcomposes.wrapped inner hdecode x y
    refine ⟨ed', hed', ?_⟩
    rw [print, hprint, hl, hr, hinner, ← encode_append, ← encode_append, ← encode_append,
      ← encode_append, decode_encode]

/-- A call with another argument, a comment before it, and an insertion that is refused. -/
def wrappingSample : List (Request (encode "f(ä); g").length) :=
  [.replace 1 4 "(b" (by decide) (by decide), .insert 0 "// " (by decide),
    .insert 2 "x" (by decide)]

theorem Editor.render_composes_sample :
    let ed := Request.reached (encode "f(ä); g") wrappingSample
    ed.Composes 0 5 (encode "// ") (encode "; g") ∧ ed.renderBytes 0 5 = encode "f(b)" ∧
    ∃ l inner r, ed.print = .ok (l ++ inner ++ r) ∧
      ∀ x y, ∃ ed', ed.replaceRange 0 5 (x ++ inner ++ y) = .ok ed' ∧
        ed'.print = .ok (l ++ (x ++ inner ++ y) ++ r) := by
  obtain ⟨hcomposes, htexts⟩ := Editor.render_composes (encode "f(ä); g") wrappingSample 0 5
    (by decide) (by decide) ⟨"", _, rfl⟩
  obtain ⟨l, inner, r, -, -, -, hprint, hwrap⟩ := htexts "f(ä); g" rfl (by decide +kernel)
    (by decide +kernel) (by decide +kernel)
  exact ⟨hcomposes, by decide +kernel, l, inner, r, hprint, hwrap⟩

end OrmCodemod
