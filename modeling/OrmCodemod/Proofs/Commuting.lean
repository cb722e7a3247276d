import OrmCodemod.Proofs.Attached

/-! Editors that hold the same edits. What an editor prints and which calls it grants hang on its
replacements, in whatever order they were made, and on the insertions at each offset in the order in
which they were made. Edits of ranges that are apart can be made in either order. -/

namespace OrmCodemod.Editor

open Syntax Text

variable {ed ed' ed'' ed1 ed2 : Editor} {a b c d p : Nat} {text text' : String}

/-- The editor holds the replacement of a range by a text. -/
def Makes (ed : Editor) (a b : Nat) (text : Bytes) : Prop := ∃ k, ⟨a, b, text, k⟩ ∈ ed.edits

/-- Two editors of one source hold the same edits, but for the order of the replacements. -/
structure SameEdits (ed ed' : Editor) : Prop where
  source : ed.source = ed'.source
  notes : ∀ p, ed.notesAt p = ed'.notesAt p
  makes : ∀ a b text, a ≠ b → (ed.Makes a b text ↔ ed'.Makes a b text)

theorem SameEdits.refl (ed : Editor) : SameEdits ed ed := ⟨rfl, fun _ => rfl, fun _ _ _ _ => .rfl⟩

theorem SameEdits.trans (h : SameEdits ed ed') (h' : SameEdits ed' ed'') : SameEdits ed ed'' :=
  ⟨h.source.trans h'.source, fun p => (h.notes p).trans (h'.notes p),
    fun a b text hne => (h.makes a b text hne).trans (h'.makes a b text hne)⟩

theorem clear_iff_makes : ed.Clear a b ↔
    ∀ c d text, c ≠ d → ed.Makes c d text → (a ≤ c ∧ d ≤ b) ∨ d ≤ a ∨ b ≤ c := by
  constructor
  · rintro hclear c d text hne ⟨k, hk⟩
    have h := hclear _ hk
    rw [Edit.inside_iff] at h
    dsimp only at h
    omega
  · intro h e he
    rw [Edit.inside_iff]
    by_cases hne : e.start = e.stop
    · omega
    · have := h e.start e.stop e.replacement hne ⟨e.order, he⟩
      omega

theorem SameEdits.clear_iff (h : SameEdits ed ed') : ed.Clear a b ↔ ed'.Clear a b := by
  rw [clear_iff_makes, clear_iff_makes]
  exact forall₃_congr fun c d text => forall_congr' fun hne => imp_congr_left (h.makes c d text hne)

theorem Clear.replaced (h : ed.Clear a b) (text : String) : ∃ ed1, ed.replaceRange a b text = .ok ed1 :=
  ⟨_, replaceRange_eq_ok.2 ⟨h, rfl⟩⟩

theorem Clear.insertedAt (h : ed.Clear p p) (text : String) : ∃ ed1, ed.insertAt p text = .ok ed1 :=
  ⟨_, insertAt_eq_ok.2 ⟨h, rfl⟩⟩

/-- The texts inserted at an offset once a range is replaced; a replacement of an empty range is an
insertion. -/
theorem notesAt_afterReplace (h : ed.replaceRange a b text = .ok ed1) (p : Nat) :
    ed1.notesAt p = (if a < p ∧ p < b then [] else ed.notesAt p) ++
      if a = b ∧ p = a then [encode text] else [] := by
  by_cases hin : a < p ∧ p < b
  · have hne : ¬(a = b ∧ p = a) := by omega
    rw [if_pos hin, if_neg hne, notesAt_inside h hin, List.append_nil]
  · obtain ⟨-, rfl⟩ := replaceRange_eq_ok.1 h
    have hkept : (outside ed.edits a b).filter (fun e => e.isInsertion && e.start == p) =
        ed.edits.filter fun e => e.isInsertion && e.start == p := by
      rw [outside, List.filter_filter]
      refine List.filter_congr fun e _ => ?_
      rw [Bool.eq_iff_iff]
      simp only [Bool.and_eq_true, Bool.not_eq_true', ← Bool.not_eq_true, Edit.inside_iff,
        Edit.isInsertion_iff, beq_iff_eq]
      omega
    have hnew : (([⟨a, b, encode text, ed.next⟩] : List Edit).filter fun e =>
        e.isInsertion && e.start == p).map (·.replacement) =
          if a = b ∧ p = a then [encode text] else [] := by
      by_cases hempty : a = b
      · by_cases hp : p = a
        · simp [Edit.isInsertion, hempty, hp]
        · subst hempty
          simp [Edit.isInsertion, hp, Ne.symm hp]
      · simp [Edit.isInsertion, hempty]
    rw [if_neg hin, notesAt, List.filter_append, List.map_append, hkept, hnew]
    rfl

theorem makes_replaced (h : ed.replaceRange a b text = .ok ed1) {t : Bytes} (hne : c ≠ d) :
    ed1.Makes c d t ↔ (c = a ∧ d = b ∧ t = encode text) ∨ (ed.Makes c d t ∧ ¬(a ≤ c ∧ d ≤ b)) := by
  obtain ⟨-, rfl⟩ := replaceRange_eq_ok.1 h
  have hold : ∀ k, (⟨c, d, t, k⟩ : Edit) ∈ outside ed.edits a b ↔
      ⟨c, d, t, k⟩ ∈ ed.edits ∧ ¬(a ≤ c ∧ d ≤ b) := by
    intro k
    rw [mem_outside, ← Bool.not_eq_true, Edit.inside_iff]
    refine and_congr_right fun _ => not_congr ?_
    dsimp only
    omega
  simp only [Makes, List.mem_append, List.mem_singleton, Edit.mk.injEq, hold]
  constructor
  · rintro ⟨k, ⟨hk, hout⟩ | ⟨hc, hd, ht, -⟩⟩
    · exact .inr ⟨⟨k, hk⟩, hout⟩
    · exact .inl ⟨hc, hd, ht⟩
  · rintro (⟨hc, hd, ht⟩ | ⟨⟨k, hk⟩, hout⟩)
    · exact ⟨_, .inr ⟨hc, hd, ht, rfl⟩⟩
    · exact ⟨k, .inl ⟨hk, hout⟩⟩

theorem replaceRange_source (h : ed.replaceRange a b text = .ok ed1) : ed1.source = ed.source := by
  obtain ⟨-, rfl⟩ := replaceRange_eq_ok.1 h
  rfl

theorem makes_inserted (h : ed.insertAt p text = .ok ed1) {t : Bytes} (hne : c ≠ d) :
    ed1.Makes c d t ↔ ed.Makes c d t := by
  obtain ⟨-, rfl⟩ := insertAt_eq_ok.1 h
  simp only [Makes, record, List.mem_append, List.mem_singleton, Edit.mk.injEq]
  refine exists_congr fun k => or_iff_left ?_
  rintro ⟨hc, hd, -⟩
  exact hne (hc.trans hd.symm)

theorem insertAt_source (h : ed.insertAt p text = .ok ed1) : ed1.source = ed.source := by
  obtain ⟨-, rfl⟩ := insertAt_eq_ok.1 h
  rfl

/-- Editors with the same edits grant the same replacements, and hold the same edits after them. -/
theorem SameEdits.replaceRange (h : SameEdits ed ed')
    (hok : ed.replaceRange a b text = .ok ed1) :
    ∃ ed2, ed'.replaceRange a b text = .ok ed2 ∧ SameEdits ed1 ed2 := by
  obtain ⟨hclear, -⟩ := replaceRange_eq_ok.1 hok
  obtain ⟨ed2, hok'⟩ := (h.clear_iff.1 hclear).replaced text
  refine ⟨ed2, hok', ?_, fun p => ?_, fun c d t hne => ?_⟩
  · exact (replaceRange_source hok).trans (h.source.trans (replaceRange_source hok').symm)
  · rw [notesAt_afterReplace hok, notesAt_afterReplace hok', h.notes]
  · rw [makes_replaced hok hne, makes_replaced hok' hne, h.makes c d t hne]

theorem SameEdits.insertAt (h : SameEdits ed ed') (hok : ed.insertAt p text = .ok ed1) :
    ∃ ed2, ed'.insertAt p text = .ok ed2 ∧ SameEdits ed1 ed2 := by
  obtain ⟨hclear, -⟩ := insertAt_eq_ok.1 hok
  obtain ⟨ed2, hok'⟩ := (h.clear_iff.1 hclear).insertedAt text
  refine ⟨ed2, hok', ?_, fun q => ?_, fun c d t hne => ?_⟩
  · exact (insertAt_source hok).trans (h.source.trans (insertAt_source hok').symm)
  · rw [notesAt_insertedAt hok, notesAt_insertedAt hok', h.notes]
  · rw [makes_inserted hok hne, makes_inserted hok' hne, h.makes c d t hne]

theorem SameEdits.insertCommentBefore (h : SameEdits ed ed') {q : Place} {comment : String} {put : Bool}
    (hok : ed.insertCommentBefore q comment = .ok (put, ed1)) :
    ∃ ed2, ed'.insertCommentBefore q comment = .ok (put, ed2) ∧ SameEdits ed1 ed2 := by
  rw [insertCommentBefore_eq] at hok ⊢
  rw [← noted_eq h.source (h.notes _) comment, ← h.source]
  split at hok
  · rename_i hnoted
    obtain ⟨rfl, rfl⟩ : false = put ∧ ed = ed1 := by simpa using hok
    exact ⟨ed', by rw [if_pos hnoted], h⟩
  · rename_i hnew
    rw [if_neg hnew]
    cases hins : ed.insertAt q.statement.start
        (commentText (lineIndent ed.source q.statement.start) comment) with
    | error o => rw [hins] at hok; cases hok
    | ok mid =>
      rw [hins] at hok
      obtain ⟨rfl, rfl⟩ : true = put ∧ mid = ed1 := by simpa [Except.map] using hok
      obtain ⟨ed2, hins', hsame⟩ := h.insertAt hins
      exact ⟨ed2, by rw [hins']; rfl, hsame⟩

theorem SameEdits.view_eq (h : SameEdits ed ed') (hs : ed.Sound) (hs' : ed'.Sound) :
    ed.view = ed'.view := by
  have hinserted : ed.view.inserted = ed'.view.inserted := by
    funext p
    rw [Calls.view_inserted, Calls.view_inserted, h.notes]
  have hshown : ed.view.shown = ed'.view.shown := by
    funext p
    by_cases hcov : ∃ e ∈ ed.edits, e.covers p = true
    · obtain ⟨e, he, hep⟩ := hcov
      have hne : e.start ≠ e.stop := by
        have := Edit.covers_iff.1 hep
        omega
      obtain ⟨k, hk⟩ := (h.makes e.start e.stop e.replacement hne).1 ⟨e.order, he⟩
      have hkp : (⟨e.start, e.stop, e.replacement, k⟩ : Edit).covers p = true :=
        Edit.covers_iff.2 (Edit.covers_iff.1 hep)
      rw [view, view, Edit.shown_of_covers hs.apart he hep, Edit.shown_of_covers hs'.apart hk hkp]
    · have hfree : ∀ e ∈ ed.edits, e.covers p = false := by simpa using hcov
      have hfree' : ∀ e ∈ ed'.edits, e.covers p = false := by
        intro e he
        by_contra hep
        have hrange := Edit.covers_iff.1 (by simpa using hep)
        obtain ⟨k, hk⟩ := (h.makes e.start e.stop e.replacement (by omega)).2 ⟨e.order, he⟩
        refine hcov ⟨_, hk, Edit.covers_iff.2 hrange⟩
      rw [view, view, Edit.shown_of_free hfree, Edit.shown_of_free hfree', h.source]
  exact View.ext hinserted hshown

theorem SameEdits.printBytes_eq (h : SameEdits ed ed') (hs : ed.Sound) (hs' : ed'.Sound) :
    ed.printBytes = ed'.printBytes := by
  rw [Editor.printBytes_eq hs, Editor.printBytes_eq hs', h.view_eq hs hs', h.source]

theorem SameEdits.print_eq (h : SameEdits ed ed') (hs : ed.Sound) (hs' : ed'.Sound) :
    ed.print = ed'.print := by
  rw [print, print, h.printBytes_eq hs hs']

/-- Replacements of ranges that are apart can be made in either order, unless both insert at one
offset. -/
theorem replaceRange_comm (hab : a ≤ b) (hcd : c ≤ d) (hapart : b ≤ c ∨ d ≤ a)
    (hne : ¬(a = b ∧ c = d ∧ a = c)) (h1 : ed.replaceRange a b text = .ok ed1)
    (h2 : ed1.replaceRange c d text' = .ok ed2) :
    ∃ ed1' ed2', ed.replaceRange c d text' = .ok ed1' ∧ ed1'.replaceRange a b text = .ok ed2' ∧
      SameEdits ed2 ed2' := by
  have hclear : ed.Clear c d := by
    refine clear_iff_makes.2 fun x y t hxy hmakes => ?_
    by_cases hin : a ≤ x ∧ y ≤ b
    · omega
    · exact clear_iff_makes.1 (replaceRange_eq_ok.1 h2).1 x y t hxy
        ((makes_replaced h1 hxy).2 (.inr ⟨hmakes, hin⟩))
  obtain ⟨ed1', h1'⟩ := hclear.replaced text'
  have hclear' : ed1'.Clear a b := by
    refine clear_iff_makes.2 fun x y t hxy hmakes => ?_
    rcases (makes_replaced h1' hxy).1 hmakes with ⟨rfl, rfl, -⟩ | ⟨hold, -⟩
    · omega
    · exact clear_iff_makes.1 (replaceRange_eq_ok.1 h1).1 x y t hxy hold
  obtain ⟨ed2', h2'⟩ := hclear'.replaced text
  refine ⟨ed1', ed2', h1', h2', ?_, fun p => ?_, fun x y t hxy => ?_⟩
  · rw [replaceRange_source h2, replaceRange_source h1, replaceRange_source h2',
      replaceRange_source h1']
  · rw [notesAt_afterReplace h2, notesAt_afterReplace h1, notesAt_afterReplace h2',
      notesAt_afterReplace h1']
    split_ifs <;> first | omega | simp
  · rw [makes_replaced h2 hxy, makes_replaced h1 hxy, makes_replaced h2' hxy,
      makes_replaced h1' hxy]
    constructor
    · rintro (⟨rfl, rfl, rfl⟩ | ⟨⟨rfl, rfl, rfl⟩ | ⟨hold, hout⟩, hout'⟩)
      · exact .inr ⟨.inl ⟨rfl, rfl, rfl⟩, by omega⟩
      · exact .inl ⟨rfl, rfl, rfl⟩
      · exact .inr ⟨.inr ⟨hold, hout'⟩, hout⟩
    · rintro (⟨rfl, rfl, rfl⟩ | ⟨⟨rfl, rfl, rfl⟩ | ⟨hold, hout⟩, hout'⟩)
      · exact .inr ⟨.inl ⟨rfl, rfl, rfl⟩, by omega⟩
      · exact .inl ⟨rfl, rfl, rfl⟩
      · exact .inr ⟨.inr ⟨hold, hout'⟩, hout⟩

end OrmCodemod.Editor
