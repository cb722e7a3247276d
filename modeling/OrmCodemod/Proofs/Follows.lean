import OrmCodemod.Proofs.Shows

/-! The editor of a pass beside one that only gets the advisories. Where nothing is replaced the two
hold the same insertions, so that an advisory is put into both or into none. -/

namespace OrmCodemod

open Syntax Text Pass

namespace Editor

def notesAt (ed : Editor) (p : Nat) : List Bytes :=
  (ed.edits.filter fun e => e.isInsertion && e.start == p).map (·.replacement)

/-- An editor with a comment before the statement of a place, if there is room for it. -/
def advised (ed : Editor) (p : Place) (comment : String) : Editor :=
  match ed.insertCommentBefore p comment with
  | .ok (_, ed') => ed'
  | .error _ => ed

variable {ed ed' : Editor} {a b p : Nat} {text : String}

theorem notesAt_replaced (hab : a < b) (h : ed.replaceRange a b text = .ok ed')
    (hp : ¬(a < p ∧ p < b)) : ed'.notesAt p = ed.notesAt p := by
  obtain ⟨-, rfl⟩ := replaceRange_eq_ok.1 h
  have hnew : [(⟨a, b, encode text, ed.next⟩ : Edit)].filter
      (fun e => e.isInsertion && e.start == p) = [] := by
    simp [Edit.isInsertion, hab.ne]
  simp only [notesAt, List.filter_append, hnew, List.append_nil, outside, List.filter_filter]
  congr 1
  refine List.filter_congr fun e _ => ?_
  rw [Bool.eq_iff_iff]
  simp only [Bool.and_eq_true, Bool.not_eq_true', ← Bool.not_eq_true, Edit.inside_iff,
    Edit.isInsertion_iff, beq_iff_eq]
  omega

theorem notesAt_inside (h : ed.replaceRange a b text = .ok ed') (hp : a < p ∧ p < b) :
    ed'.notesAt p = [] := by
  obtain ⟨-, rfl⟩ := replaceRange_eq_ok.1 h
  rw [notesAt, List.map_eq_nil_iff, List.filter_eq_nil_iff]
  intro e he
  rcases List.mem_append.1 he with he | he
  · have hout := (mem_outside.1 he).2
    rw [← Bool.not_eq_true, Edit.inside_iff] at hout
    simp only [Bool.and_eq_true, Edit.isInsertion_iff, beq_iff_eq]
    omega
  · obtain rfl := List.mem_singleton.1 he
    simp only [Bool.and_eq_true, Edit.isInsertion_iff, beq_iff_eq]
    omega

theorem notesAt_insertedAt (h : ed.insertAt p text = .ok ed') (q : Nat) :
    ed'.notesAt q = ed.notesAt q ++ if q = p then [encode text] else [] := by
  obtain ⟨-, rfl⟩ := insertAt_eq_ok.1 h
  by_cases hq : q = p
  · simp [notesAt, record, Edit.isInsertion, hq]
  · simp [notesAt, record, Edit.isInsertion, hq, Ne.symm hq]

/-- Whether a comment is noted hangs on the source and on the insertions before the statement. -/
theorem noted_eq {sh : Editor} {q : Place} (hsource : ed.source = sh.source)
    (h : ed.notesAt q.statement.start = sh.notesAt q.statement.start) (comment : String) :
    ed.noted q comment = sh.noted q comment := by
  have hany : ∀ (ed : Editor) (text : Bytes), (ed.edits.any fun e => e.isInsertion &&
      e.start == q.statement.start && e.replacement == text) =
        (ed.notesAt q.statement.start).any (· == text) := by
    intro ed text
    simp only [notesAt, List.any_map, List.any_filter]
    rfl
  unfold noted
  rw [hany, hany, h, hsource, leadingComments, leadingComments, hsource]

/-- No comment is put where an insertion would stand inside a replacement. -/
theorem advised_of_blocked {q : Place} (h : ¬ed.Clear q.statement.start q.statement.start)
    (comment : String) : ed.advised q comment = ed := by
  unfold advised
  rw [insertCommentBefore_eq]
  split
  · rename_i hok
    split at hok
    · exact (Prod.ext_iff.1 (Except.ok.inj hok)).2.symm
    · cases hi : ed.insertAt q.statement.start
          (commentText (lineIndent ed.source q.statement.start) comment) with
      | error o => simp [hi, Except.map] at hok
      | ok ed1 => exact absurd (insertAt_eq_ok.1 hi).1 h
  · rfl

/-- All that an advised editor holds besides is an insertion before the statement. -/
theorem advised_cases (ed : Editor) (q : Place) (comment : String) :
    (ed.advised q comment).source = ed.source ∧ ∀ e ∈ (ed.advised q comment).edits,
      e ∈ ed.edits ∨ (e.start = q.statement.start ∧ e.stop = q.statement.start) := by
  unfold advised
  split
  · rename_i hok
    rcases insertCommentBefore_ok hok with rfl | hins
    · exact ⟨rfl, fun e he => .inl he⟩
    · obtain ⟨-, rfl⟩ := insertAt_eq_ok.1 hins
      refine ⟨rfl, fun e he => ?_⟩
      rcases List.mem_append.1 he with he | he
      · exact .inl he
      · obtain rfl := List.mem_singleton.1 he
        exact .inr ⟨rfl, rfl⟩
  · exact ⟨rfl, fun e he => .inl he⟩

theorem mem_of_replaced {e : Edit} (h : ed.replaceRange a b text = .ok ed') (he : e ∈ ed.edits) :
    e ∈ ed'.edits ∨ e.inside a b = true := by
  obtain ⟨-, rfl⟩ := replaceRange_eq_ok.1 h
  cases hin : e.inside a b with
  | true => exact .inr rfl
  | false => exact .inl (List.mem_append_left _ (mem_outside.2 ⟨he, hin⟩))

theorem covered_self (h : ed.replaceRange a b text = .ok ed') :
    ∃ e ∈ ed'.edits, e.start ≤ a ∧ b ≤ e.stop := by
  obtain ⟨-, rfl⟩ := replaceRange_eq_ok.1 h
  exact ⟨⟨a, b, encode text, ed.next⟩, by simp, le_rfl, le_rfl⟩

theorem covered_replaced {e : Edit} {c d : Nat} (h : ed.replaceRange a b text = .ok ed')
    (he : e ∈ ed.edits) (hin : e.start ≤ c ∧ d ≤ e.stop) :
    ∃ e ∈ ed'.edits, e.start ≤ c ∧ d ≤ e.stop := by
  rcases mem_of_replaced h he with hmem | hinside
  · exact ⟨e, hmem, hin⟩
  · obtain ⟨e', hmem, hin'⟩ := covered_self h
    rw [Edit.inside_iff] at hinside
    exact ⟨e', hmem, by omega⟩

def Replaces (ed : Editor) (a b : Nat) : Prop :=
  ∃ e ∈ ed.edits, e.start < e.stop ∧ e.start ≤ a ∧ b ≤ e.stop

theorem replaces_self (hab : a < b) (h : ed.replaceRange a b text = .ok ed') : ed'.Replaces a b := by
  obtain ⟨e, he, h1, h2⟩ := covered_self h
  exact ⟨e, he, by omega, h1, h2⟩

theorem Replaces.replaced {c d : Nat} (hr : ed.Replaces c d) (h : ed.replaceRange a b text = .ok ed') :
    ed'.Replaces c d := by
  obtain ⟨e, he, hlt, h1, h2⟩ := hr
  obtain ⟨e', he', h3, h4⟩ := covered_replaced h he ⟨le_rfl, le_rfl⟩
  exact ⟨e', he', by omega, by omega, by omega⟩

theorem Replaces.inserted {c d : Nat} (hr : ed.Replaces c d) (h : ed.insertAt p text = .ok ed') :
    ed'.Replaces c d := by
  obtain ⟨-, rfl⟩ := insertAt_eq_ok.1 h
  obtain ⟨e, he, hin⟩ := hr
  exact ⟨e, List.mem_append_left _ he, hin⟩

theorem renderBytes_self (h : ed.Sound) : ed.renderBytes a a = [] := by
  have hnone : ed.edits.filter (·.inside a a) = [] := by
    refine List.filter_eq_nil_iff.2 fun e he => ?_
    have := h.range e he
    rw [Edit.inside_iff]
    omega
  simp [renderBytes, hnone, Edit.sorted, splice, slice]

end Editor

/-- `ed` holds the edits of `base`, those of its shadow `sh`, and replacements of the nodes `N`. -/
structure Follows (u : SourceUnit) (base : Editor) (N : List Tree) (sh ed : Editor) : Prop where
  recorded : Recorded u (fun e => e.start = e.stop ∨ e ∈ base.edits ∨ ∃ n ∈ N, e.IsOn n) ed
  held : ∀ e ∈ base.edits, e.start ≠ e.stop →
    e ∈ ed.edits ∨ ∃ n ∈ N, n.start ≤ e.start ∧ e.stop ≤ n.stop
  notes : ∀ p, (∀ n ∈ N, ¬(n.start < p ∧ p < n.stop)) → ed.notesAt p = sh.notesAt p
  source : sh.source = u.source
  replaced : ∀ e, e.start ≠ e.stop → (e ∈ sh.edits ↔ e ∈ base.edits)
  covered : ∀ n ∈ N, ∃ e ∈ ed.edits, e.start ≤ n.start ∧ n.stop ≤ e.stop

namespace Follows

variable {u : SourceUnit} {base sh ed ed' : Editor} {N : List Tree}

theorem refl {L : Edit → Prop} (h : Recorded u L base) : Follows u base [] base base where
  recorded := ⟨h.source, h.sound, h.texts, fun _ he => .inr (.inl he)⟩
  held _ he _ := .inl he
  notes _ _ := rfl
  source := h.source
  replaced _ _ := Iff.rfl
  covered := by simp

theorem replace (hu : u.Nested) (h : Follows u base N sh ed) {n : Tree} (hn : n.Within u.root)
    (hlt : n.start < n.stop) {text : String} (he : ed.replace n text = .ok ed') :
    Follows u base (N ++ [n]) sh ed' where
  recorded := by
    refine (h.recorded.imp fun e hL => ?_).replace hu hn (fun _ => ?_) he
    · rcases hL with hL | hL | ⟨n', hn', hL⟩
      · exact .inl hL
      · exact .inr (.inl hL)
      · exact .inr (.inr ⟨n', by simp [hn'], hL⟩)
    · exact .inr (.inr ⟨n, by simp, rfl, rfl⟩)
  held e hb hne := by
    rcases h.held e hb hne with hmem | ⟨n', hn', hin⟩
    · rcases Editor.mem_of_replaced he hmem with h1 | h1
      · exact .inl h1
      · rw [Edit.inside_iff] at h1
        exact .inr ⟨n, by simp, by omega⟩
    · exact .inr ⟨n', by simp [hn'], hin⟩
  notes p hp := by
    rw [Editor.notesAt_replaced hlt he (hp n (by simp))]
    exact h.notes p fun n' hn' => hp n' (by simp [hn'])
  source := h.source
  replaced := h.replaced
  covered n' hn' := by
    rcases List.mem_append.1 hn' with hn' | hn'
    · obtain ⟨e, hmem, hin⟩ := h.covered n' hn'
      exact Editor.covered_replaced he hmem hin
    · obtain rfl := List.mem_singleton.1 hn'
      exact Editor.covered_self he

theorem exists_replaced (hu : u.Nested) (h : Follows u base N sh ed) {n : Tree}
    (hn : n.Within u.root) (hlt : n.start < n.stop) (hclear : ed.Clear n.start n.stop)
    (text : String) : ∃ ed', ed.replace n text = .ok ed' ∧ Follows u base (N ++ [n]) sh ed' ∧
      ed'.view = ed.view.replace n.start n.stop (encode text) := by
  obtain ⟨ed', hed⟩ : ∃ ed', ed.replace n text = .ok ed' :=
    ⟨_, Editor.replaceRange_eq_ok.2 ⟨hclear, rfl⟩⟩
  exact ⟨ed', hed, h.replace hu hn hlt hed, Editor.view_replaced h.recorded.sound hlt
    (h.recorded.source ▸ (hu.node hn).2) hed⟩

/-- Outside the replaced nodes there is room for an insertion in both editors or in none. -/
theorem clear_iff (h : Follows u base N sh ed) {p : Nat}
    (hp : ∀ n ∈ N, ¬(n.start < p ∧ p < n.stop)) : ed.Clear p p ↔ sh.Clear p p := by
  refine ⟨fun hc e he => ?_, fun hc e he => ?_⟩
  · by_cases hne : e.start = e.stop
    · omega
    rcases h.held e ((h.replaced e hne).1 he) hne with hmem | ⟨n, hn, hin⟩
    · exact hc e hmem
    · have := hp n hn
      omega
  · rcases h.recorded.all e he with hL | hL | ⟨n, hn, h1, h2⟩
    · omega
    · by_cases hne : e.start = e.stop
      · omega
      · exact hc e ((h.replaced e hne).2 hL)
    · have := hp n hn
      omega

/-- An advisory outside the replaced nodes is put into both editors or into none. -/
theorem advise (hu : u.Nested) (h : Follows u base N sh ed) {q : Place} (hq : q.Rooted u.root)
    (hp : ∀ n ∈ N, ¬(n.start < q.statement.start ∧ q.statement.start < n.stop)) (comment : String) :
    (¬sh.Clear q.statement.start q.statement.start ∧
      ∃ o, ed.insertCommentBefore q comment = .error o) ∨
    ∃ put ed', ed.insertCommentBefore q comment = .ok (put, ed') ∧
      sh.insertCommentBefore q comment = .ok (put, sh.advised q comment) ∧
      Follows u base N (sh.advised q comment) ed' ∧
      ((ed' = ed ∧ sh.advised q comment = sh) ∨
        ∃ text, ed'.view = ed.view.put q.statement.start text ∧
          (sh.advised q comment).view = sh.view.put q.statement.start text) := by
  have hsource : ed.source = sh.source := h.recorded.source.trans h.source.symm
  have hnoted := Editor.noted_eq hsource (h.notes _ hp) comment
  set text := Editor.commentText (lineIndent ed.source q.statement.start) comment with htext
  unfold Editor.advised
  rw [Editor.insertCommentBefore_eq ed, Editor.insertCommentBefore_eq sh, ← hnoted, ← hsource,
    ← htext]
  by_cases hn : ed.noted q comment = true
  · rw [if_pos hn, if_pos hn]
    exact .inr ⟨false, ed, rfl, rfl, h, .inl ⟨rfl, rfl⟩⟩
  rw [if_neg hn, if_neg hn]
  by_cases hc : ed.Clear q.statement.start q.statement.start
  · have hok : ed.insertAt q.statement.start text = .ok _ := Editor.insertAt_eq_ok.2 ⟨hc, rfl⟩
    have hok' : sh.insertAt q.statement.start text = .ok _ :=
      Editor.insertAt_eq_ok.2 ⟨(h.clear_iff hp).1 hc, rfl⟩
    rw [hok, hok']
    simp only [Except.map]
    refine .inr ⟨true, _, rfl, rfl, ?_, .inr ⟨encode text, Editor.view_insertedAt hok,
      Editor.view_insertedAt hok'⟩⟩
    refine ⟨h.recorded.insertAt (statement_fits hu hq) (fun _ => .inl rfl) hok, fun e hb hne => ?_,
      fun p hpN => ?_, h.source, fun e hne => ?_, fun n hn => ?_⟩
    · rcases h.held e hb hne with hmem | hin
      · exact .inl (List.mem_append_left _ hmem)
      · exact .inr hin
    · rw [Editor.notesAt_insertedAt hok, Editor.notesAt_insertedAt hok', h.notes p hpN]
    · rw [← h.replaced e hne]
      refine ⟨fun he => ?_, fun he => List.mem_append_left _ he⟩
      rcases List.mem_append.1 he with he | he
      · exact he
      · obtain rfl := List.mem_singleton.1 he
        exact absurd rfl hne
    · obtain ⟨e, hmem, hin⟩ := h.covered n hn
      exact ⟨e, List.mem_append_left _ hmem, hin⟩
  · have hblocked : ¬sh.Clear q.statement.start q.statement.start :=
      fun hs => hc ((h.clear_iff hp).2 hs)
    refine .inl ⟨hblocked, ?_⟩
    cases hi : ed.insertAt q.statement.start text with
    | error o => exact ⟨o, rfl⟩
    | ok ed1 => exact absurd (Editor.insertAt_eq_ok.1 hi).1 hc

end Follows

end OrmCodemod
