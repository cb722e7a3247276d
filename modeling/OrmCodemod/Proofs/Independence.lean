import OrmCodemod.Proofs.Commuting
import OrmCodemod.Proofs.Wrapping

/-! Calls whose ranges are apart. Neither of them sees the other: the edits that one drops lie in its
range, and the other cuts into none of them, nor into the edit that the first one makes. So each call is
granted or refused as if it stood alone, and the edits of both are the same in either order, but for their
place in the list. -/

namespace OrmCodemod

open Syntax Text

namespace Editor

variable {ed ed' : Editor} {a b c d p : Nat} {text : Bytes}

theorem notesAt_focus (ed : Editor) (c d p : Nat) :
    (ed.focus c d).notesAt p = if c < p ∧ p < d then ed.notesAt p else [] := by
  rw [notesAt, focus, List.filter_filter]
  split
  · rename_i hp
    refine congrArg (List.map _) (List.filter_congr fun e _ => ?_)
    rw [Bool.eq_iff_iff]
    simp only [Bool.and_eq_true, Edit.isInsertion_iff, Edit.inside_iff, beq_iff_eq]
    omega
  · rename_i hp
    refine List.map_eq_nil_iff.2 (List.filter_eq_nil_iff.2 fun e _ => ?_)
    simp only [Bool.and_eq_true, Edit.isInsertion_iff, Edit.inside_iff, beq_iff_eq]
    omega

theorem makes_focus (hne : a ≠ b) :
    (ed.focus c d).Makes a b text ↔ ed.Makes a b text ∧ c ≤ a ∧ b ≤ d := by
  simp only [Makes, focus, List.mem_filter, Edit.inside_iff]
  constructor
  · rintro ⟨k, hk, hin⟩
    exact ⟨⟨k, hk⟩, by omega⟩
  · rintro ⟨⟨k, hk⟩, hin⟩
    exact ⟨k, hk, .inr ⟨hne, hin⟩⟩

theorem SameEdits.focus (h : SameEdits ed ed') (c d : Nat) :
    SameEdits (ed.focus c d) (ed'.focus c d) where
  source := h.source
  notes p := by rw [notesAt_focus, notesAt_focus, h.notes]
  makes a b text hne := by rw [makes_focus hne, makes_focus hne, h.makes a b text hne]

theorem renderBytes_reversed (hs : ed.Sound) (hlt : b < a) : ed.renderBytes a b = [] := by
  have hnone : ed.edits.filter (·.inside a b) = [] := by
    refine List.filter_eq_nil_iff.2 fun e he => ?_
    have := hs.range e he
    rw [Edit.inside_iff]
    omega
  rw [renderBytes, hnone]
  simp [Edit.sorted, splice, slice, Nat.sub_eq_zero_of_le hlt.le]

/-- Editors with the same edits render every range alike, also one that cuts into edits. -/
theorem SameEdits.renderBytes_eq (h : SameEdits ed ed') (hs : ed.Sound) (hs' : ed'.Sound) (a b : Nat) :
    ed.renderBytes a b = ed'.renderBytes a b := by
  rcases Nat.lt_or_ge b a with hlt | hab
  · rw [renderBytes_reversed hs hlt, renderBytes_reversed hs' hlt]
  · have hview := (h.focus a b).view_eq (focus_sound hs) (focus_sound hs')
    rw [← renderBytes_focus ed le_rfl le_rfl, ← renderBytes_focus ed' le_rfl le_rfl,
      Editor.renderBytes_eq (focus_sound hs) hab focus_clear,
      Editor.renderBytes_eq (focus_sound hs') hab focus_clear, hview]

end Editor

namespace Request

variable {n : Nat} {r r' : Request n} {ed : Editor} {s : Session}

/-- One call ends where the other one starts or before, and they are not both for the same offset. -/
structure Independent (r r' : Request n) : Prop where
  apart : r.stop ≤ r'.start ∨ r'.stop ≤ r.start
  distinct : ¬(r.start = r.stop ∧ r'.start = r'.stop ∧ r.start = r'.start)

theorem Independent.symm (h : Independent r r') : Independent r' r where
  apart := h.apart.symm
  distinct := fun ⟨h1, h2, h3⟩ => h.distinct ⟨h2, h1, h3.symm⟩

/-- What a call tells: that it was granted, or the edit that it cuts into. -/
def answer (r : Request n) (s : Session) : Except Fault Unit := ((Pass.edit r.apply).result s).1

theorem Independent.not_cuts (h : Independent r r') (ed : Editor) :
    ¬r.Cuts ⟨r'.start, r'.stop, encode r'.text, ed.next⟩ := by
  have hapart := h.apart
  rintro ⟨-, hmeet, -⟩
  dsimp only at hmeet
  omega

theorem Independent.outside_of_cuts (h : Independent r r') {e : Edit} (hcuts : r.Cuts e) :
    e.inside r'.start r'.stop = false := by
  have hapart := h.apart
  obtain ⟨hne, hmeet, -⟩ := hcuts
  rw [← Bool.not_eq_true, Edit.inside_iff]
  omega

/-- A call cuts into the same first edit whether an independent one was granted or not. -/
theorem Independent.find_granted (h : Independent r r') (ed : Editor) :
    ((r'.granted ed).edits.find? fun e => decide (r.Cuts e)) =
      ed.edits.find? fun e => decide (r.Cuts e) := by
  have hnew : ([⟨r'.start, r'.stop, encode r'.text, ed.next⟩] : List Edit).find?
      (fun e => decide (r.Cuts e)) = none := by
    simp [h.not_cuts ed]
  rw [granted, List.find?_append, hnew, Option.or_none, Editor.outside, List.find?_filter]
  refine List.find?_congr fun e _ => ?_
  rw [Bool.eq_iff_iff, decide_eq_true_iff, decide_eq_true_iff, and_iff_right_iff_imp]
  intro hcuts
  rw [h.outside_of_cuts hcuts, Bool.not_false]

/-- A call that is granted replaces its range; an insertion replaces an empty one. -/
theorem replaceRange_of_apply (hs : ed.Sound) (hok : r.apply ed = .ok ed') :
    ed.replaceRange r.start r.stop r.text = .ok ed' := by
  cases r with
  | replace a b text ordered fits => exact hok
  | insert p text fits => exact (Editor.insertAt_eq_replaceRange hs p text).1 hok

theorem step_granted (hok : r.apply s.editor = .ok ed) : step s r = { s with editor := ed } := by
  rw [step, Pass.result_edit, hok]

theorem step_refused {o : Overlap} (herr : r.apply s.editor = .error o) : step s r = s := by
  rw [step, Pass.result_edit, herr]

theorem step_sound (hs : s.editor.Sound) (hn : s.editor.source.length = n) :
    (step s r).editor.Sound ∧ (step s r).editor.source = s.editor.source := by
  rcases step_cases r hs with heq | ⟨hok, heq⟩ <;> rw [heq]
  · exact ⟨hs, rfl⟩
  · exact ⟨granted_sound r hs hn hok, rfl⟩

/-- Before and after an independent call, a call is refused for the same overlap, or granted. -/
theorem Independent.apply_step (h : Independent r r') (hs : s.editor.Sound)
    (hn : s.editor.source.length = n) :
    (∃ o, r.apply s.editor = .error o ∧ r.apply (step s r').editor = .error o) ∨
      (r.apply s.editor = .ok (r.granted s.editor) ∧
        r.apply (step s r').editor = .ok (r.granted (step s r').editor)) := by
  have hs' := (step_sound (r := r') hs hn).1
  have hfind : ((step s r').editor.edits.find? fun e => decide (r.Cuts e)) =
      s.editor.edits.find? fun e => decide (r.Cuts e) := by
    rcases step_cases r' hs with heq | ⟨-, heq⟩ <;> rw [heq]
    exact h.find_granted s.editor
  rw [r.apply_eq hs, r.apply_eq hs', hfind]
  cases s.editor.edits.find? fun e => decide (r.Cuts e) with
  | some e => exact .inl ⟨_, rfl, rfl⟩
  | none => exact .inr ⟨rfl, rfl⟩

theorem Independent.answer_step (h : Independent r r') (hs : s.editor.Sound)
    (hn : s.editor.source.length = n) : r.answer (step s r') = r.answer s := by
  rw [answer, answer, Pass.result_edit, Pass.result_edit]
  rcases h.apply_step hs hn with ⟨o, herr, herr'⟩ | ⟨hok, hok'⟩
  · rw [herr, herr']
  · rw [hok, hok']

/-- Two independent calls that are granted make the same edits in either order. -/
theorem Independent.granted_comm (h : Independent r r') (hs : ed.Sound)
    (hn : ed.source.length = n) (hok : r.apply ed = .ok (r.granted ed))
    (hok' : r'.apply (r.granted ed) = .ok (r'.granted (r.granted ed))) :
    Editor.SameEdits (r'.granted (r.granted ed)) (r.granted (r'.granted ed)) := by
  have h1 := replaceRange_of_apply hs hok
  have h2 := replaceRange_of_apply (granted_sound r hs hn hok) hok'
  obtain ⟨ed1, ed2, h1', h2', hsame⟩ :=
    Editor.replaceRange_comm r.range.1 r'.range.1 h.apart h.distinct h1 h2
  obtain ⟨-, rfl⟩ := Editor.replaceRange_eq_ok.1 h1'
  obtain ⟨-, rfl⟩ := Editor.replaceRange_eq_ok.1 h2'
  exact hsame

/-- Two independent calls, granted or refused, leave the same edits in either order. -/
theorem Independent.step_comm (h : Independent r r') (hs : s.editor.Sound)
    (hn : s.editor.source.length = n) :
    Editor.SameEdits (step (step s r) r').editor (step (step s r') r).editor := by
  rcases h.apply_step hs hn with ⟨o, herr, herr'⟩ | ⟨hok, hok1⟩
  · rw [step_refused herr, step_refused herr']
    exact .refl _
  rcases h.symm.apply_step hs hn with ⟨o, herr, herr'⟩ | ⟨hok', hok2⟩
  · rw [step_refused herr, step_refused herr']
    exact .refl _
  rw [step_granted hok] at hok2
  rw [step_granted hok'] at hok1
  rw [step_granted hok, step_granted hok', step_granted hok2, step_granted hok1]
  exact h.granted_comm hs hn hok hok2

end Request

/-- Two editors print the same text, and render every node and every range alike. -/
structure Editor.SameTexts (ed ed' : Editor) : Prop where
  print : ed.print = ed'.print
  nodes : ∀ t : Tree, ed.render t = ed'.render t
  ranges : ∀ a b, ed.renderBytes a b = ed'.renderBytes a b

theorem Editor.SameEdits.texts {ed ed' : Editor} (h : SameEdits ed ed') (hs : ed.Sound)
    (hs' : ed'.Sound) : ed.SameTexts ed' where
  print := h.print_eq hs hs'
  nodes t := by rw [render, render, h.renderBytes_eq hs hs']
  ranges := h.renderBytes_eq hs hs'

/-- After any calls, two calls whose ranges are apart can be made in either order: each is granted, or
refused for the same overlap, as if the other one had not been made, and whatever becomes of them, both
orders print the same and render every range alike. -/
theorem Editor.independent_edits_commute (source : Bytes) (rs : List (Request source.length))
    {r r' : Request source.length} (h : r.Independent r') (session : Session) :
    let s : Session := { session with editor := Request.reached source rs }
    r.answer (Request.step s r') = r.answer s ∧ r'.answer (Request.step s r) = r'.answer s ∧
      (Request.step (Request.step s r) r').editor.SameTexts
        (Request.step (Request.step s r') r).editor := by
  intro s
  have hs : s.editor.Sound := (Request.reached_sound rs).1
  have hn : s.editor.source.length = source.length :=
    congrArg List.length (Request.reached_sound rs).2
  have hsound : ∀ q q' : Request source.length,
      (Request.step (Request.step s q) q').editor.Sound := by
    intro q q'
    obtain ⟨hs1, hsource1⟩ := Request.step_sound (r := q) hs hn
    exact (Request.step_sound (r := q') hs1 (hsource1 ▸ hn)).1
  exact ⟨h.answer_step hs hn, h.symm.answer_step hs hn,
    (h.step_comm hs hn).texts (hsound r r') (hsound r' r)⟩

/-- A call with an insertion in its arguments, and behind it one that is renamed. -/
def besideSample : List (Request (encode "f(a); g").length) :=
  [.insert 2 "x" (by decide), .replace 6 7 "h" (by decide) (by decide)]

/-- The arguments are replaced, and a text is inserted right behind them. -/
theorem Editor.independent_edits_commute_sample :
    let s : Session := { editor := Request.reached (encode "f(a); g") besideSample }
    let r : Request (encode "f(a); g").length := .replace 1 4 "()" (by decide) (by decide)
    let r' : Request (encode "f(a); g").length := .insert 4 "!" (by decide)
    r.Independent r' ∧ r.answer s = .ok () ∧ r'.answer s = .ok () ∧
      r.answer (Request.step s r') = r.answer s ∧ r'.answer (Request.step s r) = r'.answer s ∧
      (Request.step (Request.step s r) r').editor.SameTexts
        (Request.step (Request.step s r') r).editor ∧
      (Request.step (Request.step s r) r').editor.print = .ok "f()!; h" := by
  intro s r r'
  have h : r.Independent r' := ⟨.inl (by decide), by decide⟩
  obtain ⟨hr, hr', htexts⟩ := Editor.independent_edits_commute (encode "f(a); g") besideSample h
    { editor := { source := encode "f(a); g" } }
  exact ⟨h, by decide +kernel, by decide +kernel, hr, hr', htexts, by decide +kernel⟩

end OrmCodemod
