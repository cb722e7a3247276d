import OrmCodemod.Proofs.Frame
import OrmCodemod.Proofs.Rest
import OrmCodemod.Proofs.Wrapping

/-! The edits that reach into a range, and what the range prints. A call with a range apart from it
leaves these edits as they are; a replacement around it takes all of them away but itself. A range into
which nothing reaches prints its source, and one that a single replacement lies in prints the text of
that between the source around it. -/

namespace OrmCodemod

open Syntax Text

namespace Editor

variable {ed ed' : Editor} {a b c d : Nat} {text : String} {bytes : Bytes}

/-- The edits that reach into a range; an insertion on a border does not. -/
def reaching (ed : Editor) (a b : Nat) : List Edit :=
  ed.edits.filter fun e => decide (a < e.stop ∧ e.start < b)

theorem mem_reaching {e : Edit} :
    e ∈ ed.reaching a b ↔ e ∈ ed.edits ∧ a < e.stop ∧ e.start < b := by
  rw [reaching, List.mem_filter, decide_eq_true_iff]

theorem reaching_eq_nil : ed.reaching a b = [] ↔ ∀ e ∈ ed.edits, e.stop ≤ a ∨ b ≤ e.start := by
  rw [reaching, List.filter_eq_nil_iff]
  refine forall₂_congr fun e _ => ?_
  rw [decide_eq_true_iff]
  omega

/-- A replacement apart from a range does not change what reaches into the range. -/
theorem reaching_apart (h : ed.replaceRange c d text = .ok ed') (hapart : d ≤ a ∨ b ≤ c) :
    ed'.reaching a b = ed.reaching a b := by
  obtain ⟨-, rfl⟩ := replaceRange_eq_ok.1 h
  have hnew : ¬(a < d ∧ c < b) := by omega
  simp only [reaching, List.filter_append, List.filter_singleton, decide_eq_false hnew, cond_false,
    List.append_nil, outside, List.filter_filter]
  refine List.filter_congr fun e _ => ?_
  rw [Bool.eq_iff_iff, Bool.and_eq_true, decide_eq_true_iff, and_iff_left_iff_imp]
  rw [Bool.not_eq_true', ← Bool.not_eq_true, Edit.inside_iff]
  omega

theorem reaching_insertAt {p : Nat} (h : ed.insertAt p text = .ok ed') (hapart : p ≤ a ∨ b ≤ p) :
    ed'.reaching a b = ed.reaching a b := by
  obtain ⟨-, rfl⟩ := insertAt_eq_ok.1 h
  have hnew : ¬(a < p ∧ p < b) := by omega
  simp [reaching, record, List.filter_append, hnew]

theorem reaching_replaced (h : ed.replaceRange c d text = .ok ed') (hca : c ≤ a)
    (hab : a < b) (hbd : b ≤ d) : ed'.reaching a b = [⟨c, d, encode text, ed.next⟩] := by
  obtain ⟨hclear, rfl⟩ := replaceRange_eq_ok.1 h
  have hnew : a < d ∧ c < b := by omega
  have hold : (outside ed.edits c d).filter (fun e => decide (a < e.stop ∧ e.start < b)) = [] := by
    refine List.filter_eq_nil_iff.2 fun e he => ?_
    obtain ⟨hmem, hout⟩ := mem_outside.1 he
    rw [decide_eq_true_iff]
    rcases hclear e hmem with hin | hout' | hout'
    · rw [hin] at hout
      cases hout
    · omega
    · omega
  simp only [reaching, List.filter_append, hold, List.nil_append, List.filter_singleton,
    decide_eq_true hnew, cond_true]

theorem reaching_filled (h : ed.replaceRange c d text = .ok ed') (hfree : ed.reaching a b = [])
    (hin : a < d ∧ c < b) : ed'.reaching a b = [⟨c, d, encode text, ed.next⟩] := by
  obtain ⟨-, rfl⟩ := replaceRange_eq_ok.1 h
  have hold : (outside ed.edits c d).filter (fun e => decide (a < e.stop ∧ e.start < b)) = [] := by
    refine List.filter_eq_nil_iff.2 fun e he => ?_
    have := reaching_eq_nil.1 hfree e (mem_outside.1 he).1
    rw [decide_eq_true_iff]
    omega
  simp only [reaching, List.filter_append, hold, List.nil_append, List.filter_singleton,
    decide_eq_true hin, cond_true]

/-- A range into which at most one replacement reaches, one that lies in it, can be replaced. -/
theorem clear_of_reaching {e : Edit} (h : ∀ x ∈ ed.reaching a b, x = e)
    (he : e.start < e.stop ∧ a ≤ e.start ∧ e.stop ≤ b) : ed.Clear a b := by
  intro x hx
  by_cases hreach : a < x.stop ∧ x.start < b
  · obtain rfl := h x (mem_reaching.2 ⟨hx, hreach⟩)
    exact .inl (Edit.inside_iff.2 (.inr ⟨he.1.ne, he.2⟩))
  · omega

theorem clear_of_free (h : ed.reaching a b = []) : ed.Clear a b :=
  fun e he => .inr (reaching_eq_nil.1 h e he)

theorem inside_reaching (hs : ed.Sound) :
    ed.edits.filter (·.inside a b) = (ed.reaching a b).filter (·.inside a b) := by
  rw [reaching, List.filter_filter]
  refine List.filter_congr fun e he => ?_
  have := (hs.range e he).1
  rw [Bool.eq_iff_iff, Bool.and_eq_true, decide_eq_true_iff, Edit.inside_iff]
  omega

theorem renderBytes_free (hs : ed.Sound) (h : ed.reaching a b = []) :
    ed.renderBytes a b = slice ed.source a b := by
  rw [renderBytes, inside_reaching hs, h]
  rfl

theorem renderBytes_single (hs : ed.Sound) {e : Edit} (h : ed.reaching a b = [e])
    (he : e.start < e.stop ∧ a ≤ e.start ∧ e.stop ≤ b) :
    ed.renderBytes a b = slice ed.source a e.start ++ e.replacement ++ slice ed.source e.stop b := by
  have hin : e.inside a b = true := Edit.inside_iff.2 (.inr ⟨he.1.ne, he.2⟩)
  have hmax : max a e.stop = e.stop := by omega
  rw [renderBytes, inside_reaching hs, h, List.filter_singleton, hin, cond_true]
  simp [Edit.sorted, Edit.insertSorted, splice, hmax]

/-- The range prints as a text. What is printed before it and behind it hangs on the edits outside
it. -/
def PrintsAs (ed : Editor) (a b : Nat) (text : Bytes) : Prop :=
  ed.printBytes = textBefore ed.source (outside ed.edits a b) a ++ text ++
    textAfter ed.source (outside ed.edits a b) a b

instance : Decidable (ed.PrintsAs a b bytes) := inferInstanceAs (Decidable (_ = _))

theorem printsAs_free (hs : ed.Sound) (hab : a ≤ b) (hb : b ≤ ed.source.length)
    (h : ed.reaching a b = []) : ed.PrintsAs a b (slice ed.source a b) := by
  rw [PrintsAs, printBytes_around hs hab hb (clear_of_free h), renderBytes_free hs h]

theorem printsAs_single (hs : ed.Sound) (hb : b ≤ ed.source.length) {e : Edit}
    (h : ed.reaching a b = [e]) (he : e.start < e.stop ∧ a ≤ e.start ∧ e.stop ≤ b) :
    ed.PrintsAs a b (slice ed.source a e.start ++ e.replacement ++ slice ed.source e.stop b) := by
  have hclear : ed.Clear a b := clear_of_reaching (by simp [h]) he
  rw [PrintsAs, printBytes_around hs (by omega) hb hclear, renderBytes_single hs h he]

theorem printsAs_replacement (hs : ed.Sound) (hab : a < b) (hb : b ≤ ed.source.length) {e : Edit}
    (h : ed.reaching a b = [e]) (he : e.start = a ∧ e.stop = b) : ed.PrintsAs a b e.replacement := by
  have hprints := printsAs_single hs hb h ⟨by omega, by omega, by omega⟩
  obtain ⟨rfl, rfl⟩ := he
  simpa [slice] using hprints

end Editor

/-- What a session prints in the end: its edits, or none where nothing was converted. -/
def Session.printed (s : Session) : Editor :=
  if s.flags.any then s.editor else { source := s.editor.source }

theorem Outcome.output_printed {settings : Settings} {source : String} {s : Session} {o : Outcome}
    (hsource : s.editor.source = encode source) (h : Outcome.ofSession settings source s = .ok o) :
    encode o.output = s.printed.printBytes := by
  rw [Session.printed]
  rcases Outcome.output_eq h with ⟨hfired, hout⟩ | ⟨hidle, hout⟩
  · rw [if_pos hfired, hout]
  · rw [hidle, hout, hsource]
    exact (Editor.printBytes_fresh _).symm

theorem Session.printed_sound {s : Session} (h : s.editor.Sound) : s.printed.Sound := by
  unfold Session.printed
  split
  · exact h
  · exact Editor.sound_fresh _

theorem Session.printed_source (s : Session) : s.printed.source = s.editor.source := by
  unfold Session.printed
  split <;> rfl

/-- What nothing reaches into in a session, nothing reaches into when it prints. -/
theorem Session.printed_free {s : Session} {a b : Nat} (h : s.editor.reaching a b = []) :
    s.printed.reaching a b = [] := by
  unfold Session.printed
  split
  · exact h
  · rfl

end OrmCodemod
