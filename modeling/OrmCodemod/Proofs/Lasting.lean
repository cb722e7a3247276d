import OrmCodemod.Proofs.Along
import OrmCodemod.Proofs.ImportEdits
import OrmCodemod.Proofs.WholeCalls

/-! What lasts while calls and imports are converted. Nothing takes back what is inserted at the head of
a source, since no range that is replaced has offset 0 strictly inside, and nothing clears a flag. So a
call that is converted is flagged at the end, whatever comes after it. A range that is replaced is never
shown again: the edit around it only goes where one around itself comes. -/

namespace OrmCodemod

open Syntax Text Pass

variable {α : Type} {u : SourceUnit}

namespace Editor

variable {ed ed' : Editor} {a b p : Nat} {text : String}

theorem head_replaced (h : ed.replaceRange a b text = .ok ed') :
    ed.notesAt 0 <+: ed'.notesAt 0 := by
  obtain ⟨-, rfl⟩ := replaceRange_eq_ok.1 h
  have hkept : (outside ed.edits a b).filter (fun e => e.isInsertion && e.start == 0) =
      ed.edits.filter fun e => e.isInsertion && e.start == 0 := by
    rw [outside, List.filter_filter]
    refine List.filter_congr fun e _ => ?_
    rw [Bool.eq_iff_iff]
    simp only [Bool.and_eq_true, Bool.not_eq_true', ← Bool.not_eq_true, Edit.inside_iff,
      Edit.isInsertion_iff, beq_iff_eq]
    omega
  simp only [notesAt, List.filter_append, hkept, List.map_append]
  exact List.prefix_append _ _

theorem head_inserted (h : ed.insertAt p text = .ok ed') : ed.notesAt 0 <+: ed'.notesAt 0 := by
  rw [notesAt_insertedAt h]
  exact List.prefix_append _ _

theorem Records.next_eq (h : ed.Records ed') : ed'.next = ed.next + 1 := by
  cases h with
  | replaced _ _ _ granted =>
    obtain ⟨-, rfl⟩ := replaceRange_eq_ok.1 granted
    rfl
  | inserted _ _ granted =>
    obtain ⟨-, rfl⟩ := insertAt_eq_ok.1 granted
    rfl

/-- What one editor replaces, the other one does too. -/
def ReplacesMore (ed ed' : Editor) : Prop := ∀ c d, ed.Replaces c d → ed'.Replaces c d

theorem Records.replacesMore (h : ed.Records ed') : ed.ReplacesMore ed' := by
  intro c d hr
  cases h with
  | replaced _ _ _ granted => exact hr.replaced granted
  | inserted _ _ granted => exact hr.inserted granted

end Editor

namespace Pass

/-- What stands at the head of the source stays there, what has happened stays flagged, and no edit
that was made is forgotten. -/
structure Lasts (s s' : Session) : Prop where
  head : s.editor.notesAt 0 <+: s'.editor.notesAt 0
  fired : s.flags.any = true → s'.flags.any = true
  made : s.editor.next ≤ s'.editor.next

theorem Lasts.refl (s : Session) : Lasts s s := ⟨List.prefix_refl _, id, le_rfl⟩

theorem Lasts.trans {s s' s'' : Session} (h : Lasts s s') (h' : Lasts s' s'') : Lasts s s'' :=
  ⟨h.head.trans h'.head, fun hf => h'.fired (h.fired hf), h.made.trans h'.made⟩

theorem lasts_permits : Permits Lasts := by
  refine .of_records .refl .trans (fun _ _ => ⟨List.prefix_refl _, id, le_rfl⟩)
    (fun _ _ => ⟨List.prefix_refl _, id, le_rfl⟩) (fun _ _ h _ => ⟨List.prefix_refl _, h, le_rfl⟩)
    fun s ed h => ?_
  have hmade := h.next_eq
  cases h with
  | replaced _ _ _ granted => exact ⟨Editor.head_replaced granted, id, by simp [hmade]⟩
  | inserted _ _ granted => exact ⟨Editor.head_inserted granted, id, by simp [hmade]⟩

theorem replacesMore_permits : Permits fun s s' => s.editor.ReplacesMore s'.editor :=
  .of_records (fun _ _ _ h => h) (fun h h' c d hr => h' c d (h c d hr)) (fun _ _ _ _ h => h)
    (fun _ _ _ _ h => h) (fun _ _ _ _ _ _ h => h) fun _ _ h => h.replacesMore

end Pass

namespace Calls

variable {x : Place.RepositoryCall} {base : Editor} {members : Pattern.Regex}

theorem convertCalls_fired (hu : u.Closed)
    (hbase : ∀ e ∈ base.edits, e.start = e.stop ∨ IsInjectionEdit u e)
    (hx : x ∈ convertedSites u base members) {start : Editor} {n : Nat} {s s' : Session}
    (h : Attends u base start n [] base s)
    (hrun : (convertCalls u (callSites u members)).result s = (.ok (), s')) :
    s'.flags.any = true := by
  obtain ⟨hsite, hconv⟩ := mem_convertedSites.1 hx
  obtain ⟨done, rest, hsplit⟩ := List.append_of_mem (mem_sortSites.2 hsite)
  rw [convertCalls_eq, hsplit, List.forM_eq_forM, List.forM_append, List.forM_cons] at hrun
  obtain ⟨_, s1, hdone, hrun⟩ := result_bind_eq_ok hrun
  obtain ⟨_, s2, hattempt, hrest⟩ := result_bind_eq_ok hrun
  have htracks := ((attempts_attend (E := fun _ _ => False) hu hbase hsplit).ok h hdone).toTracks
  have hfree := free_of_converts hconv
  obtain ⟨rule, owner, hrule, hsupported, howner⟩ := row_of_converts hconv
  have hout : ∀ rule, Rules.rule? (x.method.text u.source) = some rule →
      ∀ d ∈ done.filter (converts u base), Outside x d := fun _ hrule d hd =>
    outside_of_sorted hu hsplit hrule (List.mem_of_mem_filter hd) (htracks.calls d hd)
  rcases htracks.whole hu hbase hsite hout with ⟨o, log, -, hnot⟩ | ⟨after, hres, hdone, -⟩
  · exact absurd hfree (hnot rule hrule hsupported)
  · rw [attempt, result_orOnOverlap, hres] at hattempt
    obtain rfl : after = s2 := congrArg Prod.snd hattempt
    have hfired : after.flags.any = true := by
      rw [(hdone.converted rule owner hrule hsupported howner).rest]
      exact s1.flags.any_services
    have hlasting : Along Lasts (rest.forM (attempt u)) :=
      Along.forM _ fun y => (convertCall_along lasts_permits u y).orOnOverlap fun _ => lasts_permits.say _ _
    have hlast := (hlasting.after lasts_permits after).fired hfired
    rwa [List.forM_eq_forM, hrest] at hlast

end Calls

end OrmCodemod
