import OrmCodemod.Proofs.Follows
import OrmCodemod.Proofs.ImportEdits

/-! The history of an editor: ranges are replaced, import lines are added, and comments are put before
statements. A comment that was put stands before its statement until a range around it is replaced, which
takes it along. From then on nothing is put there any more, so that no comment comes twice. -/

namespace OrmCodemod

open Syntax Text Pass

def Calls.advisoryTexts : List String :=
  [Entities.entityAdvisory, Rules.saveAdvisory, Rules.builderAdvisory, Rules.builderExample,
    Imports.entityImportAdvisory]

theorem Calls.advisory_listed {method comment : String} {rule : Rules.Rule}
    (hr : Rules.rule? method = some rule) (hc : comment ∈ rule.advisories) :
    comment ∈ advisoryTexts := by
  have hmem := Rules.mem_table hr
  simp only [Rules.table, List.mem_cons, Prod.mk.injEq, List.not_mem_nil, or_false] at hmem
  rcases hmem with ⟨-, rfl⟩ | ⟨-, rfl⟩ | ⟨-, rfl⟩ | ⟨-, rfl⟩ | ⟨-, rfl⟩ | ⟨-, rfl⟩ | ⟨-, rfl⟩ |
    ⟨-, rfl⟩ | ⟨-, rfl⟩ | ⟨-, rfl⟩ <;>
      simp only [Rules.renamed, List.mem_cons, List.not_mem_nil, or_false] at hc <;>
      simp only [advisoryTexts, List.mem_cons] <;> tauto

/-- A comment and the statement it is put before. -/
structure Notice where
  statement : Place
  comment : String

namespace Notice

def start (n : Notice) : Nat := n.statement.start

def text (source : Bytes) (n : Notice) : Bytes :=
  encode (Editor.commentText (lineIndent source n.start) n.comment)

end Notice

namespace Editor

variable {ed ed' : Editor} {ranges : Nat → Nat → Prop} {l : List Notice} {n : Notice} {a b p : Nat}
  {text : String}

/-- The edits of an editor come from those of `ed`: ranges of one sort are replaced, import lines are
added, and the comments `l` are put, in this order. -/
inductive History (ranges : Nat → Nat → Prop) (ed : Editor) : List Notice → Editor → Prop where
  | start : History ranges ed [] ed
  | replaced {l : List Notice} {ed' ed'' : Editor} {a b : Nat} {text : String}
      (before : History ranges ed l ed') (sort : ranges a b)
      (granted : ed'.replaceRange a b text = .ok ed'') : History ranges ed l ed''
  | line {l : List Notice} {ed' ed'' : Editor} {u : SourceUnit} {symbol path : String}
      (before : History ranges ed l ed')
      (granted : ed'.insertAt 0 (Imports.importLine u symbol path) = .ok ed'') :
      History ranges ed l ed''
  | put {l : List Notice} {ed' ed'' : Editor} {p : Place} {comment : String}
      (before : History ranges ed l ed') (listed : comment ∈ Calls.advisoryTexts)
      (granted : ed'.insertCommentBefore p comment = .ok (true, ed'')) :
      History ranges ed (l ++ [⟨p.statement, comment⟩]) ed''

/-- A comment is put exactly where it is not noted and there is room. -/
theorem insertCommentBefore_put {q : Place} {comment : String} :
    ed.insertCommentBefore q comment = .ok (true, ed') ↔ ed.noted q comment = false ∧
      ed.insertAt q.statement.start
        (commentText (lineIndent ed.source q.statement.start) comment) = .ok ed' := by
  rw [insertCommentBefore_eq]
  cases hn : ed.noted q comment with
  | true => simp
  | false =>
    cases hi : ed.insertAt q.statement.start
      (commentText (lineIndent ed.source q.statement.start) comment) <;> simp [Except.map]

/-- Nothing is done exactly where the comment is noted. -/
theorem insertCommentBefore_kept {q : Place} {comment : String} :
    ed.insertCommentBefore q comment = .ok (false, ed') ↔ ed.noted q comment = true ∧ ed' = ed := by
  rw [insertCommentBefore_eq]
  cases hn : ed.noted q comment with
  | true => simp [eq_comm]
  | false =>
    cases hi : ed.insertAt q.statement.start
      (commentText (lineIndent ed.source q.statement.start) comment) <;> simp [Except.map]

theorem History.trans {ed'' : Editor} {l' : List Notice} (h : History ranges ed l ed')
    (h' : History ranges ed' l' ed'') : History ranges ed (l ++ l') ed'' := by
  induction h' with
  | start => rwa [List.append_nil]
  | replaced _ sort granted ih => exact ih.replaced sort granted
  | line _ granted ih => exact ih.line granted
  | put _ listed granted ih =>
    rw [← List.append_assoc]
    exact ih.put listed granted

theorem History.advised {ed'' : Editor} {q : Place} {comment : String} {put : Bool}
    (h : History ranges ed l ed') (hlisted : comment ∈ Calls.advisoryTexts)
    (he : ed'.insertCommentBefore q comment = .ok (put, ed'')) :
    History ranges ed (l ++ if put then [⟨q.statement, comment⟩] else []) ed'' := by
  cases put with
  | true => exact h.put hlisted he
  | false =>
    obtain ⟨-, rfl⟩ := insertCommentBefore_kept.1 he
    simpa using h

/-- A comment that is not noted is neither in the source nor among the insertions. -/
theorem not_noted_iff {q : Place} {comment : String} :
    ed.noted q comment = false ↔
      normalizeComment comment ∉ ed.leadingComments q.statement ∧
        Notice.text ed.source ⟨q.statement, comment⟩ ∉ ed.notesAt q.statement.start := by
  simp only [noted, Bool.or_eq_false_iff, List.contains_eq_mem, decide_eq_false_iff_not,
    List.any_eq_false, Bool.and_eq_true, notesAt, List.mem_map, List.mem_filter, not_exists, not_and,
    beq_iff_eq, and_imp, Notice.text, Notice.start]

theorem notesAt_subset_replaced (h : ed.replaceRange a b text = .ok ed') (hp : ¬(a < p ∧ p < b)) :
    ed.notesAt p ⊆ ed'.notesAt p := by
  obtain ⟨-, rfl⟩ := replaceRange_eq_ok.1 h
  intro t ht
  obtain ⟨e, he, rfl⟩ := List.mem_map.1 ht
  obtain ⟨hmem, hat⟩ := List.mem_filter.1 he
  refine List.mem_map_of_mem (List.mem_filter.2 ⟨List.mem_append_left _ (mem_outside.2 ⟨hmem, ?_⟩), hat⟩)
  rw [Bool.and_eq_true, Edit.isInsertion_iff, beq_iff_eq] at hat
  rw [← Bool.not_eq_true, Edit.inside_iff]
  omega

theorem not_clear_iff : ¬ed.Clear p p ↔ ∃ e ∈ ed.edits, e.start < p ∧ p < e.stop := by
  simp only [Clear, Edit.inside_iff]
  push Not
  exact exists_congr fun e => and_congr_right fun _ => by omega

/-- The comment stands before its statement, or a replacement has taken it along. -/
def Knows (ed : Editor) (n : Notice) : Prop :=
  n.text ed.source ∈ ed.notesAt n.start ∨ ¬ed.Clear n.start n.start

theorem Knows.replaced (h : ed.Knows n) (he : ed.replaceRange a b text = .ok ed') : ed'.Knows n := by
  have hsource : ed'.source = ed.source := by
    obtain ⟨-, rfl⟩ := replaceRange_eq_ok.1 he
    rfl
  by_cases hin : a < n.start ∧ n.start < b
  · obtain ⟨e, hmem, h1, h2⟩ := covered_self he
    exact .inr (not_clear_iff.2 ⟨e, hmem, by omega, by omega⟩)
  rcases h with h | h
  · exact .inl (hsource ▸ notesAt_subset_replaced he hin h)
  · obtain ⟨e, hmem, h1, h2⟩ := not_clear_iff.1 h
    obtain ⟨e', hmem', h3, h4⟩ := covered_replaced he hmem ⟨le_rfl, le_rfl⟩
    exact .inr (not_clear_iff.2 ⟨e', hmem', by omega, by omega⟩)

theorem Knows.inserted (h : ed.Knows n) (he : ed.insertAt p text = .ok ed') : ed'.Knows n := by
  have hnotes := notesAt_insertedAt he n.start
  obtain ⟨-, rfl⟩ := insertAt_eq_ok.1 he
  rcases h with h | h
  · exact .inl (by rw [hnotes]; exact List.mem_append_left _ h)
  · obtain ⟨e, hmem, h1⟩ := not_clear_iff.1 h
    exact .inr (not_clear_iff.2 ⟨e, List.mem_append_left _ hmem, h1⟩)

theorem History.source (h : History ranges ed l ed') : ed'.source = ed.source := by
  induction h with
  | start => rfl
  | replaced _ _ granted ih =>
    obtain ⟨-, rfl⟩ := replaceRange_eq_ok.1 granted
    exact ih
  | line _ granted ih =>
    obtain ⟨-, rfl⟩ := insertAt_eq_ok.1 granted
    exact ih
  | put _ _ granted ih =>
    obtain ⟨-, rfl⟩ := insertAt_eq_ok.1 (insertCommentBefore_put.1 granted).2
    exact ih

theorem History.knows (h : History ranges ed l ed') : ∀ n ∈ l, ed'.Knows n := by
  induction h with
  | start => simp
  | replaced _ _ granted ih => exact fun n hn => (ih n hn).replaced granted
  | line _ granted ih => exact fun n hn => (ih n hn).inserted granted
  | @put l ed' ed'' p comment _ _ granted ih =>
    have hput := (insertCommentBefore_put.1 granted).2
    intro n hn
    rcases List.mem_append.1 hn with hn | hn
    · exact (ih n hn).inserted hput
    · obtain rfl := List.mem_singleton.1 hn
      refine .inl ?_
      obtain ⟨-, rfl⟩ := insertAt_eq_ok.1 hput
      rw [notesAt_insertedAt hput, Notice.start, if_pos rfl]
      exact List.mem_append_right _ (List.mem_singleton_self _)

theorem History.nodup (h : History ranges ed l ed') :
    (l.map fun n => (n.start, n.comment)).Nodup := by
  induction h with
  | start => exact List.nodup_nil
  | replaced _ _ _ ih => exact ih
  | line _ _ ih => exact ih
  | @put l ed' ed'' p comment before _ granted ih =>
    rw [List.map_append, List.map_singleton, List.nodup_append]
    refine ⟨ih, List.nodup_singleton _, ?_⟩
    rintro _ hold _ hnew rfl
    obtain ⟨n, hn, heq⟩ := List.mem_map.1 hold
    rw [List.mem_singleton, ← heq, Prod.mk.injEq] at hnew
    obtain ⟨hnoted, hput⟩ := insertCommentBefore_put.1 granted
    -- the first copy stands there, or it has been taken along, and there is no room
    rcases before.knows n hn with hstands | hgone
    · refine (not_noted_iff.1 hnoted).2 ?_
      rwa [Notice.text, hnew.1, hnew.2] at hstands
    · rw [hnew.1] at hgone
      exact hgone (insertAt_eq_ok.1 hput).1

theorem History.new (h : History ranges ed l ed') :
    ∀ n ∈ l, normalizeComment n.comment ∉ ed.leadingComments n.statement := by
  induction h with
  | start => simp
  | replaced _ _ _ ih => exact ih
  | line _ _ ih => exact ih
  | @put l ed' ed'' p comment before _ granted ih =>
    intro n hn
    rcases List.mem_append.1 hn with hn | hn
    · exact ih n hn
    · obtain rfl := List.mem_singleton.1 hn
      have hnew := (not_noted_iff.1 (insertCommentBefore_put.1 granted).1).1
      rwa [leadingComments, before.source] at hnew

end Editor

/-- The edits of a session and those of a mirror come from those of `start` with the same comments, and
these are counted. No range that the mirror replaces is empty. -/
def Tallied (start : Editor) (n : Nat) (sh : Editor) (s : Session) : Prop :=
  ∃ l, start.History (fun _ _ => True) l s.editor ∧ start.History (· < ·) l sh ∧
    s.advisories = n + l.length

namespace Tallied

variable {start sh sh' ed' : Editor} {n : Nat} {s s' : Session}

theorem refl (s : Session) : Tallied s.editor s.advisories s.editor s := ⟨[], .start, .start, rfl⟩

theorem told (h : Tallied start n sh s) (he : s'.editor = s.editor)
    (hn : s'.advisories = s.advisories) : Tallied start n sh s' := by
  obtain ⟨l, h1, h2, h3⟩ := h
  exact ⟨l, he ▸ h1, h2, hn.trans h3⟩

theorem edited (h : Tallied start n sh s) (he : s.editor.History (fun _ _ => True) [] s'.editor)
    (hn : s'.advisories = s.advisories) : Tallied start n sh s' := by
  obtain ⟨l, h1, h2, h3⟩ := h
  exact ⟨l, List.append_nil l ▸ h1.trans he, h2, hn.trans h3⟩

theorem advised (h : Tallied start n sh s) {q : Place} {comment : String} {put : Bool}
    (hlisted : comment ∈ Calls.advisoryTexts)
    (he : s.editor.insertCommentBefore q comment = .ok (put, ed'))
    (hsh : sh.insertCommentBefore q comment = .ok (put, sh')) :
    Tallied start n sh' { s with
      editor := ed', advisories := if put then s.advisories + 1 else s.advisories } := by
  obtain ⟨l, h1, h2, h3⟩ := h
  refine ⟨_, h1.advised hlisted he, h2.advised hlisted hsh, ?_⟩
  cases put <;> simp [h3, Nat.add_assoc]

theorem replaced (h : Tallied start n sh s) {a b : Nat} {text : String} (hab : a < b)
    (he : s.editor.replaceRange a b text = .ok ed') (hsh : sh.replaceRange a b text = .ok sh') :
    Tallied start n sh' { s with editor := ed' } := by
  obtain ⟨l, h1, h2, h3⟩ := h
  exact ⟨l, h1.replaced trivial he, h2.replaced hab hsh, h3⟩

theorem lined (h : Tallied start n sh s) {u : SourceUnit} {symbol path : String}
    (he : s.editor.insertAt 0 (Imports.importLine u symbol path) = .ok ed')
    (hsh : sh.insertAt 0 (Imports.importLine u symbol path) = .ok sh') :
    Tallied start n sh' { s with editor := ed' } := by
  obtain ⟨l, h1, h2, h3⟩ := h
  exact ⟨l, h1.line he, h2.line hsh, h3⟩

end Tallied
end OrmCodemod
