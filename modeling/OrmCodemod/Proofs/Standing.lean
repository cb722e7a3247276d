import OrmCodemod.Proofs.Weaving

/-! What becomes of the comments of a pass. A comment comes out in what is printed, also where it stands
in a call that is converted, unless it stands strictly inside a range that is replaced without regard to
what is inserted there: a parameter of a constructor, a registration, an import. The pass counts these
comments too. -/

namespace OrmCodemod

open Syntax Text Pass

def Notice.written (source : Bytes) (n : Notice) : String :=
  Editor.commentText (lineIndent source n.start) n.comment

theorem Notice.text_eq (source : Bytes) (n : Notice) : n.text source = encode (n.written source) := rfl

namespace Editor

def opensComment (text : Bytes) : Bool := text.take 2 == [47, 47] || text.take 2 == [47, 42]

def strandsAt (ed : Editor) (p : Nat) : List Strand :=
  (ed.notesAt p).map fun text => ⟨opensComment text, (decode text).toOption.getD ""⟩

def silent (ed : Editor) : Editor :=
  { ed with edits := ed.edits.filter fun e => !(e.isInsertion && opensComment e.replacement) }

/-- No replacement is around the statement of a comment. -/
def stands (ed : Editor) (n : Notice) : Bool :=
  ed.edits.all fun e => !(e.start < n.start && n.start < e.stop)

variable {ed ed' : Editor} {l : List Notice} {n : Notice} {source : Bytes} {p : Nat}

theorem stands_iff : ed.stands n = true ↔ ed.Clear n.start n.start := by
  rw [← not_iff_not, not_clear_iff]
  simp [stands]

theorem opensComment_written (source : Bytes) (h : n.comment ∈ Calls.advisoryTexts) :
    opensComment (n.text source) = true := by
  obtain ⟨b, hb, rest, hrest⟩ := Calls.advisory_written (lineIndent source n.start) h
  rw [opensComment, Notice.text, ← hrest]
  fin_cases hb <;> rfl

theorem opensComment_line (u : SourceUnit) (symbol path : String) :
    opensComment (encode (Imports.importLine u symbol path)) = false := by
  obtain ⟨rest, hrest⟩ := List.head?_eq_some_iff.1 (Imports.importLine_head u symbol path)
  rw [opensComment, hrest]
  cases rest <;> rfl

theorem clear_of_replaced {a b : Nat} {text : String} (h : ed.replaceRange a b text = .ok ed')
    (hc : ed'.Clear p p) : ¬(a < p ∧ p < b) ∧ ed.Clear p p := by
  refine ⟨fun hp => ?_, ?_⟩
  · obtain ⟨e, he, h1, h2⟩ := covered_self h
    exact not_clear_iff.2 ⟨e, he, by omega, by omega⟩ hc
  · by_contra hnot
    obtain ⟨e, he, h1, h2⟩ := not_clear_iff.1 hnot
    obtain ⟨e', he', h3, h4⟩ := covered_replaced h he ⟨le_rfl, le_rfl⟩
    exact not_clear_iff.2 ⟨e', he', by omega, by omega⟩ hc

theorem clear_of_inserted {q : Nat} {text : String} (h : ed.insertAt q text = .ok ed')
    (hc : ed'.Clear p p) : ed.Clear p p := by
  obtain ⟨-, rfl⟩ := insertAt_eq_ok.1 h
  exact fun e he => hc e (List.mem_append_left _ he)

theorem History.comments_stand (h : History (· < ·) { source } l ed) :
    ∀ p, ed.Clear p p →
      (ed.notesAt p).filter opensComment = (l.filter (·.start == p)).map (Notice.text source) := by
  induction h with
  | start => exact fun p _ => rfl
  | replaced _ hlt granted ih =>
    intro p hc
    obtain ⟨hout, hc⟩ := clear_of_replaced granted hc
    rw [notesAt_replaced hlt granted hout, ih p hc]
  | @line l ed' ed'' u symbol path _ granted ih =>
    intro p hc
    rw [notesAt_insertedAt granted, List.filter_append, ih p (clear_of_inserted granted hc)]
    split <;> simp [opensComment_line]
  | @put l ed' ed'' q comment before listed granted ih =>
    intro p hc
    have hput := (insertCommentBefore_put.1 granted).2
    have htext : encode (commentText (lineIndent ed'.source q.statement.start) comment) =
        Notice.text source ⟨q.statement, comment⟩ := by rw [before.source]; rfl
    rw [notesAt_insertedAt hput, List.filter_append, ih p (clear_of_inserted hput hc),
      List.filter_append, List.map_append, htext]
    by_cases hp : p = q.statement.start
    · have hopens := opensComment_written source (n := ⟨q.statement, comment⟩) listed
      rw [if_pos hp, List.filter_cons_of_pos hopens]
      simp [Notice.start, hp]
    · simp [hp, Notice.start, Ne.symm hp]

theorem Sound.notesAt_eq_nil (h : ed.Sound) (hc : ¬ed.Clear p p) : ed.notesAt p = [] := by
  obtain ⟨e, he, h1, h2⟩ := not_clear_iff.1 hc
  refine List.eq_nil_iff_forall_not_mem.2 fun text htext => ?_
  obtain ⟨e', he', hins, rfl, -⟩ := Calls.mem_notesAt.1 htext
  have hne : e ≠ e' := by
    rintro rfl
    omega
  rcases h.apart.forall he he' hne with h3 | h3 <;> omega

theorem History.comments_at (h : History (· < ·) { source } l ed) (hsound : ed.Sound) (p : Nat) :
    Strand.comments (ed.strandsAt p) =
      ((l.filter ed.stands).filter (·.start == p)).map (Notice.written source) := by
  have hcomments : Strand.comments (ed.strandsAt p) =
      ((ed.notesAt p).filter opensComment).map fun text => (decode text).toOption.getD "" := by
    simp [Strand.comments, strandsAt, List.filter_map, Function.comp_def]
  rw [hcomments, List.filter_filter]
  by_cases hc : ed.Clear p p
  · have hstand : (l.filter fun n => n.start == p && ed.stands n) = l.filter (·.start == p) := by
      refine List.filter_congr fun n _ => ?_
      by_cases hn : n.start = p
      · rw [stands_iff.2 (hn ▸ hc), Bool.and_true]
      · simp [hn]
    rw [h.comments_stand p hc, hstand, List.map_map]
    refine List.map_congr_left fun n _ => ?_
    simp [Notice.text_eq, decode_encode, Except.toOption]
  · have hnone : (l.filter fun n => n.start == p && ed.stands n) = [] := by
      refine List.filter_eq_nil_iff.2 fun n _ hn => ?_
      simp only [Bool.and_eq_true, beq_iff_eq, stands_iff] at hn
      exact hc (hn.1 ▸ hn.2)
    rw [hnone, hsound.notesAt_eq_nil hc]
    rfl

/-- The editor shows the same without its comments. -/
theorem silent_shown (h : ed.Sound) : ed.silent.view.shown = ed.view.shown := by
  funext p
  refine Edit.shown_filter ed.source h.apart fun e _ hcov => ?_
  rw [Edit.covers_iff] at hcov
  have hins : e.isInsertion = false := by
    rw [← Bool.not_eq_true, Edit.isInsertion_iff]
    omega
  simp [hins]

theorem silent_notesAt (ed : Editor) (p : Nat) :
    ed.silent.notesAt p = (ed.notesAt p).filter fun text => !opensComment text := by
  unfold notesAt silent
  rw [List.filter_filter, List.filter_map, List.filter_filter]
  congr 1
  refine List.filter_congr fun e _ => ?_
  cases e.isInsertion <;> simp [Bool.and_comm]

variable {u : SourceUnit} {L : Edit → Prop}

theorem mem_texts (h : Recorded u L ed) {text : Bytes} (ht : text ∈ ed.notesAt p) :
    encode ((decode text).toOption.getD "") = text := by
  obtain ⟨e, he, -, -, rfl⟩ := Calls.mem_notesAt.1 ht
  obtain ⟨s, hs⟩ := h.texts e he
  rw [hs, decode_encode]
  rfl

theorem character_shown {source : String} (hs : u.source = encode source) (h : Recorded u L ed)
    (ha : ∀ e ∈ ed.edits, e.Aligned u.source) {a b : Nat} (hab : a < b)
    (hba : isBoundary u.source a = true) (hbb : isBoundary u.source b = true)
    (hnone : ∀ p, a < p → p < b → isBoundary u.source p = false) :
    ∃ s, encode s = (List.range' a (b - a)).flatMap ed.view.shown := by
  have hend : ∀ p, isBoundary u.source p = true → a < p → b ≤ p := by
    intro p hp hlt
    by_contra hcon
    rw [hnone p hlt (by omega)] at hp
    cases hp
  by_cases hcov : ∃ e ∈ ed.edits, e.covers a = true
  · obtain ⟨e, he, hcov⟩ := hcov
    have hrange := Edit.covers_iff.1 hcov
    have hstop := hend e.stop (ha e he).2 hrange.2
    have hshown : ∀ p, a ≤ p → p < b → ed.view.shown p = if e.start = p then e.replacement else [] :=
      fun p h1 h2 => Edit.shown_of_covers h.sound.apart he (Edit.covers_iff.2 ⟨by omega, by omega⟩)
    have hrest : (List.range' (a + 1) (b - (a + 1))).flatMap ed.view.shown = [] := by
      refine List.flatMap_eq_nil_iff.2 fun p hp => ?_
      rw [List.mem_range'_1] at hp
      rw [hshown p (by omega) (by omega), if_neg (by omega)]
    obtain ⟨text, htext⟩ := h.texts e he
    have hone : a.succ - a = 1 := by omega
    rw [View.range'_split (Nat.le_succ a) hab, List.flatMap_append, hrest, hone, List.range'_one,
      List.flatMap_singleton, List.append_nil, hshown a le_rfl hab]
    refine ⟨if e.start = a then text else "", ?_⟩
    split
    · exact htext.symm
    · rfl
  · have hfree : ∀ p, a ≤ p → p < b → ∀ e ∈ ed.edits, e.covers p = false := by
      intro p h1 h2 e he
      rw [← Bool.not_eq_true, Edit.covers_iff]
      intro hp
      rcases Nat.lt_or_ge a e.start with hlt | hge
      · have := hend e.start (ha e he).1 hlt
        omega
      · exact hcov ⟨e, he, Edit.covers_iff.2 ⟨hge, by omega⟩⟩
    have hslice : ed.view.bare.span a b = slice u.source a b := by
      refine View.span_source hab.le fun p h1 h2 => ?_
      rw [View.cell, View.bare, List.nil_append, ← h.source]
      exact Edit.shown_of_free (hfree p h1 h2)
    have hbare : ed.view.bare.cell = ed.view.shown := by
      funext p
      simp [View.cell, View.bare]
    rw [View.span, hbare] at hslice
    rw [hs, encode_eq] at hba hbb
    obtain ⟨mid, hmid⟩ := exists_chars_between hba hbb
    exact ⟨String.ofList mid, by rw [hslice, encode_ofList, slice, hs, encode_eq, hmid]⟩

/-- An editor shows the same with its comments and without. -/
theorem weave {source : String} (hs : u.source = encode source) (h : Recorded u L ed)
    (ha : ∀ e ∈ ed.edits, e.Aligned u.source) :
    Weave u.source ed.strandsAt ed.silent.view ed.view where
  shown := silent_shown h.sound
  plain p := by
    rw [Calls.view_inserted, silent_notesAt, Strand.plain, strandsAt, List.filter_map, Strand.bytes,
      List.flatMap_map, List.flatten_eq_flatMap]
    exact List.flatMap_congr fun text ht => (mem_texts h (List.mem_of_mem_filter ht)).symm
  full p := by
    rw [Calls.view_inserted, strandsAt, Strand.bytes, List.flatMap_map, List.flatten_eq_flatMap]
    exact List.flatMap_congr fun text ht => (mem_texts h ht).symm
  aligned p hne := by
    obtain ⟨text, htext⟩ := List.exists_mem_of_ne_nil (ed.notesAt p) fun hnil => hne (by
      rw [strandsAt, hnil]
      rfl)
    obtain ⟨e, he, -, rfl, -⟩ := Calls.mem_notesAt.1 htext
    exact (ha e he).1
  character _ _ hab hba hbb hnone := character_shown hs h ha hab hba hbb hnone

end Editor

namespace Calls

variable {u : SourceUnit} {K all : List Place.RepositoryCall} {sh ed : Editor} {l : List Notice}

/-- What a pass edits but its calls starts and ends between characters. -/
theorem Around.aligned (hu : u.Regular) {source : String} (hs : u.source = encode source) {e : Edit}
    (h : Around u e) : e.Aligned u.source := by
  cases h with
  | advisory q comment rooted _ _ _ _ before => exact aligned_advisory hu.aligned rooted before
  | line _ _ _ start stop _ =>
    rw [Edit.Aligned, start, stop, hs, encode_eq]
    exact ⟨isBoundary_zero _, isBoundary_zero _⟩
  | injection edit => exact aligned_injection hu.aligned edit
  | registration site mem on _ =>
    exact aligned_on hu.aligned (Imports.registration_within mem).1.within on
  | clause p path clause mem module _ found on _ =>
    obtain ⟨hpm, -⟩ := Imports.statement_facts hu.toTopLevel mem module
    exact aligned_on hu.aligned
      ((Tree.within_of_mem (Imports.clause_mem found)).trans (Tree.within_of_mem hpm)) on
  | statement p path mem module _ nonempty takes _ =>
    obtain ⟨hpm, -⟩ := Imports.statement_facts hu.toTopLevel mem module
    exact aligned_line hs (Tree.test_within hu.aligned (Tree.within_of_mem hpm)) nonempty.le takes

/-- A mirror shows the same with its comments and without. -/
theorem Mirrors.weave (hu : u.Regular) {source : String} (hs : u.source = encode source)
    (h : Mirrors u all K sh ed) : Weave u.source sh.strandsAt sh.silent.view sh.view :=
  Editor.weave hs h.around fun e he => (h.around.all e he).aligned hu hs

theorem Mirrors.atStatements (hu : u.Regular) (h : Mirrors u all K sh ed) :
    AtStatements u sh.strandsAt := by
  intro p hp hne
  obtain ⟨text, htext⟩ := List.exists_mem_of_ne_nil (sh.notesAt p) fun hnil => hne (by
    rw [Editor.strandsAt, hnil]
    rfl)
  exact h.inserted_before hu htext (.inr hp)

end Calls

theorem flatMap_filter_perm {α : Type} {f : α → Nat} (xs : List α) (m : Nat) :
    ((List.range m).flatMap fun p => xs.filter (f · == p)).Perm (xs.filter (f · < m)) := by
  induction m with
  | zero => simp
  | succ m ih =>
    rw [List.range_succ, List.flatMap_append, List.flatMap_singleton]
    refine (ih.append_right _).trans ?_
    have hsplit := List.filter_append_perm (f · < m) (xs.filter (f · < m + 1))
    rw [List.filter_filter, List.filter_filter] at hsplit
    have hbelow : (xs.filter fun x => decide (f x < m) && decide (f x < m + 1)) =
        xs.filter (f · < m) := List.filter_congr fun x _ => by
      by_cases h : f x < m <;> simp [h]
      omega
    have hlast : (xs.filter fun x => !decide (f x < m) && decide (f x < m + 1)) =
        xs.filter (f · == m) := List.filter_congr fun x _ => by
      rw [Bool.eq_iff_iff]
      simp
      omega
    rwa [hbelow, hlast] at hsplit

namespace Editor

variable {ed : Editor} {l : List Notice} {n : Notice} {source : Bytes}

theorem History.listed {ranges : Nat → Nat → Prop} {start : Editor} (h : History ranges start l ed) :
    ∀ n ∈ l, n.comment ∈ Calls.advisoryTexts := by
  induction h with
  | start => simp
  | replaced _ _ _ ih => exact ih
  | line _ _ ih => exact ih
  | put _ listed _ ih =>
    intro n hn
    rcases List.mem_append.1 hn with hn | hn
    · exact ih n hn
    · rwa [List.mem_singleton.1 hn]

theorem History.mem_notesAt (h : History (· < ·) { source } l ed) (hn : n ∈ l)
    (hstands : ed.stands n = true) : n.text source ∈ ed.notesAt n.start := by
  have hmem := h.comments_stand n.start (stands_iff.1 hstands)
  refine List.mem_of_mem_filter (p := opensComment) ?_
  rw [hmem]
  exact List.mem_map_of_mem (List.mem_filter.2 ⟨hn, by simp⟩)

/-- The comments in the strands of an editor are those of its history that stand. -/
theorem History.comments_perm (h : History (· < ·) { source } l ed) (hsound : ed.Sound) :
    (commentsIn ed.strandsAt 0 (source.length + 1)).Perm
      ((l.filter ed.stands).map (Notice.written source)) := by
  have hsource : ed.source = source := h.source
  have hall : ((l.filter ed.stands).filter (·.start < source.length + 1)) = l.filter ed.stands := by
    refine List.filter_eq_self.2 fun n hn => ?_
    obtain ⟨hmem, hstands⟩ := List.mem_filter.1 hn
    obtain ⟨e, he, hins, hstart, -⟩ := Calls.mem_notesAt.1 (h.mem_notesAt hmem hstands)
    have := hsound.range e he
    rw [hsource] at this
    rw [decide_eq_true_eq]
    omega
  have hoffsets : commentsIn ed.strandsAt 0 (source.length + 1) =
      ((List.range (source.length + 1)).flatMap fun p =>
        (l.filter ed.stands).filter (·.start == p)).map (Notice.written source) := by
    rw [commentsIn, Nat.sub_zero, ← List.range_eq_range', List.map_flatMap]
    exact List.flatMap_congr fun p _ => h.comments_at hsound p
  rw [hoffsets]
  refine List.Perm.map _ ((flatMap_filter_perm _ _).trans ?_)
  rw [hall]

end Editor

theorem Woven.mem_infix {cs : List String} {a b : Bytes} (h : Woven cs a b) {c : String} (hc : c ∈ cs) :
    encode c <:+: b := by
  obtain ⟨ss, hperm, -, rfl⟩ := h
  obtain ⟨s, hs, rfl⟩ := List.mem_map.1 (hperm.mem_iff.2 hc)
  obtain ⟨l, r, hlr⟩ := List.append_of_mem (List.mem_of_mem_filter hs)
  rw [hlr, Strand.bytes_append]
  exact ⟨Strand.bytes l, Strand.bytes r, by simp [Strand.bytes]⟩

theorem Outcome.advisories_eq {settings : Settings} {source : String} {s : Session} {o : Outcome}
    (h : ofSession settings source s = .ok o) :
    o.advisories = if s.flags.any then s.advisories else 0 := by
  unfold ofSession at h
  cases hf : s.flags.any with
  | false =>
    rw [hf] at h
    exact (congrArg Outcome.advisories (Except.ok.inj h)).symm
  | true =>
    rw [hf] at h
    cases hp : s.editor.print with
    | error e =>
      rw [hp] at h
      cases h
    | ok text =>
      rw [hp] at h
      exact (congrArg Outcome.advisories (Except.ok.inj h)).symm

namespace Calls

/-- Comments and their count. The comments that a pass puts, it puts into its editor and into the mirror
that is left once the calls are converted. What is printed is what the mirror would print without them,
with those of them in between that stand in the mirror, also where they stand in calls that are converted.
All comments that were put are counted, if anything is printed; so the count is that of the comments
which come out exactly if none of them stands strictly inside a range that the mirror replaces. -/
theorem advisories_counted_iff (u : SourceUnit) (hu : u.Sheltered) (source : String)
    (hsource : u.source = encode source) (members : Pattern.Regex)
    (hm : Pattern.parse u.settings.memberPattern = .ok members) (s : Session)
    (hs : s.editor = { source := u.source }) (hn : s.advisories = 0) :
    ∃ s' o K sh l, (Outcome.stages u).result s = (.ok (), s') ∧ Ended u source members s' o K sh ∧
      s.editor.History (fun _ _ => True) l s'.editor ∧ s.editor.History (· < ·) l sh ∧
      (s'.flags.any = false → o.output = source ∧ o.advisories = 0) ∧
      (s'.flags.any = true → o.advisories = l.length ∧
        Woven ((l.filter sh.stands).map (Notice.written u.source))
          (scene u sh.silent.view K).print (encode o.output) ∧
        (o.advisories = (l.filter sh.stands).length ↔ ∀ n ∈ l, sh.stands n = true)) := by
  obtain ⟨s', o, K, sh, hrun, hended, -, l, hreal, hmirror, hcount⟩ :=
    pass_ended hu.toRegular hsource hm hs
  have hmirrors := hended.mirrors
  have hadvisories := Outcome.advisories_eq hended.outcome
  refine ⟨s', o, K, sh, l, hrun, hended, hreal, hmirror, fun hidle => ?_, fun hfired => ?_⟩
  · exact ⟨hended.idle hidle, by rw [hadvisories, hidle]; rfl⟩
  have hlength : o.advisories = l.length := by
    rw [hadvisories, if_pos hfired, hcount, hn, Nat.zero_add]
  refine ⟨hlength, ?_, ?_⟩
  · rw [hended.printed hfired]
    rw [hs] at hmirror
    exact (print_woven (hmirrors.weave hu.toRegular hsource) (hmirrors.atStatements hu.toRegular) hu
      hsource).perm (hmirror.comments_perm hmirrors.around.sound)
  · rw [hlength, eq_comm]
    exact List.length_filter_eq_length_iff

/-- A comment in a function that is an argument comes out in the new argument. -/
example : (Outcome.ofSource .typescript {}
    "a.repository.save(() => \x7b b.repository.save(c); \x7d);" none).1.toOption.map
      (fun o => (o.advisories, o.output)) =
    some (2, Rules.saveAdvisory ++ "\na.prisma.model.create(\x7bdata: () => \x7b " ++
      Rules.saveAdvisory ++ "\nb.prisma.model.create(\x7bdata: c\x7d); \x7d\x7d);") := by
  decide +kernel

def droppedSample : String := "TypeOrmModule.forRoot(() => { a.repository.save(b); });"

def droppedUnit : SourceUnit := ⟨encode droppedSample, (parse .typescript droppedSample).root, {}⟩

def droppedStart : Session := Outcome.start droppedUnit.source (parse .typescript droppedSample) none

def droppedRun : Except Fault Unit × Session := (Outcome.stages droppedUnit).result droppedStart

theorem droppedSample_run : droppedRun.1.toOption = some () ∧
    droppedRun.2.flags.any = true ∧
    (Outcome.ofSession {} droppedSample droppedRun.2).toOption.map (fun o => (o.advisories, o.output)) =
      some (1, "import { PrismaModule } from './prisma/prisma.module';\nPrismaModule();") := by
  decide +kernel

/-- The function goes with the registration, and the comment of its call with it. The call is counted
still. -/
theorem advisories_counted_iff_sample : ∃ s' o sh l,
    droppedRun = (.ok (), s') ∧ Outcome.ofSession {} droppedSample s' = .ok o ∧ o.advisories = 1 ∧
    droppedStart.editor.History (fun _ _ => True) l s'.editor ∧ droppedStart.editor.History (· < ·) l sh ∧
    ∃ n ∈ l, sh.stands n = false := by
  obtain ⟨-, hfired, hout⟩ := droppedSample_run
  obtain ⟨s', o, K, sh, l, hrun, hended, hreal, hmirror, -, h⟩ := advisories_counted_iff droppedUnit
    (parse_sheltered .typescript droppedSample {}) droppedSample (by simp only [droppedUnit]) _
    Settings.exists_members.choose_spec droppedStart rfl rfl
  rw [droppedRun, hrun] at hfired hout
  obtain ⟨o', ho', heq⟩ := exists_ok_of_map hout
  obtain rfl := Except.ok.inj (hended.outcome.symm.trans ho')
  obtain ⟨hcount, htext⟩ := Prod.mk.injEq .. ▸ heq
  obtain ⟨-, hwoven, hiff⟩ := h hfired
  refine ⟨s', o, sh, l, hrun, hended.outcome, hcount, hreal, hmirror, ?_⟩
  by_contra hnone
  -- all comments would stand, and one would come out
  have hlength := hiff.2 fun n hn => by
    by_contra hnot
    exact hnone ⟨n, hn, by simpa using hnot⟩
  obtain ⟨n, hn⟩ := List.exists_mem_of_length_pos (l := l.filter sh.stands) (by omega)
  obtain ⟨b, hb, hopens⟩ := advisory_written (lineIndent droppedUnit.source n.start)
    (hreal.listed n (List.mem_of_mem_filter hn))
  have hinfix := hopens.isInfix.trans (hwoven.mem_infix (List.mem_map_of_mem hn))
  rw [htext] at hinfix
  revert hinfix
  fin_cases hb <;> decide +kernel

/-- One comment is counted, and the output has none. -/
theorem advisory_lost_sample :
    ∃ o, (Outcome.ofSource .typescript {} droppedSample none).1 = .ok o ∧ o.advisories = 1 ∧
      ¬"//".toList <:+: o.output.toList ∧ ¬"/*".toList <:+: o.output.toList := by
  obtain ⟨hdone, -, hout⟩ := droppedSample_run
  obtain ⟨o, ho, hout⟩ := exists_ok_of_map hout
  obtain ⟨hcount, htext⟩ := Prod.mk.injEq .. ▸ hout
  obtain ⟨s, hs⟩ := exists_eq_ok_of_fst hdone
  rw [hs] at ho
  dsimp only [droppedRun, droppedUnit, droppedStart] at hs
  refine ⟨o, by rw [Outcome.ofSource_eq, hs]; exact ho, hcount, ?_⟩
  rw [htext, Text.infix_iff rfl rfl, Text.infix_iff rfl rfl]
  set_option maxRecDepth 2000 in decide

end Calls

end OrmCodemod
