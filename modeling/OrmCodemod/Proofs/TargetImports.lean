import OrmCodemod.Proofs.ImportPaths

/-! The imports that a pass adds. Each of the two paths is asked for at most once: by the first
registration that is replaced, and by the first import that lists the repository type. A line is added
for it unless the source imports from the path. The source's own imports from the path are other matters:
they go if the text of the repository path stands in it. -/

namespace OrmCodemod

open Syntax Text Pass Calls

namespace Imports

variable {u : SourceUnit} {symbol path : String} {ensured ensured' : List String}
  {progress pr : Progress} {site : Place × String} {p : Place} {s s' : Session} {ed ed' : Editor}
  {n : Nat} {l r : List Place}

section Lines

variable {a b : Nat} {text : String}

theorem headLines_replaced (hab : a < b) (h : ed.replaceRange a b text = .ok ed') :
    headLines u ed' = headLines u ed := by
  rw [headLines, headLines, Editor.notesAt_replaced hab h (by omega)]

theorem headLines_line (hw : isWanted u symbol path)
    (h : ed.insertAt 0 (importLine u symbol path) = .ok ed') :
    headLines u ed' = headLines u ed ++ [encode (importLine u symbol path)] := by
  have hline : (lineTexts u).contains (encode (importLine u symbol path)) = true :=
    List.contains_iff_mem.2 (mem_lineTexts hw)
  rw [headLines, headLines, Editor.notesAt_insertedAt h, if_pos rfl, List.filter_append,
    List.filter_singleton, hline, cond_true]

theorem headLines_advised {q : Place} {comment : String} {put : Bool}
    (hlisted : comment ∈ advisoryTexts) (h : ed.insertCommentBefore q comment = .ok (put, ed')) :
    headLines u ed' = headLines u ed := by
  rcases Editor.insertCommentBefore_ok h with rfl | hok
  · rfl
  rw [headLines, headLines, Editor.notesAt_insertedAt hok, List.filter_append]
  split
  · -- an advisory starts with a slash, and a line does not
    have hnot : (lineTexts u).contains (encode (Editor.commentText
        (lineIndent ed.source q.statement.start) comment)) = false := by
      rw [← Bool.not_eq_true, List.contains_iff_mem]
      intro hline
      have hslash := advisory_head (lineIndent ed.source q.statement.start) hlisted
      rw [lineTexts_head hline] at hslash
      cases hslash
    rw [List.filter_singleton, hnot, cond_false, List.append_nil]
  · rw [List.filter_nil, List.append_nil]

end Lines

/-- Seeing to a path adds a line for it if it was not seen to before and the source has no import. -/
theorem Ensures.headLines (hw : isWanted u symbol path)
    (h : Ensures u symbol path ensured ensured' ed ed') :
    (∀ q, q ∈ ensured' ↔ q ∈ ensured ∨ q = path) ∧
      headLines u ed' = headLines u ed ++
        if path ∉ ensured ∧ ¬From u path then [encode (importLine u symbol path)] else [] := by
  rcases h with ⟨hmem, rfl, rfl⟩ | ⟨hnew, rfl, hline⟩
  · refine ⟨fun q => ⟨.inl, ?_⟩, by rw [if_neg fun h => h.1 hmem, List.append_nil]⟩
    rintro (h | rfl)
    · exact h
    · exact hmem
  · refine ⟨fun q => by rw [List.mem_cons, or_comm], ?_⟩
    rcases hline with ⟨hfrom, rfl⟩ | ⟨hfrom, hok⟩
    · rw [if_neg fun h => h.2 hfrom, List.append_nil]
    · rw [if_pos ⟨hnew, hfrom⟩, headLines_line hw hok]

theorem Alters.headLines (hu : u.TopLevel) (hp : p ∈ importStatements u)
    (hsource : ed.source = u.source) {flags : Flags}
    (h : Alters u p (lostBy u progress flags p) ed ed') : headLines u ed' = headLines u ed := by
  unfold Alters at h
  split at h
  · rw [h]
  rename_i path hpath
  obtain ⟨hpm, -, hpc, -⟩ := statement_facts hu hp hpath
  have hne := top_nonempty hu hpm hpc
  have htakes := statement_takesLine hu hp
  have h1 := htakes.start_le
  have h2 := htakes.le_stop
  have hremoved : ed.removeStatement p.tree = .ok ed' →
      Calls.headLines u ed' = Calls.headLines u ed := by
    intro hok
    rw [Editor.removeStatement_eq, hsource] at hok
    exact headLines_replaced (by omega) hok
  split at h
  · unfold Loses at h
    split at h
    · rename_i hsome
      obtain ⟨clause, hclause, h⟩ := h
      split at h
      · exact hremoved h
      · exact headLines_replaced (lossy_clause_nonempty hu hp hclause hsome) h
    · rw [h]
  split at h
  · exact hremoved h
  split at h
  · obtain ⟨put, hadvised⟩ := h
    exact headLines_advised (by simp [advisoryTexts]) hadvised
  · rw [h]

/-- A path is asked for: by `n` registrations that are replaced, or by an import that lists the
repository type. -/
def Asked (u : SourceUnit) (n : Nat) (l : List Place) (path : String) : Prop :=
  (n ≠ 0 ∧ path = u.settings.modulePath) ∨
    ((∃ p ∈ l, Brings u p) ∧ path = u.settings.clientServicePath)

instance : Decidable (Brings u p) := inferInstanceAs (Decidable (_ ∧ _))

instance : Decidable (Asked u n l path) := inferInstanceAs (Decidable (_ ∨ _))

/-- The names that lines are added for, with their paths: the module and then the client, each if its
path is asked for, no import of the source is from there, and no line before is. -/
def addedLines (u : SourceUnit) (n : Nat) (l : List Place) : List (String × String) :=
  (if n ≠ 0 ∧ ¬From u u.settings.modulePath
    then [(u.settings.moduleName, u.settings.modulePath)] else []) ++
  (if (∃ p ∈ l, Brings u p) ∧ ¬From u u.settings.clientServicePath ∧
      ¬(n ≠ 0 ∧ u.settings.clientServicePath = u.settings.modulePath)
    then [(u.settings.clientService, u.settings.clientServicePath)] else [])

/-- An import that lists the repository type brings the line of the client, unless that path was asked for
before. -/
theorem addedLines_concat (hb : Brings u p) : addedLines u n (l ++ [p]) = addedLines u n l ++
    if ¬Asked u n l u.settings.clientServicePath ∧ ¬From u u.settings.clientServicePath
      then [(u.settings.clientService, u.settings.clientServicePath)] else [] := by
  have hnow : ∃ q ∈ l ++ [p], Brings u q := ⟨p, by simp, hb⟩
  by_cases hasked : Asked u n l u.settings.clientServicePath
  · -- the module or an import before has asked for the path
    rw [if_neg fun hno => hno.1 hasked, List.append_nil]
    rcases hasked with hshared | ⟨hbefore, -⟩
    · have hnever : ∀ {brings : Prop}, ¬(brings ∧ ¬From u u.settings.clientServicePath ∧
          ¬(n ≠ 0 ∧ u.settings.clientServicePath = u.settings.modulePath)) := fun hno => hno.2.2 hshared
      rw [addedLines, addedLines, if_neg hnever, if_neg hnever]
    · simp only [addedLines, hnow, hbefore]
  · obtain ⟨hshared, hbefore⟩ := not_or.1 hasked
    have hnone : ¬∃ q ∈ l, Brings u q := fun hbrings => hbefore ⟨hbrings, rfl⟩
    simp only [addedLines, hnow, hnone, hasked, hshared, false_and, if_false, List.append_nil,
      not_false_eq_true, true_and, and_true]

/-- How far the import stage has come, with `n` registrations replaced and the imports `l` seen. -/
structure Supplied (u : SourceUnit) (n : Nat) (l : List Place) (ensured : List String) (s : Session) :
    Prop where
  lines : headLines u s.editor =
    (addedLines u n l).map fun line => encode (importLine u line.1 line.2)
  asked : ∀ path, path ∈ ensured ↔ Asked u n l path
  flagged : (n ≠ 0 ∨ ∃ p ∈ l, Brings u p) → s.flags.modules = true

theorem Supplied.registration (hu : u.Regular) (hs : site ∈ registrationSites u)
    (h : Supplied u progress.registrations [] progress.ensured s)
    (hrun : (attemptRegistration u progress site).result s = (.ok pr, s')) :
    Supplied u pr.registrations [] pr.ensured s' := by
  rcases attemptRegistration_cases hrun with ⟨-, rfl, rfl⟩ | ⟨-, -, rfl, heditor, hflags⟩ |
    ⟨-, mid, hok, hensures, hcount, hflags⟩
  · exact h
  · exact ⟨heditor ▸ h.lines, h.asked, fun hn => hflags ▸ h.flagged hn⟩
  have hlt := registration_nonempty hu.toNested hs
  obtain ⟨hseen, hlines⟩ := hensures.headLines (.inr ⟨rfl, rfl⟩)
  have hmem : u.settings.modulePath ∈ progress.ensured ↔ progress.registrations ≠ 0 := by
    simp [h.asked, Asked]
  refine ⟨?_, fun path => ?_, fun _ => by rw [hflags]⟩
  · rw [hlines, headLines_replaced hlt hok, h.lines, hcount]
    -- the first registration that is replaced brings the line
    by_cases hn : progress.registrations = 0 <;> by_cases hfrom : From u u.settings.modulePath <;>
      simp [addedLines, hmem, hn, hfrom]
  · rw [hseen, h.asked, hcount]
    simp only [Asked, List.not_mem_nil, false_and, exists_false, or_false]
    constructor
    · rintro (⟨-, rfl⟩ | rfl) <;> exact ⟨Nat.succ_ne_zero _, rfl⟩
    · exact fun h => .inr h.2

theorem Supplied.import (hu : u.TopLevel) (hsplit : importStatements u = l ++ p :: r)
    (h : Supplied u n l progress.ensured s) (hsource : s.editor.source = u.source)
    (hrun : (convertImport u progress p).result s = (.ok pr, s')) :
    Supplied u n (l ++ [p]) pr.ensured s' := by
  have hp : p ∈ importStatements u := hsplit ▸ by simp
  obtain ⟨mid, hconverts⟩ := convertImport_step hrun
  have hflag : Brings u p → s'.flags.modules = true := by
    rintro ⟨hpath, hmem⟩
    have hlost : Resolver.repositoryType ∈ lostBy u progress s.flags p := by
      simp only [lostBy, hpath, if_true, sourceLost, List.contains_iff_mem.2 hmem]
      exact List.mem_append_left _ (by decide)
    rw [hconverts.flagged.fired (.inl ⟨_, hmem, hlost⟩)]
  by_cases hb : Brings u p
  · have hensures := hconverts.brings hb
    obtain ⟨hseen, hlines⟩ := hensures.headLines (.inl ⟨rfl, rfl⟩)
    have hhead := hconverts.alters.headLines hu hp (hensures.reaching (a := 0) (b := 0).2.trans hsource)
    have hnow : ∃ q ∈ l ++ [p], Brings u q := ⟨p, by simp, hb⟩
    refine ⟨?_, fun path => ?_, fun _ => hflag hb⟩
    · rw [hhead, hlines, h.lines, addedLines_concat hb, List.map_append]
      simp only [h.asked]
      split <;> rfl
    · rw [hseen, h.asked, Asked, Asked]
      simp only [hnow, true_and]
      rw [or_assoc, or_iff_right_of_imp And.right]
  · obtain ⟨hensured, rfl⟩ := hconverts.other hb
    have hsame : (∃ q ∈ l ++ [p], Brings u q) ↔ ∃ q ∈ l, Brings u q := by
      simp [or_and_right, exists_or, hb]
    refine ⟨?_, fun path => ?_, fun hn => ?_⟩
    · rw [hconverts.alters.headLines hu hp hsource, h.lines, addedLines, addedLines]
      simp only [hsame]
    · rw [hensured, h.asked, Asked, Asked, hsame]
    · rw [hsame] at hn
      exact hconverts.flagged.kept (h.flagged hn)

theorem registrations_supply (hu : u.Regular) {sites : List (Place × String)}
    (hsites : ∀ site ∈ sites, site ∈ registrationSites u) :
    ∀ {progress : Progress} {s : Session},
      Supplied u progress.registrations [] progress.ensured s →
      (sites.foldlM (attemptRegistration u) progress).result s = (.ok pr, s') →
      Supplied u pr.registrations [] pr.ensured s' := by
  induction sites with
  | nil =>
    intro progress s h hrun
    obtain ⟨rfl, rfl⟩ : progress = pr ∧ s = s' := by simpa using hrun
    exact h
  | cons site sites ih =>
    intro progress s h hrun
    rw [List.foldlM_cons] at hrun
    obtain ⟨pr1, s1, hstep, hrun⟩ := result_bind_eq_ok hrun
    exact ih (fun x hx => hsites x (by simp [hx])) (h.registration hu (hsites site (by simp)) hstep) hrun

theorem imports_supply (hu : u.TopLevel) : ∀ {l r : List Place} {progress : Progress} {s : Session},
    importStatements u = l ++ r → s.editor.source = u.source → Supplied u n l progress.ensured s →
    (r.foldlM (convertImport u) progress).result s = (.ok pr, s') →
    Supplied u n (importStatements u) pr.ensured s' := by
  intro l r
  induction r generalizing l with
  | nil =>
    intro progress s hsplit _ h hrun
    obtain ⟨rfl, rfl⟩ : progress = pr ∧ s = s' := by simpa using hrun
    rw [hsplit, List.append_nil]
    exact h
  | cons p r ih =>
    intro progress s hsplit hsource h hrun
    rw [List.foldlM_cons] at hrun
    obtain ⟨pr1, s1, hstep, hrun⟩ := result_bind_eq_ok hrun
    have hpass := imports_pass hu (a := 0) (b := 0) (l := [p])
      (fun q hq => ⟨by simp [hsplit, List.mem_singleton.1 hq], fun _ _ => .inr (Nat.zero_le _)⟩) hsource
      (show ([p].foldlM (convertImport u) progress).result s = (.ok pr1, s1) by
        rw [List.foldlM_cons, result_bind_ok hstep]
        rfl)
    exact ih (by simp [hsplit]) (hpass.source.trans hsource)
      (h.import hu hsplit hsource hstep) hrun

def addedFrom (u : SourceUnit) (n : Nat) (path : String) : Nat :=
  (addedLines u n (importStatements u)).countP fun line => line.2 == path

/-- A path for which a line is added is asked for, and not imported from before; and then it gets one
line. -/
theorem addedFrom_eq (u : SourceUnit) (n : Nat) (path : String) :
    addedFrom u n path = if Asked u n (importStatements u) path ∧ ¬From u path then 1 else 0 := by
  have hone : ∀ {c : Prop} [Decidable c] (line : String × String),
      (if c then [line] else []).countP (fun x => x.2 == path) =
        if c ∧ line.2 = path then 1 else 0 := by
    intro c _ line
    by_cases hc : c <;> by_cases hpath : line.2 = path <;> simp [hc, hpath]
  rw [addedFrom, addedLines, List.countP_append, hone, hone]
  dsimp only
  by_cases hmodule : n ≠ 0 ∧ u.settings.modulePath = path
  · -- then the client shares the path, or has another one
    obtain ⟨hn, rfl⟩ := hmodule
    have hclient : ¬(((∃ p ∈ importStatements u, Brings u p) ∧ ¬From u u.settings.clientServicePath ∧
        ¬(n ≠ 0 ∧ u.settings.clientServicePath = u.settings.modulePath)) ∧
          u.settings.clientServicePath = u.settings.modulePath) := fun hno => hno.1.2.2 ⟨hn, hno.2⟩
    rw [if_neg hclient, Nat.add_zero]
    refine if_congr ?_ rfl rfl
    simp [Asked, hn]
  · rw [if_neg fun hno => hmodule ⟨hno.1.1, hno.2⟩, Nat.zero_add]
    refine if_congr ?_ rfl rfl
    constructor
    · rintro ⟨⟨hb, hfrom, -⟩, rfl⟩
      exact ⟨.inr ⟨hb, rfl⟩, hfrom⟩
    · rintro ⟨⟨hn, rfl⟩ | ⟨hb, rfl⟩, hfrom⟩
      · exact absurd ⟨hn, rfl⟩ hmodule
      · exact ⟨⟨hb, hfrom, fun hshared => hmodule ⟨hshared.1, hshared.2.symm⟩⟩, rfl⟩

def importsFrom (u : SourceUnit) (path : String) : List Place :=
  (importStatements u).filter fun p => decide (modulePath? u p.tree = some path)

def importsLeft (u : SourceUnit) (ed : Editor) (path : String) : List Place :=
  (importsFrom u path).filter fun p => decide (IsLeft u ed p)

theorem mem_importsFrom : p ∈ importsFrom u path ↔
    p ∈ importStatements u ∧ modulePath? u p.tree = some path := by
  rw [importsFrom, List.mem_filter, decide_eq_true_iff]

theorem from_iff : From u path ↔ importsFrom u path ≠ [] := by
  rw [ne_eq, List.eq_nil_iff_forall_not_mem, not_forall_not]
  exact exists_congr fun p => mem_importsFrom.symm

variable {source : String} {members : Pattern.Regex} {s1 s2 : Session} {last : Progress} {o : Outcome}

theorem Course.supplied (hu : u.Regular) (hm : Pattern.parse u.settings.memberPattern = .ok members)
    (hfresh : s.editor = { source := u.source }) (h : Course u source s s1 progress s2 last s' o) :
    Supplied u progress.registrations (importStatements u) last.ensured s' := by
  have hstart : Supplied u (({} : Progress).registrations) [] (({} : Progress).ensured) s1 := by
    refine ⟨?_, fun path => by simp [Asked], by simp⟩
    rw [early_headLines hu (early_recorded hu hm hfresh h.before)]
    simp [addedLines]
  have hregistered : Supplied u progress.registrations [] progress.ensured s2 :=
    registrations_supply hu (fun _ hs => hs) hstart
      (convertRegistrations_eq u ▸ h.registrations)
  exact imports_supply hu.toTopLevel (List.nil_append _).symm h.registered.tidy.source hregistered
    h.imports

theorem Course.ended (hu : u.Regular) (hsource : u.source = encode source)
    (hm : Pattern.parse u.settings.memberPattern = .ok members)
    (hfresh : s.editor = { source := u.source }) (h : Course u source s s1 progress s2 last s' o) :
    ∃ K sh, Ended u source members s' o K sh := by
  obtain ⟨s'', o', K, sh, hrun, hended, -⟩ := pass_ended hu hsource hm hfresh
  obtain rfl : s' = s'' := congrArg Prod.snd (h.whole.symm.trans hrun)
  obtain rfl : o = o' := Except.ok.inj (h.outcome.symm.trans hended.outcome)
  exact ⟨K, sh, hended⟩

/-- The imports of a pass. It adds one line for a path that is asked for and not imported from, and no
other line; all lines stand at the head of the output. The source's imports from a path of no library
come out as they are, or all of them go, if the path has the text of the repository path. So the output
has an import from a path that is asked for, and just one if the source has at most one, exactly unless
the source imports from the path and the path has the text. -/
theorem target_imports_counted (u : SourceUnit) (hu : u.Regular) (source : String)
    (hsource : u.source = encode source) (members : Pattern.Regex)
    (hm : Pattern.parse u.settings.memberPattern = .ok members) (s : Session)
    (hs : s.editor = { source := u.source }) :
    ∃ s1 progress s2 last s' o, Course u source s s1 progress s2 last s' o ∧
      headLines u s'.editor = (addedLines u progress.registrations (importStatements u)).map
        (fun line => encode (importLine u line.1 line.2)) ∧
      (∀ line ∈ addedLines u progress.registrations (importStatements u),
        AtHead u (encode (importLine u line.1 line.2)) (encode o.output)) ∧
      ∀ path, addedFrom u progress.registrations path =
          (if Asked u progress.registrations (importStatements u) path ∧ ¬From u path then 1 else 0) ∧
        (¬isLibrary path → (∀ p ∈ importsFrom u path, p.tree.plainImport = true) →
          (¬HasRepositoryText path → importsLeft u s'.printed path = importsFrom u path) ∧
          (HasRepositoryText path → importsLeft u s'.printed path = [] ∧
            ∀ p ∈ importsFrom u path, IsGone u s'.printed p) ∧
          (Asked u progress.registrations (importStatements u) path →
            (1 ≤ addedFrom u progress.registrations path + (importsLeft u s'.printed path).length ↔
              ¬(From u path ∧ HasRepositoryText path)) ∧
            ((importsFrom u path).length ≤ 1 →
              (addedFrom u progress.registrations path + (importsLeft u s'.printed path).length = 1 ↔
                ¬(From u path ∧ HasRepositoryText path))))) := by
  obtain ⟨s1, progress, s2, last, s', o, hcourse⟩ := exists_course hu hsource hm hs
  have hsupplied := hcourse.supplied hu hm hs
  obtain ⟨K, sh, hended⟩ := hcourse.ended hu hsource hm hs
  refine ⟨s1, progress, s2, last, s', o, hcourse, hsupplied.lines, fun line hline => ?_,
    fun path => ⟨addedFrom_eq u _ path, fun hlib hplain => ?_⟩⟩
  · -- a line is asked for, so that the pass is flagged
    have hasked : progress.registrations ≠ 0 ∨ ∃ p ∈ importStatements u, Brings u p := by
      rcases List.mem_append.1 hline with h | h
      · exact .inl (List.mem_ite_nil_right.1 h).1.1
      · exact .inr (List.mem_ite_nil_right.1 h).1.1
    have hmem : encode (importLine u line.1 line.2) ∈ headLines u s'.editor :=
      hsupplied.lines ▸ List.mem_map_of_mem hline
    refine hended.atHead hu ?_ (List.mem_of_mem_filter hmem)
    simp [Flags.any, hsupplied.flagged hasked]
  have hreached : ∀ p ∈ importsFrom u path,
      (IsLeft u s'.printed p ↔ ¬HasRepositoryText path) ∧
        (HasRepositoryText path → IsGone u s'.printed p) := by
    intro p hp
    obtain ⟨hmem, hpath⟩ := mem_importsFrom.1 hp
    obtain ⟨hleft, hgone⟩ := hcourse.other_import hu hm hs hmem (hplain p hp)
      (statement_facts hu.toTopLevel hmem hpath).2.2.1 (by simpa [hpath] using hlib)
    exact ⟨by simpa [hpath] using hleft, fun htext => hgone.2 ⟨path, hpath, htext⟩⟩
  have hleft : ¬HasRepositoryText path → importsLeft u s'.printed path = importsFrom u path :=
    fun htext => List.filter_eq_self.2 fun p hp => decide_eq_true ((hreached p hp).1.2 htext)
  have hgone : HasRepositoryText path → importsLeft u s'.printed path = [] := fun htext =>
    List.filter_eq_nil_iff.2 fun p hp hdec =>
      (hreached p hp).1.1 (of_decide_eq_true hdec) htext
  refine ⟨hleft, fun htext => ⟨hgone htext, fun p hp => (hreached p hp).2 htext⟩, fun hasked => ?_⟩
  rw [addedFrom_eq]
  by_cases hfrom : From u path
  · have hpos : 0 < (importsFrom u path).length := List.length_pos_iff.2 (from_iff.1 hfrom)
    rw [if_neg fun hno => hno.2 hfrom]
    by_cases htext : HasRepositoryText path
    · simp [hgone htext, hfrom, htext]
    · simp only [hleft htext, hfrom, htext, and_false, not_false_eq_true, iff_true]
      omega
  · have hnil : importsFrom u path = [] := not_ne_iff.1 (from_iff.not.1 hfrom)
    rw [if_pos ⟨hasked, hfrom⟩]
    simp [importsLeft, hnil, hfrom]

def moduleSettings : Settings := { modulePath := "./db/typeorm/repository.module" }

/-- A source with an import from there, a registration, and two imports that ask for the client. -/
def targetSample : String :=
  "import a from './db/typeorm/repository.module';\nimport \x7b Repository \x7d from 'typeorm';\n" ++
    "import \x7b Repository \x7d from 'typeorm';\nTypeOrmModule.forRoot();\n"

def targetUnit : SourceUnit :=
  ⟨encode targetSample, (parse .typescript targetSample).root, moduleSettings⟩

def targetStart : Session := { editor := { source := targetUnit.source } }

theorem targetSample_stages :
    (importStatements targetUnit).all (fun p => p.tree.plainImport) = true ∧
    (importsFrom targetUnit "./db/typeorm/repository.module").length = 1 ∧
    (importsFrom targetUnit "./prisma.service").length = 0 ∧
    (∃ p ∈ importStatements targetUnit, Brings targetUnit p) ∧
    (((Entities.extract targetUnit >>= fun _ => Calls.convert targetUnit) >>= fun _ =>
      convertRegistrations targetUnit (registrationSites targetUnit)).result
        targetStart).1.toOption.map (·.registrations) = some 1 := by
  decide +kernel

theorem target_imports_counted_sample : ∃ s1 progress s2 last s' o,
    Course targetUnit targetSample targetStart s1 progress s2 last s' o ∧
    progress.registrations = 1 ∧ addedFrom targetUnit 1 "./prisma.service" = 1 ∧
    AtHead targetUnit (encode (importLine targetUnit "PrismaService" "./prisma.service"))
      (encode o.output) ∧
    addedFrom targetUnit 1 "./db/typeorm/repository.module" = 0 ∧
    importsLeft targetUnit s'.printed "./db/typeorm/repository.module" = [] := by
  obtain ⟨hplain, hmodule, hclient, hbrings, hcount⟩ := targetSample_stages
  obtain ⟨s1, progress, s2, last, s', o, hcourse, -, hhead, hpaths⟩ :=
    target_imports_counted targetUnit (parse_sheltered .typescript targetSample moduleSettings).toRegular
      targetSample (by simp only [targetUnit]) _ Settings.exists_members.choose_spec targetStart rfl
  have hone := hcourse.count_eq hcount
  have hfrom : From targetUnit "./db/typeorm/repository.module" :=
    from_iff.2 (List.length_pos_iff.1 (by omega))
  have hfree : ¬From targetUnit "./prisma.service" :=
    from_iff.not.2 (not_ne_iff.2 (List.length_eq_zero_iff.1 hclient))
  have hasked : Asked targetUnit 1 (importStatements targetUnit) "./prisma.service" :=
    .inr ⟨hbrings, rfl⟩
  rw [hone] at hhead hpaths
  obtain ⟨hadded, -⟩ := hpaths "./prisma.service"
  obtain ⟨hnone, hleft⟩ := hpaths "./db/typeorm/repository.module"
  rw [if_pos ⟨hasked, hfree⟩] at hadded
  rw [if_neg fun h => h.2 hfrom] at hnone
  refine ⟨s1, progress, s2, last, s', o, hcourse, hone, hadded,
    hhead ("PrismaService", "./prisma.service") ?_, hnone, ?_⟩
  · refine List.mem_append_right _ (List.mem_ite_nil_right.2 ⟨⟨hbrings, hfree, ?_⟩, ?_⟩)
    · decide
    · exact List.mem_singleton.2 rfl
  · refine ((hleft (by decide) fun p hp => ?_).2.1 (isRepositoryPath_iff.1 (by decide))).1
    exact List.all_eq_true.1 hplain p (mem_importsFrom.1 hp).1

def importedSample : String :=
  "import \x7b PrismaModule \x7d from './db/typeorm/repository.module';\nTypeOrmModule.forRoot();\n"

theorem importedSample_output :
    (parse .typescript importedSample).broken = false ∧
    From ⟨encode importedSample, (parse .typescript importedSample).root, moduleSettings⟩
      moduleSettings.modulePath ∧
    (Outcome.ofSource .typescript moduleSettings importedSample none).1.toOption.map (·.output) =
      some "PrismaModule();\n" := by
  decide +kernel

/-- The registration is rewritten, the import of its module is deleted, and no line comes for it. -/
theorem module_import_missing_sample : ∃ o,
    (parse .typescript importedSample).broken = false ∧
    From ⟨encode importedSample, (parse .typescript importedSample).root, moduleSettings⟩
      moduleSettings.modulePath ∧
    ¬isLibrary moduleSettings.modulePath ∧ ¬IsLibraryRepository moduleSettings.modulePath ∧
    (Outcome.ofSource .typescript moduleSettings importedSample none).1 = .ok o ∧
    "PrismaModule()".toList <:+: o.output.toList ∧
    ¬moduleSettings.modulePath.toList <:+: o.output.toList := by
  obtain ⟨hbroken, hfrom, hout⟩ := importedSample_output
  obtain ⟨o, ho, hout⟩ := exists_ok_of_map hout
  refine ⟨o, hbroken, hfrom, by decide, by decide, ho, ?_⟩
  rw [hout, Text.infix_iff rfl rfl, moduleSettings, Text.infix_iff rfl rfl]
  decide

end Imports

end OrmCodemod
