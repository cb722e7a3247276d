import OrmCodemod.Proofs.Registrations

/-! The turn of an import. The stages before leave an import alone that holds neither calls nor methods
nor blocks, and so do the registrations and the other imports. So what the pass makes of it is what is
done to it in its turn. -/

namespace OrmCodemod

open Syntax Text Pass

namespace Calls

variable {u : SourceUnit} {members : Pattern.Regex} {e : Edit}

/-- An advisory: an insertion that starts with a slash. -/
structure IsNote (u : SourceUnit) (e : Edit) : Prop where
  around : Around u e
  insertion : e.start = e.stop
  slash : e.replacement.head? = some 47

theorem IsNote.advisory {q : Place} {comment : String} (haround : Around u e)
    (hlisted : comment ∈ advisoryTexts) (h : e.IsAdvisory u q comment) : IsNote u e :=
  ⟨haround, h.1.trans h.2.1.symm, h.2.2 ▸ advisory_head _ hlisted⟩

theorem IsCallEdit.cases (hu : u.Closed) (h : IsCallEdit u members e) :
    IsNote u e ∨ ∃ site ∈ callSites u members, e.start < e.stop ∧
      site.call.start ≤ e.start ∧ e.stop ≤ site.call.stop := by
  have hpart : ∀ {site : Place.RepositoryCall} {t : Tree}, site ∈ callSites u members →
      t ∈ site.call.tree.children → t.start < t.stop → e.IsOn t →
      e.start < e.stop ∧ site.call.start ≤ e.start ∧ e.stop ≤ site.call.stop := by
    intro site t hs ht hlt hon
    have := Tree.child_range (Tree.everyNode_within hu.ordered (mem_callSites hs).1.within) ht
    rw [hon.1, hon.2]
    exact ⟨hlt, this.1, this.2.2⟩
  cases h with
  | callee site rule mem row supported on =>
    obtain ⟨hroot, hparts⟩ := mem_callSites mem
    have hsplits := splits_of_parts hu hparts hroot.within row
    exact .inr ⟨site, mem, hpart mem (Tree.child?_mem hparts.callee) hsplits.1 on⟩
  | arguments site rule mem row supported on =>
    obtain ⟨hroot, hparts⟩ := mem_callSites mem
    have hsplits := splits_of_parts hu hparts hroot.within row
    exact .inr ⟨site, mem, hpart mem (Tree.child?_mem hparts.arguments) hsplits.2.2.1 on⟩
  | advisory site rule comment mem row listed before =>
    obtain ⟨hroot, hparts⟩ := mem_callSites mem
    have ho := splits_of_parts hu hparts hroot.within row
    have hmem := Tree.child?_mem hparts.callee
    have hrange := Tree.child_range (Tree.everyNode_within hu.ordered hroot.within) hmem
    have hne : site.call.start < site.call.stop := by
      simp only [Place.start, Place.stop]
      omega
    have hlisted := advisory_listed row listed
    exact .inl (.advisory (.advisory site.call comment hroot hne (List.ne_nil_of_mem hmem)
      (Tree.not_isAny_of_is hparts.isCall (by decide)) hlisted before) hlisted before)

/-- What the stages before the imports edit. -/
def IsEarly (u : SourceUnit) (members : Pattern.Regex) (e : Edit) : Prop :=
  IsNote u e ∨ IsInjectionEdit u e ∨ IsCallEdit u members e

theorem early_recorded (hu : u.Regular) (hm : Pattern.parse u.settings.memberPattern = .ok members)
    {s s1 : Session} (hfresh : s.editor = { source := u.source })
    (h : (Entities.extract u >>= fun _ => Calls.convert u).result s = (.ok (), s1)) :
    Recorded u (IsEarly u members) s1.editor := by
  obtain ⟨_, s0, hextract, hcalls⟩ := result_bind_eq_ok h
  have haround := (extract_around hu.toNested).ok (hfresh ▸ Recorded.fresh u _) hextract
  have hslash : KeepsRecorded u (fun e => e.replacement.head? = some 47) (Entities.extract u) :=
    Entities.extract_holds fun class_ hclass => keeps_advise hu.toNested hclass.rooted fun e he => by
      rw [he.2.2]
      exact advisory_head _ (by simp [advisoryTexts])
  have hslashes := (hslash.ok (hfresh ▸ Recorded.fresh u _) hextract).all
  have hnotes : Recorded u (IsNote u) s0.editor :=
    ⟨haround.source, haround.sound, haround.texts,
      fun e he => ⟨(haround.all e he).1, (haround.all e he).2, hslashes e he⟩⟩
  have hconvert : Holds (fun s => Recorded u (IsEarly u members) s.editor) (Calls.convert u)
      (fun _ s => Recorded u (IsEarly u members) s.editor) fun _ _ => True := by
    unfold Calls.convert
    rw [hm]
    exact Holds.bind (convertConstructors_holds hu.toNested fun _ he => .inr (.inl he)) fun _ =>
      convertCalls_holds hu.toNested fun _ he => .inr (.inr he)
  exact hconvert.ok (hnotes.imp fun _ he => .inl he) hcalls

theorem IsEarly.apart_of_import (hu : u.Regular) (h : IsEarly u members e) {t : Tree}
    (hplain : t.plainImport = true) (ht : t ∈ u.root.children)
    (hk : t.is .importStatement = true) (hc : t.children ≠ []) :
    e.stop ≤ t.start ∨ t.stop ≤ e.start := by
  have htr := Tree.within_of_mem ht
  have hlt := top_nonempty hu.toTopLevel ht hc
  have hnote : IsNote u e → e.stop ≤ t.start ∨ t.stop ≤ e.start := by
    intro hnote
    rcases hnote.around.insertion hu hnote.insertion with ⟨q, comment, -, hadv, hs⟩ | ⟨hzero, -⟩
    · rw [Tree.plainImport, hk, Bool.not_true, Bool.false_or] at hplain
      have hout := hs.outside hu htr hplain
      have hstart := hadv.1
      have := hnote.insertion
      simp only [Place.start] at hstart
      omega
    · have := hnote.insertion
      omega
  rcases h with h | hinjection | hcall
  · exact hnote h
  · exact hinjection.apart_of_import hu hplain ht hk hc
  · rcases hcall.cases hu.toClosed with h | ⟨site, hs, -, h1, h2⟩
    · exact hnote h
    · obtain ⟨hroot, hparts⟩ := mem_callSites hs
      have hapart := Calls.apart_of_import hu hplain ht hk hc hroot.within hparts.isCall (.inl rfl)
      simp only [Place.start, Place.stop] at h1 h2
      omega

theorem early_headLines (hu : u.Regular) {ed : Editor} (h : Recorded u (IsEarly u members) ed) :
    headLines u ed = [] := by
  refine List.filter_eq_nil_iff.2 fun text htext hline => ?_
  obtain ⟨e, he, hins, -, rfl⟩ := mem_notesAt.1 htext
  -- an insertion of the early stages is an advisory, and starts with a slash
  have hslash : e.replacement.head? = some 47 := by
    rcases h.all e he with hnote | hinjection | hcall
    · exact hnote.slash
    · exact absurd hins (hinjection.nonempty hu.toNested).ne
    · rcases hcall.cases hu.toClosed with hnote | ⟨site, -, hlt, -⟩
      · exact hnote.slash
      · exact absurd hins hlt.ne
  rw [List.contains_iff_mem] at hline
  rw [Imports.lineTexts_head hline] at hslash
  cases hslash

end Calls

namespace Imports

variable {u : SourceUnit} {source : String} {members : Pattern.Regex} {s s1 s2 s' : Session}
  {progress last : Progress} {o : Outcome} {l r : List Place} {p q : Place}

/-- The other imports are apart from an import, before its turn and behind it. -/
theorem lineApart_of_split (hu : u.TopLevel) (hsplit : importStatements u = l ++ p :: r)
    (hc : p.tree.children ≠ []) (hq : q ∈ l ∨ q ∈ r) : LineApart u p.start p.stop q := by
  have hp : p ∈ importStatements u := hsplit ▸ by simp
  have hqm : q ∈ importStatements u := by
    rw [hsplit]
    rcases hq with hq | hq <;> simp [hq]
  have hpm := (statement_rooted hp).2
  have hlt := top_nonempty hu hpm hc
  intro path _
  rcases removal_apart hu (statement_rooted hqm).2 hpm hc (statement_takesLine hu hqm) with h | h | h
  · -- an import is not before itself
    exfalso
    rcases hq with hq | hq
    · have := statements_ordered hu hsplit q hq
      rw [← h] at this
      omega
    · obtain ⟨l', r', rfl⟩ := List.append_of_mem hq
      have := statements_ordered hu (l := l ++ p :: l') (p := q) (r := r') (by simp [hsplit]) p (by simp)
      rw [← h] at this
      omega
  · exact .inr h
  · exact .inl h

theorem lineApart_of_later (hu : u.TopLevel) (hsplit : importStatements u = l ++ p :: r)
    (hc : p.tree.children ≠ []) (hq : q ∈ r) :
    LineApart u (Editor.removalStart u.source p.tree) (Editor.removalStop u.source p.tree) q := by
  have hp : p ∈ importStatements u := hsplit ▸ by simp
  have hqm : q ∈ importStatements u := hsplit ▸ by simp [hq]
  obtain ⟨l', r', rfl⟩ := List.append_of_mem hq
  intro path hpath
  obtain ⟨hqroot, -, hqc, -⟩ := statement_facts hu hqm hpath
  exact .inr (lines_apart hu (statement_rooted hp).2 hqroot hc hqc (statement_takesLine hu hp)
    (statement_takesLine hu hqm)
    (statements_ordered hu (l := l ++ p :: l') (p := q) (r := r') (by simp [hsplit]) p (by simp)))

/-- An import comes to its turn as it stands in the source, and what is done to it then lasts. -/
structure Turn (u : SourceUnit) (r : List Place) (p : Place) (names : List String) (last : Progress)
    (s' : Session) (mid : Editor) (after : Session) : Prop where
  source : mid.source = u.source
  free : mid.reaching p.start p.stop = []
  alters : Alters u p names mid after.editor
  fired : Drops u p names → after.flags.modules = true
  rest : ∃ pr, (r.foldlM (convertImport u) pr).result after = (.ok last, s')

theorem Course.turn (hu : u.Regular) (hm : Pattern.parse u.settings.memberPattern = .ok members)
    (hfresh : s.editor = { source := u.source })
    (h : Course u source s s1 progress s2 last s' o) (hsplit : importStatements u = l ++ p :: r)
    (hplain : p.tree.plainImport = true) (hc : p.tree.children ≠ []) :
    ∃ mid after, Turn u r p (lostBy u progress s2.flags p) last s' mid after := by
  have hp : p ∈ importStatements u := hsplit ▸ by simp
  obtain ⟨hproot, hpm⟩ := statement_rooted hp
  have hpk : p.tree.is .importStatement = true := (List.mem_filter.1 hp).2
  -- the stages before and the registrations leave the import alone
  have hfree1 : s1.editor.reaching p.start p.stop = [] :=
    Editor.reaching_eq_nil.2 fun e he =>
      ((Calls.early_recorded hu hm hfresh h.before).all e he).apart_of_import hu hplain hpm hpk hc
  have hfree2 : s2.editor.reaching p.start p.stop = [] := by
    rw [h.registered.rest p.start p.stop fun site hs _ => ?_, hfree1]
    obtain ⟨hr, hk, -⟩ := registration_within hs
    exact Calls.apart_of_import hu hplain hpm hpk hc hr.within hk (.inl rfl)
  have hloop := h.imports
  rw [hsplit, List.foldlM_append] at hloop
  obtain ⟨pr, before, hbefore, hloop⟩ := result_bind_eq_ok hloop
  rw [List.foldlM_cons] at hloop
  obtain ⟨pr', after, hturn, hrest⟩ := result_bind_eq_ok hloop
  have hpass := imports_pass hu.toTopLevel (a := p.start) (b := p.stop)
    (fun q hq => ⟨by simp [hsplit, hq], lineApart_of_split hu.toTopLevel hsplit hc (.inl hq)⟩)
    h.registered.tidy.source hbefore
  obtain ⟨mid, hconverts⟩ := convertImport_step hturn
  have hmid : mid.reaching p.start p.stop = before.editor.reaching p.start p.stop ∧
      mid.source = before.editor.source := by
    by_cases hb : Brings u p
    · exact (hconverts.brings hb).reaching
    · rw [(hconverts.other hb).2]
      exact ⟨rfl, rfl⟩
  have hnames : lostBy u pr before.flags p = lostBy u progress s2.flags p := by
    rw [lostBy, lostBy, lost_constant hbefore]
  refine ⟨mid, after, hmid.2.trans (hpass.source.trans h.registered.tidy.source),
    hmid.1.trans (hpass.reaching.trans hfree2), hnames ▸ hconverts.alters, fun hdrops => ?_,
    pr', hrest⟩
  rw [hconverts.flagged.fired (hnames ▸ hdrops)]

/-- The import comes out as it is. -/
structure IsLeft (u : SourceUnit) (ed : Editor) (p : Place) : Prop where
  free : ed.reaching p.start p.stop = []
  printed : ed.PrintsAs p.start p.stop (p.tree.bytes u.source)

instance {ed : Editor} : Decidable (IsLeft u ed p) :=
  decidable_of_iff (ed.reaching p.start p.stop = [] ∧
    ed.PrintsAs p.start p.stop (p.tree.bytes u.source)) ⟨fun h => ⟨h.1, h.2⟩, fun h => ⟨h.1, h.2⟩⟩

/-- The import goes with its line. -/
structure IsGone (u : SourceUnit) (ed : Editor) (p : Place) : Prop where
  taken : ∃ k, ed.reaching (Editor.removalStart u.source p.tree)
    (Editor.removalStop u.source p.tree) =
      [⟨Editor.removalStart u.source p.tree, Editor.removalStop u.source p.tree, [], k⟩]
  printed : ed.PrintsAs (Editor.removalStart u.source p.tree)
    (Editor.removalStop u.source p.tree) []

/-- Another text stands in the place of the import's clause, and else the import comes out as it is. -/
structure HasClause (u : SourceUnit) (ed : Editor) (p : Place) (clause : Tree) (text : String) :
    Prop where
  taken : ∃ k, ed.reaching p.start p.stop = [⟨clause.start, clause.stop, encode text, k⟩]
  printed : ed.PrintsAs p.start p.stop (slice u.source p.start clause.start ++ encode text ++
    slice u.source clause.stop p.stop)

/-- Nothing but the removal reaches into an import that goes. -/
theorem IsGone.reaching (hu : u.TopLevel) (hp : p ∈ importStatements u) (hc : p.tree.children ≠ [])
    {ed : Editor} (h : IsGone u ed p) : ∃ k, ed.reaching p.start p.stop =
      [⟨Editor.removalStart u.source p.tree, Editor.removalStop u.source p.tree, [], k⟩] := by
  have hlt := top_nonempty hu (statement_rooted hp).2 hc
  have htakes := statement_takesLine hu hp
  have h1 := htakes.start_le
  have h2 := htakes.le_stop
  obtain ⟨k, hk⟩ := h.taken
  exact ⟨k, Editor.reaching_part hk h1 h2
    ⟨by simp only [Place.start]; omega, by simp only [Place.stop]; omega⟩⟩

theorem IsGone.not_left (hu : u.TopLevel) (hp : p ∈ importStatements u) (hc : p.tree.children ≠ [])
    {ed : Editor} (h : IsGone u ed p) : ¬IsLeft u ed p := by
  intro hleft
  obtain ⟨k, hk⟩ := h.reaching hu hp hc
  rw [hleft.free] at hk
  cases hk

section Turn

variable {names : List String} {mid : Editor} {after : Session} {a b : Nat}

/-- What reaches into a range apart from the later imports does so in the end. -/
theorem Turn.lasts (hu : u.TopLevel) (hp : p ∈ importStatements u)
    (h : Turn u r p names last s' mid after)
    (hr : ∀ q ∈ r, q ∈ importStatements u ∧ LineApart u a b q) :
    s'.editor.reaching a b = after.editor.reaching a b ∧
      (after.flags.modules = true → s'.flags.modules = true) := by
  have hsource : after.editor.source = u.source :=
    (h.alters.reaching hu hp h.source (a := 0) (b := 0) fun _ _ => .inr (Nat.zero_le _)).2.trans
      h.source
  obtain ⟨pr, hrest⟩ := h.rest
  have hpass := imports_pass hu hr hsource hrest
  exact ⟨hpass.reaching, hpass.modules⟩

theorem printed_of_modules (h : s'.flags.modules = true) : s'.printed = s'.editor := by
  rw [Session.printed, if_pos]
  simp [Flags.any, h]

variable (hu : u.Regular) (hcourse : Course u source s s1 progress s2 last s' o)
  (hsplit : importStatements u = l ++ p :: r) (hc : p.tree.children ≠ [])
  (h : Turn u r p names last s' mid after)

include hu hcourse hsplit hc h

theorem Turn.left (hfree : after.editor.reaching p.start p.stop = []) : IsLeft u s'.printed p := by
  have hp : p ∈ importStatements u := hsplit ▸ by simp
  have hn := hu.node (statement_rooted hp).1.within
  have hend := (h.lasts hu.toTopLevel hp (a := p.start) (b := p.stop) fun q hq =>
    ⟨by simp [hsplit, hq], lineApart_of_split hu.toTopLevel hsplit hc (.inr hq)⟩).1.trans hfree
  have hsource := s'.printed_source.trans hcourse.recorded.source
  have hprints := Editor.printsAs_free (Session.printed_sound hcourse.recorded.sound) hn.1
    (hsource ▸ hn.2) (Session.printed_free hend)
  rw [hsource] at hprints
  exact ⟨Session.printed_free hend, hprints⟩

theorem Turn.gone (hok : mid.removeStatement p.tree = .ok after.editor)
    (hflag : after.flags.modules = true) : IsGone u s'.printed p := by
  have hp : p ∈ importStatements u := hsplit ▸ by simp
  have hlt := top_nonempty hu.toTopLevel (statement_rooted hp).2 hc
  have htakes := statement_takesLine hu.toTopLevel hp
  have h1 := htakes.start_le
  have h2 := htakes.le_stop
  obtain ⟨hend, hflagged⟩ := h.lasts hu.toTopLevel hp
    (a := Editor.removalStart u.source p.tree) (b := Editor.removalStop u.source p.tree) fun q hq =>
    ⟨by simp [hsplit, hq], lineApart_of_later hu.toTopLevel hsplit hc hq⟩
  rw [Editor.removeStatement_eq, h.source] at hok
  have hline := hend.trans (Editor.reaching_replaced hok le_rfl (by omega) le_rfl)
  rw [printed_of_modules (hflagged hflag)]
  exact ⟨⟨_, hline⟩, Editor.printsAs_replacement hcourse.recorded.sound (by omega)
    (hcourse.recorded.source ▸ htakes.fits) hline ⟨rfl, rfl⟩⟩

theorem Turn.clause {clause : Tree} {text : String} (hclause : clause? p.tree = some clause)
    (hne : clause.start < clause.stop) (hok : mid.replace clause text = .ok after.editor)
    (hflag : after.flags.modules = true) : HasClause u s'.printed p clause text := by
  have hp : p ∈ importStatements u := hsplit ▸ by simp
  have hpr := (statement_rooted hp).1.within
  have hn := hu.node hpr
  have hrange := Tree.child_range (Tree.everyNode_within hu.ordered hpr) (clause_mem hclause)
  obtain ⟨hend, hflagged⟩ := h.lasts hu.toTopLevel hp (a := p.start) (b := p.stop) fun q hq =>
    ⟨by simp [hsplit, hq], lineApart_of_split hu.toTopLevel hsplit hc (.inr hq)⟩
  have hnew : after.editor.reaching p.start p.stop =
      [⟨clause.start, clause.stop, encode text, mid.next⟩] :=
    Editor.reaching_filled hok h.free (by simp only [Place.start, Place.stop]; omega)
  rw [printed_of_modules (hflagged hflag)]
  have hprints := Editor.printsAs_single hcourse.recorded.sound
    (hcourse.recorded.source ▸ hn.2) (hend.trans hnew) ⟨hne, hrange.1, hrange.2.2⟩
  rw [hcourse.recorded.source] at hprints
  exact ⟨⟨_, hend.trans hnew⟩, hprints⟩

end Turn

end Imports

end OrmCodemod
