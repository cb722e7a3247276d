import OrmCodemod.Proofs.ImportSteps

/-! Registrations of any nesting. Two of them lie one in the other or are apart, and none has the range
of another one, so that those around which there is no other are apart from each other. So none of these
is in the way of another: each is replaced once, unless it lies in what an earlier stage has replaced,
and takes with it what was edited in it and the registrations that it holds. -/

namespace OrmCodemod

open Syntax Text Pass

namespace Editor

variable {ed : Editor} {a b c d : Nat} {e : Edit}

theorem reaching_part (h : ed.reaching c d = [e]) (hca : c ≤ a) (hbd : b ≤ d)
    (he : a < e.stop ∧ e.start < b) : ed.reaching a b = [e] := by
  have hpart : ed.reaching a b =
      (ed.reaching c d).filter fun x => decide (a < x.stop ∧ x.start < b) := by
    rw [reaching, reaching, List.filter_filter]
    refine List.filter_congr fun x _ => ?_
    rw [Bool.eq_iff_iff, Bool.and_eq_true, decide_eq_true_iff, decide_eq_true_iff]
    omega
  rw [hpart, h, List.filter_singleton, decide_eq_true he, cond_true]

/-- A range is clear exactly if its replacement is not refused. -/
theorem clear_iff_granted {text : String} :
    ed.Clear a b ↔ ¬∃ o, ed.replaceRange a b text = .error o := by
  refine ⟨fun hclear ⟨o, ho⟩ => hclear.not_error ho, fun hgranted => ?_⟩
  cases hres : ed.replaceRange a b text with
  | error o => exact absurd ⟨o, hres⟩ hgranted
  | ok ed' => exact (replaceRange_eq_ok.1 hres).1

end Editor

namespace Imports

variable {u : SourceUnit} {site other : Place × String} {ed ed' start : Editor}
  {progress pr : Progress} {s s' : Session} {l r : List (Place × String)}

theorem registration_splits (hu : u.Closed) (hs : site ∈ registrationSites u) :
    site.1.tree.Splits := by
  obtain ⟨reg, hreg, hsite⟩ := List.mem_filterMap.1 hs
  obtain ⟨p, -, hp⟩ := List.mem_filterMap.1 hreg
  have hparts := registration_parts hs
  have hw := (registration_within hs).1.within
  have ho := Tree.everyNode_within hu.ordered hw
  obtain ⟨callee, hcallee, args, hargs, hkinds⟩ : ∃ callee, site.1.tree.child? .callee = some callee ∧
      ∃ args, site.1.tree.child? .arguments = some args ∧
        callee.is .memberExpression = true ∧ args.is .arguments = true := by
    dsimp only at hsite
    split at hsite
    · obtain rfl := Option.some.inj hsite
      unfold Place.registration? at hp
      split at hp
      · cases hp
      simp only [Option.bind_eq_bind, Option.bind_eq_some_iff, Option.ite_none_right_eq_some,
        Bool.and_eq_true, Option.some.injEq] at hp
      obtain ⟨callee, h1, args, h2, _, -, _, -, ⟨⟨⟨h3, -⟩, h4⟩, -⟩, rfl⟩ := hp
      exact ⟨callee, h1, args, h2, h3, h4⟩
    · cases hsite
  obtain ⟨_, registrar, h1, h2, -, htext⟩ := hparts
  obtain rfl := Option.some.inj (hcallee.symm.trans h1)
  have hcm := Tree.child?_mem hcallee
  have ham := Tree.child?_mem hargs
  have hname : registrar.text u.source ≠ "" := by
    rw [htext]
    decide
  have hlt := Tree.start_lt_of_text hname
  have hr := Tree.child_range ((Tree.everyNode_iff.1 ho).2 _ hcm) (Tree.child?_mem h2)
  have hc := Tree.child_range ho hcm
  have hclosed := Tree.test_within hu.calls hw
  rw [Tree.closedCall, (registration_within hs).2.1, hargs] at hclosed
  simp only [Bool.not_true, Bool.false_or, Option.all_some, hkinds.2, Bool.and_eq_true,
    decide_eq_true_eq, beq_iff_eq] at hclosed
  have hne : callee ≠ args := by
    rintro rfl
    have h3 := hkinds.1
    have h4 := hkinds.2
    rw [Tree.is_iff] at h3 h4
    rw [h3] at h4
    cases h4
  refine ⟨callee, hcm, args, ham, by omega, ?_, hclosed.1⟩
  rcases Tree.inOrder_apart (Tree.everyNode_iff.1 ho).1 hcm ham with h3 | h3 | h3
  · exact absurd h3 hne
  · exact h3
  · omega

theorem registrations_differ (hu : u.Nested) :
    (registrationSites u).Pairwise fun x y => x.1.tree ≠ y.1.tree := by
  have hall : (registrationSites u).Pairwise fun x y => x.1.Differ y.1 := by
    unfold registrationSites Place.registrations
    rw [List.filterMap_filterMap, List.pairwise_filterMap]
    refine (Place.all_differ (p := u.place) hu.ordered).imp fun {p q} hdiffer x hx y hy => ?_
    have hcall : ∀ {p : Place} {x : Place × String}, (p.registration?.bind fun r =>
        if r.registrar.text u.source == registrar && registrationMethods.contains (r.method.text u.source)
        then some (r.call, r.method.text u.source) else none) = some x → x.1 = p := by
      intro p x hx
      obtain ⟨reg, hreg, hx⟩ := Option.bind_eq_some_iff.1 hx
      split at hx
      · obtain rfl := Option.some.inj hx
        exact (Place.registration?_call hreg).1
      · cases hx
    rw [hcall hx, hcall hy]
    exact hdiffer
  refine hall.imp_of_mem fun {x y} hx _ hdiffer heq => ?_
  have := registration_nonempty hu hx
  have := hdiffer heq
  omega

theorem topmost_apart (hu : u.Closed) (hs : site ∈ registrationSites u)
    (ho : other ∈ registrationSites u) (hne : other.1.tree ≠ site.1.tree) (htop : Topmost u site)
    (hotop : Topmost u other) : other.1.stop ≤ site.1.start ∨ site.1.stop ≤ other.1.start := by
  obtain ⟨hsr, hsk, -⟩ := registration_within hs
  obtain ⟨hor, hok, -⟩ := registration_within ho
  have hheld : ∀ {x y : Place × String}, x ∈ registrationSites u → y ∈ registrationSites u →
      Topmost u y → x.1.tree ≠ y.1.tree → ¬y.1.tree.Within x.1.tree := by
    intro x y hx hy htop hne hw
    obtain ⟨hxr, hxk, -⟩ := registration_within hx
    obtain ⟨hyr, hyk, -⟩ := registration_within hy
    have hrange := hw.range (Tree.everyNode_within hu.ordered hxr.within)
    have hnot : encloses x.1 y.1 = false := by simpa using List.any_eq_false.1 htop x hx
    rw [← Bool.not_eq_true, encloses_iff, ← Bool.not_eq_true, same_iff hxk hyk] at hnot
    simp only [Place.start, Place.stop] at hnot
    exact hne (Tree.Splits.eq_of_range hu.ordered hxr.within hyr.within (registration_splits hu hx)
      (registration_splits hu hy) (by omega) (by omega))
  rcases Tree.within_or_apart hu.ordered hor.within hsr.within with h | h | h | h
  · exact absurd h (hheld hs ho hotop (Ne.symm hne))
  · exact absurd h (hheld ho hs htop hne)
  · exact .inl h
  · exact .inr h

/-- The registration lies in what is replaced of something larger. -/
def Buried (ed : Editor) (site : Place × String) : Prop :=
  ∃ e ∈ ed.edits, e.start ≤ site.1.start ∧ site.1.stop ≤ e.stop ∧
    ¬(e.start = site.1.start ∧ e.stop = site.1.stop)

instance : Decidable (Buried ed site) :=
  inferInstanceAs (Decidable (∃ e ∈ ed.edits, _))

theorem buried_congr (hlt : site.1.start < site.1.stop)
    (h : ed'.reaching site.1.start site.1.stop = ed.reaching site.1.start site.1.stop) :
    Buried ed' site ↔ Buried ed site := by
  have hreaching : ∀ {ed : Editor}, Buried ed site ↔ ∃ e ∈ ed.reaching site.1.start site.1.stop,
      e.start ≤ site.1.start ∧ site.1.stop ≤ e.stop ∧
        ¬(e.start = site.1.start ∧ e.stop = site.1.stop) := by
    intro ed
    refine exists_congr fun e => ?_
    rw [Editor.mem_reaching, and_assoc]
    refine and_congr_right fun _ => ⟨fun h => ⟨by omega, h⟩, fun h => h.2⟩
  rw [hreaching, hreaching, h]

/-- A registration is refused exactly where it is buried. -/
theorem clear_iff_not_buried (hu : u.TopLevel) (hs : site ∈ registrationSites u)
    (hinner : ∀ e ∈ ed.edits, Inner u e) :
    ed.Clear site.1.start site.1.stop ↔ ¬Buried ed site := by
  have hlt := registration_nonempty hu.toNested hs
  constructor
  · rintro hclear ⟨e, he, h1, h2, h3⟩
    have hcut := hclear e he
    rw [Edit.inside_iff] at hcut
    omega
  · intro hfree e he
    have hnode := (hinner e he).node_or_apart hu (registration_within hs).1.within
    simp only [Place.start, Place.stop] at hlt hnode ⊢
    rcases hnode with h | h | h | h
    · exact .inl h
    · refine .inl (Edit.inside_iff.2 ?_)
      by_contra hin
      exact hfree ⟨e, he, h.1, h.2, by simp only [Place.start, Place.stop]; omega⟩
    · exact .inr (.inl h)
    · exact .inr (.inr h)

/-- A registration that the loop replaces. -/
def IsReplaced (u : SourceUnit) (start : Editor) (site : Place × String) : Prop :=
  Topmost u site ∧ ¬Buried start site

instance : Decidable (IsReplaced u start site) := inferInstanceAs (Decidable (_ ∧ _))

/-- All that reaches into a range is what a registration is replaced by. -/
def TakenBy (u : SourceUnit) (site : Place × String) (ed : Editor) (a b : Nat) : Prop :=
  ∃ k, ed.reaching a b =
    [⟨site.1.start, site.1.stop, encode (registrationText u site.2), k⟩]

/-- How far the loop has come after the registrations `done`, since the editor was `start`. -/
structure Registered (u : SourceUnit) (start : Editor) (done : List (Place × String))
    (progress : Progress) (s : Session) : Prop where
  tidy : Tidy u [] s.editor
  taken : ∀ site ∈ done, IsReplaced u start site →
    TakenBy u site s.editor site.1.start site.1.stop
  rest : ∀ a b, (∀ site ∈ done, IsReplaced u start site →
    site.1.stop ≤ a ∨ b ≤ site.1.start) → s.editor.reaching a b = start.reaching a b
  counted : progress.registrations = (done.filter fun site => decide (IsReplaced u start site)).length
  flagged : progress.registrations ≠ 0 → s.flags.modules = true

theorem inner_of_tidy (h : Tidy u [] ed) : ∀ e ∈ ed.edits, Inner u e := by
  intro e he
  rcases (h.all e he).1 with hin | ⟨p, hp, -⟩
  · exact hin
  · simp at hp

theorem Registered.buried_iff (hu : u.Closed) (hsplit : registrationSites u = l ++ site :: r)
    (h : Registered u start l progress s) (htop : Topmost u site) :
    s.editor.reaching site.1.start site.1.stop = start.reaching site.1.start site.1.stop ∧
      (Buried s.editor site ↔ Buried start site) := by
  have hmem : site ∈ registrationSites u := hsplit ▸ by simp
  have hlt := registration_nonempty hu.toNested hmem
  have hdiffer := registrations_differ (u := u) hu.toNested
  rw [hsplit, List.pairwise_append] at hdiffer
  have hreaching : s.editor.reaching site.1.start site.1.stop =
      start.reaching site.1.start site.1.stop := by
    refine h.rest _ _ fun x hx hrep => ?_
    exact topmost_apart hu hmem (hsplit ▸ by simp [hx]) (hdiffer.2.2 x hx site (by simp)) htop hrep.1
  exact ⟨hreaching, buried_congr hlt hreaching⟩

theorem Registered.step (hu : u.Regular) (hsplit : registrationSites u = l ++ site :: r)
    (h : Registered u start l progress s)
    (hrun : (attemptRegistration u progress site).result s = (.ok pr, s'))
    (htidy : Tidy u [] s'.editor) : Registered u start (l ++ [site]) pr s' := by
  have hmem : site ∈ registrationSites u := hsplit ▸ by simp
  have hlt := registration_nonempty hu.toNested hmem
  -- a registration that is not replaced leaves everything as it was
  have hleft : ¬IsReplaced u start site → pr = progress → s'.editor = s.editor →
      s'.flags = s.flags → Registered u start (l ++ [site]) pr s' := by
    rintro hnot rfl heditor hflags
    refine ⟨htidy, fun x hx hrep => ?_, fun a b hapart => ?_, ?_, fun hn => ?_⟩
    · rcases List.mem_append.1 hx with hx | hx
      · exact heditor ▸ h.taken x hx hrep
      · exact absurd (List.mem_singleton.1 hx ▸ hrep) hnot
    · rw [heditor]
      exact h.rest a b fun x hx => hapart x (by simp [hx])
    · rw [List.filter_append, List.filter_cons_of_neg (by simpa using hnot), List.filter_nil,
        List.append_nil]
      exact h.counted
    · exact hflags ▸ h.flagged hn
  rcases attemptRegistration_cases hrun with ⟨hheld, rfl, rfl⟩ |
    ⟨htop, ⟨o, herr⟩, rfl, heditor, hflags⟩ |
    ⟨htop, mid, hok, hensures, hcount, hflags⟩
  · exact hleft (fun hrep => hheld hrep.1) rfl rfl rfl
  · obtain ⟨-, hburied⟩ := h.buried_iff hu.toClosed hsplit htop
    refine hleft (fun hrep => ?_) rfl heditor hflags
    exact ((clear_iff_not_buried hu.toTopLevel hmem (inner_of_tidy h.tidy)).2
      (hburied.not.2 hrep.2)).not_error herr
  · obtain ⟨-, hburied⟩ := h.buried_iff hu.toClosed hsplit htop
    have hclear := (Editor.replaceRange_eq_ok.1 hok).1
    have hrep : IsReplaced u start site :=
      ⟨htop, hburied.not.1 ((clear_iff_not_buried hu.toTopLevel hmem (inner_of_tidy h.tidy)).1 hclear)⟩
    have hdiffer := registrations_differ (u := u) hu.toNested
    rw [hsplit, List.pairwise_append] at hdiffer
    refine ⟨htidy, fun x hx hxrep => ?_, fun a b hapart => ?_, ?_, fun _ => by rw [hflags]⟩
    · rcases List.mem_append.1 hx with hx | hx
      · obtain ⟨k, hk⟩ := h.taken x hx hxrep
        have hapart := topmost_apart hu.toClosed (hsplit ▸ by simp [hx]) hmem
          (hdiffer.2.2 x hx site (by simp)).symm hxrep.1 htop
        exact ⟨k, by rw [hensures.reaching.1, Editor.reaching_apart hok hapart, hk]⟩
      · obtain rfl := List.mem_singleton.1 hx
        exact ⟨_, by
          rw [hensures.reaching.1]
          exact Editor.reaching_replaced hok le_rfl hlt le_rfl⟩
    · have hsite := hapart site (by simp) hrep
      rw [hensures.reaching.1, Editor.reaching_apart hok hsite]
      exact h.rest a b fun x hx => hapart x (by simp [hx])
    · rw [List.filter_append, List.filter_cons_of_pos (by simpa using hrep), List.filter_nil,
        List.length_append, List.length_singleton, hcount, h.counted]

theorem attemptRegistration_tidy (hu : u.Regular) {source : String} (hsource : u.source = encode source)
    (hs : site ∈ registrationSites u) (progress : Progress) :
    Holds (fun s => Tidy u [] s.editor) (attemptRegistration u progress site)
      (fun _ s => Tidy u [] s.editor) fun _ _ => False := by
  unfold attemptRegistration
  split
  · exact Holds.pure fun _ h => h
  · exact convertRegistration_holds (imports_complete hu.toTopLevel hsource hu.aligned) hs progress

theorem registrations_run (hu : u.Regular) {source : String} (hsource : u.source = encode source)
    (hsplit : registrationSites u = l ++ r) (hs : Tidy u [] s.editor) :
    ∃ progress s', (l.foldlM (attemptRegistration u) {}).result s = (.ok progress, s') ∧
      Registered u s.editor l progress s' := by
  have hrun : Holds (Registered u s.editor [] {}) (l.foldlM (attemptRegistration u) {})
      (Registered u s.editor l) fun _ _ => False := by
    refine Holds.foldlM (I := Registered u s.editor) fun done site rest progress hl s1 h => ?_
    have hsites : registrationSites u = done ++ site :: (rest ++ r) := by
      rw [hsplit, hl]
      simp
    have hsite : site ∈ registrationSites u := hsites ▸ by simp
    obtain ⟨pr, s2, hres, htidy⟩ := (attemptRegistration_tidy hu hsource hsite progress).exists_ok h.tidy
    rw [hres]
    exact h.step hu hsites hres htidy
  exact hrun.exists_ok ⟨hs, by simp, fun _ _ _ => rfl, rfl, fun h => absurd rfl h⟩

/-- The course of a pass: the sessions before the import stage, behind its registrations and in the end,
and the outcome. -/
structure Course (u : SourceUnit) (source : String) (s s1 : Session) (progress : Progress)
    (s2 : Session) (last : Progress) (s' : Session) (o : Outcome) : Prop where
  before : (Entities.extract u >>= fun _ => Calls.convert u).result s = (.ok (), s1)
  tidy : Tidy u [] s1.editor
  registrations : (convertRegistrations u (registrationSites u)).result s1 = (.ok progress, s2)
  registered : Registered u s1.editor (registrationSites u) progress s2
  imports : ((importStatements u).foldlM (convertImport u) progress).result s2 = (.ok last, s')
  whole : (Outcome.stages u).result s = (.ok (), s')
  recorded : Recorded u (fun e => e.Aligned u.source) s'.editor
  outcome : Outcome.ofSession u.settings source s' = .ok o
  printed : encode o.output = s'.printed.printBytes

theorem exists_course (hu : u.Regular) {source : String} (hsource : u.source = encode source)
    {members : Pattern.Regex} (hm : Pattern.parse u.settings.memberPattern = .ok members)
    (hfresh : s.editor = { source := u.source }) :
    ∃ s1 progress s2 last s' o, Course u source s s1 progress s2 last s' o := by
  obtain ⟨s', o, K, sh, hrun, hended, -⟩ := Calls.pass_ended hu hsource hm hfresh
  obtain ⟨s3, hrun', hrecorded⟩ := stages_complete hu.toTopLevel hsource hu.aligned hm hfresh
  obtain rfl : s' = s3 := congrArg Prod.snd (hrun.symm.trans hrun')
  have hparts := hrun
  obtain ⟨_, s0, hextract, hparts⟩ := result_bind_eq_ok hparts
  obtain ⟨_, s1, hcalls, himports⟩ := result_bind_eq_ok hparts
  obtain ⟨progress, s2, hreg, himports⟩ := result_bind_eq_ok himports
  obtain ⟨last, s3, hloop, hend⟩ := result_bind_eq_ok himports
  obtain rfl : s3 = s' := congrArg Prod.snd hend
  have hnotes := (extract_complete hu.toTopLevel hu.aligned).ok (hfresh ▸ Recorded.fresh u _) hextract
  have htidy := (callStage_complete hu.toTopLevel hu.aligned hm).ok hnotes hcalls
  obtain ⟨progress', s2', hreg', hregistered⟩ :=
    registrations_run hu hsource (List.append_nil _).symm htidy
  rw [← convertRegistrations_eq, hreg] at hreg'
  obtain ⟨rfl, rfl⟩ : progress = progress' ∧ s2 = s2' := by simpa using hreg'
  refine ⟨s1, progress, s2, last, s3, o, ?_, htidy, hreg, hregistered, hloop, hrun, hrecorded,
    hended.outcome, Outcome.output_printed (hrecorded.source.trans hsource) hended.outcome⟩
  rw [result_bind_ok hextract, hcalls]

/-- How many registrations are replaced is told by a run of the stages up to them. -/
theorem Course.count_eq {source : String} {s1 s2 : Session} {last : Progress} {o : Outcome} {n : Nat}
    (h : Course u source s s1 progress s2 last s' o)
    (hcount : (((Entities.extract u >>= fun _ => Calls.convert u) >>= fun _ =>
      convertRegistrations u (registrationSites u)).result s).1.toOption.map (·.registrations) =
        some n) : progress.registrations = n := by
  rw [result_bind_ok h.before, h.registrations] at hcount
  exact Option.some.inj hcount

theorem registration_lineApart (hu : u.TopLevel) (hs : site ∈ registrationSites u)
    (hout : ∀ p ∈ importStatements u, ¬site.1.tree.Within p.tree) {p : Place}
    (hp : p ∈ importStatements u) : LineApart u site.1.start site.1.stop p := by
  intro path hpath
  obtain ⟨hsr, hsk, hsc⟩ := registration_within hs
  obtain ⟨hpm, -, -, -⟩ := statement_facts hu hp hpath
  obtain ⟨top, htop, htc, hin⟩ := exists_statement hu hsr.within hsk (by decide) hsc
  have hrange := hin.range (Tree.everyNode_within hu.ordered (Tree.within_of_mem htop))
  simp only [Place.start, Place.stop]
  rcases removal_apart hu hpm htop htc (statement_takesLine hu hp) with rfl | h | h
  · exact absurd hin (hout p hp)
  · omega
  · omega

/-- A registration with another one around it is enclosed by an outermost one. -/
theorem exists_enclosing (hs : site ∈ registrationSites u) (hheld : ¬Topmost u site) :
    ∃ top ∈ registrationSites u, Topmost u top ∧ encloses top.1 site.1 = true := by
  obtain ⟨top, ht, htop, h1, h2⟩ := exists_topmost hs
  have hkind := (registration_within hs).2.1
  refine ⟨top, ht, htop, encloses_iff.2 ⟨?_, h1, h2⟩⟩
  rw [← Bool.not_eq_true, same_iff (registration_within ht).2.1 hkind]
  rintro ⟨h3, h4⟩
  -- what is around the registration would be around the outermost one
  rw [Topmost, Bool.not_eq_false, List.any_eq_true] at hheld
  obtain ⟨other, ho, henc⟩ := hheld
  obtain ⟨hsame, h5, h6⟩ := encloses_iff.1 henc
  have hok := (registration_within ho).2.1
  have hnot := List.any_eq_false.1 htop other ho
  rw [encloses_iff, ← Bool.not_eq_true, same_iff hok (registration_within ht).2.1] at hnot
  rw [← Bool.not_eq_true, same_iff hok hkind] at hsame
  omega

variable {source : String} {s1 s2 : Session} {last : Progress} {o : Outcome}

theorem Course.registration_prints (hu : u.Regular)
    (h : Course u source s s1 progress s2 last s' o) (hs : site ∈ registrationSites u)
    (hrep : IsReplaced u s1.editor site)
    (hout : ∀ p ∈ importStatements u, ¬site.1.tree.Within p.tree) :
    s'.printed.PrintsAs site.1.start site.1.stop (encode (registrationText u site.2)) := by
  obtain ⟨k, hk⟩ := h.registered.taken site hs hrep
  have hpass := imports_pass hu.toTopLevel (a := site.1.start) (b := site.1.stop)
    (fun q hq => ⟨hq, registration_lineApart hu.toTopLevel hs hout hq⟩)
    h.registered.tidy.source h.imports
  have hcount : progress.registrations ≠ 0 := by
    rw [h.registered.counted, ← Nat.pos_iff_ne_zero, List.length_pos_iff_exists_mem]
    exact ⟨site, List.mem_filter.2 ⟨hs, by simpa using hrep⟩⟩
  have hfired : s'.flags.any = true := by
    simp [Flags.any, hpass.modules (h.registered.flagged hcount)]
  rw [Session.printed, if_pos hfired]
  have hfit := (hu.node (registration_within hs).1.within).2
  exact Editor.printsAs_replacement h.recorded.sound (registration_nonempty hu.toNested hs)
    (h.recorded.source ▸ hfit) (hpass.reaching.trans hk) ⟨rfl, rfl⟩

/-- A registration that is reached and is no part of another one is refused exactly if it is buried from
the start, and then by an edit that was there. -/
theorem Registered.refusal (hu : u.Regular) (hsplit : registrationSites u = l ++ site :: r)
    (h : Registered u start l progress s) (htop : Topmost u site) :
    (Buried start site ↔
      ∃ o, s.editor.replace site.1.tree (registrationText u site.2) = .error o) ∧
    ∀ o, s.editor.replace site.1.tree (registrationText u site.2) = .error o →
      ∃ e ∈ start.edits, o = ⟨site.1.start, site.1.stop, e.start, e.stop⟩ := by
  have hmem : site ∈ registrationSites u := hsplit ▸ by simp
  have hlt := registration_nonempty hu.toNested hmem
  obtain ⟨hreaching, hburied⟩ := h.buried_iff hu.toClosed hsplit htop
  refine ⟨?_, fun o herr => ?_⟩
  · rw [← hburied, ← not_iff_not,
      ← clear_iff_not_buried hu.toTopLevel hmem (inner_of_tidy h.tidy)]
    exact Editor.clear_iff_granted
  · obtain ⟨e, he, ho, hcut⟩ := Editor.replaceRange_eq_error herr
    have hreach : e ∈ s.editor.reaching site.1.start site.1.stop :=
      Editor.mem_reaching.2 ⟨he, by simp only [Place.start, Place.stop]; omega⟩
    rw [hreaching] at hreach
    exact ⟨e, (Editor.mem_reaching.1 hreach).1, ho⟩

/-- Registrations of any nesting. A registration around which there is no other is replaced by one
module reference, whatever was edited in it, unless it lies in what the stages before have replaced of
something larger; then an edit of those stages refuses it, and never another registration. It prints as
its reference where it stands in no import. A registration in another one goes with the outermost one
around it. The stage counts those that it replaces. -/
theorem registrations_replaced (u : SourceUnit) (hu : u.Regular) (source : String)
    (hsource : u.source = encode source) (members : Pattern.Regex)
    (hm : Pattern.parse u.settings.memberPattern = .ok members) (s : Session)
    (hs : s.editor = { source := u.source }) :
    ∃ s1 progress s2 last s' o, Course u source s s1 progress s2 last s' o ∧
      (∀ site ∈ registrationSites u, Topmost u site → ¬Buried s1.editor site →
        TakenBy u site s2.editor site.1.start site.1.stop ∧
        ((∀ p ∈ importStatements u, ¬site.1.tree.Within p.tree) →
          s'.printed.PrintsAs site.1.start site.1.stop (encode (registrationText u site.2)))) ∧
      (∀ site ∈ registrationSites u, ¬Topmost u site → ∃ top ∈ registrationSites u,
        Topmost u top ∧ encloses top.1 site.1 = true ∧
        (¬Buried s1.editor top → TakenBy u top s2.editor site.1.start site.1.stop)) ∧
      (∀ l site r, registrationSites u = l ++ site :: r → Topmost u site → ∃ pr before,
        (l.foldlM (attemptRegistration u) {}).result s1 = (.ok pr, before) ∧
        (Buried s1.editor site ↔
          ∃ o, before.editor.replace site.1.tree (registrationText u site.2) = .error o) ∧
        ∀ o, before.editor.replace site.1.tree (registrationText u site.2) = .error o →
          ∃ e ∈ s1.editor.edits, o = ⟨site.1.start, site.1.stop, e.start, e.stop⟩) ∧
      progress.registrations = ((registrationSites u).filter fun site =>
        decide (Topmost u site ∧ ¬Buried s1.editor site)).length := by
  obtain ⟨s1, progress, s2, last, s', o, hcourse⟩ := exists_course hu hsource hm hs
  refine ⟨s1, progress, s2, last, s', o, hcourse, fun site hsite htop hfree => ?_,
    fun site hsite hheld => ?_, fun l site r hsplit htop => ?_, hcourse.registered.counted⟩
  · exact ⟨hcourse.registered.taken site hsite ⟨htop, hfree⟩,
      hcourse.registration_prints hu hsite ⟨htop, hfree⟩⟩
  · obtain ⟨top, ht, htop, henc⟩ := exists_enclosing hsite hheld
    obtain ⟨-, h1, h2⟩ := encloses_iff.1 henc
    have hlt := registration_nonempty hu.toNested hsite
    refine ⟨top, ht, htop, henc, fun hfree => ?_⟩
    obtain ⟨k, hk⟩ := hcourse.registered.taken top ht ⟨htop, hfree⟩
    exact ⟨k, Editor.reaching_part hk h1 h2 ⟨by dsimp only; omega, by dsimp only; omega⟩⟩
  · obtain ⟨pr, before, hrun, hbefore⟩ := registrations_run hu hsource hsplit hcourse.tidy
    exact ⟨pr, before, hrun, hbefore.refusal hu hsplit htop⟩

/-- A registration with a call to convert and another registration in it, and one in what is replaced of
a call. -/
def nestedSample : String :=
  "TypeOrmModule.forRoot(a.repository.find(), TypeOrmModule.forFeature());\n" ++
    "a.repository.findBy(TypeOrmModule.forRoot());\n"

def nestedUnit : SourceUnit := ⟨encode nestedSample, (parse .typescript nestedSample).root, {}⟩

def nestedStart : Session := { editor := { source := nestedUnit.source } }

theorem nestedSample_sites :
    (importStatements nestedUnit).length = 0 ∧
    (registrationSites nestedUnit).map (fun site => (registrationText nestedUnit site.2,
      decide (Topmost nestedUnit site), decide (Buried ((Entities.extract nestedUnit >>= fun _ =>
        Calls.convert nestedUnit).result nestedStart).2.editor site))) =
      [("PrismaModule", false, false), ("PrismaModule()", true, false),
        ("PrismaModule()", true, true)] ∧
    (registrationSites nestedUnit).map (fun site =>
      (registrationSites nestedUnit).map fun other => encloses site.1 other.1) =
      [[false, false, false], [true, false, false], [false, false, false]] := by
  decide +kernel

theorem registrations_replaced_sample : ∃ s1 progress s2 last s' o inner outer buried,
    Course nestedUnit nestedSample nestedStart s1 progress s2 last s' o ∧
    registrationSites nestedUnit = [inner, outer, buried] ∧ progress.registrations = 1 ∧
    registrationText nestedUnit outer.2 = "PrismaModule()" ∧
    TakenBy nestedUnit outer s2.editor outer.1.start outer.1.stop ∧
    TakenBy nestedUnit outer s2.editor inner.1.start inner.1.stop ∧
    s'.printed.PrintsAs outer.1.start outer.1.stop (encode "PrismaModule()") ∧
    Buried s1.editor buried := by
  obtain ⟨himports, hsites, hnest⟩ := nestedSample_sites
  obtain ⟨s1, progress, s2, last, s', o, hcourse, htaken, hinner, -, hcount⟩ :=
    registrations_replaced nestedUnit (parse_sheltered .typescript nestedSample {}).toRegular nestedSample
      (by simp only [nestedUnit]) _ Settings.exists_members.choose_spec nestedStart rfl
  obtain ⟨inner, outer, buried, hlist⟩ :
      ∃ inner outer buried, registrationSites nestedUnit = [inner, outer, buried] :=
    List.length_eq_three.1 (by simpa using congrArg List.length hsites)
  rw [hcourse.before, hlist] at hsites
  rw [hlist] at hnest
  simp only [List.map_cons, List.map_nil, List.cons.injEq, Prod.mk.injEq, decide_eq_true_eq,
    decide_eq_false_iff_not, and_true] at hsites hnest
  obtain ⟨⟨-, hinner1, -⟩, ⟨htext, htop, hfree⟩, -, -, hburied⟩ := hsites
  obtain ⟨houter, hprints⟩ := htaken outer (by simp [hlist]) htop hfree
  refine ⟨s1, progress, s2, last, s', o, inner, outer, buried, hcourse, hlist, ?_, htext, houter, ?_,
    ?_, hburied⟩
  · rw [hcount, hlist]
    simp [hinner1, htop, hfree, hburied]
  · obtain ⟨top, ht, -, henc, htakes⟩ := hinner inner (by simp [hlist]) hinner1
    obtain rfl : top = outer := by
      rw [hlist] at ht
      simp only [List.mem_cons, List.not_mem_nil, or_false] at ht
      rcases ht with rfl | rfl | rfl
      · simp [hnest.1.1] at henc
      · rfl
      · simp [hnest.2.2.1] at henc
    exact htakes hfree
  · rw [← htext]
    refine hprints fun p hp => ?_
    rw [List.length_eq_zero_iff.1 himports] at hp
    simp at hp

end Imports

end OrmCodemod
