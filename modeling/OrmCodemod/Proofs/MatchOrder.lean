import OrmCodemod.Proofs.Alike
import OrmCodemod.Proofs.Registrations

/-! The order of the matches. A pass looks for two shapes of calls, and hangs neither on the order in
which it is given the calls on members, which it sorts by their ranges, nor on that of the registrations:
those that are replaced are apart from each other, and all of them ask for one import line. -/

namespace OrmCodemod

open Syntax Text Pass

theorem Syntax.Tree.Within.exists_child {s t : Tree} (h : s.Within t) (hne : s ≠ t) :
    ∃ c ∈ t.children, s.Within c := by
  cases h with
  | self => exact absurd rfl hne
  | child hc h => exact ⟨_, hc, h⟩

/-- A node below another one with all of its range lies in every child that is not empty. -/
theorem Syntax.Tree.Within.into {s t c : Tree} (h : s.Within t) (ho : t.everyNode Tree.ordered = true)
    (hne : s ≠ t) (hcov : s.start ≤ t.start ∧ t.stop ≤ s.stop) (hc : c ∈ t.children)
    (hlt : c.start < c.stop) : s.Within c := by
  obtain ⟨d, hd, hsd⟩ := h.exists_child hne
  have hd' := hsd.range ((Tree.everyNode_iff.1 ho).2 d hd)
  have hc' := Tree.child_range ho hc
  rcases Tree.inOrder_apart (Tree.everyNode_iff.1 ho).1 hd hc with rfl | h1 | h1
  · exact hsd
  · omega
  · omega

namespace Calls

variable {u : SourceUnit} {x y : Place.RepositoryCall} {members : Pattern.Regex}
  {xs ys : List Place.RepositoryCall}

theorem arguments_close (hu : u.Closed) (hp : x.Parts) (hw : x.call.tree.Within u.root) :
    x.arguments ∈ x.call.tree.children ∧ x.arguments.start < x.arguments.stop := by
  have hclosed := Tree.test_within hu.calls hw
  rw [Tree.closedCall, hp.isCall, hp.arguments] at hclosed
  simp only [Bool.not_true, Bool.false_or, Option.all_some, hp.argumentsKind, Bool.and_eq_true,
    decide_eq_true_eq] at hclosed
  exact ⟨Tree.child?_mem hp.arguments, hclosed.1⟩

/-- No call below another one has its range: it would lie in the first token of the arguments. -/
theorem call_smaller (hu : u.Regular) (hpx : x.Parts) (hpy : y.Parts)
    (hwx : x.call.tree.Within u.root) (h : y.call.tree.Within x.call.tree)
    (hne : y.call.tree ≠ x.call.tree) :
    ¬(y.call.tree.start ≤ x.call.tree.start ∧ x.call.tree.stop ≤ y.call.tree.stop) := by
  intro hcov
  obtain ⟨hmem, hlt⟩ := arguments_close hu.toClosed hpx hwx
  have ho := Tree.everyNode_within hu.ordered hwx
  have hrange := Tree.child_range ho hmem
  have hin := h.into ho hne hcov hmem hlt
  have hkind : y.call.tree ≠ x.arguments := by
    intro he
    have h1 := hpy.isCall
    have h2 := hpx.argumentsKind
    rw [he, Tree.is_iff] at h1
    rw [Tree.is_iff, h1] at h2
    cases h2
  have hinner : y.call.tree.children ≠ [] := List.ne_nil_of_mem (Tree.child?_mem hpy.callee)
  have hwa := (Tree.within_of_mem hmem).trans hwx
  have htoken := Tree.test_within hu.tokens hwa
  rw [Tree.tokened, hpx.argumentsKind] at htoken
  cases hchildren : x.arguments.children with
  | nil =>
    obtain ⟨c, hc, -⟩ := hin.exists_child hkind
    simp [hchildren] at hc
  | cons first rest =>
    simp only [hchildren, Bool.not_true, Bool.false_or, List.head?_cons, Option.all_some,
      Bool.and_eq_true, List.isEmpty_iff, decide_eq_true_eq] at htoken
    have hfirst := hin.into (Tree.everyNode_within hu.ordered hwa) hkind (by omega)
      (by rw [hchildren]; exact List.mem_cons_self) htoken.1.2
    obtain ⟨c, hc, -⟩ := hfirst.exists_child fun he => hinner (he ▸ htoken.1.1)
    simp [htoken.1.1] at hc

theorem call_eq_of_range (hu : u.Regular) (hx : x ∈ u.place.repositoryCalls)
    (hy : y ∈ u.place.repositoryCalls) (hstart : x.call.start = y.call.start)
    (hstop : x.call.stop = y.call.stop) : x = y := by
  obtain ⟨hxr, hxp⟩ := Place.mem_repositoryCalls u.place_rooted hx
  obtain ⟨hyr, hyp⟩ := Place.mem_repositoryCalls u.place_rooted hy
  obtain ⟨hmem, hlt⟩ := arguments_close hu.toClosed hxp hxr.within
  have hrange := Tree.child_range (Tree.everyNode_within hu.ordered hxr.within) hmem
  simp only [Place.start, Place.stop] at hstart hstop
  have htree : x.call.tree = y.call.tree := by
    by_contra hne
    rcases Tree.within_or_apart hu.ordered hxr.within hyr.within with h | h | h | h
    · exact call_smaller hu hyp hxp hyr.within h hne (by omega)
    · exact call_smaller hu hxp hyp hxr.within h (Ne.symm hne) (by omega)
    · omega
    · omega
  have hplace := hxr.unique hu.ordered hyr htree (by simp only [Place.start, Place.stop]; omega)
  have hwhole : ∀ {z : Place.RepositoryCall}, z ∈ u.place.repositoryCalls →
      z.call.repositoryCall? = some z := by
    intro z hz
    obtain ⟨p, -, hp⟩ := List.mem_filterMap.1 hz
    rw [(Place.repositoryCall?_parts hp).1]
    exact hp
  have h1 := hwhole hx
  rw [hplace, hwhole hy] at h1
  exact (Option.some.inj h1).symm

theorem sortSites_perm (hu : u.Regular) (hperm : xs.Perm ys)
    (hxs : ∀ x ∈ xs, x ∈ u.place.repositoryCalls) : sortSites xs = sortSites ys := by
  rw [sortSites_eq, sortSites_eq]
  have hsorted := Sorting.sortBy_perm runsBefore
  refine List.Perm.eq_of_pairwise (fun x y hx hy hxy hyx => ?_)
    (Sorting.sortBy_sorted runsBefore_weak xs) (Sorting.sortBy_sorted runsBefore_weak ys)
    ((hsorted xs).trans (hperm.trans (hsorted ys).symm))
  have hx' := hxs x ((hsorted xs).mem_iff.1 hx)
  have hy' := hxs y (hperm.mem_iff.2 ((hsorted ys).mem_iff.1 hy))
  have hrange : x.call.start = y.call.start ∧ x.call.stop = y.call.stop := by
    simp only [runsBefore] at hxy hyx
    grind
  exact call_eq_of_range hu hx' hy' hrange.1 hrange.2

end Calls

namespace Imports

variable {u : SourceUnit} {site : Place × String} {start s s' : Session} {progress pr : Progress}
  {taken taken' sites sites' : List (Place × String)}

/-- A registration that the loop replaces: no other is around it, and nothing cuts into it. -/
def Goes (u : SourceUnit) (start : Editor) (site : Place × String) : Prop :=
  Topmost u site ∧ start.Clear site.1.start site.1.stop

instance (start : Editor) : Decidable (Goes u start site) :=
  inferInstanceAs (Decidable (_ ∧ ∀ e ∈ start.edits, _))

/-- The session once the registrations `taken` are replaced: their ranges hold their texts and nothing
else, one line at the head imports the module, and the rest is as it was. -/
structure Swapped (u : SourceUnit) (start : Session) (taken : List (Place × String))
    (progress : Progress) (s : Session) : Prop where
  source : s.editor.source = start.editor.source
  notes : ∀ p, s.editor.notesAt p =
    (if taken.any fun x => decide (x.1.start < p ∧ p < x.1.stop) then []
      else start.editor.notesAt p) ++
    if p = 0 ∧ taken ≠ [] ∧ ¬From u u.settings.modulePath then
      [encode (importLine u u.settings.moduleName u.settings.modulePath)] else []
  makes : ∀ a b text, a ≠ b → (s.editor.Makes a b text ↔
    (∃ x ∈ taken, a = x.1.start ∧ b = x.1.stop ∧ text = encode (registrationText u x.2)) ∨
      (start.editor.Makes a b text ∧ ∀ x ∈ taken, ¬(x.1.start ≤ a ∧ b ≤ x.1.stop)))
  ensured : progress.ensured = if taken = [] then [] else [u.settings.modulePath]
  counted : progress.registrations = taken.length
  flags : s.flags = if taken = [] then start.flags else { start.flags with modules := true }
  models : s.models = start.models
  enums : s.enums = start.enums
  advisories : s.advisories = start.advisories

theorem Swapped.refl (u : SourceUnit) (start : Session) : Swapped u start [] {} start := by
  refine ⟨rfl, fun p => by simp, fun a b text _ => by simp, rfl, rfl, rfl, rfl, rfl, rfl⟩

/-- Nothing but the editor, the flags and what was said changes with a registration. -/
theorem attemptRegistration_keeps {P : Session → Prop} (u : SourceUnit) (progress : Progress)
    (site : Place × String)
    (hP : ∀ s editor flags log, P s → P { s with editor, flags, log }) :
    Holds P (attemptRegistration u progress site) (fun _ => P) fun _ _ => True := by
  have hensure : ∀ symbol path ensured, Holds P (ensureImport u symbol path ensured) (fun _ => P)
      fun _ _ => True := by
    intro symbol path ensured
    dsimp only [ensureImport]
    split
    · exact Holds.pure fun _ hs => hs
    split
    · refine Holds.bind (Q := fun _ => P) (Holds.edit (fun s ed hs _ => hP s ed _ _ hs)
        fun _ _ _ _ => trivial) fun _ => ?_
      exact Holds.bind (Q := fun _ => P) (Holds.modify fun s hs => hP s _ _ _ hs) fun _ =>
        Holds.pure fun _ hs => hs
    · exact Holds.pure fun _ hs => hs
  unfold attemptRegistration
  split
  · exact Holds.pure fun _ hs => hs
  dsimp only [convertRegistration]
  refine Holds.get fun s hs => ?_
  split
  · refine Holds.bind (Q := fun _ => P) (Holds.modify fun _ h => h ▸ hP s _ _ _ hs) fun _ =>
      Holds.pure fun _ h => h
  · refine Holds.bind (Q := fun _ => P) (Holds.modify fun _ h => h ▸ hP s _ _ _ hs) fun _ =>
      Holds.bind (hensure _ _ _) fun _ => ?_
    exact Holds.bind (Q := fun _ => P) (Holds.modify fun s h => hP s _ _ _ h) fun _ =>
      Holds.pure fun _ h => h

/-- A range apart from the registrations that are replaced is clear if it was at the start. -/
theorem Swapped.clear_iff (h : Swapped u start taken progress s) {a b : Nat}
    (hapart : ∀ x ∈ taken, x.1.start ≤ x.1.stop ∧ (x.1.stop ≤ a ∨ b ≤ x.1.start)) :
    s.editor.Clear a b ↔ start.editor.Clear a b := by
  rw [Editor.clear_iff_makes, Editor.clear_iff_makes]
  constructor
  · intro hclear c d text hne hmakes
    by_cases hin : ∃ x ∈ taken, x.1.start ≤ c ∧ d ≤ x.1.stop
    · obtain ⟨x, hx, h1, h2⟩ := hin
      have := hapart x hx
      omega
    · exact hclear c d text hne ((h.makes c d text hne).2 (.inr ⟨hmakes, by simpa using hin⟩))
  · intro hclear c d text hne hmakes
    rcases (h.makes c d text hne).1 hmakes with ⟨x, hx, rfl, rfl, -⟩ | ⟨hold, -⟩
    · have := hapart x hx
      omega
    · exact hclear c d text hne hold

/-- A path that is seen to adds its line at the head, if it was not seen to before. -/
theorem Ensures.adds {symbol path : String} {ensured ensured' : List String} {ed ed' : Editor}
    (h : Ensures u symbol path ensured ensured' ed ed') :
    ed'.source = ed.source ∧
      (∀ p, ed'.notesAt p = ed.notesAt p ++
        if p = 0 ∧ path ∉ ensured ∧ ¬From u path then [encode (importLine u symbol path)] else []) ∧
      (∀ a b text, a ≠ b → (ed'.Makes a b text ↔ ed.Makes a b text)) ∧
      ensured' = if path ∈ ensured then ensured else path :: ensured := by
  rcases h with ⟨hseen, rfl, rfl⟩ | ⟨hnew, rfl, ⟨hfrom, rfl⟩ | ⟨hfrom, hline⟩⟩
  · refine ⟨rfl, fun p => ?_, fun _ _ _ _ => .rfl, (if_pos hseen).symm⟩
    rw [if_neg fun hp => hp.2.1 hseen, List.append_nil]
  · refine ⟨rfl, fun p => ?_, fun _ _ _ _ => .rfl, (if_neg hnew).symm⟩
    rw [if_neg fun hp => hp.2.2 hfrom, List.append_nil]
  · refine ⟨Editor.insertAt_source hline, fun p => ?_,
      fun _ _ _ hne => Editor.makes_inserted hline hne, (if_neg hnew).symm⟩
    rw [Editor.notesAt_insertedAt hline]
    simp only [hnew, hfrom, not_false_eq_true, and_true]

theorem Swapped.step (h : Swapped u start taken progress s) {mid : Editor}
    (hlt : site.1.start < site.1.stop)
    (hapart : ∀ x ∈ taken, x.1.start < x.1.stop ∧
      (x.1.stop ≤ site.1.start ∨ site.1.stop ≤ x.1.start))
    (hok : s.editor.replace site.1.tree (registrationText u site.2) = .ok mid)
    (hensures : Ensures u u.settings.moduleName u.settings.modulePath progress.ensured pr.ensured mid
      s'.editor)
    (hcount : pr.registrations = progress.registrations + 1)
    (hflags : s'.flags = { s.flags with modules := true }) (hmodels : s'.models = s.models)
    (henums : s'.enums = s.enums) (hadvisories : s'.advisories = s.advisories) :
    Swapped u start (taken ++ [site]) pr s' := by
  have hne : taken ++ [site] ≠ [] := by simp
  have hseen : u.settings.modulePath ∈ progress.ensured ↔ taken ≠ [] := by
    rw [h.ensured]
    by_cases hnil : taken = [] <;> simp [hnil]
  obtain ⟨hsource, hnotes, hmakes, hpaths⟩ := hensures.adds
  refine ⟨?_, fun p => ?_, fun a b text hab => ?_, ?_, ?_, ?_, hmodels.trans h.models,
    henums.trans h.enums, hadvisories.trans h.advisories⟩
  · exact hsource.trans ((Editor.replaceRange_source hok).trans h.source)
  · have hmid : mid.notesAt p =
        if site.1.start < p ∧ p < site.1.stop then [] else s.editor.notesAt p := by
      have hnot : ¬(site.1.tree.start = site.1.tree.stop ∧ p = site.1.tree.start) :=
        fun hp => absurd hp.1 (Nat.ne_of_lt hlt)
      rw [Editor.notesAt_afterReplace hok, if_neg hnot, List.append_nil]
      rfl
    have hany : (taken ++ [site]).any (fun x => decide (x.1.start < p ∧ p < x.1.stop)) = true ↔
        (taken.any fun x => decide (x.1.start < p ∧ p < x.1.stop)) = true ∨
          (site.1.start < p ∧ p < site.1.stop) := by
      rw [List.any_append, Bool.or_eq_true, List.any_cons, List.any_nil, Bool.or_false,
        decide_eq_true_eq]
    rw [hnotes, hmid, h.notes]
    simp only [hany, hseen, hne, ne_eq, not_not, not_false_eq_true, true_and]
    -- nothing cuts the head of the source, where the line of the first registration is put
    by_cases hp : p = 0
    · subst hp
      by_cases hnil : taken = [] <;> simp [hnil]
    · by_cases hin : site.1.start < p ∧ p < site.1.stop
      · simp [hp, hin]
      · simp only [hp, hin, or_false, false_and, if_false, List.append_nil]
  · rw [hmakes a b text hab, Editor.makes_replaced hok hab, h.makes a b text hab]
    simp only [List.mem_append, List.mem_singleton]
    constructor
    · rintro (⟨rfl, rfl, rfl⟩ | ⟨⟨x, hx, hmade⟩ | ⟨hold, hout⟩, hsite⟩)
      · exact .inl ⟨site, .inr rfl, rfl, rfl, rfl⟩
      · exact .inl ⟨x, .inl hx, hmade⟩
      · refine .inr ⟨hold, fun x hx => ?_⟩
        rcases hx with hx | rfl
        · exact hout x hx
        · exact hsite
    · rintro (⟨x, hx | rfl, rfl, rfl, rfl⟩ | ⟨hold, hout⟩)
      · refine .inr ⟨.inl ⟨x, hx, rfl, rfl, rfl⟩, fun hin => ?_⟩
        have := hapart x hx
        simp only [Place.start, Place.stop] at this hin
        omega
      · exact .inl ⟨rfl, rfl, rfl⟩
      · exact .inr ⟨.inr ⟨hold, fun x hx => hout x (.inl hx)⟩, hout site (.inr rfl)⟩
  · rw [hpaths, if_neg hne]
    by_cases hnil : taken = []
    · rw [if_neg (by simpa [hseen] using hnil), h.ensured, if_pos hnil]
    · rw [if_pos (hseen.2 hnil), h.ensured, if_neg hnil]
  · rw [hcount, h.counted, List.length_append, List.length_singleton]
  · rw [hflags, h.flags, if_neg hne]
    split <;> rfl

/-- A loop over registrations, in any order, replaces those that can be replaced at its start. -/
theorem registrations_swapped (hu : u.Regular) {source : String} (hsource : u.source = encode source)
    (hsites : ∀ x ∈ sites, x ∈ registrationSites u)
    (hdiffer : sites.Pairwise fun x y => x.1.tree ≠ y.1.tree) (htidy : Tidy u [] start.editor) :
    ∃ progress s, (sites.foldlM (attemptRegistration u) {}).result start = (.ok progress, s) ∧
      Tidy u [] s.editor ∧
      Swapped u start (sites.filter fun x => decide (Goes u start.editor x)) progress s := by
  have hrun : Holds (fun s => Tidy u [] s.editor ∧ Swapped u start [] {} s)
      (sites.foldlM (attemptRegistration u) {})
      (fun progress s => Tidy u [] s.editor ∧
        Swapped u start (sites.filter fun x => decide (Goes u start.editor x)) progress s)
      fun _ _ => False := by
    refine Holds.foldlM (I := fun done progress s => Tidy u [] s.editor ∧
      Swapped u start (done.filter fun x => decide (Goes u start.editor x)) progress s)
      fun done site rest progress hl s ⟨hs, h⟩ => ?_
    have hmem := hsites site (hl ▸ by simp)
    rw [hl, List.pairwise_append] at hdiffer
    obtain ⟨pr, s', hres, hs'⟩ := (attemptRegistration_tidy hu hsource hmem progress).exists_ok hs
    obtain ⟨hmodels, henums, hadvisories⟩ := (attemptRegistration_keeps (P := fun t =>
      t.models = s.models ∧ t.enums = s.enums ∧ t.advisories = s.advisories) u progress site
      fun _ _ _ _ ht => ht).ok ⟨rfl, rfl, rfl⟩ hres
    rw [hres]
    refine ⟨hs', ?_⟩
    -- those replaced so far are apart from the next one if no other is around it
    have hapart : Topmost u site → ∀ x ∈ done.filter fun x => decide (Goes u start.editor x),
        x.1.start < x.1.stop ∧ (x.1.stop ≤ site.1.start ∨ site.1.stop ≤ x.1.start) := by
      intro htop x hx
      obtain ⟨hxd, hgoes⟩ := List.mem_filter.1 hx
      have hxm := hsites x (hl ▸ by simp [hxd])
      exact ⟨registration_nonempty hu.toNested hxm, topmost_apart hu.toClosed hmem hxm
        (hdiffer.2.2 x hxd site (by simp)) htop (of_decide_eq_true hgoes).1⟩
    have hclear : Topmost u site → (s.editor.Clear site.1.start site.1.stop ↔
        start.editor.Clear site.1.start site.1.stop) := fun htop =>
      h.clear_iff fun x hx => ⟨(hapart htop x hx).1.le, (hapart htop x hx).2⟩
    rw [List.filter_append]
    rcases attemptRegistration_cases hres with ⟨hheld, rfl, rfl⟩ |
      ⟨htop, ⟨o, herr⟩, rfl, heditor, hflags⟩ | ⟨htop, mid, hok, hensures, hcount, hflags⟩
    · rw [List.filter_cons_of_neg (by simpa using fun hg : Goes u start.editor site => hheld hg.1),
        List.filter_nil, List.append_nil]
      exact h
    · have hno : ¬Goes u start.editor site := fun hg => ((hclear htop).2 hg.2).not_error herr
      rw [List.filter_cons_of_neg (by simpa using hno), List.filter_nil, List.append_nil]
      exact ⟨heditor ▸ h.source, heditor ▸ h.notes, heditor ▸ h.makes, h.ensured, h.counted,
        hflags.trans h.flags, hmodels.trans h.models, henums.trans h.enums,
        hadvisories.trans h.advisories⟩
    · have hgoes : Goes u start.editor site :=
        ⟨htop, (hclear htop).1 (Editor.replaceRange_eq_ok.1 hok).1⟩
      rw [List.filter_cons_of_pos (by simpa using hgoes), List.filter_nil]
      exact h.step (registration_nonempty hu.toNested hmem) (hapart htop) hok hensures hcount hflags
        hmodels henums hadvisories
  exact hrun.exists_ok ⟨htidy, Swapped.refl u start⟩

/-- The order in which registrations were replaced is not told by the session. -/
theorem Swapped.alike (h : Swapped u start taken progress s) (h' : Swapped u start taken' pr s')
    (hperm : taken.Perm taken') : s.Alike s' ∧ progress = pr := by
  have hnil : taken = [] ↔ taken' = [] := by
    rw [← List.length_eq_zero_iff, ← List.length_eq_zero_iff, hperm.length_eq]
  constructor
  · refine ⟨⟨h.source.trans h'.source.symm, fun p => ?_, fun a b text hne => ?_⟩, ?_,
      h.models.trans h'.models.symm, h.enums.trans h'.enums.symm,
      h.advisories.trans h'.advisories.symm⟩
    · rw [h.notes, h'.notes, hperm.any_eq]
      simp only [ne_eq, hnil]
    · rw [h.makes a b text hne, h'.makes a b text hne]
      simp only [hperm.mem_iff]
    · rw [h.flags, h'.flags]
      simp only [hnil]
  · obtain ⟨ensured, registrations⟩ := progress
    obtain ⟨ensured', registrations'⟩ := pr
    have hensured := h.ensured.trans ((if_congr hnil rfl rfl).trans h'.ensured.symm)
    have hcounted := h.counted.trans (hperm.length_eq.trans h'.counted.symm)
    dsimp only at hensured hcounted
    rw [hensured, hcounted]

end Imports

/-- The matches of the two shapes of calls, in the order in which they are given. -/
structure Matches where
  calls : List Place.RepositoryCall
  registrations : List Place.Registration

namespace Matches

open Imports

def walked (u : SourceUnit) : Matches := ⟨u.place.repositoryCalls, u.place.registrations⟩

/-- They are all matches of the source. -/
structure Lists (m : Matches) (u : SourceUnit) : Prop where
  calls : m.calls.Perm u.place.repositoryCalls
  registrations : m.registrations.Perm u.place.registrations

def callSites (m : Matches) (u : SourceUnit) (members : Pattern.Regex) : List Place.RepositoryCall :=
  m.calls.filter fun site =>
    members.matchesStart (site.member.text u.source) && !Calls.isClientAccess u site.receiver

def registrationSites (m : Matches) (u : SourceUnit) : List (Place × String) :=
  m.registrations.filterMap fun r =>
    let method := r.method.text u.source
    if r.registrar.text u.source == registrar && registrationMethods.contains method then
      some (r.call, method)
    else none

def convertCalls (m : Matches) (u : SourceUnit) : Pass Unit := do
  match Pattern.parse u.settings.memberPattern with
  | .error e => throw (.pattern e)
  | .ok members =>
    Calls.convertConstructors u
    Calls.convertCalls u (m.callSites u members)

def convertImports (m : Matches) (u : SourceUnit) : Pass Unit := do
  let progress ← convertRegistrations u (m.registrationSites u)
  let _ ← (importStatements u).foldlM (convertImport u) progress

def stages (m : Matches) (u : SourceUnit) : Pass Unit := do
  Entities.extract u
  m.convertCalls u
  m.convertImports u

def outcome (m : Matches) (u : SourceUnit) (source : String) (s : Session) : Except Fault Outcome :=
  match (m.stages u).result s with
  | (.error fault, _) => .error fault
  | (.ok (), s') => Outcome.ofSession u.settings source s'

theorem walked_lists (u : SourceUnit) : (walked u).Lists u := ⟨.refl _, .refl _⟩

theorem stages_walked (u : SourceUnit) : (walked u).stages u = Outcome.stages u := rfl

theorem outcome_walked (dialect : Dialect) (settings : Settings) (source : String)
    (path : Option String) :
    (walked ⟨encode source, (parse dialect source).root, settings⟩).outcome
        ⟨encode source, (parse dialect source).root, settings⟩ source
        (Outcome.start (encode source) (parse dialect source) path) =
      (Outcome.ofSource dialect settings source path).1 := by
  rw [outcome, stages_walked]
  refine Eq.trans ?_ (Outcome.ofSource_eq dialect settings source path).symm
  rcases (Outcome.stages _).result _ with ⟨_ | _, _⟩ <;> rfl

variable {m : Matches} {u : SourceUnit} {s start : Session}

theorem convertCalls_eq (hu : u.Regular) (hm : m.Lists u) : m.convertCalls u = Calls.convert u := by
  unfold convertCalls Calls.convert
  cases Pattern.parse u.settings.memberPattern with
  | error e => rfl
  | ok members =>
    have hsorted : Calls.sortSites (m.callSites u members) =
        Calls.sortSites (Calls.callSites u members) :=
      Calls.sortSites_perm hu (hm.calls.filter _) fun x hx =>
        hm.calls.mem_iff.1 (List.mem_of_mem_filter hx)
    simp only [Calls.convertCalls, hsorted]

theorem registrationSites_perm (hm : m.Lists u) :
    (m.registrationSites u).Perm (Imports.registrationSites u) :=
  hm.registrations.filterMap _

/-- Whether another registration is around one does not hang on the order either. -/
theorem convertRegistrations_eq (hm : m.Lists u) :
    convertRegistrations u (m.registrationSites u) =
      (m.registrationSites u).foldlM (attemptRegistration u) {} := by
  unfold convertRegistrations attemptRegistration
  simp only [(registrationSites_perm hm).any_eq]

/-- The import stage ends well from any order of the registrations, in a session that is tidy. -/
theorem convertImports_run (hu : u.Regular) {source : String} (hsource : u.source = encode source)
    (hm : m.Lists u) (htidy : Tidy u [] start.editor) :
    ∃ progress mid last s', (convertRegistrations u (m.registrationSites u)).result start =
        (.ok progress, mid) ∧
      Swapped u start ((m.registrationSites u).filter fun x => decide (Goes u start.editor x))
        progress mid ∧
      ((importStatements u).foldlM (convertImport u) progress).result mid = (.ok last, s') ∧
      (m.convertImports u).result start = (.ok (), s') ∧ s'.editor.Sound := by
  have hperm := registrationSites_perm hm
  have hdiffer : (m.registrationSites u).Pairwise fun x y => x.1.tree ≠ y.1.tree :=
    hperm.symm.pairwise (registrations_differ hu.toNested) fun h => Ne.symm h
  obtain ⟨progress, mid, hres, hmid, hswapped⟩ := registrations_swapped hu hsource
    (fun x hx => hperm.mem_iff.1 hx) hdiffer htidy
  have himports : Holds (fun s => Tidy u [] s.editor)
      ((importStatements u).foldlM (convertImport u) progress)
      (fun _ s => Tidy u (importStatements u) s.editor) fun _ _ => False :=
    Holds.foldlM (I := fun l _ s => Tidy u l s.editor) fun l p r b hl =>
      convertImport_holds (imports_complete hu.toTopLevel hsource hu.aligned) hl b
  obtain ⟨last, s', hloop, hs'⟩ := himports.exists_ok hmid
  rw [← convertRegistrations_eq hm] at hres
  refine ⟨progress, mid, last, s', hres, hswapped, hloop, ?_, hs'.sound⟩
  unfold convertImports
  rw [result_bind_ok hres, result_bind_ok hloop, result_pure]

theorem convertImports_alike (hu : u.Regular) {source : String} (hsource : u.source = encode source)
    {m' : Matches} (hm : m.Lists u) (hm' : m'.Lists u) (htidy : Tidy u [] start.editor) :
    ∃ s s', (m.convertImports u).result start = (.ok (), s) ∧
      (m'.convertImports u).result start = (.ok (), s') ∧ s.Alike s' ∧ s.editor.Sound ∧
      s'.editor.Sound := by
  obtain ⟨progress, mid, last, s, -, hswapped, hloop, hrun, hsound⟩ :=
    convertImports_run hu hsource hm htidy
  obtain ⟨progress', mid', last', s', -, hswapped', hloop', hrun', hsound'⟩ :=
    convertImports_run hu hsource hm' htidy
  have hperm := (registrationSites_perm hm).trans (registrationSites_perm hm').symm
  obtain ⟨hmid, rfl⟩ := hswapped.alike hswapped' (hperm.filter _)
  obtain ⟨t', hloop'', halike⟩ :=
    Alike.foldlM (convertImport_alike u) (importStatements u) progress mid mid' last s hmid hloop
  obtain rfl : t' = s' := congrArg Prod.snd (hloop''.symm.trans hloop')
  exact ⟨s, t', hrun, hrun', halike, hsound, hsound'⟩

/-- The order in which the calls on members and the registrations of a source are found is told by
nothing that a pass gives: not by the output, nor by the flags, the models, the enumerations or the number
of advisories, and not by whether the pass fails. -/
theorem outcome_any_order (u : SourceUnit) (hu : u.Regular) (source : String)
    (hsource : u.source = encode source) (m m' : Matches) (hm : m.Lists u) (hm' : m'.Lists u)
    (s : Session) (hs : s.editor = { source := u.source }) :
    m.outcome u source s = m'.outcome u source s := by
  unfold outcome stages
  rw [convertCalls_eq hu hm, convertCalls_eq hu hm']
  obtain ⟨_, s0, hextract, hnotes⟩ := (extract_complete hu.toTopLevel hu.aligned).exists_ok
    (s := s) (hs ▸ Recorded.fresh u _)
  rw [result_bind_ok hextract, result_bind_ok hextract]
  cases hp : Pattern.parse u.settings.memberPattern with
  | error e =>
    have hfail : ∀ next : Pass Unit, (Calls.convert u >>= fun _ => next).result s0 =
        (.error (.pattern e), s0) := by
      intro next
      unfold Calls.convert
      rw [hp]
      rfl
    rw [hfail, hfail]
  | ok members =>
    obtain ⟨_, s1, hcalls, htidy⟩ :=
      (callStage_complete hu.toTopLevel hu.aligned hp).exists_ok hnotes
    rw [result_bind_ok hcalls, result_bind_ok hcalls]
    obtain ⟨t, t', hrun, hrun', halike, hsound, hsound'⟩ :=
      convertImports_alike hu hsource hm hm' htidy
    rw [hrun, hrun']
    exact halike.outcome_eq hsound hsound' u.settings source

def nestedReversed : Matches :=
  ⟨nestedUnit.place.repositoryCalls.reverse, nestedUnit.place.registrations.reverse⟩

theorem outcome_any_order_sample :
    (nestedReversed.calls.length = 2 ∧ nestedReversed.registrations.length = 3) ∧
      nestedReversed.outcome nestedUnit nestedSample nestedStart =
        (walked nestedUnit).outcome nestedUnit nestedSample nestedStart :=
  ⟨by decide +kernel, outcome_any_order nestedUnit (parse_sheltered .typescript nestedSample {}).toRegular
    nestedSample (by simp only [nestedUnit]) _ _ ⟨List.reverse_perm _, List.reverse_perm _⟩
    (walked_lists nestedUnit) nestedStart rfl⟩

end Matches

end OrmCodemod
