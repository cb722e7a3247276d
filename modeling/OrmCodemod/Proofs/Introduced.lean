import OrmCodemod.Proofs.Members

/-! Names that a pass introduces and their imports. What stands at the head of a source is never taken
back, so that an import line, once added, is printed; an import that the source has already, from no
path of the source library, comes out as it is. -/

namespace OrmCodemod

open Syntax Text Pass

namespace Imports

variable {u : SourceUnit} {symbol path : String} {s s' : Session} {progress : Progress} {n : Nat}
  {seen : List Place} {p : Place}

def From (u : SourceUnit) (path : String) : Prop :=
  ∃ p ∈ importStatements u, modulePath? u p.tree = some path

/-- A path is imported from: by the source, or by a line at its head. -/
def Secured (u : SourceUnit) (symbol path : String) (ed : Editor) : Prop :=
  From u path ∨ encode (importLine u symbol path) ∈ ed.notesAt 0

theorem Secured.mono (h : Secured u symbol path s.editor) (hs : Lasts s s') :
    Secured u symbol path s'.editor :=
  h.imp_right fun hmem => hs.head.subset hmem

/-- An import of the source library that lists the repository type. -/
def Brings (u : SourceUnit) (p : Place) : Prop :=
  modulePath? u p.tree = some sourceLibrary ∧ Resolver.repositoryType ∈ importedNames u p.tree

/-- Seeing to a path: it is imported from, unless it was seen to before. -/
theorem ensureImport_secures (u : SourceUnit) (symbol path : String) (ensured : List String)
    {P : Session → Prop} (hP : ∀ s s', Lasts s s' → P s → P s') :
    Holds P (ensureImport u symbol path ensured)
      (fun ensured' s => P s ∧ ((path ∈ ensured ∧ ensured' = ensured) ∨
        (ensured' = path :: ensured ∧ Secured u symbol path s.editor))) fun _ _ => True := by
  dsimp only [ensureImport]
  split
  · rename_i hmem
    exact Holds.pure fun s hs => ⟨hs, .inl ⟨List.contains_iff_mem.1 hmem, rfl⟩⟩
  split
  · refine Holds.bind (Q := fun _ s => P s ∧ Secured u symbol path s.editor)
      (Holds.edit (fun s ed hs he => ?_) fun _ _ _ _ => trivial) fun _ => ?_
    · have hmem : encode (importLine u symbol path) ∈ ed.notesAt 0 := by
        rw [Editor.notesAt_insertedAt he, if_pos rfl]
        exact List.mem_append_right _ (List.mem_singleton.2 rfl)
      have hmade := (Editor.Records.inserted _ _ he).next_eq
      exact ⟨hP s _ ⟨Editor.head_inserted he, id, by simp [hmade]⟩ hs, .inr hmem⟩
    · refine Holds.bind (Q := fun _ s => P s ∧ Secured u symbol path s.editor)
        (Holds.modify fun s hs => ?_) fun _ => Holds.pure fun s hs => ⟨hs.1, .inr ⟨rfl, hs.2⟩⟩
      exact ⟨hP s _ ⟨List.prefix_refl _, id, le_rfl⟩ hs.1, hs.2⟩
  · rename_i hfrom
    refine Holds.pure fun s hs => ⟨hs, .inr ⟨rfl, .inl ?_⟩⟩
    simpa [From] using hfrom

/-- How far the registrations have come since the editor was `start`: once one of them is replaced, an
edit is made and the module is seen to and flagged. -/
structure Registering (u : SourceUnit) (start : Editor) (progress : Progress) (s : Session) : Prop where
  only : ∀ path ∈ progress.ensured, path = u.settings.modulePath
  secured : progress.ensured ≠ [] → Secured u u.settings.moduleName u.settings.modulePath s.editor
  counted : progress.registrations ≠ 0 → progress.ensured ≠ [] ∧ s.flags.any = true
  idle : progress.registrations = 0 → s.editor = start
  made : progress.registrations ≠ 0 → start.next < s.editor.next

theorem convertRegistration_registering {start : Editor} (call : Place) (method : String) :
    Holds (Registering u start progress) (convertRegistration u progress call method)
      (Registering u start) fun _ _ => True := by
  dsimp only [convertRegistration]
  refine Holds.get fun s hI => ?_
  split
  · refine Holds.bind (Q := fun _ => Registering u start progress) (Holds.modify fun _ hs => ?_)
      fun _ => Holds.pure fun _ hs => hs
    rw [hs]
    exact ⟨hI.only, hI.secured, hI.counted, hI.idle, hI.made⟩
  · rename_i editor hed
    let P : Session → Prop := fun s => (∀ path ∈ progress.ensured, path = u.settings.modulePath) ∧
      (progress.ensured ≠ [] → Secured u u.settings.moduleName u.settings.modulePath s.editor) ∧
      start.next < s.editor.next
    have hP : ∀ s s', Lasts s s' → P s → P s' :=
      fun _ _ h hp => ⟨hp.1, fun hne => (hp.2.1 hne).mono h, hp.2.2.trans_le h.made⟩
    have hnext := (Editor.Records.replaced _ _ _ hed).next_eq
    have hmade : start.next ≤ s.editor.next := by
      by_cases hzero : progress.registrations = 0
      · rw [hI.idle hzero]
      · exact (hI.made hzero).le
    refine Holds.bind (Q := fun _ => P) (Holds.modify fun s' hs => ?_) fun _ => ?_
    · rw [hs]
      refine ⟨hI.only, fun hne => (hI.secured hne).mono ⟨Editor.head_replaced hed, id, ?_⟩, ?_⟩
      · simp [hnext]
      · dsimp only
        omega
    refine Holds.bind (ensureImport_secures u _ _ _ hP) fun ensured => ?_
    refine Holds.bind (Q := fun _ => Registering u start ⟨ensured, progress.registrations + 1⟩)
      (Holds.modify fun s hs => ?_) fun _ => Holds.pure fun _ h => h
    obtain ⟨⟨honly, hsecured, hlater⟩, ⟨hmem, rfl⟩ | ⟨rfl, hnew⟩⟩ := hs
    · exact ⟨honly, hsecured, fun _ => ⟨List.ne_nil_of_mem hmem, Flags.any_modules _⟩,
        fun h => absurd h (by simp), fun _ => hlater⟩
    · exact ⟨by simpa using honly, fun _ => hnew, fun _ => ⟨by simp, Flags.any_modules _⟩,
        fun h => absurd h (by simp), fun _ => hlater⟩

theorem convertRegistrations_registering {start : Editor} (sites : List (Place × String)) :
    Holds (fun s => s.editor = start) (convertRegistrations u sites) (Registering u start)
      fun _ _ => True := by
  refine Holds.mono (P := Registering u start {}) ?_
    (fun s h => ⟨by simp, by simp, by simp, fun _ => h, by simp⟩) (fun _ _ h => h) fun _ _ h => h
  refine Holds.foldlM (I := fun _ progress => Registering u start progress) fun l x r b hl => ?_
  dsimp only
  split
  · exact Holds.pure fun _ hs => hs
  · exact convertRegistration_registering _ _

/-- How far the imports have come after `seen`, where `n` registrations were replaced: the client is
seen to and flagged once one of them lists the repository type, unless its path is the module's. -/
structure Following (u : SourceUnit) (n : Nat) (seen : List Place) (progress : Progress)
    (s : Session) : Prop where
  only : ∀ path ∈ progress.ensured, path = u.settings.modulePath ∨
    (path = u.settings.clientServicePath ∧
      Secured u u.settings.clientService u.settings.clientServicePath s.editor)
  module : n ≠ 0 → s.flags.any = true ∧
    Secured u u.settings.moduleName u.settings.modulePath s.editor
  client : (∃ p ∈ seen, Brings u p) → s.flags.any = true ∧
    (u.settings.clientServicePath = u.settings.modulePath ∨
      Secured u u.settings.clientService u.settings.clientServicePath s.editor)

theorem Following.mono (h : Following u n seen progress s) (hs : Lasts s s') :
    Following u n seen progress s' where
  only path hp := (h.only path hp).imp_right fun h => ⟨h.1, h.2.mono hs⟩
  module hn := ⟨hs.fired (h.module hn).1, (h.module hn).2.mono hs⟩
  client hc := ⟨hs.fired (h.client hc).1, (h.client hc).2.imp_right fun h => h.mono hs⟩

theorem Following.pass (h : Following u n seen progress s) (hp : ¬Brings u p) :
    Following u n (seen ++ [p]) progress s where
  only := h.only
  module := h.module
  client := by
    rintro ⟨q, hq, hb⟩
    rcases List.mem_append.1 hq with hq | hq
    · exact h.client ⟨q, hq, hb⟩
    · exact absurd (List.mem_singleton.1 hq ▸ hb) hp

theorem convertSourceImport_following :
    Holds (Following u n seen progress) (convertSourceImport u progress p.tree)
      (Following u n (seen ++ [p])) fun _ _ => True := by
  unfold convertSourceImport
  extract_lets names repositories dropped rest
  -- the client is seen to, and flagged when the names are dropped
  let Mid : List String → Session → Prop := fun ensured s =>
    Following u n seen { progress with ensured } s ∧ (repositories = true →
      u.settings.clientServicePath = u.settings.modulePath ∨
        Secured u u.settings.clientService u.settings.clientServicePath s.editor)
  have hmono : ∀ ensured s s', Lasts s s' → Mid ensured s → Mid ensured s' :=
    fun _ _ _ h hf => ⟨hf.1.mono h, fun hr => (hf.2 hr).imp_right fun h1 => h1.mono h⟩
  have hbrings : Brings u p → repositories = true := fun hb => List.contains_iff_mem.2 hb.2
  have hrest : ∀ ensured, Holds (Mid ensured) (rest ensured) (Following u n (seen ++ [p]))
      fun _ _ => True := by
    intro ensured
    dsimp only [rest]
    split
    · refine Holds.bind
        ((dropSpecifiers_along lasts_permits u _ _).holds lasts_permits (hmono ensured)) fun _ => ?_
      refine Holds.bind (Q := fun _ => Following u n (seen ++ [p]) { progress with ensured })
        (Holds.modify fun s hs => ?_) fun _ => Holds.pure fun _ h => h
      refine ⟨hs.1.only, fun hn => ⟨Flags.any_modules _, (hs.1.module hn).2⟩, ?_⟩
      rintro ⟨q, hq, hb⟩
      rcases List.mem_append.1 hq with hq | hq
      · exact ⟨Flags.any_modules _, (hs.1.client ⟨q, hq, hb⟩).2⟩
      · obtain rfl := List.mem_singleton.1 hq
        exact ⟨Flags.any_modules _, hs.2 (hbrings hb)⟩
    · rename_i hnone
      refine Holds.pure fun s hs => hs.1.pass fun hb => hnone ?_
      refine List.any_eq_true.2 ⟨Resolver.repositoryType, hb.2, List.contains_iff_mem.2 ?_⟩
      simp [dropped, hbrings hb, repositoryNames]
  split
  · refine Holds.bind ((ensureImport_secures u _ _ _ fun _ _ h hf => Following.mono hf h).mono
      (fun _ h => h) (fun ensured s h => ?_) fun _ _ h => h) hrest
    obtain ⟨hf, ⟨hmem, rfl⟩ | ⟨rfl, hnew⟩⟩ := h
    · exact ⟨hf, fun _ => (hf.only _ hmem).imp_right And.right⟩
    · refine ⟨⟨fun path hpath => ?_, hf.module, hf.client⟩, fun _ => .inr hnew⟩
      rcases List.mem_cons.1 hpath with rfl | hpath
      · exact .inr ⟨rfl, hnew⟩
      · exact hf.only path hpath
  · rename_i hnot
    exact Holds.bind (Q := Mid) (Holds.pure fun s h => ⟨h, fun hr => absurd hr hnot⟩) hrest

theorem convertImport_following :
    Holds (Following u n seen progress) (convertImport u progress p) (Following u n (seen ++ [p]))
      fun _ _ => True := by
  have hkeep : ∀ {α : Type} {x : Pass α}, Along Lasts x → Holds (Following u n seen progress) x
      (fun _ => Following u n seen progress) fun _ _ => True :=
    fun hx => hx.holds lasts_permits fun _ _ h hf => hf.mono h
  dsimp only [convertImport]
  split
  · rename_i hnone
    refine Holds.pure fun _ h => h.pass fun hb => ?_
    have := hb.1
    simp [hnone] at this
  rename_i path hpath
  split
  · exact convertSourceImport_following
  rename_i hnot
  have hb : ¬Brings u p := by
    rintro ⟨h, -⟩
    rw [hpath, Option.some.injEq] at h
    exact hnot (beq_iff_eq.2 h)
  split
  · exact Holds.bind (hkeep (lasts_permits.removeStatement p.tree)) fun _ =>
      Holds.bind (hkeep (flagModules_along lasts_permits)) fun _ => Holds.pure fun _ h => h.pass hb
  split
  · exact Holds.bind (hkeep (convertIntegrationImport_along lasts_permits u progress _)) fun _ =>
      Holds.pure fun _ h => h.pass hb
  split
  · exact Holds.bind (hkeep (lasts_permits.advise p (by simp [Calls.advisoryTexts]))) fun _ => Holds.pure fun _ h => h.pass hb
  · exact Holds.pure fun _ h => h.pass hb

theorem convert_secures (h : (convert u).result s = (.ok (), s')) :
    ∃ progress s1, (convertRegistrations u (registrationSites u)).result s = (.ok progress, s1) ∧
      (progress.registrations = 0 → s1.editor = s.editor) ∧
      (progress.registrations ≠ 0 → s'.flags.any = true ∧
        Secured u u.settings.moduleName u.settings.modulePath s'.editor) ∧
      ((∃ p ∈ importStatements u, Brings u p) → s'.flags.any = true ∧
        (u.settings.clientServicePath = u.settings.modulePath ∨
          Secured u u.settings.clientService u.settings.clientServicePath s'.editor)) := by
  obtain ⟨progress, s1, hreg, h⟩ := result_bind_eq_ok h
  obtain ⟨last, s2, hfold, h⟩ := result_bind_eq_ok h
  obtain rfl : s2 = s' := congrArg Prod.snd h
  have hregistering := (convertRegistrations_registering (registrationSites u)).ok rfl hreg
  have hstart : Following u progress.registrations [] progress s1 := by
    refine ⟨fun path hp => .inl (hregistering.only path hp), fun hn => ?_, by simp⟩
    obtain ⟨hne, hflag⟩ := hregistering.counted hn
    exact ⟨hflag, hregistering.secured hne⟩
  have hholds : Holds (Following u progress.registrations [] progress)
      ((importStatements u).foldlM (convertImport u) progress)
      (Following u progress.registrations (importStatements u)) fun _ _ => True :=
    Holds.foldlM (I := Following u progress.registrations) fun l p r b _ => convertImport_following
  have hend := hholds.ok hstart hfold
  exact ⟨progress, s1, hreg, hregistering.idle, hend.module, hend.client⟩

end Imports

namespace Syntax.Tree

def plainImport (t : Tree) : Bool := !t.is .importStatement || t.inert

def unattributed (t : Tree) : Bool := t.children.all (!·.is .importAttribute)

theorem plainImport_of_unattributed {t : Tree} (h : t.imports = true) (ha : t.unattributed = true) :
    t.plainImport = true := by
  cases hk : t.is .importStatement with
  | false => rw [plainImport, hk, Bool.not_false, Bool.true_or]
  | true =>
    rw [imports, hk, Bool.not_true, Bool.false_or, List.all_eq_true] at h
    rw [plainImport, hk, Bool.not_true, Bool.false_or]
    refine everyNode_iff.2 ⟨?_, fun c hc => ?_⟩
    · rw [is_iff] at hk
      simp [isAny, is, hk, activeKinds, blockKinds]
    · have hnot := List.all_eq_true.1 ha c hc
      rw [Bool.not_eq_true'] at hnot
      have hc := h c hc
      rwa [hnot, Bool.false_or] at hc

end Syntax.Tree

/-- In every source that is read, an import without attributes is plain. -/
theorem parse_plainImport {dialect : Dialect} {source : String} {t : Tree}
    (ht : t.Within (parse dialect source).root) (ha : t.unattributed = true) : t.plainImport = true :=
  Tree.plainImport_of_unattributed (Tree.test_within (parse_imports dialect source) ht) ha

/-- An import that a pass leaves as it is: from a path outside the source library, and with nothing in
it to convert. Only the object behind `with` can hold more than names. -/
structure Imports.IsForeign (u : SourceUnit) (p : Place) (path : String) : Prop where
  mem : p ∈ importStatements u
  module : modulePath? u p.tree = some path
  library : ¬isLibrary path
  repository : isRepositoryPath path = false
  plain : p.tree.plainImport = true

/-- What the source imports from a path already stays. -/
def Imports.Stays (u : SourceUnit) (path : String) : Prop :=
  ∀ p ∈ importStatements u, modulePath? u p.tree = some path → IsForeign u p path

namespace Calls

variable {u : SourceUnit} {all K : List Place.RepositoryCall} {sh ed : Editor} {t : Tree}

theorem apart_of_import (hu : u.Regular) {top : Tree} (hplain : top.plainImport = true)
    (htop : top ∈ u.root.children) (hk : top.is .importStatement = true)
    (hc : top.children ≠ []) (ht : t.Within u.root) {k : NodeKind} (htk : t.is k = true)
    (hkind : k = .callExpression ∨ k = .methodDefinition) :
    t.stop ≤ top.start ∨ top.stop ≤ t.start := by
  rw [Tree.plainImport, hk, Bool.not_true, Bool.false_or] at hplain
  have hroot := Tree.is_iff.1 hu.program
  rw [Tree.is_iff] at hk htk
  rcases Tree.within_or_apart hu.ordered ht (Tree.within_of_mem htop) with h | h | h | h
  · have hnot := Tree.test_within hplain h
    rcases hkind with rfl | rfl <;> simp [Tree.isAny, Tree.is, htk, Tree.activeKinds] at hnot
  · rcases Tree.within_parent hu.ordered .self htop (top_nonempty hu.toTopLevel htop hc) ht h with
      rfl | h
    · rw [htk] at hk
      rcases hkind with rfl | rfl <;> cases hk
    · rw [h.antisymm ht, htk] at hroot
      rcases hkind with rfl | rfl <;> cases hroot
  · exact .inl h
  · exact .inr h

/-- A constructor is apart from every import, and so is what is edited of its parameters. -/
theorem IsInjectionEdit.apart_of_import (hu : u.Regular) {t : Tree}
    (hplain : t.plainImport = true) (ht : t ∈ u.root.children)
    (hkind : t.is .importStatement = true) (hne : t.children ≠ []) {e : Edit}
    (he : IsInjectionEdit u e) : e.stop ≤ t.start ∨ t.stop ≤ e.start := by
  obtain ⟨method, hm, params, hparams, hin⟩ := he.within_parameters hu.ordered
  have hroot := Place.find_rooted u.place_rooted hm
  have hkindMethod : method.tree.is .methodDefinition = true := by
    simpa [Tree.isAny] using (List.mem_filter.1 hm).2
  have hrange := Tree.child_range (Tree.everyNode_within hu.ordered hroot.within)
    (Place.tree_mem_children (List.mem_of_find?_eq_some hparams))
  have hapart := Calls.apart_of_import hu hplain ht hkind hne hroot.within hkindMethod (.inr rfl)
  simp only [Place.start, Place.stop] at hin
  omega

theorem Around.apart_of_import (hu : u.Regular) {p : Place} {path : String}
    (hp : Imports.IsForeign u p path) {e : Edit} (he : Around u e) (hne : e.start < e.stop) :
    e.stop ≤ p.tree.start ∨ p.tree.stop ≤ e.start := by
  obtain ⟨hpm, hpk, hpc, -⟩ := Imports.statement_facts hu.toTopLevel hp.mem hp.module
  have hplain := hp.plain
  have hothers : ∀ q : Place, q ∈ Imports.importStatements u → ∀ path',
      Imports.modulePath? u q.tree = some path' →
      Imports.isLibrary path' ∨ Imports.isRepositoryPath path' = true → p.tree ≠ q.tree := by
    intro q _ path' hpath' hgiven heq
    rw [← heq, hp.module, Option.some.injEq] at hpath'
    subst hpath'
    rcases hgiven with h | h
    · exact hp.library h
    · simp [hp.repository] at h
  cases he with
  | advisory q comment _ _ _ _ _ before =>
    have := before.1.trans before.2.1.symm
    omega
  | line _ _ _ start stop _ => omega
  | injection edit => exact edit.apart_of_import hu hplain hpm hpk hpc
  | registration site mem on _ =>
    obtain ⟨hr, hk, -⟩ := Imports.registration_within mem
    rw [on.1, on.2]
    exact Calls.apart_of_import hu hplain hpm hpk hpc hr.within hk (.inl rfl)
  | clause q path' clause mem module library found on _ =>
    obtain ⟨hqm, -, -, -⟩ := Imports.statement_facts hu.toTopLevel mem module
    have hrange := Tree.child_range (Tree.everyNode_within hu.ordered (Tree.within_of_mem hqm))
      (Imports.clause_mem found)
    rw [on.1, on.2]
    rcases Tree.inOrder_apart (Tree.everyNode_iff.1 hu.ordered).1 hpm hqm with h | h | h
    · exact absurd h (hothers q mem path' module (.inl library))
    · omega
    · omega
  | statement q path' mem module given _ takes _ =>
    obtain ⟨hqm, -, -, -⟩ := Imports.statement_facts hu.toTopLevel mem module
    rcases removal_apart hu.toTopLevel hqm hpm hpc takes with h | h | h
    · exact absurd h (hothers q mem path' module given)
    · exact .inr h
    · exact .inl h

theorem IsStatement.outside (hu : u.Regular) {t s : Tree} (ht : t.Within u.root)
    (hplain : t.everyNode (fun s =>
      !s.isAny (.callExpression :: .methodDefinition :: .program :: Tree.blockKinds)) = true)
    (hs : IsStatement u s) : ¬(t.start < s.start ∧ s.start < t.stop) := by
  refine hs.not_inside hu.toNested ht fun b hb => ?_
  have hnone := Tree.test_within hplain hb
  simp only [Tree.isAny, List.any_cons, Bool.not_eq_true', Bool.or_eq_false_iff] at hnone ⊢
  exact hnone.2.2

/-- In an import nothing is inserted: an insertion stands at the first token of a statement. -/
theorem Mirrors.inserted_in_import (hu : u.Regular) (h : Mirrors u all K sh ed) {t : Tree}
    (ht : t.Within u.root)
    (hplain : t.everyNode (fun s =>
      !s.isAny (.callExpression :: .methodDefinition :: .program :: Tree.blockKinds)) = true) {q : Nat}
    (h1 : t.start < q) (h2 : q < t.stop) : sh.view.inserted q = [] := by
  by_contra hne
  have hzero : q ≠ 0 := by omega
  obtain ⟨s, hs, rfl⟩ := h.labelled hu q (by
    simpa [attached, scene, View.put, View.hide, hzero] using hne)
  exact hs.outside hu ht hplain ⟨h1, h2⟩

theorem Mirrors.import_kept (hu : u.Regular) (h : Mirrors u all K sh ed) {p : Place} {path : String}
    (hp : Imports.IsForeign u p path) :
    (scene u sh.view K).text p.tree = p.tree.bytes u.source := by
  obtain ⟨hpm, hpk, hpc, -⟩ := Imports.statement_facts hu.toTopLevel hp.mem hp.module
  have hpr := Tree.within_of_mem hpm
  have ho := Tree.everyNode_within hu.ordered hpr
  have hplain := hp.plain
  rw [Tree.plainImport, hpk, Bool.not_true, Bool.false_or] at hplain
  have hshown : ∀ q, p.tree.start ≤ q → q < p.tree.stop →
      sh.view.shown q = (Edit.view u.source []).shown q := by
    intro q h1 h2
    rw [Edit.shown_of_free (by simp), Editor.view, h.around.source]
    refine Edit.shown_of_free fun e he => ?_
    rw [← Bool.not_eq_true, Edit.covers_iff]
    intro hcov
    rcases (h.around.all e he).apart_of_import hu hp (by omega) with h3 | h3
      <;> omega
  have hmodel : ∀ s, s.Within p.tree → (scene u sh.view K).model? s = none := by
    intro s hs
    have hrange := hs.range ho
    have hfind : K.find? (fun x => Scene.sameRange x.call.tree s) = none := by
      refine List.find?_eq_none.2 fun x hx hsame => ?_
      have hxc := h.calls x hx
      have hlt := (hxc.splits hu.toClosed).nonempty
        (Tree.everyNode_within hu.ordered hxc.rooted.within)
      have hapart := Calls.apart_of_import hu hp.plain hpm hpk hpc hxc.rooted.within
        hxc.parts.isCall (.inl rfl)
      have := Scene.sameRange_iff.1 hsame
      omega
    simp [scene, hfind]
  calc (scene u sh.view K).text p.tree
      = (scene u (Edit.view u.source []) []).text p.tree := by
        refine Scene.text_congr (scene_unit u _ _ _ _) ho hshown (fun q h1 h2 => ?_) fun s hs => ?_
        · exact (h.inserted_in_import hu hpr hplain h1 h2).trans (Edit.inserted_of_free (by simp)).symm
        · rw [hmodel s hs]
          rfl
    _ = ((Edit.view u.source []).hide p.tree.start).span p.tree.start p.tree.stop := by
        refine (Shows.text hu.toClosed (by simp) (Shows.refl u _) hpr fun _ => ?_).symm
        rintro ⟨m, hm, -⟩
        simp [taken] at hm
    _ = p.tree.bytes u.source := by
        refine View.span_source (hu.node hpr).1 fun q _ _ => ?_
        simp [View.cell, View.hide, Edit.view]

/-- A line stands at the head of an output: before it come only advisories and other import lines. -/
def AtHead (u : SourceUnit) (line output : Bytes) : Prop :=
  ∃ (before : List Bytes) (rest : Bytes), output = before.flatten ++ line ++ rest ∧ ∀ text ∈ before,
    text ∈ Imports.lineTexts u ∨ ∃ comment ∈ advisoryTexts,
      text = encode (Editor.commentText (lineIndent u.source 0) comment)

/-- What is inserted at the head of the source stands at the head of the output. -/
theorem Ended.atHead {source : String} {members : Pattern.Regex} {s : Session} {o : Outcome}
    (hu : u.Regular) (h : Ended u source members s o K sh) (hfired : s.flags.any = true) {line : Bytes}
    (hline : line ∈ s.editor.notesAt 0) : AtHead u line (encode o.output) := by
  have hnotes : s.editor.notesAt 0 = sh.notesAt 0 := h.mirrors.notes 0 fun _ _ => by omega
  obtain ⟨before, after, hsplit⟩ := List.append_of_mem (hnotes ▸ hline)
  refine ⟨before, after.flatten ++ (scene u (sh.view.hide 0) K).print, ?_, fun text htext => ?_⟩
  · rw [h.printed hfired, scene_print_head hu.toNested, view_inserted, hsplit]
    simp
  · obtain ⟨e, he, hins, hzero, rfl⟩ := mem_notesAt.1
      (hsplit ▸ List.mem_append_left _ htext : text ∈ sh.notesAt 0)
    rcases (h.mirrors.around.all e he).insertion hu hins with ⟨q, comment, hc, hadv, -⟩ | ⟨-, hmem⟩
    · refine .inr ⟨comment, hc, ?_⟩
      rw [hadv.2.2, ← hadv.1, hzero]
    · exact .inl hmem

/-- The output imports from a path: by a line at its head that names the symbol, or by the import that
the source has from there, which comes out as it is. -/
def ImportedIn (u : SourceUnit) (o : Outcome) (symbol path : String) : Prop :=
  AtHead u (encode (Imports.importLine u symbol path)) (encode o.output) ∨
    ∃ p ∈ Imports.importStatements u, Imports.modulePath? u p.tree = some path ∧
      p.tree.bytes u.source <:+: encode o.output

theorem Ended.importedIn {source : String} {members : Pattern.Regex} {s : Session} {o : Outcome}
    (hu : u.Regular) (h : Ended u source members s o K sh) (hfired : s.flags.any = true)
    {symbol path : String} (hstays : Imports.Stays u path)
    (hsecured : Imports.Secured u symbol path s.editor) : ImportedIn u o symbol path := by
  rcases hsecured with ⟨p, hp, hpath⟩ | hline
  · have hforeign := hstays p hp hpath
    refine .inr ⟨p, hp, hpath, ?_⟩
    obtain ⟨hpm, hpk, hpc, -⟩ := Imports.statement_facts hu.toTopLevel hp hpath
    rw [← h.mirrors.import_kept hu hforeign]
    have hne := top_nonempty hu.toTopLevel hpm hpc
    refine h.text_infix hu hfired (Tree.within_of_mem hpm) hne ?_
    rintro ⟨n, hn, h1, h2⟩
    obtain ⟨x, hx, hnx⟩ := mem_taken.1 hn
    have hxc := h.mirrors.calls x hx
    have hrange := Tree.child_range (Tree.everyNode_within hu.ordered hxc.rooted.within)
      (hxc.part hu.toClosed hnx).1
    have hapart := apart_of_import hu hforeign.plain hpm hpk hpc hxc.rooted.within
      hxc.parts.isCall (.inl rfl)
    omega
  · exact .inl (h.atHead hu hfired hline)

/-- Names that a pass introduces are imported. Where it replaces a registration, the output imports from
the path of the module that stands in its place; where an import of the source library lists the
repository type, the output imports from the path of the client, if the two paths differ. What the
source imports from such a path already has to stay: from a path of the source library it would be
taken away, and no line put in its place. -/
theorem introduced_imported (u : SourceUnit) (hu : u.Regular) (source : String)
    (hsource : u.source = encode source) (members : Pattern.Regex)
    (hm : Pattern.parse u.settings.memberPattern = .ok members) (s : Session)
    (hs : s.editor = { source := u.source }) :
    ∃ s1 progress s2 s' o,
      (Entities.extract u >>= fun _ => Calls.convert u).result s = (.ok (), s1) ∧
      (Imports.convertRegistrations u (Imports.registrationSites u)).result s1 = (.ok progress, s2) ∧
      (progress.registrations = 0 → s2.editor = s1.editor) ∧
      (Outcome.stages u).result s = (.ok (), s') ∧
      Outcome.ofSession u.settings source s' = .ok o ∧
      (progress.registrations ≠ 0 → s'.flags.any = true ∧
        (Imports.Stays u u.settings.modulePath →
          ImportedIn u o u.settings.moduleName u.settings.modulePath)) ∧
      ((∃ p ∈ Imports.importStatements u, Imports.Brings u p) →
        u.settings.clientServicePath ≠ u.settings.modulePath → s'.flags.any = true ∧
          (Imports.Stays u u.settings.clientServicePath →
            ImportedIn u o u.settings.clientService u.settings.clientServicePath)) := by
  obtain ⟨s', o, K, sh, hrun, hended, -⟩ := pass_ended hu hsource hm hs
  have hparts := hrun
  obtain ⟨_, s0, hextract, hparts⟩ := result_bind_eq_ok hparts
  obtain ⟨_, s1, hconvert, hparts⟩ := result_bind_eq_ok hparts
  obtain ⟨progress, s2, hreg, hidle, hmodule, hclient⟩ := Imports.convert_secures hparts
  refine ⟨s1, progress, s2, s', o, ?_, hreg, hidle, hrun, hended.outcome, fun hn => ?_,
    fun hb hne => ?_⟩
  · rw [result_bind_ok hextract, hconvert]
  · obtain ⟨hflag, hsecured⟩ := hmodule hn
    exact ⟨hflag, fun hstays => hended.importedIn hu hflag hstays hsecured⟩
  · obtain ⟨hflag, hor⟩ := hclient hb
    exact ⟨hflag, fun hstays => hended.importedIn hu hflag hstays (hor.resolve_left hne)⟩

/-- Imports that hold names only stay, from a path outside the source library. -/
theorem stays_of_plain (hu : u.TopLevel) (hplain : u.root.children.all Tree.plainImport = true)
    {path : String} (hlib : ¬Imports.isLibrary path) (hrepo : Imports.isRepositoryPath path = false) :
    Imports.Stays u path := fun p hp hpath =>
  ⟨hp, hpath, hlib, hrepo,
    List.all_eq_true.1 hplain p.tree (Imports.statement_facts hu hp hpath).1⟩

/-- A source that imports the module already, with a repository type to import the client for and a
registration. -/
def introducedSample : String :=
  "import \x7b PrismaModule \x7d from './prisma/prisma.module';\n" ++
    "import \x7b Repository \x7d from 'typeorm';\nTypeOrmModule.forRoot();\n"

def introducedUnit : SourceUnit :=
  ⟨encode introducedSample, (parse .typescript introducedSample).root, {}⟩

def introducedStart : Session := { editor := { source := introducedUnit.source } }

theorem introducedSample_stages :
    introducedUnit.root.children.all Tree.unattributed = true ∧
    ((Imports.importStatements introducedUnit).any fun p =>
      Imports.modulePath? introducedUnit p.tree == some Imports.sourceLibrary &&
        (Imports.importedNames introducedUnit p.tree).contains Resolver.repositoryType) = true ∧
    (((Entities.extract introducedUnit >>= fun _ => Calls.convert introducedUnit) >>= fun _ =>
      Imports.convertRegistrations introducedUnit (Imports.registrationSites introducedUnit)).result
        introducedStart).1.toOption.map (·.registrations) = some 1 := by
  decide +kernel

theorem introduced_imported_sample : ∃ s' o,
    (Outcome.stages introducedUnit).result introducedStart = (.ok (), s') ∧
    Outcome.ofSession {} introducedSample s' = .ok o ∧
    ImportedIn introducedUnit o "PrismaModule" "./prisma/prisma.module" ∧
    ImportedIn introducedUnit o "PrismaService" "./prisma.service" := by
  obtain ⟨hunattributed, hbrings, hregistrations⟩ := introducedSample_stages
  have hroot : introducedUnit.root = (parse .typescript introducedSample).root := by
    simp only [introducedUnit]
  have himports : introducedUnit.root.children.all Tree.plainImport = true := by
    rw [hroot] at hunattributed ⊢
    exact List.all_eq_true.2 fun t ht =>
      parse_plainImport (Tree.within_of_mem ht) (List.all_eq_true.1 hunattributed t ht)
  have hu : introducedUnit.Regular := (parse_sheltered .typescript introducedSample {}).toRegular
  obtain ⟨s1, progress, s2, s', o, h1, h2, -, hrun, houtcome, hmodule, hclient⟩ :=
    introduced_imported introducedUnit hu introducedSample (by simp only [introducedUnit]) _
      Settings.exists_members.choose_spec
      introducedStart rfl
  have hcount : progress.registrations ≠ 0 := by
    rw [result_bind_ok h1, h2] at hregistrations
    simp [Option.some.inj hregistrations]
  have hb : ∃ p ∈ Imports.importStatements introducedUnit, Imports.Brings introducedUnit p := by
    obtain ⟨p, hp, h⟩ := List.any_eq_true.1 hbrings
    rw [Bool.and_eq_true, beq_iff_eq, List.contains_iff_mem] at h
    exact ⟨p, hp, h⟩
  exact ⟨s', o, hrun, houtcome,
    (hmodule hcount).2 (stays_of_plain hu.toTopLevel himports
      (by unfold Imports.isLibrary; decide) (by decide +kernel)),
    (hclient hb (by decide)).2 (stays_of_plain hu.toTopLevel himports
      (by unfold Imports.isLibrary; decide) (by decide +kernel))⟩

def strayedSample : String := "class A \x7b constructor(private a: Repository<User>) \x7b\x7d \x7d"

/-- A source that imports something else from the path of the client. -/
def takenSample : String :=
  "import \x7b Repository \x7d from 'typeorm';\nimport \x7b Other \x7d from './prisma.service';\n" ++
    strayedSample

def sharedSettings : Settings := { clientServicePath := "./prisma/prisma.module" }

def sharedSample : String :=
  "import \x7b Repository \x7d from 'typeorm';\nTypeOrmModule.forRoot();\n" ++ strayedSample

theorem missing_outputs :
    (∀ source ∈ [strayedSample, takenSample, sharedSample],
      (parse .typescript source).broken = false) ∧
    (Outcome.ofSource .typescript {} strayedSample none).1.toOption.map (·.output) =
      some "class A \x7b constructor(private prisma: PrismaService) \x7b\x7d \x7d" ∧
    (Outcome.ofSource .typescript {} takenSample none).1.toOption.map (·.output) =
      some "import \x7b Other \x7d from './prisma.service';\nclass A \x7b constructor(private prisma: PrismaService) \x7b\x7d \x7d" ∧
    (Outcome.ofSource .typescript sharedSettings sharedSample none).1.toOption.map (·.output) =
      some "import \x7b PrismaModule \x7d from './prisma/prisma.module';\nPrismaModule();\nclass A \x7b constructor(private prisma: PrismaService) \x7b\x7d \x7d" := by
  decide +kernel

/-- The source is well formed; a client parameter is put in it, and no import of the output names the
parameter's type. -/
def Unnamed (settings : Settings) (source : String) : Prop :=
  (parse .typescript source).broken = false ∧
  ∃ o, (Outcome.ofSource .typescript settings source none).1 = .ok o ∧
    "prisma: PrismaService)".toList <:+: o.output.toList ∧
    ¬"import \x7b PrismaService".toList <:+: o.output.toList

/-- The parameter's type goes unnamed where the repository type is imported from nowhere, where
something else comes from the path of the client, and where both names are to come from one path. -/
theorem client_not_imported_sample :
    Unnamed {} strayedSample ∧ Unnamed {} takenSample ∧ Unnamed sharedSettings sharedSample := by
  obtain ⟨hbroken, h1, h2, h3⟩ := missing_outputs
  obtain ⟨o1, ho1, hout1⟩ := exists_ok_of_map h1
  obtain ⟨o2, ho2, hout2⟩ := exists_ok_of_map h2
  obtain ⟨o3, ho3, hout3⟩ := exists_ok_of_map h3
  simp only [List.forall_mem_cons] at hbroken
  refine ⟨⟨hbroken.1, o1, ho1, ?_⟩, ⟨hbroken.2.1, o2, ho2, ?_⟩, ⟨hbroken.2.2.1, o3, ho3, ?_⟩⟩
  · rw [hout1, Text.infix_iff rfl rfl, Text.infix_iff rfl rfl]
    decide
  · rw [hout2, Text.infix_iff rfl rfl, Text.infix_iff rfl rfl]
    set_option maxRecDepth 2000 in decide
  · rw [hout3, Text.infix_iff rfl rfl, Text.infix_iff rfl rfl]
    set_option maxRecDepth 2000 in decide

end Calls

end OrmCodemod
