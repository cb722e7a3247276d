import OrmCodemod.Pass.Outcome
import OrmCodemod.Proofs.Completion
import OrmCodemod.Proofs.Idle

/-! When a pass has nothing to do. `Settled` says of a tree that no stage finds anything to edit in it;
a pass over a source records no edit exactly then. -/

namespace OrmCodemod

open Syntax Text Pass

def SourceUnit.commented (u : SourceUnit) (p : Place) (comment : String) : Bool :=
  (Editor.leadingComments { source := u.source } p.statement).contains
    (Editor.normalizeComment comment)

def Entities.isEntity (u : SourceUnit) (class_ : Place) : Bool :=
  class_.decorators.any (fun d => d.decoratorName u.source == some entityDecorator) &&
    (class_.tree.className u.source).any (· != "")

def Calls.settledCall (u : SourceUnit) (site : Place.RepositoryCall) : Bool :=
  match Rules.rule? (site.method.text u.source) with
  | none => true
  | some rule =>
    if rule.supported then (site.receiver.child? .object).isNone
    else rule.advisories.all (u.commented site.call)

def Imports.settledImport (u : SourceUnit) (p : Place) : Bool :=
  match modulePath? u p.tree with
  | none => true
  | some path =>
    if path == sourceLibrary then
      !(importedNames u p.tree).contains Resolver.repositoryType &&
        !(importedNames u p.tree).any schemaNames.contains
    else if isRepositoryPath path then false
    else if path == integrationLibrary then true
    else if isEntityPath path then u.commented p entityImportAdvisory
    else true

/-- No stage finds anything to edit. -/
structure Settled (u : SourceUnit) (members : Pattern.Regex) : Prop where
  entities : ∀ class_ ∈ u.place.find Place.classKinds, Entities.isEntity u class_ = true →
    u.commented class_ Entities.entityAdvisory = true
  constructors : ∀ method ∈ u.place.find [.methodDefinition], Calls.injected u method = []
  calls : ∀ site ∈ Calls.callSites u members, Calls.settledCall u site = true
  registrations : Imports.registrationSites u = []
  imports : ∀ p ∈ Imports.importStatements u, Imports.settledImport u p = true

variable {u : SourceUnit}

theorem replaceRange_fresh (source : Bytes) (a b : Nat) (text : String) :
    ∃ ed, Editor.replaceRange { source } a b text = .ok ed :=
  ⟨_, Editor.replaceRange_eq_ok.2 ⟨fun e he => by simp at he, rfl⟩⟩

theorem idle_advise (u : SourceUnit) (p : Place) (comment : String) :
    Idle u.source (u.commented p comment = true) (fun put => put = false)
      (Pass.advise p comment) where
  grows s hs := by
    rw [result_advise] at hs
    rcases h : s.editor.insertCommentBefore p comment with o | ⟨put, ed⟩ <;> rw [h] at hs
    · exact hs
    · rcases Editor.insertCommentBefore_ok h with rfl | h
      · exact hs
      · exact absurd hs (insertAt_edits h)
  waits s hs hc := by
    have h : s.editor.insertCommentBefore p comment = .ok (false, s.editor) := by
      rw [Editor.insertCommentBefore_eq, if_pos]
      rw [Editor.noted, hs.1, Bool.or_eq_true]
      exact .inl hc
    rw [result_advise, h]
    exact ⟨false, _, rfl, rfl, hs⟩
  moves s hs hc := by
    have hnoted : s.editor.noted p comment = false := by
      rw [hs.1]
      simpa [Editor.noted, SourceUnit.commented] using hc
    rw [result_advise, Editor.insertCommentBefore_eq, hnoted]
    cases hi : s.editor.insertAt p.statement.start
        (Editor.commentText (lineIndent s.editor.source p.statement.start) comment) with
    | error o =>
      refine absurd hi (Editor.Clear.insertAt_not_error fun e he => ?_)
      rw [hs.1] at he
      simp at he
    | ok ed => exact insertAt_edits hi

namespace Entities

theorem isEntity_iff {class_ : Place} : isEntity u class_ = true ↔ ∃ entity name,
    class_.decorators.find? (fun d => d.decoratorName u.source == some entityDecorator) =
      some entity ∧ class_.tree.className u.source = some name ∧ name ≠ "" := by
  rw [isEntity, Bool.and_eq_true, List.any_eq_true, ← List.find?_isSome, Option.isSome_iff_exists]
  cases class_.tree.className u.source <;> simp

theorem idle_extractClass (enums : DeclaredEnums) (class_ : Place) :
    Idle u.source (isEntity u class_ = true → u.commented class_ entityAdvisory = true)
      (fun _ => True) (extractClass u enums class_) := by
  dsimp only [extractClass]
  split
  · rename_i entity name hentity hname
    split
    · rename_i hempty
      refine Idle.pure ?_ trivial
      simp [isEntity, hname, beq_iff_eq.1 hempty]
    · rename_i hne
      have his : isEntity u class_ = true :=
        isEntity_iff.2 ⟨entity, name, hentity, hname, by simpa using hne⟩
      refine (((classFields_quiet _ _).idle.after fun fields => ?_ : Idle u.source
        (u.commented class_ entityAdvisory = true) (fun _ => True) _)).congr
          (by simp [his]) fun _ h => h
      refine Idle.after (Q := fun _ => True) ?_ fun _ => ?_
      · exact Idle.modify (fun _ => rfl) fun _ => rfl
      refine (idle_advise u class_ entityAdvisory).then fun _ => ?_
      refine Idle.after (Q := fun _ => True) ?_ fun _ => (Quiet.say _ _).idle
      exact Idle.setFlags fun _ => rfl
  · rename_i hno
    refine Idle.pure (fun his => ?_) trivial
    obtain ⟨entity, name, hentity, hname, -⟩ := isEntity_iff.1 his
    exact absurd hname (hno entity name hentity)

theorem idle_extract :
    Idle u.source (∀ class_ ∈ u.place.find Place.classKinds, isEntity u class_ = true →
      u.commented class_ entityAdvisory = true) (fun _ => True) (extract u) := by
  dsimp only [extract]
  refine Idle.then ((Idle.forM fun class_ _ => idle_extractClass _ class_).congr ?_ fun _ h => h)
    fun _ => ?_
  · exact forall_congr' fun class_ => imp_congr_left (sortByStart_perm _).mem_iff
  · refine Idle.get.after fun s => ?_
    split
    · exact (Quiet.say _ _).idle
    · exact Idle.pure trivial trivial

end Entities

namespace Calls

theorem idle_replace {t : Tree} {text : String} :
    Idle u.source False (fun _ => True) (Pass.edit (·.replace t text)) :=
  Idle.edit (replaceRange_fresh _ _ _ _) fun _ _ h => replaceRange_edits h

theorem grows_replace {t : Tree} {text : String} : Grows (Pass.edit (·.replace t text)) :=
  Grows.edit fun _ _ h => replaceRange_edits h

theorem grows_removeListItem {p : Place} : Grows (Pass.edit (·.removeListItem p)) := by
  refine Grows.edit fun ed ed' h => ?_
  rw [Editor.removeListItem_eq] at h
  exact replaceRange_edits h

theorem idle_convertConstructor (method : Place) :
    Idle u.source (injected u method = []) (fun _ => True) (convertConstructor u method) := by
  rw [convertConstructor_eq]
  cases injected u method with
  | nil => exact Idle.pure rfl trivial
  | cons first others =>
    refine Idle.congr (c := False) ?_ (by simp) fun _ h => h
    refine Idle.orOnOverlap ?_ fun _ => Quiet.say _ _
    refine idle_replace.stops fun _ => ?_
    exact (Grows.forM (fun _ => grows_removeListItem) _).bind fun _ => Grows.setFlags _

theorem idle_convertCall (site : Place.RepositoryCall) :
    Idle u.source (settledCall u site = true) (fun _ => True) (convertCall u site) := by
  unfold convertCall settledCall
  cases Rules.rule? (site.method.text u.source) with
  | none => exact Idle.pure rfl trivial
  | some rule =>
    dsimp only
    cases rule.supported with
    | false =>
      refine ((Idle.mapM fun comment _ => idle_advise u site.call comment).bind (d := True)
        (fun put => ?_) fun put hput => ?_).congr (by simp) fun _ h => h
      · split
        · exact Grows.setFlags _
        · exact Grows.pure _
      · rw [if_neg]
        · exact Idle.pure trivial trivial
        · simpa using hput
    | true =>
      cases site.receiver.child? .object with
      | none => exact Idle.pure rfl trivial
      | some owner =>
        refine Idle.congr (c := False) ?_ (by simp) fun _ h => h
        refine Idle.stops (Q := fun _ => True) ?_ fun _ => ?_
        · unfold apply
          refine (modelOf_quiet u site.call).idle.after fun model => ?_
          refine Idle.get.after fun s => ?_
          refine idle_replace.stops fun _ => ?_
          split
          · exact grows_replace
          · exact Grows.pure _
        · refine (Grows.forM (fun comment => ?_) _).bind fun _ => Grows.setFlags _
          exact (idle_advise u site.call comment).grows.bind fun _ => Grows.pure _

end Calls

namespace Imports

theorem grows_of_holds {α : Type} {x : Pass α}
    (h : Holds (fun s => s.editor.edits ≠ []) x (fun _ s => s.editor.edits ≠ [])
      fun _ s => s.editor.edits ≠ []) : Grows x :=
  fun _ hs => by_contra fun hne => h.left hne hs

theorem imports_grow (u : SourceUnit) :
    Admits u (fun _ s => s.editor.edits ≠ []) fun _ s => s.editor.edits ≠ [] := by
  constructor
  · exact fun _ s s' he _ hs => he ▸ hs
  · exact fun l symbol path _ => Holds.edit (fun s ed _ he => insertAt_edits he) fun s o hs _ => hs
  · exact fun site _ s ed' _ he => replaceRange_edits he
  · exact fun l p r _ s h => h
  · exact fun l p r path clause text _ _ _ _ _ =>
      Holds.edit (fun s ed _ he => replaceRange_edits he) fun s o hs _ => hs
  · intro l p r path _ _ _
    refine Holds.edit (fun s ed _ he => ?_) fun s o hs _ => hs
    rw [Editor.removeStatement_eq] at he
    exact replaceRange_edits he
  · intro l p r path _ _ _
    refine Holds.advise (fun s put ed n hs he => ?_) fun s o hs _ => hs
    rcases Editor.insertCommentBefore_ok he with rfl | he
    · exact hs
    · exact insertAt_edits he

theorem grows_convertImport {p : Place} (hp : p ∈ importStatements u) (progress : Progress) :
    Grows (convertImport u progress p) := by
  obtain ⟨l, r, hl⟩ := List.append_of_mem hp
  exact grows_of_holds (convertImport_holds (imports_grow u) hl progress)

theorem idle_convertRegistration {site : Place × String} (hs : site ∈ registrationSites u)
    (progress : Progress) {R : Progress → Prop} :
    Idle u.source False R (convertRegistration u progress site.1 site.2) where
  grows := grows_of_holds (convertRegistration_holds (imports_grow u) hs progress)
  waits _ _ h := h.elim
  moves s hcalm _ := by
    unfold convertRegistration
    dsimp only
    rw [result_bind_ok (result_get s)]
    obtain ⟨ed, hed⟩ := replaceRange_fresh u.source site.1.tree.start site.1.tree.stop
      (if rootRegistrations.contains site.2 then u.settings.moduleName ++ "()"
        else u.settings.moduleName)
    simp only [hcalm.1, Editor.replace, hed]
    rw [result_bind_ok (result_modify _ s)]
    refine fun h => replaceRange_edits hed (Grows.bind (x := ensureImport u _ _ _) ?_
      (fun _ => (Grows.setFlags _).bind fun _ => Grows.pure _) _ h)
    exact grows_of_holds (ensureImport_holds (imports_grow u) [] (.inr ⟨rfl, rfl⟩) _)

theorem encloses_iff {o i : Place} : encloses o i = true ↔
    o.same i = false ∧ o.start ≤ i.start ∧ i.stop ≤ o.stop := by
  simp [encloses, and_assoc]

theorem same_iff {o i : Place} (ho : o.tree.is .callExpression = true)
    (hi : i.tree.is .callExpression = true) :
    o.same i = true ↔ o.start = i.start ∧ o.stop = i.stop := by
  rw [Tree.is_iff] at ho hi
  simp [Place.same, ho, hi]

theorem exists_outermost {xs : List (Place × String)}
    (hc : ∀ x ∈ xs, x.1.tree.is .callExpression = true) (hne : xs ≠ []) :
    ∃ x ∈ xs, ∀ y ∈ xs, encloses y.1 x.1 = false := by
  induction xs with
  | nil => exact absurd rfl hne
  | cons x xs ih =>
    have hself : ∀ y ∈ x :: xs, encloses y.1 y.1 = false := by
      intro y hy
      rw [← Bool.not_eq_true, encloses_iff, ← Bool.not_eq_true, same_iff (hc y hy) (hc y hy)]
      simp
    by_cases hxs : xs = []
    · subst hxs
      exact ⟨x, by simp, fun y hy => by
        obtain rfl := List.mem_singleton.1 hy
        exact hself y (by simp)⟩
    obtain ⟨m, hm, hmax⟩ := ih (fun y hy => hc y (by simp [hy])) hxs
    by_cases hx : encloses x.1 m.1 = true
    · -- what encloses `x` encloses `m` as well
      refine ⟨x, by simp, fun y hy => ?_⟩
      rcases List.mem_cons.1 hy with rfl | hy'
      · exact hself y hy
      · have hym := hmax y hy'
        rw [← Bool.not_eq_true, encloses_iff, ← Bool.not_eq_true,
          same_iff (hc y hy) (hc m (by simp [hm]))] at hym
        rw [encloses_iff, ← Bool.not_eq_true, same_iff (hc x (by simp)) (hc m (by simp [hm]))] at hx
        rw [← Bool.not_eq_true, encloses_iff, ← Bool.not_eq_true,
          same_iff (hc y hy) (hc x (by simp))]
        omega
    · refine ⟨m, by simp [hm], fun y hy => ?_⟩
      rcases List.mem_cons.1 hy with rfl | hy
      · simpa using hx
      · exact hmax y hy

theorem idle_convertRegistrations :
    Idle u.source (registrationSites u = []) (fun p => p.registrations = 0)
      (convertRegistrations u (registrationSites u)) := by
  have hstep : ∀ (b : Progress), b.registrations = 0 → ∀ x ∈ registrationSites u, Idle u.source
      ((registrationSites u).any (fun other => encloses other.1 x.1) = true)
      (fun p => p.registrations = 0)
      (if (registrationSites u).any fun other => encloses other.1 x.1 then return b
        else convertRegistration u b x.1 x.2) := by
    intro b hb x hx
    split
    · rename_i h
      exact Idle.pure h hb
    · rename_i h
      exact (idle_convertRegistration hx b).congr (by simp [h]) fun _ h => h
  refine (Idle.foldlM (fun b x hx => ?_) hstep {} rfl).congr ⟨fun h => ?_, fun h => ?_⟩ fun _ h => h
  · split
    · exact Grows.pure _
    · exact (idle_convertRegistration hx b (R := fun _ => True)).grows
  · by_contra hne
    obtain ⟨x, hx, hmax⟩ := exists_outermost (fun x hx => (registration_within hx).2.1) hne
    obtain ⟨y, hy, hyx⟩ := List.any_eq_true.1 (h x hx)
    rw [hmax y hy] at hyx
    exact Bool.noConfusion hyx
  · rw [h]
    simp

theorem idle_dropSpecifiers {statement clause : Tree} (h : clause? statement = some clause)
    (dropped : List String) :
    Idle u.source False (fun _ => True) (dropSpecifiers u statement dropped) := by
  unfold dropSpecifiers
  split
  · rename_i hnone
    exact absurd h (by simp [hnone])
  · extract_lets kept others parts
    split
    · refine Idle.edit ?_ fun ed ed' he => ?_
      · rw [Editor.removeStatement_eq]
        exact replaceRange_fresh _ _ _ _
      · rw [Editor.removeStatement_eq] at he
        exact replaceRange_edits he
    · exact Idle.edit (replaceRange_fresh _ _ _ _) fun _ _ he => replaceRange_edits he

theorem clause_of_any {statement : Tree} {test : String → Bool}
    (h : (importedNames u statement).any test = true) : ∃ clause, clause? statement = some clause := by
  cases hc : clause? statement with
  | some clause => exact ⟨clause, rfl⟩
  | none => simp [importedNames, specifiers, hc] at h

theorem any_dropped_iff {names : List String} :
    names.any ((if names.contains Resolver.repositoryType then repositoryNames else []) ++
      (if names.any schemaNames.contains then schemaNames else [])).contains = false ↔
    (!names.contains Resolver.repositoryType && !names.any schemaNames.contains) = true := by
  cases h1 : names.contains Resolver.repositoryType with
  | true =>
    have hmem := List.contains_iff_mem.1 h1
    refine ⟨fun h => ?_, fun h => by simp at h⟩
    rw [List.any_eq_false] at h
    refine absurd ?_ (h _ hmem)
    simp [repositoryNames]
  | false =>
    cases h2 : names.any schemaNames.contains with
    | true => simp [h2]
    | false => simp

theorem idle_ensureImport (symbol path : String) (ensured : List String) :
    Idle u.source (ensured.contains path = true ∨
        (importStatements u).any (fun p => modulePath? u p.tree == some path) = true)
      (fun _ => True) (ensureImport u symbol path ensured) := by
  dsimp only [ensureImport]
  split
  · rename_i h
    exact Idle.pure (.inl h) trivial
  · rename_i hnew
    split
    · rename_i hno
      refine Idle.congr (c := False) ?_ ?_ fun _ h => h
      swap
      · rw [false_iff, not_or]
        exact ⟨hnew, by simpa using hno⟩
      refine Idle.stops (Q := fun _ => True) ?_ fun _ => (Quiet.say _ _).grows.bind fun _ =>
        Grows.pure _
      refine Idle.edit ?_ fun _ _ he => insertAt_edits he
      exact ⟨_, Editor.insertAt_eq_ok.2 ⟨fun e he => by simp at he, rfl⟩⟩
    · rename_i hyes
      exact Idle.pure (.inr (by simpa using hyes)) trivial

theorem idle_convertSourceImport (statement : Tree) {progress : Progress}
    (hb : progress.registrations = 0) :
    Idle u.source ((!(importedNames u statement).contains Resolver.repositoryType &&
        !(importedNames u statement).any schemaNames.contains) = true)
      (fun p => p.registrations = 0) (convertSourceImport u progress statement) := by
  refine Idle.congr (c := _) ?_ any_dropped_iff fun _ h => h
  unfold convertSourceImport
  extract_lets names repositories dropped rest
  have hrest : ∀ ensured, Idle u.source (names.any dropped.contains = false)
      (fun p => p.registrations = 0) (rest ensured) := by
    intro ensured
    dsimp only [rest]
    cases hany : names.any dropped.contains with
    | true =>
      obtain ⟨clause, hclause⟩ := clause_of_any hany
      refine Idle.congr (c := False) ?_ (by simp) fun _ h => h
      exact (idle_dropSpecifiers hclause dropped).stops fun _ =>
        (Grows.setFlags _).bind fun _ => Grows.pure _
    | false => exact Idle.pure rfl hb
  cases hrep : repositories with
  | true =>
    have hany : ¬names.any dropped.contains = false := by
      intro h
      have hkept := any_dropped_iff.1 h
      rw [Bool.and_eq_true, Bool.not_eq_true'] at hkept
      exact absurd hrep (by simpa [repositories] using hkept.1)
    refine ((idle_ensureImport _ _ _).bind (fun ensured => (hrest ensured).grows)
      fun ensured _ => hrest ensured).congr ?_ fun _ h => h
    exact ⟨fun h => h.2, fun h => absurd h hany⟩
  | false => exact (Idle.pure (Q := fun _ => True) trivial trivial).after hrest

/-- With no constructor converted and no registration replaced, nothing is dropped. -/
theorem idle_convertIntegrationImport (statement : Tree) {progress : Progress}
    (hb : progress.registrations = 0) (hg : Grows (convertIntegrationImport u progress statement)) :
    Idle u.source True (fun _ => True) (convertIntegrationImport u progress statement) where
  grows := hg
  waits s hs _ := by
    refine ⟨(), s, ?_, trivial, hs⟩
    unfold convertIntegrationImport
    rw [result_bind_ok (result_get s), hs.2, hb]
    simp
  moves _ _ h := absurd trivial h

theorem idle_convertImport {p : Place} (hp : p ∈ importStatements u) {progress : Progress}
    (hb : progress.registrations = 0) :
    Idle u.source (settledImport u p = true) (fun p => p.registrations = 0)
      (convertImport u progress p) := by
  obtain ⟨l, r, hl⟩ := List.append_of_mem hp
  dsimp only [convertImport, settledImport]
  cases hpath : modulePath? u p.tree with
  | none => exact Idle.pure rfl hb
  | some path =>
    dsimp only
    by_cases hsource : (path == sourceLibrary) = true
    · rw [if_pos hsource, if_pos hsource]
      exact idle_convertSourceImport p.tree hb
    rw [if_neg hsource, if_neg hsource]
    by_cases hrepo : isRepositoryPath path = true
    · rw [if_pos hrepo, if_pos hrepo]
      refine Idle.congr (c := False) ?_ (by simp) fun _ h => h
      refine Idle.stops (Q := fun _ => True) (Idle.edit ?_ fun ed ed' he => ?_) fun _ =>
        (Grows.setFlags _).bind fun _ => Grows.pure _
      · rw [Editor.removeStatement_eq]
        exact replaceRange_fresh _ _ _ _
      · rw [Editor.removeStatement_eq] at he
        exact replaceRange_edits he
    rw [if_neg hrepo, if_neg hrepo]
    by_cases hlib : (path == integrationLibrary) = true
    · rw [if_pos hlib, if_pos hlib]
      obtain rfl := beq_iff_eq.1 hlib
      have hg := grows_of_holds (convertIntegrationImport_holds (imports_grow u) hl hpath progress)
      have hnone := (idle_convertIntegrationImport p.tree hb hg).then
        (R := fun p : Progress => p.registrations = 0) fun _ => Idle.pure trivial hb
      exact hnone.congr (by simp) fun _ h => h
    rw [if_neg hlib, if_neg hlib]
    by_cases hentity : isEntityPath path = true
    · rw [if_pos hentity, if_pos hentity]
      exact (idle_advise u p entityImportAdvisory).then fun _ => Idle.pure trivial hb
    · rw [if_neg hentity, if_neg hentity]
      exact Idle.pure rfl hb

theorem idle_convert :
    Idle u.source (registrationSites u = [] ∧ ∀ p ∈ importStatements u, settledImport u p = true)
      (fun _ => True) (convert u) := by
  have hfold : ∀ b, Grows ((importStatements u).foldlM (convertImport u) b) := fun b =>
    grows_of_holds (Holds.foldlM (I := fun l _ s => s.editor.edits ≠ [])
      fun l p r b hl => convertImport_holds (imports_grow u) hl b)
  dsimp only [convert]
  refine idle_convertRegistrations.bind (fun b => (hfold b).bind fun _ => Grows.pure _)
    fun b hb => ?_
  refine Idle.then (Q := fun p : Progress => p.registrations = 0) ?_ fun _ => Idle.pure trivial trivial
  exact Idle.foldlM (fun b p hp => grows_convertImport hp b)
    (fun b hb p hp => idle_convertImport hp hb) b hb

end Imports

theorem Calls.idle_convert {members : Pattern.Regex}
    (hm : Pattern.parse u.settings.memberPattern = .ok members) :
    Idle u.source ((∀ method ∈ u.place.find [.methodDefinition], injected u method = []) ∧
        ∀ site ∈ callSites u members, settledCall u site = true)
      (fun _ => True) (convert u) := by
  unfold convert
  rw [hm]
  have hcalls : Idle u.source (∀ site ∈ callSites u members, settledCall u site = true)
      (fun _ => True) (convertCalls u (callSites u members)) := by
    refine (Idle.forM fun site _ => (idle_convertCall site).orOnOverlap fun _ =>
      Quiet.say _ _).congr ?_ fun _ h => h
    exact forall_congr' fun site => imp_congr_left mem_sortSites
  exact (Idle.forM fun method _ => idle_convertConstructor method).bind (fun _ => hcalls.grows)
    fun _ _ => hcalls

/-- A pass edits nothing exactly in a settled source. -/
theorem idle_stages {members : Pattern.Regex}
    (hm : Pattern.parse u.settings.memberPattern = .ok members) :
    Idle u.source (Settled u members) (fun _ => True) (Outcome.stages u) := by
  have himports := Imports.idle_convert (u := u)
  have hcalls := Calls.idle_convert hm
  unfold Outcome.stages
  refine (Entities.idle_extract.bind (fun _ => hcalls.grows.bind fun _ => himports.grows) fun _ _ =>
    hcalls.bind (fun _ => himports.grows) fun _ _ => himports).congr ?_ fun _ h => h
  exact ⟨fun ⟨h1, ⟨h2, h3⟩, h4, h5⟩ => ⟨h1, h2, h3, h4, h5⟩,
    fun h => ⟨h.entities, ⟨h.constructors, h.calls⟩, h.registrations, h.imports⟩⟩

theorem pattern_of_stages {s s' : Session} (h : (Outcome.stages u).result s = (.ok (), s')) :
    ∃ members, Pattern.parse u.settings.memberPattern = .ok members := by
  cases hm : Pattern.parse u.settings.memberPattern with
  | ok members => exact ⟨members, rfl⟩
  | error e =>
    have hcalls : ∀ s, ((do Calls.convert u; Imports.convert u) : Pass Unit).result s =
        (.error (.pattern e), s) := by
      intro s
      unfold Calls.convert
      rw [hm, result_bind, result_throw]
    unfold Outcome.stages at h
    rw [result_bind] at h
    rcases hx : (Entities.extract u).result s with ⟨_ | _, s''⟩ <;> rw [hx] at h
    · cases h
    · exact absurd ((hcalls s'').symm.trans h) (by simp)

theorem Editor.printBytes_fresh (source : Bytes) : printBytes { source } = source := by
  simp [printBytes, Edit.sorted, splice, slice]

/-- A pass that has run to its end leaves the text alone, unless something was converted and it comes
out otherwise. -/
theorem Outcome.ofSession_unchanged_iff {settings : Settings} {text : String} {s : Session} :
    (∃ o, ofSession settings text s = .ok o ∧ o.changed = false ∧ o.output = text) ↔
      s.flags.any = false ∨ s.editor.print = .ok text := by
  unfold ofSession
  cases hf : s.flags.any with
  | false => simp [pure, Except.pure, bind, Except.bind]
  | true =>
    cases hp : s.editor.print with
    | error e => simp [Except.mapError, bind, Except.bind]
    | ok out => simp [Except.mapError, pure, Except.pure, bind, Except.bind]

end OrmCodemod
