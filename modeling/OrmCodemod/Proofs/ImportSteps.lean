import OrmCodemod.Proofs.LostNames
import OrmCodemod.Proofs.Ranges

/-! What one step of the import stage does, told exactly: which edits it makes in which order, which
modules it has then seen to, and which flags it sets. -/

namespace OrmCodemod.Imports

open Syntax Text Pass

variable {u : SourceUnit} {symbol path : String} {ensured ensured' : List String}
  {progress pr : Progress} {site : Place × String} {p : Place} {s s' : Session} {ed ed' : Editor}

instance (path : String) : Decidable (From u path) :=
  inferInstanceAs (Decidable (∃ p ∈ importStatements u, _))

/-- A path is seen to: once, and by a line at the head unless the source imports from it. -/
def Ensures (u : SourceUnit) (symbol path : String) (ensured ensured' : List String)
    (ed ed' : Editor) : Prop :=
  (path ∈ ensured ∧ ensured' = ensured ∧ ed' = ed) ∨
    (path ∉ ensured ∧ ensured' = path :: ensured ∧
      ((From u path ∧ ed' = ed) ∨
        (¬From u path ∧ ed.insertAt 0 (importLine u symbol path) = .ok ed')))

theorem ensureImport_step (h : (ensureImport u symbol path ensured).result s = (.ok ensured', s')) :
    Ensures u symbol path ensured ensured' s.editor s'.editor ∧ s'.flags = s.flags := by
  have hfrom : (importStatements u).any (fun p => modulePath? u p.tree == some path) = true ↔
      From u path := by
    simp [From]
  unfold ensureImport at h
  by_cases hseen : ensured.contains path = true
  · rw [if_pos hseen] at h
    obtain ⟨rfl, rfl⟩ : ensured = ensured' ∧ s = s' := by simpa using h
    exact ⟨.inl ⟨List.contains_iff_mem.1 hseen, rfl, rfl⟩, rfl⟩
  rw [if_neg hseen] at h
  have hnew : path ∉ ensured := fun hmem => hseen (List.contains_iff_mem.2 hmem)
  by_cases himported : From u path
  · rw [if_neg (by simpa using hfrom.2 himported)] at h
    obtain ⟨rfl, rfl⟩ : path :: ensured = ensured' ∧ s = s' := by simpa using h
    exact ⟨.inr ⟨hnew, rfl, .inl ⟨himported, rfl⟩⟩, rfl⟩
  · rw [if_pos (by simpa using hfrom.not.2 himported)] at h
    obtain ⟨_, s1, hedit, h⟩ := result_bind_eq_ok h
    obtain ⟨_, s2, hsay, h⟩ := result_bind_eq_ok h
    obtain ⟨rfl, rfl⟩ : path :: ensured = ensured' ∧ s2 = s' := by simpa using h
    rw [result_edit] at hedit
    split at hedit
    · rename_i editor hok
      obtain rfl : { s with editor } = s1 := congrArg Prod.snd hedit
      obtain rfl := congrArg Prod.snd hsay
      exact ⟨.inr ⟨hnew, rfl, .inr ⟨himported, hok⟩⟩, rfl⟩
    · cases hedit

/-- One registration of the loop: passed over where another one is around it. -/
def attemptRegistration (u : SourceUnit) (progress : Progress) (site : Place × String) :
    Pass Progress :=
  if (registrationSites u).any fun other => encloses other.1 site.1 then return progress
  else convertRegistration u progress site.1 site.2

theorem convertRegistrations_eq (u : SourceUnit) :
    convertRegistrations u (registrationSites u) =
      (registrationSites u).foldlM (attemptRegistration u) {} :=
  rfl

instance : Decidable (Topmost u site) := inferInstanceAs (Decidable (_ = false))

/-- A registration is passed over, refused, or replaced and the module seen to. -/
theorem attemptRegistration_cases (h : (attemptRegistration u progress site).result s = (.ok pr, s')) :
    (¬Topmost u site ∧ pr = progress ∧ s' = s) ∨
    (Topmost u site ∧
      (∃ o, s.editor.replace site.1.tree (registrationText u site.2) = .error o) ∧
      pr = progress ∧ s'.editor = s.editor ∧ s'.flags = s.flags) ∨
    (Topmost u site ∧ ∃ mid,
      s.editor.replace site.1.tree (registrationText u site.2) = .ok mid ∧
      Ensures u u.settings.moduleName u.settings.modulePath progress.ensured pr.ensured mid
        s'.editor ∧
      pr.registrations = progress.registrations + 1 ∧
      s'.flags = { s.flags with modules := true }) := by
  unfold attemptRegistration at h
  split at h
  · rename_i hheld
    obtain ⟨rfl, rfl⟩ : progress = pr ∧ s = s' := by simpa using h
    exact .inl ⟨by simp [Topmost, hheld], rfl, rfl⟩
  rename_i hfree
  have htop : Topmost u site := by simpa [Topmost] using hfree
  refine .inr ?_
  unfold convertRegistration at h
  rw [result_bind_ok (result_get s)] at h
  dsimp only at h
  split at h
  · rename_i o herr
    obtain ⟨_, s1, hsay, h⟩ := result_bind_eq_ok h
    obtain ⟨rfl, rfl⟩ : progress = pr ∧ s1 = s' := by simpa using h
    obtain rfl := congrArg Prod.snd hsay
    exact .inl ⟨htop, ⟨o, herr⟩, rfl, rfl, rfl⟩
  · rename_i mid hok
    rw [result_bind_ok (result_modify _ s)] at h
    obtain ⟨ensured, s1, hensure, h⟩ := result_bind_eq_ok h
    obtain ⟨hensures, hflags⟩ := ensureImport_step hensure
    obtain ⟨_, s2, hset, h⟩ := result_bind_eq_ok h
    obtain ⟨rfl, rfl⟩ : (⟨ensured, progress.registrations + 1⟩ : Progress) = pr ∧ s2 = s' := by
      simpa using h
    obtain rfl := congrArg Prod.snd hset
    exact .inr ⟨htop, mid, hok, hensures, rfl, by simp [hflags]⟩

def sourceLost (names : List String) : List String :=
  (if names.contains Resolver.repositoryType then repositoryNames else []) ++
    (if names.any schemaNames.contains then schemaNames else [])

def lostBy (u : SourceUnit) (progress : Progress) (flags : Flags) (p : Place) : List String :=
  match modulePath? u p.tree with
  | none => []
  | some path =>
    if path = sourceLibrary then sourceLost (importedNames u p.tree)
    else if path = integrationLibrary then lost progress flags else []

instance (path : String) : Decidable (isLibrary path) := inferInstanceAs (Decidable (_ ∨ _))

theorem ne_empty_of_lostBy {flags : Flags} {name : String} (h : name ∈ lostBy u progress flags p) :
    name ≠ "" := by
  unfold lostBy at h
  split at h
  · simp at h
  split at h
  · exact ne_empty_of_dropped (.inl h)
  split at h
  · exact ne_empty_of_dropped (.inr h)
  · simp at h

theorem lossy_clause_nonempty {flags : Flags} (hu : u.TopLevel) (hp : p ∈ importStatements u)
    {clause : Tree} (hclause : clause? p.tree = some clause)
    (hsome : ∃ name ∈ importedNames u p.tree, name ∈ lostBy u progress flags p) :
    clause.start < clause.stop := by
  obtain ⟨name, hname, hlost⟩ := hsome
  obtain ⟨specifier, hspecifier, rfl⟩ := List.mem_map.1 hname
  exact clause_nonempty hu (statement_rooted hp).1.within hclause
    ⟨specifier, hspecifier, ne_empty_of_lostBy hlost⟩

/-- What becomes of an import: one of a library loses names, one from a repository path goes, one of
entities gets an advisory, and any other stays. -/
def Alters (u : SourceUnit) (p : Place) (names : List String) (ed ed' : Editor) : Prop :=
  match modulePath? u p.tree with
  | none => ed' = ed
  | some path =>
    if isLibrary path then Loses u p.tree names ed ed'
    else if isRepositoryPath path then ed.removeStatement p.tree = .ok ed'
    else if isEntityPath path then
      ∃ put, ed.insertCommentBefore p entityImportAdvisory = .ok (put, ed')
    else ed' = ed

/-- An import is flagged if it loses names, or goes for its path. -/
def Drops (u : SourceUnit) (p : Place) (names : List String) : Prop :=
  (∃ name ∈ importedNames u p.tree, name ∈ names) ∨
    ∃ path, modulePath? u p.tree = some path ∧ isRepositoryPath path = true

/-- The flags after an import. -/
structure Flagged (drops : Prop) (flags flags' : Flags) : Prop where
  fired : drops → flags' = { flags with modules := true }
  idle : ¬drops → flags' = flags

theorem Flagged.kept {drops : Prop} {flags flags' : Flags} (h : Flagged drops flags flags')
    (hset : flags.modules = true) : flags'.modules = true := by
  by_cases hdrops : drops
  · rw [h.fired hdrops]
  · rwa [h.idle hdrops]

theorem dropSpecifiers_flags (u : SourceUnit) (statement : Tree) (names : List String)
    (flags : Flags) : Holds (fun s => s.flags = flags) (dropSpecifiers u statement names)
      (fun _ s => s.flags = flags) fun _ _ => True := by
  have hedit : ∀ f, Holds (fun s => s.flags = flags) (Pass.edit f) (fun _ s => s.flags = flags)
      fun _ _ => True := fun f => Holds.edit (fun _ _ hs _ => hs) fun _ _ _ _ => trivial
  unfold dropSpecifiers
  split
  · exact Holds.pure fun _ hs => hs
  · extract_lets kept others parts
    split
    · exact hedit _
    · exact hedit _

theorem drops_step {statement : Tree} {names : List String}
    (h : (if (importedNames u statement).any names.contains then (do
        dropSpecifiers u statement names
        setFlags fun f => { f with modules := true })
      else pure () : Pass Unit).result s = (.ok (), s')) :
    Loses u statement names s.editor s'.editor ∧
      Flagged (∃ name ∈ importedNames u statement, name ∈ names) s.flags s'.flags := by
  have hany : (importedNames u statement).any names.contains = true ↔
      ∃ name ∈ importedNames u statement, name ∈ names := by
    simp
  split at h
  · rename_i hsome
    rw [hany] at hsome
    obtain ⟨_, s1, hdrop, hset⟩ := result_bind_eq_ok h
    have hflags := (dropSpecifiers_flags u statement names s.flags).ok rfl hdrop
    have hloses := dropSpecifiers_loses hsome hdrop
    obtain rfl := congrArg Prod.snd hset
    exact ⟨hloses, fun _ => by simp [hflags], fun hno => absurd hsome hno⟩
  · rename_i hnone
    rw [hany] at hnone
    obtain rfl : s = s' := congrArg Prod.snd h
    exact ⟨by rw [Loses, if_neg hnone], fun hsome => absurd hsome hnone, fun _ => rfl⟩

/-- What one import does: one that lists the repository type sees to the client, and then it is
altered. -/
structure Converts (u : SourceUnit) (p : Place) (progress pr : Progress) (s s' : Session) (mid : Editor) :
    Prop where
  registrations : pr.registrations = progress.registrations
  brings : Brings u p → Ensures u u.settings.clientService u.settings.clientServicePath
    progress.ensured pr.ensured s.editor mid
  other : ¬Brings u p → pr.ensured = progress.ensured ∧ mid = s.editor
  alters : Alters u p (lostBy u progress s.flags p) mid s'.editor
  flagged : Flagged (Drops u p (lostBy u progress s.flags p)) s.flags s'.flags

/-- An import of the source library sees to the client if it lists the repository type, and then loses
its names. -/
theorem convertSourceImport_step {statement : Tree}
    (h : (convertSourceImport u progress statement).result s = (.ok pr, s')) :
    pr.registrations = progress.registrations ∧ ∃ mid,
      (Resolver.repositoryType ∈ importedNames u statement →
        Ensures u u.settings.clientService u.settings.clientServicePath progress.ensured pr.ensured
          s.editor mid) ∧
      (Resolver.repositoryType ∉ importedNames u statement →
        pr.ensured = progress.ensured ∧ mid = s.editor) ∧
      Loses u statement (sourceLost (importedNames u statement)) mid s'.editor ∧
      Flagged (∃ name ∈ importedNames u statement,
        name ∈ sourceLost (importedNames u statement)) s.flags s'.flags := by
  have hrest : ∀ {ensured : List String} {s1 : Session},
      (if (importedNames u statement).any (sourceLost (importedNames u statement)).contains then (do
          dropSpecifiers u statement (sourceLost (importedNames u statement))
          setFlags fun f => { f with modules := true }
          return { progress with ensured })
        else return { progress with ensured } : Pass Progress).result s1 = (.ok pr, s') →
      pr = { progress with ensured } ∧
        Loses u statement (sourceLost (importedNames u statement)) s1.editor s'.editor ∧
        Flagged (∃ name ∈ importedNames u statement,
          name ∈ sourceLost (importedNames u statement)) s1.flags s'.flags := by
    intro ensured s1 h
    have hdrops := @drops_step u s1 s' statement (sourceLost (importedNames u statement))
    split at h
    · rename_i hsome
      rw [if_pos hsome] at hdrops
      obtain ⟨_, s2, hdrop, h⟩ := result_bind_eq_ok h
      obtain ⟨_, s3, hset, h⟩ := result_bind_eq_ok h
      obtain ⟨rfl, rfl⟩ : ({ progress with ensured } : Progress) = pr ∧ s3 = s' := by simpa using h
      exact ⟨rfl, hdrops (by rw [result_bind_ok hdrop, hset])⟩
    · rename_i hnone
      rw [if_neg hnone] at hdrops
      obtain ⟨rfl, rfl⟩ : ({ progress with ensured } : Progress) = pr ∧ s1 = s' := by simpa using h
      exact ⟨rfl, hdrops rfl⟩
  unfold convertSourceImport at h
  extract_lets names repositories dropped rest at h
  by_cases hrepository : Resolver.repositoryType ∈ importedNames u statement
  · rw [if_pos (List.contains_iff_mem.2 hrepository : repositories = true)] at h
    obtain ⟨ensured, s1, hensure, h⟩ := result_bind_eq_ok h
    obtain ⟨hensures, hflags⟩ := ensureImport_step hensure
    obtain ⟨rfl, hloses, hflagged⟩ := hrest h
    exact ⟨rfl, s1.editor, fun _ => hensures, fun hno => absurd hrepository hno, hloses,
      hflags ▸ hflagged⟩
  · rw [if_neg (List.contains_iff_mem.not.2 hrepository : ¬repositories = true)] at h
    obtain ⟨ensured, s1, hpure, h⟩ := result_bind_eq_ok h
    obtain ⟨rfl, rfl⟩ : progress.ensured = ensured ∧ s = s1 := by simpa using hpure
    obtain ⟨rfl, hloses, hflagged⟩ := hrest h
    exact ⟨rfl, s.editor, fun hb => absurd hb hrepository, fun _ => ⟨rfl, rfl⟩, hloses, hflagged⟩

section Converts

variable {path : String}

theorem not_brings (hne : modulePath? u p.tree ≠ some sourceLibrary) : ¬Brings u p := fun hb => hne hb.1

theorem lostBy_other {flags : Flags} (hlib : ∀ path, modulePath? u p.tree = some path → ¬isLibrary path) :
    lostBy u progress flags p = [] := by
  unfold lostBy
  split
  · rfl
  rename_i path hpath
  obtain ⟨hsource, hintegration⟩ := not_or.1 (hlib path hpath)
  rw [if_neg hsource, if_neg hintegration]

theorem source_converts (hpath : modulePath? u p.tree = some sourceLibrary)
    (h : (convertSourceImport u progress p.tree).result s = (.ok pr, s')) :
    ∃ mid, Converts u p progress pr s s' mid := by
  obtain ⟨hcount, mid, hbrings, hnone, hloses, hflagged⟩ := convertSourceImport_step h
  have hlost : lostBy u progress s.flags p = sourceLost (importedNames u p.tree) := by
    rw [lostBy, hpath]
    exact if_pos rfl
  have hdrops : Drops u p (lostBy u progress s.flags p) ↔ ∃ name ∈ importedNames u p.tree,
      name ∈ sourceLost (importedNames u p.tree) := by
    have hrepository : isRepositoryPath sourceLibrary = false := by decide
    simp [Drops, hpath, hlost, hrepository]
  refine ⟨mid, hcount, fun hb => hbrings hb.2, fun hb => hnone fun hmem => hb ⟨hpath, hmem⟩, ?_,
    fun hd => hflagged.fired (hdrops.1 hd), fun hd => hflagged.idle (hdrops.not.1 hd)⟩
  simp only [Alters, hpath, hlost]
  rwa [if_pos (.inl rfl)]

theorem Converts.alone (hne : modulePath? u p.tree ≠ some sourceLibrary)
    (halters : Alters u p (lostBy u progress s.flags p) s.editor s'.editor)
    (hflagged : Flagged (Drops u p (lostBy u progress s.flags p)) s.flags s'.flags) :
    ∃ mid, Converts u p progress progress s s' mid :=
  ⟨s.editor, rfl, fun h => absurd h (not_brings hne), fun _ => ⟨rfl, rfl⟩, halters, hflagged⟩

theorem integration_converts (hpath : modulePath? u p.tree = some integrationLibrary)
    (h : (convertIntegrationImport u progress p.tree).result s = (.ok (), s')) :
    ∃ mid, Converts u p progress progress s s' mid := by
  have hne : integrationLibrary ≠ sourceLibrary := by decide
  have hrepository : isRepositoryPath integrationLibrary = false := by decide
  rw [convertIntegrationImport_eq, result_bind_ok (result_get s)] at h
  obtain ⟨hloses, hflagged⟩ := drops_step h
  have hlost : lostBy u progress s.flags p = lost progress s.flags := by
    simp [lostBy, hpath, hne]
  have hdrops : Drops u p (lostBy u progress s.flags p) ↔ ∃ name ∈ importedNames u p.tree,
      name ∈ lost progress s.flags := by
    simp [Drops, hpath, hlost, hrepository]
  refine Converts.alone (by simp [hpath, hne]) ?_
    ⟨fun hd => hflagged.fired (hdrops.1 hd), fun hd => hflagged.idle (hdrops.not.1 hd)⟩
  simp only [Alters, hpath, hlost]
  rwa [if_pos (.inr rfl)]

theorem repository_converts (hpath : modulePath? u p.tree = some path) (hlib : ¬isLibrary path)
    (hrepository : isRepositoryPath path = true)
    (hok : s.editor.removeStatement p.tree = .ok s'.editor)
    (hflags : s'.flags = { s.flags with modules := true }) :
    ∃ mid, Converts u p progress progress s s' mid := by
  refine Converts.alone ?_ ?_ ⟨fun _ => hflags, fun hno => absurd (.inr ⟨path, hpath, hrepository⟩) hno⟩
  · rw [hpath]
    rintro ⟨⟩
    exact hlib (.inl rfl)
  · simp only [Alters, hpath, if_neg hlib, if_pos hrepository]
    exact hok

theorem other_converts
    (hother : ∀ path, modulePath? u p.tree = some path → ¬isLibrary path ∧ ¬isRepositoryPath path = true)
    (halters : Alters u p [] s.editor s'.editor) (hflags : s'.flags = s.flags) :
    ∃ mid, Converts u p progress progress s s' mid := by
  have hlost : lostBy u progress s.flags p = [] := lostBy_other fun path hpath => (hother path hpath).1
  refine Converts.alone (fun hpath => (hother _ hpath).1 (.inl rfl)) (hlost ▸ halters)
    ⟨fun hdrops => ?_, fun _ => hflags⟩
  rcases hdrops with ⟨name, -, hname⟩ | ⟨path, hpath, hrepository⟩
  · simp [hlost] at hname
  · exact absurd hrepository (hother path hpath).2

theorem convertImport_step (h : (convertImport u progress p).result s = (.ok pr, s')) :
    ∃ mid, Converts u p progress pr s s' mid := by
  unfold convertImport at h
  split at h
  · rename_i hpath
    obtain ⟨rfl, rfl⟩ : progress = pr ∧ s = s' := by simpa using h
    exact other_converts (by simp [hpath]) (by simp [Alters, hpath]) rfl
  rename_i path hpath
  by_cases hsource : path = sourceLibrary
  · subst hsource
    rw [if_pos (beq_self_eq_true _)] at h
    exact source_converts hpath h
  rw [if_neg (by simpa using hsource)] at h
  by_cases hrepository : isRepositoryPath path = true
  · rw [if_pos hrepository] at h
    have hintegration : path ≠ integrationLibrary := by
      rintro rfl
      revert hrepository
      decide
    obtain ⟨_, s1, hedit, h⟩ := result_bind_eq_ok h
    obtain ⟨_, s2, hset, h⟩ := result_bind_eq_ok h
    obtain ⟨rfl, rfl⟩ : progress = pr ∧ s2 = s' := by simpa using h
    obtain rfl := congrArg Prod.snd hset
    rw [result_edit] at hedit
    split at hedit
    · rename_i editor hok
      obtain rfl : { s with editor } = s1 := congrArg Prod.snd hedit
      exact repository_converts hpath (not_or.2 ⟨hsource, hintegration⟩) hrepository hok rfl
    · cases hedit
  rw [if_neg hrepository] at h
  by_cases hintegration : path = integrationLibrary
  · subst hintegration
    rw [if_pos (beq_self_eq_true _)] at h
    obtain ⟨_, s1, hconvert, h⟩ := result_bind_eq_ok h
    obtain ⟨rfl, rfl⟩ : progress = pr ∧ s1 = s' := by simpa using h
    exact integration_converts hpath hconvert
  rw [if_neg (by simpa using hintegration)] at h
  have hlib : ¬isLibrary path := not_or.2 ⟨hsource, hintegration⟩
  have hother : ∀ path, modulePath? u p.tree = some path →
      ¬isLibrary path ∧ ¬isRepositoryPath path = true := by
    simp only [hpath, Option.some.injEq]
    rintro _ rfl
    exact ⟨hlib, hrepository⟩
  split at h
  · rename_i hentity
    obtain ⟨_, s1, hadvise, h⟩ := result_bind_eq_ok h
    obtain ⟨rfl, rfl⟩ : progress = pr ∧ s1 = s' := by simpa using h
    rw [result_advise] at hadvise
    split at hadvise
    · rename_i put editor hok
      obtain rfl := congrArg Prod.snd hadvise
      refine other_converts hother ?_ rfl
      simp only [Alters, hpath, if_neg hlib, if_neg hrepository, if_pos hentity]
      exact ⟨put, hok⟩
    · cases hadvise
  · rename_i hentity
    obtain ⟨rfl, rfl⟩ : progress = pr ∧ s = s' := by simpa using h
    refine other_converts hother ?_ rfl
    simp only [Alters, hpath, if_neg hlib, if_neg hrepository, if_neg hentity]

end Converts

section Reaching

variable {a b : Nat} {names : List String}

theorem Ensures.reaching (h : Ensures u symbol path ensured ensured' ed ed') :
    ed'.reaching a b = ed.reaching a b ∧ ed'.source = ed.source := by
  rcases h with ⟨-, -, rfl⟩ | ⟨-, -, ⟨-, rfl⟩ | ⟨-, hline⟩⟩
  · exact ⟨rfl, rfl⟩
  · exact ⟨rfl, rfl⟩
  · refine ⟨Editor.reaching_insertAt hline (.inl (Nat.zero_le a)), ?_⟩
    obtain ⟨-, rfl⟩ := Editor.insertAt_eq_ok.1 hline
    rfl

/-- The line of an import that names its module is apart from a range. -/
def LineApart (u : SourceUnit) (a b : Nat) (p : Place) : Prop :=
  ∀ path, modulePath? u p.tree = some path →
    Editor.removalStop u.source p.tree ≤ a ∨ b ≤ Editor.removalStart u.source p.tree

theorem Alters.reaching (hu : u.TopLevel) (hp : p ∈ importStatements u)
    (hsource : ed.source = u.source) (hapart : LineApart u a b p) (h : Alters u p names ed ed') :
    ed'.reaching a b = ed.reaching a b ∧ ed'.source = ed.source := by
  unfold Alters at h
  split at h
  · exact h ▸ ⟨rfl, rfl⟩
  rename_i path hpath
  have hline := hapart path hpath
  obtain ⟨hpm, -, hpc, hstatement⟩ := statement_facts hu hp hpath
  have htakes := statement_takesLine hu hp
  have h1 := htakes.start_le
  have h2 := htakes.le_stop
  have hne := top_nonempty hu hpm hpc
  have hreplaced : ∀ {c d : Nat} {text : String},
      Editor.removalStart u.source p.tree ≤ c ∧ d ≤ Editor.removalStop u.source p.tree →
      ed.replaceRange c d text = .ok ed' →
      ed'.reaching a b = ed.reaching a b ∧ ed'.source = ed.source := by
    intro c d text hin hok
    refine ⟨Editor.reaching_apart hok (by omega), ?_⟩
    obtain ⟨-, rfl⟩ := Editor.replaceRange_eq_ok.1 hok
    rfl
  have hremoved : ed.removeStatement p.tree = .ok ed' →
      ed'.reaching a b = ed.reaching a b ∧ ed'.source = ed.source := by
    intro hok
    rw [Editor.removeStatement_eq, hsource] at hok
    exact hreplaced ⟨le_rfl, le_rfl⟩ hok
  split at h
  · unfold Loses at h
    split at h
    · obtain ⟨clause, hclause, h⟩ := h
      split at h
      · exact hremoved h
      · have hrange := Tree.child_range
          (Tree.everyNode_within hu.ordered (Tree.within_of_mem hpm)) (clause_mem hclause)
        exact hreplaced ⟨by omega, by omega⟩ h
    · exact h ▸ ⟨rfl, rfl⟩
  split at h
  · exact hremoved h
  split at h
  · obtain ⟨put, hadvised⟩ := h
    rcases Editor.insertCommentBefore_ok hadvised with rfl | hok
    · exact ⟨rfl, rfl⟩
    · rw [hstatement] at hok
      refine ⟨Editor.reaching_insertAt hok (by simp only [Place.start]; omega), ?_⟩
      obtain ⟨-, rfl⟩ := Editor.insertAt_eq_ok.1 hok
      rfl
  · exact h ▸ ⟨rfl, rfl⟩

/-- What a part of the loop leaves: what reaches into a range apart from the lines of its imports. -/
structure Passes (a b : Nat) (progress pr : Progress) (s s' : Session) : Prop where
  reaching : s'.editor.reaching a b = s.editor.reaching a b
  source : s'.editor.source = s.editor.source
  registrations : pr.registrations = progress.registrations
  modules : s.flags.modules = true → s'.flags.modules = true

theorem imports_pass (hu : u.TopLevel) {l : List Place}
    (hl : ∀ q ∈ l, q ∈ importStatements u ∧ LineApart u a b q) :
    ∀ {progress : Progress} {s : Session}, s.editor.source = u.source →
      (l.foldlM (convertImport u) progress).result s = (.ok pr, s') →
      Passes a b progress pr s s' := by
  induction l with
  | nil =>
    intro progress s _ h
    obtain ⟨rfl, rfl⟩ : progress = pr ∧ s = s' := by simpa using h
    exact ⟨rfl, rfl, rfl, id⟩
  | cons q l ih =>
    intro progress s hsource h
    rw [List.foldlM_cons] at h
    obtain ⟨pr1, s1, hstep, h⟩ := result_bind_eq_ok h
    obtain ⟨mid, hconverts⟩ := convertImport_step hstep
    obtain ⟨hq, hapart⟩ := hl q (by simp)
    have hmid : mid.reaching a b = s.editor.reaching a b ∧ mid.source = s.editor.source := by
      by_cases hb : Brings u q
      · exact (hconverts.brings hb).reaching
      · rw [(hconverts.other hb).2]
        exact ⟨rfl, rfl⟩
    obtain ⟨hreaching, hsame⟩ :=
      hconverts.alters.reaching hu hq (hmid.2.trans hsource) hapart
    have hrest := ih (fun x hx => hl x (by simp [hx])) (hsame.trans (hmid.2.trans hsource)) h
    refine ⟨hrest.reaching.trans (hreaching.trans hmid.1),
      hrest.source.trans (hsame.trans hmid.2), hrest.registrations.trans hconverts.registrations,
      fun hflag => hrest.modules (hconverts.flagged.kept hflag)⟩

end Reaching

end OrmCodemod.Imports
