import OrmCodemod.Proofs.Licence

/-! The edits of the import stage. What an invariant of the editor has to admit is said once, edit by
edit and with the import statements seen so far; the stage then keeps the invariant. -/

namespace OrmCodemod.Imports

open Syntax Text Pass

def importLine (u : SourceUnit) (symbol path : String) : String :=
  "import \x7b " ++ symbol ++ " \x7d from " ++ quote u ++ path ++ quote u ++ ";\n"

/-- The names that a pass imports, with their modules. -/
def isWanted (u : SourceUnit) (symbol path : String) : Prop :=
  symbol = u.settings.clientService ∧ path = u.settings.clientServicePath ∨
    symbol = u.settings.moduleName ∧ path = u.settings.modulePath

/-- The libraries whose imports lose names. -/
def isLibrary (path : String) : Prop := path = sourceLibrary ∨ path = integrationLibrary

def registrationText (u : SourceUnit) (method : String) : String :=
  if rootRegistrations.contains method then u.settings.moduleName ++ "()" else u.settings.moduleName

/-- What the import stage asks of an invariant. `I l` has to hold after the import statements `l`. -/
structure Admits (u : SourceUnit) (I : List Place → Session → Prop) (E : Fault → Session → Prop) :
    Prop where
  told : ∀ l s s', s'.editor = s.editor → s'.advisories = s.advisories → I l s → I l s'
  line : ∀ l symbol path, isWanted u symbol path →
    Holds (I l) (edit (·.insertAt 0 (importLine u symbol path)))
      (fun _ => I l) E
  registration : ∀ site ∈ registrationSites u, ∀ s editor, I [] s →
    s.editor.replace site.1.tree (registrationText u site.2) = .ok editor → I [] { s with editor }
  pass : ∀ l p r, importStatements u = l ++ p :: r → ∀ s, I l s → I (l ++ [p]) s
  clause : ∀ l p r path clause text, importStatements u = l ++ p :: r →
    modulePath? u p.tree = some path → isLibrary path → clause? p.tree = some clause →
    (∃ s ∈ specifiers p.tree, importedName u s ≠ "") →
    Holds (I l) (edit (·.replace clause text))
      (fun _ => I (l ++ [p])) E
  removal : ∀ l p r path, importStatements u = l ++ p :: r → modulePath? u p.tree = some path →
    isLibrary path ∨ isRepositoryPath path = true →
    Holds (I l) (edit (·.removeStatement p.tree))
      (fun _ => I (l ++ [p])) E
  advisory : ∀ l p r path, importStatements u = l ++ p :: r → modulePath? u p.tree = some path →
    isEntityPath path = true → Holds (I l) (advise p entityImportAdvisory)
      (fun _ => I (l ++ [p])) E

variable {u : SourceUnit} {I : List Place → Session → Prop} {E : Fault → Session → Prop}

theorem Admits.quiet (hA : Admits u I E) (l : List Place) {α : Type} {x : Pass α} (hx : Quiet x) :
    Holds (I l) x (fun _ => I l) E :=
  hx.keeps_told fun s s' he _ hn h => hA.told l s s' he hn h

theorem Admits.setFlags (hA : Admits u I E) (l : List Place) (f : Flags → Flags) :
    Holds (I l) (Pass.setFlags f) (fun _ => I l) E :=
  Holds.modify fun s h => hA.told l s _ rfl rfl h

theorem ensureImport_holds (hA : Admits u I E) (l : List Place) {symbol path : String}
    (hw : isWanted u symbol path) (ensured : List String) :
    Holds (I l) (ensureImport u symbol path ensured) (fun _ => I l) E := by
  dsimp only [ensureImport]
  split
  · exact Holds.pure fun _ hs => hs
  · split
    · refine Holds.bind (hA.line l symbol path hw) fun _ => ?_
      exact Holds.bind (hA.quiet l (Quiet.say _ _)) fun _ => Holds.pure fun _ hs => hs
    · exact Holds.pure fun _ hs => hs

theorem convertRegistration_holds (hA : Admits u I E) {site : Place × String}
    (hs : site ∈ registrationSites u) (progress : Progress) :
    Holds (I []) (convertRegistration u progress site.1 site.2) (fun _ => I []) E := by
  dsimp only [convertRegistration]
  refine Holds.get fun s hI => ?_
  split
  · refine Holds.mono (P := I []) ?_ (fun _ h => h ▸ hI) (fun _ _ h => h) fun _ _ h => h
    exact Holds.bind (hA.quiet [] (Quiet.say _ _)) fun _ => Holds.pure fun _ hs => hs
  · rename_i editor hed
    refine Holds.bind (Q := fun _ => I []) (Holds.modify fun s' hs' => ?_) fun _ => ?_
    · exact hs' ▸ hA.registration site hs s editor hI hed
    · refine Holds.bind (ensureImport_holds hA [] (.inr ⟨rfl, rfl⟩) _) fun _ => ?_
      exact Holds.bind (hA.setFlags [] _) fun _ => Holds.pure fun _ hs => hs

theorem convertRegistrations_holds (hA : Admits u I E) :
    Holds (I []) (convertRegistrations u (registrationSites u)) (fun _ => I []) E := by
  refine Holds.foldlM (I := fun _ _ => I []) fun l x r b hl => ?_
  dsimp only
  split
  · exact Holds.pure fun _ hs => hs
  · exact convertRegistration_holds hA (hl ▸ by simp) b

theorem ne_empty_of_dropped {a b : Bool} {name : String}
    (h : name ∈ (if a then repositoryNames else []) ++ (if b then schemaNames else []) ∨
      name ∈ (if a then [] else [registrar]) ++ (if b then [Calls.injectionDecorator] else [])) :
    name ≠ "" := by
  rintro rfl
  revert h
  cases a <;> cases b <;> decide

theorem dropSpecifiers_holds (hA : Admits u I E) {l r : List Place} {p : Place} {path : String}
    (hl : importStatements u = l ++ p :: r) (hp : modulePath? u p.tree = some path)
    (hlib : isLibrary path) (hs : ∃ s ∈ specifiers p.tree, importedName u s ≠ "")
    (dropped : List String) :
    Holds (I l) (dropSpecifiers u p.tree dropped) (fun _ => I (l ++ [p])) E := by
  unfold dropSpecifiers
  split
  · exact Holds.pure fun s hI => hA.pass l p r hl _ hI
  · rename_i clause hclause
    extract_lets kept others parts
    split
    · exact hA.removal l p r path hl hp (.inl hlib)
    · exact hA.clause l p r path clause _ hl hp hlib hclause hs

theorem convertSourceImport_holds (hA : Admits u I E) {l r : List Place} {p : Place}
    (hl : importStatements u = l ++ p :: r) (hp : modulePath? u p.tree = some sourceLibrary)
    (progress : Progress) :
    Holds (I l) (convertSourceImport u progress p.tree) (fun _ => I (l ++ [p])) E := by
  unfold convertSourceImport
  extract_lets names repositories dropped rest
  have hrest : ∀ ensured, Holds (I l) (rest ensured) (fun _ => I (l ++ [p])) E := by
    intro ensured
    dsimp only [rest]
    split
    · rename_i hany
      obtain ⟨n, hn, hdrop⟩ := List.any_eq_true.1 hany
      obtain ⟨s, hs, rfl⟩ := List.mem_map.1 hn
      refine Holds.bind (dropSpecifiers_holds hA hl hp (.inl rfl) ⟨s, hs, ?_⟩ _) fun _ => ?_
      · exact ne_empty_of_dropped (.inl (List.contains_iff_mem.1 hdrop))
      · exact Holds.bind (hA.setFlags _ _) fun _ => Holds.pure fun _ hs => hs
    · exact Holds.pure fun s hI => hA.pass l p r hl _ hI
  split
  · exact Holds.bind (ensureImport_holds hA l (.inl ⟨rfl, rfl⟩) _) hrest
  · exact Holds.bind (Q := fun _ => I l) (Holds.pure fun _ h => h) hrest

theorem convertIntegrationImport_holds (hA : Admits u I E) {l r : List Place} {p : Place}
    (hl : importStatements u = l ++ p :: r) (hp : modulePath? u p.tree = some integrationLibrary)
    (progress : Progress) :
    Holds (I l) (convertIntegrationImport u progress p.tree) (fun _ => I (l ++ [p])) E := by
  unfold convertIntegrationImport
  refine Holds.get fun s hI => ?_
  refine Holds.mono (P := I l) ?_ (fun _ h => h ▸ hI) (fun _ _ h => h) fun _ _ h => h
  extract_lets dropped
  split
  · rename_i hany
    obtain ⟨n, hn, hdrop⟩ := List.any_eq_true.1 hany
    obtain ⟨s, hs, rfl⟩ := List.mem_map.1 hn
    refine Holds.bind (dropSpecifiers_holds hA hl hp (.inr rfl) ⟨s, hs, ?_⟩ _) fun _ => ?_
    · exact ne_empty_of_dropped (.inr (List.contains_iff_mem.1 hdrop))
    · exact hA.setFlags _ _
  · exact Holds.pure fun s hI => hA.pass l p r hl _ hI

theorem convertImport_holds (hA : Admits u I E) {l r : List Place} {p : Place}
    (hl : importStatements u = l ++ p :: r) (progress : Progress) :
    Holds (I l) (convertImport u progress p) (fun _ => I (l ++ [p])) E := by
  dsimp only [convertImport]
  split
  · exact Holds.pure fun s hI => hA.pass l p r hl _ hI
  · rename_i path hpath
    split
    · rename_i hsource
      obtain rfl := beq_iff_eq.1 hsource
      exact convertSourceImport_holds hA hl hpath progress
    split
    · rename_i hrepo
      refine Holds.bind (hA.removal l p r path hl hpath (.inr hrepo)) fun _ => ?_
      exact Holds.bind (hA.setFlags _ _) fun _ => Holds.pure fun _ hs => hs
    split
    · rename_i hlib
      obtain rfl := beq_iff_eq.1 hlib
      exact Holds.bind (convertIntegrationImport_holds hA hl hpath progress) fun _ =>
        Holds.pure fun _ hs => hs
    split
    · rename_i hentity
      exact Holds.bind (hA.advisory l p r path hl hpath hentity) fun _ =>
        Holds.pure fun _ hs => hs
    · exact Holds.pure fun s hI => hA.pass l p r hl _ hI

theorem convert_holds (hA : Admits u I E) :
    Holds (I []) (convert u) (fun _ => I (importStatements u)) E := by
  dsimp only [convert]
  refine Holds.bind (convertRegistrations_holds hA) fun progress => ?_
  refine Holds.bind (Q := fun _ => I (importStatements u)) ?_ fun _ =>
    Holds.pure fun _ hs => hs
  exact Holds.foldlM (I := fun l _ => I l) fun l p r b hl => convertImport_holds hA hl b

end OrmCodemod.Imports
