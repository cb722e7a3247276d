import OrmCodemod.Proofs.Injection
import OrmCodemod.Proofs.Introduced
import OrmCodemod.Proofs.Rest

/-! Names that imports of the integration library lose, and their uses. An import loses a name once one
use of it is rewritten. By then the pass has come to every use that it rewrites: each registration is
replaced, alone or with one around it, unless it stands in what is replaced of a call; and of a
constructor that is swapped as a whole no repository parameter is left. Uses of other shapes are not
looked at, and stay. -/

namespace OrmCodemod

open Syntax Text Pass

theorem Pass.swapFlag_permits : Permits fun s s' => s'.flags.repositories = s.flags.repositories :=
  .of_records (fun _ => rfl) (fun h h' => h'.trans h) (fun _ _ => rfl) (fun _ _ => rfl)
    (fun _ _ _ h => h) fun _ _ _ => rfl

namespace Imports

variable {u : SourceUnit} {site : Place × String} {progress pr pr' : Progress} {s s' : Session}
  {p : Place}

def lost (progress : Progress) (flags : Flags) : List String :=
  (if progress.registrations == 0 then [] else [registrar]) ++
    (if flags.repositories then [Calls.injectionDecorator] else [])

theorem registrar_mem_lost {flags : Flags} :
    registrar ∈ lost progress flags ↔ progress.registrations ≠ 0 := by
  have hne : registrar ≠ Calls.injectionDecorator := by decide
  cases h : flags.repositories <;> by_cases h0 : progress.registrations = 0 <;> simp [lost, h, h0, hne]

theorem injectionDecorator_mem_lost {flags : Flags} :
    Calls.injectionDecorator ∈ lost progress flags ↔ flags.repositories = true := by
  have hne : Calls.injectionDecorator ≠ registrar := by decide
  cases h : flags.repositories <;> by_cases h0 : progress.registrations = 0 <;> simp [lost, h, h0, hne]

def keptParts (u : SourceUnit) (statement clause : Tree) (names : List String) : List String :=
  let kept := (specifiers statement).filter fun s => !names.contains (importedName u s)
  (clause.significant.filter fun c => !c.is .namedImports).map (·.text u.source) ++
    (if kept.isEmpty then []
      else ["\x7b " ++ joinWith ", " (kept.map (·.text u.source)) ++ " \x7d"])

/-- An import loses those of its names that are among the given ones: what it keeps of its clause comes
in the place of the clause; where it keeps nothing, the statement goes; and where it has none of them,
nothing is done. -/
def Loses (u : SourceUnit) (statement : Tree) (names : List String) (ed ed' : Editor) : Prop :=
  if ∃ name ∈ importedNames u statement, name ∈ names then
    ∃ clause, clause? statement = some clause ∧
      if keptParts u statement clause names = [] then ed.removeStatement statement = .ok ed'
      else ed.replace clause (joinWith ", " (keptParts u statement clause names)) = .ok ed'
  else ed' = ed

theorem dropSpecifiers_loses {statement : Tree} {names : List String}
    (hsome : ∃ name ∈ importedNames u statement, name ∈ names)
    (h : (dropSpecifiers u statement names).result s = (.ok (), s')) :
    Loses u statement names s.editor s'.editor := by
  rw [Loses, if_pos hsome]
  unfold dropSpecifiers at h
  cases hclause : clause? statement with
  | none =>
    -- an import without a clause lists no names
    obtain ⟨name, hname, -⟩ := hsome
    simp [importedNames, specifiers, hclause] at hname
  | some clause =>
    refine ⟨clause, rfl, ?_⟩
    rw [hclause] at h
    dsimp only at h
    change (if (keptParts u statement clause names).isEmpty then
        Pass.edit (·.removeStatement statement) else
        Pass.edit (·.replace clause (joinWith ", " (keptParts u statement clause names)))).result s =
      (.ok (), s') at h
    simp only [List.isEmpty_iff] at h
    split at h <;> rename_i hparts <;> rw [result_edit] at h <;> split at h
    · rename_i editor hok
      rw [if_pos hparts, hok]
      exact congrArg Except.ok (congrArg (fun r => r.2.editor) h)
    · cases h
    · rename_i editor hok
      rw [if_neg hparts, hok]
      exact congrArg Except.ok (congrArg (fun r => r.2.editor) h)
    · cases h

theorem convertIntegrationImport_eq (u : SourceUnit) (progress : Progress) (statement : Tree) :
    convertIntegrationImport u progress statement = (do
      let names := lost progress (← get).flags
      if (importedNames u statement).any names.contains then
        dropSpecifiers u statement names
        setFlags fun f => { f with modules := true }) :=
  rfl

/-- What an import of the integration library loses is told by the state in which it is reached. -/
theorem convertImport_loses (hpath : modulePath? u p.tree = some integrationLibrary)
    (h : (convertImport u progress p).result s = (.ok pr, s')) :
    pr = progress ∧ Loses u p.tree (lost progress s.flags) s.editor s'.editor := by
  have hlibrary : ¬(integrationLibrary == sourceLibrary) = true := by decide
  have hrepository : ¬isRepositoryPath integrationLibrary = true := by decide
  unfold convertImport at h
  rw [hpath] at h
  dsimp only at h
  rw [if_neg hlibrary, if_neg hrepository, if_pos (beq_self_eq_true _)] at h
  obtain ⟨_, s1, hconvert, hpure⟩ := result_bind_eq_ok h
  obtain ⟨rfl, rfl⟩ : progress = pr ∧ s1 = s' := by simpa using hpure
  refine ⟨rfl, ?_⟩
  rw [convertIntegrationImport_eq, result_bind_ok (result_get s)] at hconvert
  have hany : (importedNames u p.tree).any (lost progress s.flags).contains = true ↔
      ∃ name ∈ importedNames u p.tree, name ∈ lost progress s.flags := by
    simp
  dsimp only at hconvert
  split at hconvert
  · rename_i hsome
    obtain ⟨_, s2, hdrop, hset⟩ := result_bind_eq_ok hconvert
    have heditor : s2.editor = s1.editor := congrArg (fun r => r.2.editor) hset
    exact heditor ▸ dropSpecifiers_loses (hany.1 hsome) hdrop
  · rename_i hnone
    obtain rfl : s = s1 := congrArg Prod.snd hconvert
    rw [Loses, if_neg (hany.not.1 hnone)]

theorem convertImport_registrations (u : SourceUnit) (progress : Progress) (p : Place) :
    Holds (fun _ => True) (convertImport u progress p)
      (fun pr _ => pr.registrations = progress.registrations) fun _ _ => True := by
  have hany : ∀ {α : Type} (x : Pass α), Holds (fun _ => True) x (fun _ _ => True) fun _ _ => True := by
    intro α x s _
    rcases x.result s with ⟨_ | _, _⟩ <;> trivial
  have hsame : ∀ {α : Type} (x : Pass α) (pr : Progress), pr.registrations = progress.registrations →
      Holds (fun _ => True) (x >>= fun _ => pure pr)
        (fun pr _ => pr.registrations = progress.registrations) fun _ _ => True :=
    fun x pr h => Holds.bind (hany x) fun _ => Holds.pure fun _ _ => h
  unfold convertImport
  split
  · exact Holds.pure fun _ _ => rfl
  split
  · unfold convertSourceImport
    extract_lets names repositories dropped rest
    have hrest : ∀ ensured, Holds (fun _ => True) (rest ensured)
        (fun pr _ => pr.registrations = progress.registrations) fun _ _ => True := by
      intro ensured
      dsimp only [rest]
      split
      · exact Holds.bind (hany _) fun _ => hsame _ _ rfl
      · exact Holds.pure fun _ _ => rfl
    split
    · exact Holds.bind (hany _) hrest
    · exact Holds.bind (hany _) hrest
  split
  · exact Holds.bind (hany _) fun _ => hsame _ _ rfl
  split
  · exact hsame _ _ rfl
  split
  · exact hsame _ _ rfl
  · exact Holds.pure fun _ _ => rfl

theorem lost_constant {l : List Place}
    (h : (l.foldlM (convertImport u) progress).result s = (.ok pr, s')) :
    lost pr s'.flags = lost progress s.flags := by
  have hcount : pr.registrations = progress.registrations := by
    have hfold : Holds (fun _ => True) (l.foldlM (convertImport u) progress)
        (fun pr _ => pr.registrations = progress.registrations) fun _ _ => True := by
      refine (Holds.foldlM (I := fun _ b _ => b.registrations = progress.registrations)
        fun l p r b _ => ?_).mono (fun _ _ => rfl) (fun _ _ h => h) fun _ _ h => h
      intro s hb
      exact ((convertImport_registrations u b p).mono (fun _ h => h) (fun _ _ h => h.trans hb)
        fun _ _ h => h) s trivial
    exact hfold.ok trivial h
  have hflag := (Along.foldlM l progress fun b p =>
    convertImport_along swapFlag_permits u b p).after swapFlag_permits s
  rw [h] at hflag
  rw [lost, lost, hcount, hflag]

def Topmost (u : SourceUnit) (site : Place × String) : Prop :=
  ((registrationSites u).any fun other => encloses other.1 site.1) = false

theorem exists_topmost (hs : site ∈ registrationSites u) : ∃ top ∈ registrationSites u,
    Topmost u top ∧ top.1.start ≤ site.1.start ∧ site.1.stop ≤ top.1.stop := by
  let around := (registrationSites u).filter fun other =>
    decide (other.1.start ≤ site.1.start ∧ site.1.stop ≤ other.1.stop)
  have hmem : ∀ {other}, other ∈ around ↔ other ∈ registrationSites u ∧
      other.1.start ≤ site.1.start ∧ site.1.stop ≤ other.1.stop := by
    intro other
    rw [List.mem_filter, decide_eq_true_iff]
  have hne : around ≠ [] := List.ne_nil_of_mem (hmem.2 ⟨hs, le_rfl, le_rfl⟩)
  obtain ⟨top, htop, hmax⟩ :=
    exists_outermost (fun x hx => (registration_within (hmem.1 hx).1).2.1) hne
  obtain ⟨hsite, h1, h2⟩ := hmem.1 htop
  refine ⟨top, hsite, List.any_eq_false.2 fun other ho henc => ?_, h1, h2⟩
  -- what is around the outermost one is around the registration as well
  obtain ⟨-, h3, h4⟩ := encloses_iff.1 henc
  have hout := hmax other (hmem.2 ⟨ho, by omega, by omega⟩)
  rw [henc] at hout
  cases hout

theorem convertRegistration_replaces (hu : u.TopLevel) (hs : site ∈ registrationSites u)
    (progress : Progress) :
    Holds (fun s => ∀ e ∈ s.editor.edits, Inner u e) (convertRegistration u progress site.1 site.2)
      (fun _ s => s.editor.Replaces site.1.start site.1.stop) fun _ _ => True := by
  have hlt := registration_nonempty hu.toNested hs
  have hlater : ∀ {α : Type} {x : Pass α}, (Along (fun s s' => s.editor.ReplacesMore s'.editor) x) →
      Holds (fun s => s.editor.Replaces site.1.start site.1.stop) x
        (fun _ s => s.editor.Replaces site.1.start site.1.stop) fun _ _ => True :=
    fun hx => hx.holds replacesMore_permits fun _ _ h hr => h _ _ hr
  dsimp only [convertRegistration]
  refine Holds.get fun s hinner => ?_
  split
  · -- an edit is in the way: it holds the registration
    rename_i o herr
    refine Holds.bind (Q := fun _ s => s.editor.Replaces site.1.start site.1.stop)
      (Holds.modify fun s' hs' => ?_) fun _ => Holds.pure fun _ h => h
    obtain ⟨e, he, -, hcut⟩ := Editor.replaceRange_eq_error herr
    have hnode := (hinner e he).node_or_apart hu (registration_within hs).1.within
    simp only [Place.start, Place.stop] at hlt ⊢
    refine hs' ▸ ⟨e, he, ?_⟩
    rw [Edit.inside_iff] at hnode hcut
    omega
  · rename_i editor hok
    refine Holds.bind (Q := fun _ s => s.editor.Replaces site.1.start site.1.stop)
      (Holds.modify fun s' hs' => Editor.replaces_self hlt hok) fun _ => ?_
    exact hlater ((ensureImport_along replacesMore_permits u _ _ _).bind fun _ =>
      (flagModules_along replacesMore_permits).bind fun _ => Along.pure _)

/-- The edits are those of the imports so far, and of the given registrations the topmost ones are
replaced. -/
def TopmostReplaced (u : SourceUnit) (sites : List (Place × String)) (ed : Editor) : Prop :=
  Tidy u [] ed ∧ ∀ site ∈ sites, Topmost u site → ed.Replaces site.1.start site.1.stop

theorem convertRegistrations_replaces (hu : u.TopLevel) {source : String}
    (hsource : u.source = encode source) (ha : u.root.everyNode (Tree.aligned u.source) = true) :
    Holds (fun s => Tidy u [] s.editor) (convertRegistrations u (registrationSites u))
      (fun _ s => ∀ site ∈ registrationSites u, s.editor.Replaces site.1.start site.1.stop)
      fun _ _ => True := by
  have hinner : ∀ {ed}, Tidy u [] ed → ∀ e ∈ ed.edits, Inner u e := by
    intro ed h e he
    rcases (h.all e he).1 with hin | ⟨p, hp, -⟩
    · exact hin
    · simp at hp
  have hrun : Holds (fun s => Tidy u [] s.editor) (convertRegistrations u (registrationSites u))
      (fun _ s => TopmostReplaced u (registrationSites u) s.editor) fun _ _ => True := by
    refine Holds.mono (P := fun s => TopmostReplaced u [] s.editor) ?_ (fun s h => ⟨h, by simp⟩)
      (fun _ _ h => h) fun _ _ h => h
    refine Holds.foldlM (I := fun l _ s => TopmostReplaced u l s.editor) fun l site r b hl => ?_
    have hs : site ∈ registrationSites u := hl ▸ by simp
    dsimp only
    split
    · rename_i hheld
      refine Holds.pure fun s h => ⟨h.1, fun x hx htop => ?_⟩
      rcases List.mem_append.1 hx with hx | hx
      · exact h.2 x hx htop
      · obtain rfl := List.mem_singleton.1 hx
        rw [Topmost, hheld] at htop
        cases htop
    · have htidy : Holds (fun s => TopmostReplaced u l s.editor) _ _ _ :=
        (convertRegistration_holds (imports_complete hu hsource ha) hs b).mono
          (fun _ h => h.1) (fun _ _ h => h) fun _ _ h => h
      have hnew : Holds (fun s => TopmostReplaced u l s.editor) _ _ _ :=
        (convertRegistration_replaces hu hs b).mono
          (fun _ h => hinner h.1) (fun _ _ h => h) fun _ _ h => h
      have hold := (convertRegistration_along replacesMore_permits u b site.1 site.2).holds
        replacesMore_permits (P := fun s => ∀ x ∈ l, Topmost u x →
          s.editor.Replaces x.1.start x.1.stop) fun _ _ h hs x hx htop => h _ _ (hs x hx htop)
      refine (htidy.and (hnew.and (hold.mono (fun _ h => h.2) (fun _ _ h => h) fun _ _ h => h))).mono
        (fun _ h => h) (fun _ s h => ⟨h.1, fun x hx htop => ?_⟩) fun _ _ _ => trivial
      rcases List.mem_append.1 hx with hx | hx
      · exact h.2.2 x hx htop
      · exact List.mem_singleton.1 hx ▸ h.2.1
  refine hrun.mono (fun _ h => h) (fun _ s h site hs => ?_) fun _ _ h => h
  obtain ⟨top, ht, htop, h1, h2⟩ := exists_topmost hs
  obtain ⟨e, he, hlt, h3, h4⟩ := h.2 top ht htop
  exact ⟨e, he, hlt, by omega, by omega⟩

end Imports

namespace Calls

variable {u : SourceUnit} {method : Place} {done rest : List Place} {s : Session}

/-- A constructor that is swapped as a whole: it has repository parameters, and no two of those to
remove go with the same comma. -/
def Swappable (u : SourceUnit) (method : Place) : Prop :=
  injected u method ≠ [] ∧ Untangled (injected u method).tail

instance : DecidablePred (Swappable u) := fun method =>
  inferInstanceAs (Decidable (injected u method ≠ [] ∧ Untangled (injected u method).tail))

/-- A constructor that is swapped as a whole sets the flag, and none of its repository parameters is
left; no other constructor sets the flag. -/
theorem convertConstructor_swaps (hu : u.Nested)
    (hfind : u.place.find [.methodDefinition] = done ++ method :: rest)
    (hs : Recorded u (Confined done) s.editor) :
    ∃ s', (convertConstructor u method).result s = (.ok (), s') ∧
      (s'.flags.repositories = true ↔ s.flags.repositories = true ∨ Swappable u method) ∧
      (Swappable u method → ∀ p ∈ injected u method, s'.editor.Replaces p.start p.stop) := by
  have hm : method ∈ u.place.find [.methodDefinition] := by simp [hfind]
  cases hinj : injected u method with
  | nil =>
    refine ⟨s, ?_, by simp [Swappable, hinj], by simp⟩
    rw [convertConstructor_eq, hinj]
    rfl
  | cons first others =>
    obtain ⟨params, hparams, hlist⟩ := injected_listed hm (by simp [hinj])
    rw [hinj] at hlist
    have hspared := spared_of_confined hu (Place.find_rooted u.place_rooted hm) hparams hlist
      (methods_later hu hfind) hs.all
    have hswappable : Swappable u method ↔ Untangled others := by simp [Swappable, hinj]
    rw [hswappable]
    obtain ⟨s', hrun, ⟨hun, rfl⟩ | hhalf⟩ := convertConstructor_result hu hinj hlist hspared
    · refine ⟨_, hrun, by simp [hun], fun _ p hp => ?_⟩
      have hb := hlist.bounds hu hp
      -- the change that takes the parameter away
      obtain ⟨c, hc, h1, h2⟩ : ∃ c ∈ arrival u first :: others.map departure,
          c.start ≤ p.start ∧ p.stop ≤ c.stop := by
        rcases List.mem_cons.1 hp with rfl | hp
        · exact ⟨_, List.mem_cons_self, le_rfl, le_rfl⟩
        · exact ⟨_, List.mem_cons_of_mem _ (List.mem_map_of_mem hp), hb.2.1, hb.2.2.2.1⟩
      obtain ⟨e, he, h3, h4, -⟩ := Editor.change_recorded s.editor hc
      exact ⟨e, he, by omega, by omega, by omega⟩
    · have hun := (hhalf.not_whole hs.sound).1
      obtain ⟨l, p, q, r, -, -, -, rfl⟩ := hhalf
      exact ⟨_, hrun, by simp [hun, swapped], fun h => absurd h hun⟩

/-- Constructors that can be swapped as a whole are: of those no repository parameter is left, and the
flag tells whether there is one. -/
theorem convertConstructors_swaps (hu : u.Nested)
    (hs : Recorded u (fun e => e.start = e.stop) s.editor) :
    ∃ s', (convertConstructors u).result s = (.ok (), s') ∧
      (s'.flags.repositories = true ↔ s.flags.repositories = true ∨
        ∃ method ∈ u.place.find [.methodDefinition], Swappable u method) ∧
      ∀ method ∈ u.place.find [.methodDefinition], Swappable u method →
        ∀ p ∈ injected u method, s'.editor.Replaces p.start p.stop := by
  let I : List Place → Session → Prop := fun done s' => Recorded u (Confined done) s'.editor ∧
    (s'.flags.repositories = true ↔ s.flags.repositories = true ∨ ∃ m ∈ done, Swappable u m) ∧
    ∀ m ∈ done, Swappable u m → ∀ p ∈ injected u m, s'.editor.Replaces p.start p.stop
  have hrun : Holds (I []) (convertConstructors u) (fun _ => I (u.place.find [.methodDefinition]))
      fun _ _ => False := by
    refine Holds.forM (I := I) fun done method rest hfind s1 ⟨hrec, hflag, hgone⟩ => ?_
    obtain ⟨s2, hres, hflag', hnew⟩ := convertConstructor_swaps hu hfind hrec
    have hrec' := (convertConstructor_confined (E := fun _ _ => False) hu
      (hfind ▸ by simp : method ∈ u.place.find [.methodDefinition])).ok hrec hres
    have hmore := (convertConstructor_along replacesMore_permits (fun _ _ _ h => h) u method).after
      replacesMore_permits s1
    rw [hres] at hmore ⊢
    refine ⟨hrec', ?_, fun m hm hsw p hp => ?_⟩
    · rw [hflag', hflag]
      simp only [List.mem_append, List.mem_singleton, or_and_right, exists_or, exists_eq_left, or_assoc]
    · rcases List.mem_append.1 hm with hm | hm
      · exact hmore _ _ (hgone m hm hsw p hp)
      · obtain rfl := List.mem_singleton.1 hm
        exact hnew hsw p hp
  obtain ⟨_, s', hres, -, hflag, hgone⟩ := hrun.exists_ok
    (⟨hs.imp fun _ he => .inl he, by simp, by simp⟩ : I [] s)
  exact ⟨s', hres, hflag, hgone⟩

/-- The source is not shown where a place stands: it lies in the range of an edit that is no edit of a
call, and all that is shown in that range is the text of the edit. -/
def Gone (u : SourceUnit) (sh : Editor) (p : Place) : Prop :=
  ∃ e, Around u e ∧ e.start ≤ p.start ∧ p.stop ≤ e.stop ∧ e.start < e.stop ∧
    ∀ q, e.start ≤ q → q < e.stop →
      sh.view.shown q = if e.start = q then e.replacement else []

theorem gone_of_replaces {sh : Editor} {p : Place} (h : Recorded u (Around u) sh)
    (hr : sh.Replaces p.start p.stop) : Gone u sh p := by
  obtain ⟨e, he, hlt, h1, h2⟩ := hr
  exact ⟨e, h.all e he, h1, h2, hlt, fun q h3 h4 =>
    Edit.shown_of_covers h.sound.apart he (Edit.covers_iff.2 ⟨h3, h4⟩)⟩

/-- What the editor replaces, its mirror replaces, or it lies in what is replaced of a call. -/
theorem Mirrors.replaces {all K : List Place.RepositoryCall} {sh ed : Editor} {a b : Nat}
    (h : Mirrors u all K sh ed) (hr : ed.Replaces a b) : sh.Replaces a b ∨ Covered u K a b := by
  obtain ⟨e, he, hlt, h1, h2⟩ := hr
  rcases h.known e he hlt.ne with ⟨e', he', h3, h4⟩ | ⟨n, hn, h3, h4⟩
  · exact .inl ⟨e', he', by omega, by omega, by omega⟩
  · exact .inr ⟨n, hn, by omega, by omega⟩

end Calls

open Imports Calls

/-- The registrar is lost if and only if the registrations have changed the edits. -/
theorem registrar_lost_iff {u : SourceUnit} {progress : Progress} {s1 s2 : Session}
    (h : (convertRegistrations u (registrationSites u)).result s1 = (.ok progress, s2)) :
    registrar ∈ lost progress s2.flags ↔ s2.editor ≠ s1.editor := by
  have hregistering := (convertRegistrations_registering (registrationSites u)).ok rfl h
  rw [registrar_mem_lost]
  refine ⟨fun hne heq => ?_, fun hne hzero => hne (hregistering.idle hzero)⟩
  have hmade := hregistering.made hne
  rw [heq] at hmade
  omega

theorem extract_swapFlag {u : SourceUnit} {s s0 : Session} (hs : s.flags.repositories = false)
    (h : (Entities.extract u).result s = (.ok (), s0)) : s0.flags.repositories = false := by
  refine (Entities.extract_keeps (P := fun s => s.flags.repositories = false)
    (E := fun _ _ => True) (fun _ _ _ h _ h0 => h.trans h0) fun _ _ => ?_).ok hs h
  exact Holds.advise (fun _ _ _ _ h _ => h) fun _ _ _ _ => trivial

theorem swapFlag_kept {u : SourceUnit} {members : Pattern.Regex} {progress : Progress}
    {s0 sc s1 s2 : Session} (hm : Pattern.parse u.settings.memberPattern = .ok members)
    (hctors : (convertConstructors u).result s0 = (.ok (), sc))
    (hcalls : (Calls.convert u).result s0 = (.ok (), s1))
    (hreg : (convertRegistrations u (registrationSites u)).result s1 = (.ok progress, s2)) :
    s2.flags.repositories = sc.flags.repositories := by
  unfold Calls.convert at hcalls
  rw [hm] at hcalls
  dsimp only at hcalls
  rw [result_bind_ok hctors] at hcalls
  have h1 := (convertCalls_along swapFlag_permits u (callSites u members)).after swapFlag_permits sc
  have h2 := (convertRegistrations_along swapFlag_permits u (registrationSites u)).after
    swapFlag_permits s1
  rw [hcalls] at h1
  rw [hreg] at h2
  exact h2.trans h1

/-- What is replaced of a registration before the imports is not shown when the pass has ended, or it
lies in what is replaced of a call. -/
theorem Calls.Ended.registration_gone {u : SourceUnit} {source : String} {members : Pattern.Regex}
    {s2 s' : Session} {o : Outcome} {K : List Place.RepositoryCall} {sh : Editor}
    {progress last : Progress} {p : Place} (h : Ended u source members s' o K sh)
    (hloop : ((importStatements u).foldlM (convertImport u) progress).result s2 = (.ok last, s'))
    (hr : s2.editor.Replaces p.start p.stop) : Gone u sh p ∨ Covered u K p.start p.stop := by
  have hmore := (Along.foldlM (importStatements u) progress fun b p =>
    convertImport_along replacesMore_permits u b p).after replacesMore_permits s2
  rw [hloop] at hmore
  exact (h.mirrors.replaces (hmore _ _ hr)).imp_left (gone_of_replaces h.mirrors.around)

/-- Imports of the integration library lose the registrar exactly if a registration is replaced, and the
decorator of injections exactly if a constructor is swapped as a whole; they keep all other names. No
use of these names that is rewritten is then left: no registration is shown, unless it lies in what is
replaced of a call, and no repository parameter of a constructor that is swapped as a whole. -/
theorem lost_names_rewritten (u : SourceUnit) (hu : u.Regular) (source : String)
    (hsource : u.source = encode source) (members : Pattern.Regex)
    (hm : Pattern.parse u.settings.memberPattern = .ok members) (s : Session)
    (hs : s.editor = { source := u.source }) (hflags : s.flags.repositories = false) :
    ∃ s1 progress s2 s' o K sh,
      (Entities.extract u >>= fun _ => Calls.convert u).result s = (.ok (), s1) ∧
      (convertRegistrations u (registrationSites u)).result s1 = (.ok progress, s2) ∧
      (Outcome.stages u).result s = (.ok (), s') ∧ Ended u source members s' o K sh ∧
      (registrar ∈ lost progress s2.flags ↔ s2.editor ≠ s1.editor) ∧
      (injectionDecorator ∈ lost progress s2.flags ↔
        ∃ method ∈ u.place.find [.methodDefinition], Swappable u method) ∧
      (∀ l p r, importStatements u = l ++ p :: r →
        modulePath? u p.tree = some integrationLibrary →
        ∃ pr before after, (l.foldlM (convertImport u) progress).result s2 = (.ok pr, before) ∧
          (convertImport u pr p).result before = (.ok pr, after) ∧
          Loses u p.tree (lost progress s2.flags) before.editor after.editor) ∧
      (∀ site ∈ registrationSites u,
        Gone u sh site.1 ∨ Covered u K site.1.start site.1.stop) ∧
      ∀ method ∈ u.place.find [.methodDefinition], Swappable u method →
        ∀ p ∈ injected u method, Gone u sh p := by
  obtain ⟨s', o, K, sh, hrun, hended, hswaps, -⟩ := pass_ended hu hsource hm hs
  have hfresh : Recorded u (fun e => e.start = e.stop ∧ e.Aligned u.source) s.editor :=
    hs ▸ Recorded.fresh u _
  have hparts := hrun
  obtain ⟨_, s0, hextract, hparts⟩ := result_bind_eq_ok hparts
  obtain ⟨_, s1, hcalls, himports⟩ := result_bind_eq_ok hparts
  obtain ⟨progress, s2, hreg, himports⟩ := result_bind_eq_ok himports
  obtain ⟨last, s3, hloop, hend⟩ := result_bind_eq_ok himports
  obtain rfl : s3 = s' := congrArg Prod.snd hend
  have hnotes := (extract_complete hu.toTopLevel hu.aligned).ok hfresh hextract
  obtain ⟨sc, hctors, hflag, hgone⟩ := convertConstructors_swaps hu.toNested
    (hnotes.imp fun _ he => he.1)
  refine ⟨s1, progress, s2, s3, o, K, sh, ?_, hreg, hrun, hended, ?_, ?_, fun l p r hl hpath => ?_,
    fun site hsite => ?_, fun method hmethod hsw p hp => ?_⟩
  · rw [result_bind_ok hextract, hcalls]
  · exact registrar_lost_iff hreg
  · rw [injectionDecorator_mem_lost, swapFlag_kept hm hctors hcalls hreg, hflag,
      extract_swapFlag hflags hextract]
    simp
  · rw [hl, List.foldlM_append] at hloop
    obtain ⟨pr, before, hbefore, hloop⟩ := result_bind_eq_ok hloop
    rw [List.foldlM_cons] at hloop
    obtain ⟨pr', after, hafter, -⟩ := result_bind_eq_ok hloop
    obtain ⟨rfl, hloses⟩ := convertImport_loses hpath hafter
    exact ⟨pr', before, after, hbefore, hafter, lost_constant hbefore ▸ hloses⟩
  · have htidy := (callStage_complete hu.toTopLevel hu.aligned hm).ok hnotes hcalls
    have hreplaced := (convertRegistrations_replaces hu.toTopLevel hsource hu.aligned).ok htidy hreg
    exact hended.registration_gone hloop (hreplaced site hsite)
  · have hafter : (afterConstructors u s0) = sc.editor := by rw [afterConstructors, hctors]
    exact gone_of_replaces hended.mirrors.around
      (hswaps s0 hextract _ _ (hafter ▸ hgone method hmethod hsw p hp))

/-- A source with both names to lose: a registration in another one, and a constructor with two
repository parameters. -/
def lostSample : String :=
  "import \x7b TypeOrmModule, InjectRepository \x7d from '@nestjs/typeorm';\n" ++
    "TypeOrmModule.forRoot(TypeOrmModule.forFeature());\n" ++
    "class A \x7b constructor(@InjectRepository(X) a, b: Repository<Y>, c) \x7b\x7d \x7d"

def lostUnit : SourceUnit := ⟨encode lostSample, (parse .typescript lostSample).root, {}⟩

def lostStart : Session := { editor := { source := lostUnit.source } }

theorem lostSample_stages :
    (registrationSites lostUnit).length = 2 ∧
    (lostUnit.place.find [.methodDefinition]).map (fun m =>
      ((injected lostUnit m).length, decide (Swappable lostUnit m))) = [(2, true)] ∧
    (((Entities.extract lostUnit >>= fun _ => Calls.convert lostUnit) >>= fun _ =>
      convertRegistrations lostUnit (registrationSites lostUnit)).result
        lostStart).1.toOption.map (·.registrations) = some 1 := by
  decide +kernel

theorem lost_names_rewritten_sample : ∃ members progress s1 s2 s' o K sh method,
    (convertRegistrations lostUnit (registrationSites lostUnit)).result s1 = (.ok progress, s2) ∧
    (Outcome.stages lostUnit).result lostStart = (.ok (), s') ∧
    Ended lostUnit lostSample members s' o K sh ∧
    registrar ∈ lost progress s2.flags ∧ injectionDecorator ∈ lost progress s2.flags ∧
    (registrationSites lostUnit).length = 2 ∧
    (∀ site ∈ registrationSites lostUnit,
      Gone lostUnit sh site.1 ∨ Covered lostUnit K site.1.start site.1.stop) ∧
    (injected lostUnit method).length = 2 ∧ ∀ p ∈ injected lostUnit method, Gone lostUnit sh p := by
  obtain ⟨hsites, hmethods, hcount⟩ := lostSample_stages
  obtain ⟨s1, progress, s2, s', o, K, sh, h1, hreg, hrun, hended, -, hdecorator, -, hgone, hparams⟩ :=
    lost_names_rewritten lostUnit (parse_sheltered .typescript lostSample {}).toRegular lostSample
      (by simp only [lostUnit]) _ Settings.exists_members.choose_spec lostStart rfl rfl
  obtain ⟨method, hfind⟩ : ∃ method, lostUnit.place.find [.methodDefinition] = [method] :=
    List.length_eq_one_iff.1 (by simpa using congrArg List.length hmethods)
  rw [hfind] at hmethods
  simp only [List.map_cons, List.map_nil, List.cons.injEq, Prod.mk.injEq, decide_eq_true_eq,
    and_true] at hmethods
  obtain ⟨hlen, hsw⟩ := hmethods
  have hmem : method ∈ lostUnit.place.find [.methodDefinition] := by simp [hfind]
  refine ⟨_, progress, s1, s2, s', o, K, sh, method, hreg, hrun, hended, ?_, ?_, hsites, hgone, hlen,
    hparams method hmem hsw⟩
  · rw [result_bind_ok h1, hreg] at hcount
    have hone : progress.registrations = 1 := Option.some.inj hcount
    simp [registrar_mem_lost, hone]
  · exact hdecorator.2 ⟨method, hmem, hsw⟩

def exportedSample : String :=
  "import \x7b TypeOrmModule \x7d from '@nestjs/typeorm';\n" ++
    "@Module(\x7b imports: [TypeOrmModule.forFeature([User])], exports: [TypeOrmModule] \x7d)\n" ++
    "export class A \x7b\x7d"

/-- A repository that comes by a field and one that comes by the constructor. -/
def fieldSample : String :=
  "import \x7b InjectRepository \x7d from '@nestjs/typeorm';\n" ++
    "class A \x7b @InjectRepository(User) users; constructor(private a: Repository<User>) \x7b\x7d \x7d"

/-- A name is imported from the integration library. -/
def ImportsName (source name : String) : Prop :=
  let u : SourceUnit := ⟨encode source, (parse .typescript source).root, {}⟩
  ((importStatements u).any fun p => modulePath? u p.tree == some integrationLibrary &&
    (importedNames u p.tree).contains name) = true

instance (source name : String) : Decidable (ImportsName source name) :=
  inferInstanceAs (Decidable (_ = true))

theorem dangling_outputs :
    (parse .typescript exportedSample).broken = false ∧ ImportsName exportedSample registrar ∧
    (Outcome.ofSource .typescript {} exportedSample none).1.toOption.map (·.output) =
      some "import \x7b PrismaModule \x7d from './prisma/prisma.module';\n@Module(\x7b imports: [PrismaModule], exports: [TypeOrmModule] \x7d)\nexport class A \x7b\x7d" ∧
    (parse .typescript fieldSample).broken = false ∧ ImportsName fieldSample injectionDecorator ∧
    (Outcome.ofSource .typescript {} fieldSample none).1.toOption.map (·.output) =
      some "class A \x7b @InjectRepository(User) users; constructor(private prisma: PrismaService) \x7b\x7d \x7d" := by
  decide +kernel

/-- The source is well formed and imports a name from the integration library; the output has the name,
and nothing of the library. -/
def Dangles (source name : String) : Prop :=
  (parse .typescript source).broken = false ∧ ImportsName source name ∧
  ∃ o, (Outcome.ofSource .typescript {} source none).1 = .ok o ∧
    name.toList <:+: o.output.toList ∧ ¬integrationLibrary.toList <:+: o.output.toList

/-- The module is given out and the field is decorated, and neither name is imported any more. -/
theorem lost_names_used_sample :
    Dangles exportedSample registrar ∧ Dangles fieldSample injectionDecorator := by
  obtain ⟨hbroken1, himport1, h1, hbroken2, himport2, h2⟩ := dangling_outputs
  obtain ⟨o1, ho1, hout1⟩ := exists_ok_of_map h1
  obtain ⟨o2, ho2, hout2⟩ := exists_ok_of_map h2
  refine ⟨⟨hbroken1, himport1, o1, ho1, ?_⟩, hbroken2, himport2, o2, ho2, ?_⟩
  · rw [hout1, registrar, integrationLibrary, Text.infix_iff rfl rfl, Text.infix_iff rfl rfl]
    set_option maxRecDepth 2000 in decide
  · rw [hout2, injectionDecorator, integrationLibrary, Text.infix_iff rfl rfl, Text.infix_iff rfl rfl]
    set_option maxRecDepth 2000 in decide

end OrmCodemod
