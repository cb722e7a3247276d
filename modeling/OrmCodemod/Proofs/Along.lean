import OrmCodemod.Proofs.History

/-! Relations that hold along a stage. Converting calls and imports changes a session in three ways: it
says something, sets a flag, or makes an edit. A relation between sessions that permits these holds
between the session before a stage and the one after it, however the stage ends. -/

namespace OrmCodemod

open Syntax Text Pass

variable {α β : Type}

/-- A call on the editor that is granted. -/
inductive Editor.Records (ed ed' : Editor) : Prop where
  | replaced (a b : Nat) (text : String) (granted : ed.replaceRange a b text = .ok ed')
  | inserted (p : Nat) (text : String) (granted : ed.insertAt p text = .ok ed')

theorem Flags.any_modules (f : Flags) : Flags.any { f with modules := true } = true := by
  simp [Flags.any]

theorem Flags.any_services (f : Flags) : Flags.any { f with services := true } = true := by
  simp [Flags.any]

namespace Pass

/-- A relation between sessions that permits what the stages after the extraction do. -/
structure Permits (R : Session → Session → Prop) : Prop where
  refl : ∀ s, R s s
  trans : ∀ {s s' s''}, R s s' → R s' s'' → R s s''
  said : ∀ s log, R s { s with log }
  flagged : ∀ s flags, (s.flags.any = true → flags.any = true) →
    flags.repositories = s.flags.repositories → R s { s with flags }
  replaced : ∀ s a b text editor, s.editor.replaceRange a b text = .ok editor →
    R s { s with editor }
  lined : ∀ s (u : SourceUnit) symbol path editor,
    s.editor.insertAt 0 (Imports.importLine u symbol path) = .ok editor → R s { s with editor }
  advised : ∀ s p comment put editor, comment ∈ Calls.advisoryTexts →
    s.editor.insertCommentBefore p comment = .ok (put, editor) →
    R s { s with editor, advisories := if put then s.advisories + 1 else s.advisories }

theorem Permits.of_records {R : Session → Session → Prop} (refl : ∀ s, R s s)
    (trans : ∀ {s s' s''}, R s s' → R s' s'' → R s s'') (said : ∀ s log, R s { s with log })
    (counted : ∀ s advisories, R s { s with advisories })
    (flagged : ∀ s flags, (s.flags.any = true → flags.any = true) →
      flags.repositories = s.flags.repositories → R s { s with flags })
    (recorded : ∀ s editor, s.editor.Records editor → R s { s with editor }) : Permits R where
  refl := refl
  trans := trans
  said := said
  flagged := flagged
  replaced s _ _ _ editor h := recorded s editor (.replaced _ _ _ h)
  lined s _ _ _ editor h := recorded s editor (.inserted _ _ h)
  advised s p comment put editor _ h := by
    rcases Editor.insertCommentBefore_ok h with rfl | hins
    · exact counted s _
    · exact trans (recorded s editor (.inserted _ _ hins)) (counted { s with editor } _)

/-- The relation holds between the session before the step and the one after it, and the step fails
only with an overlap. -/
def Along (R : Session → Session → Prop) (x : Pass α) : Prop := ∀ s, Keeps (R s) x

variable {R : Session → Session → Prop}

theorem Along.bind {x : Pass α} {f : α → Pass β} (hx : Along R x) (hf : ∀ a, Along R (f a)) :
    Along R (x >>= f) :=
  fun s => (hx s).bind fun a => hf a s

theorem Along.pure (a : α) : Along R (pure a : Pass α) := fun _ => Keeps.pure

theorem Along.get : Along R (get : Pass Session) := fun _ _ h => h

theorem Along.forM {f : α → Pass PUnit} (xs : List α) (h : ∀ x, Along R (f x)) :
    Along R (xs.forM f) :=
  fun s => Keeps.forM fun x _ => h x s

theorem Along.foldlM {f : β → α → Pass β} (xs : List α) (b : β) (h : ∀ b x, Along R (f b x)) :
    Along R (xs.foldlM f b) :=
  fun s => Keeps.foldlM fun b x _ => h b x s

theorem Along.orOnOverlap {x : Pass Unit} {r : Overlap → Pass Unit} (hx : Along R x)
    (hr : ∀ o, Along R (r o)) : Along R (orOnOverlap x r) := by
  intro s
  refine Holds.orOnOverlap (F := fun _ => R s) ((hx s).mono (fun _ h => h) (fun _ _ h => h) ?_)
    fun o => hr o s
  rintro _ s' ⟨⟨o, rfl⟩, h⟩
  exact h

theorem Along.after {x : Pass α} (h : Along R x) (hR : Permits R) (s : Session) :
    R s (x.result s).2 :=
  Holds.left ((h s).mono (fun _ hs => hs) (fun _ _ hs => hs) fun _ _ hs => hs.2) (hR.refl s)

theorem Along.holds {x : Pass α} (h : Along R x) (hR : Permits R) {P : Session → Prop}
    (hP : ∀ s s', R s s' → P s → P s') : Holds P x (fun _ => P) fun _ _ => True := by
  intro s hs
  have h1 := h.after hR s
  rcases hr : x.result s with ⟨_ | a, s1⟩ <;> rw [hr] at h1
  · trivial
  · exact hP _ _ h1 hs

variable (hR : Permits R)

include hR

theorem Permits.say (level : Level) (message : String) : Along R (Pass.say level message) :=
  fun _ => Keeps.modify fun s hs => hR.trans hs (hR.said s _)

theorem Permits.setFlags {f : Flags → Flags} (h : ∀ g : Flags, g.any = true → (f g).any = true)
    (hsame : ∀ g : Flags, (f g).repositories = g.repositories) : Along R (Pass.setFlags f) :=
  fun _ => Keeps.modify fun s hs => hR.trans hs (hR.flagged s _ (h s.flags) (hsame s.flags))

theorem Permits.edit {f : Editor → Except Overlap Editor}
    (h : ∀ s ed', f s.editor = .ok ed' → R s { s with editor := ed' }) : Along R (Pass.edit f) :=
  fun _ => Holds.edit (fun s ed hs he => hR.trans hs (h s ed he)) fun _ o hs _ => ⟨⟨o, rfl⟩, hs⟩

theorem Permits.replace (t : Tree) (text : String) : Along R (Pass.edit (·.replace t text)) :=
  hR.edit fun s ed' h => hR.replaced s _ _ _ ed' h

theorem Permits.removeStatement (t : Tree) : Along R (Pass.edit (·.removeStatement t)) := by
  refine hR.edit fun s ed' h => ?_
  rw [Editor.removeStatement_eq] at h
  exact hR.replaced s _ _ _ ed' h

theorem Permits.removeListItem (p : Place) : Along R (Pass.edit (·.removeListItem p)) := by
  refine hR.edit fun s ed' h => ?_
  rw [Editor.removeListItem_eq] at h
  exact hR.replaced s _ _ _ ed' h

theorem Permits.advise (p : Place) {comment : String} (hlisted : comment ∈ Calls.advisoryTexts) :
    Along R (Pass.advise p comment) := by
  intro s0 s hs
  rw [result_advise]
  cases he : s.editor.insertCommentBefore p comment with
  | error o => exact ⟨⟨o, rfl⟩, hs⟩
  | ok r => exact hR.trans hs (hR.advised s p comment r.1 r.2 hlisted he)

end Pass

variable {R : Session → Session → Prop}

namespace Calls

theorem modelOf_along (hR : Permits R) (u : SourceUnit) (call : Place) : Along R (modelOf u call) := by
  unfold modelOf
  refine (Along.forM _ fun _ => hR.say _ _).bind fun _ => ?_
  split
  · exact Along.pure _
  · exact (hR.say _ _).bind fun _ => Along.pure _

theorem apply_along (hR : Permits R) (u : SourceUnit) (x : Place.RepositoryCall) (owner : Tree)
    (rule : Rules.Rule) : Along R (apply u x owner rule) := by
  unfold apply
  refine (modelOf_along hR u x.call).bind fun model => Along.get.bind fun s => ?_
  refine (hR.replace _ _).bind fun _ => ?_
  split
  · exact hR.replace _ _
  · exact Along.pure _

theorem convertCall_along (hR : Permits R) (u : SourceUnit) (x : Place.RepositoryCall) :
    Along R (convertCall u x) := by
  have hservices : Along R (setFlags fun f => { f with services := true }) :=
    hR.setFlags (fun g _ => g.any_services) fun _ => rfl
  unfold convertCall
  split
  · exact Along.pure _
  rename_i rule hrule
  have hadvise : ∀ c ∈ rule.advisories, Along R (Pass.advise x.call c) := fun c hc =>
    hR.advise x.call (advisory_listed hrule hc)
  split
  · refine Along.bind (fun s => Keeps.mapM fun c hc => hadvise c hc s) fun put => ?_
    split
    · exact hservices
    · exact Along.pure _
  split
  · exact Along.pure _
  · refine (apply_along hR u x _ rule).bind fun _ => Along.bind ?_ fun _ => hservices
    exact fun s => Keeps.forM fun c hc => (hadvise c hc).bind (fun _ => Along.pure _) s

theorem convertCalls_along (hR : Permits R) (u : SourceUnit) (sites : List Place.RepositoryCall) :
    Along R (convertCalls u sites) :=
  Along.forM _ fun x => (convertCall_along hR u x).orOnOverlap fun _ => hR.say _ _

/-- A constructor is converted by steps that are permitted, where setting its flag is. -/
theorem convertConstructor_along (hR : Permits R)
    (hswap : ∀ s, R s { s with flags := { s.flags with repositories := true } }) (u : SourceUnit)
    (method : Place) : Along R (convertConstructor u method) := by
  rw [convertConstructor_eq]
  split
  · exact Along.pure _
  · refine Along.orOnOverlap ?_ fun _ => hR.say _ _
    refine (hR.replace _ _).bind fun _ => (Along.forM _ fun p => hR.removeListItem p).bind fun _ => ?_
    exact fun _ => Keeps.modify fun s hs => hR.trans hs (hswap s)

theorem convert_along (hR : Permits R)
    (hswap : ∀ s, R s { s with flags := { s.flags with repositories := true } }) {u : SourceUnit}
    {members : Pattern.Regex} (hm : Pattern.parse u.settings.memberPattern = .ok members) :
    Along R (convert u) := by
  unfold convert
  rw [hm]
  exact (Along.forM _ fun method => convertConstructor_along hR hswap u method).bind fun _ =>
    convertCalls_along hR u _

end Calls

namespace Imports

theorem flagModules_along (hR : Permits R) :
    Along R (setFlags fun f => { f with modules := true }) :=
  hR.setFlags (fun g _ => g.any_modules) fun _ => rfl

theorem dropSpecifiers_along (hR : Permits R) (u : SourceUnit) (statement : Tree)
    (dropped : List String) : Along R (dropSpecifiers u statement dropped) := by
  unfold dropSpecifiers
  split
  · exact Along.pure _
  · extract_lets kept others parts
    split
    · exact hR.removeStatement statement
    · exact hR.replace _ _

theorem ensureImport_along (hR : Permits R) (u : SourceUnit) (symbol path : String)
    (ensured : List String) : Along R (ensureImport u symbol path ensured) := by
  dsimp only [ensureImport]
  split
  · exact Along.pure _
  split
  · exact (hR.edit fun s ed' h => hR.lined s u symbol path ed' h).bind fun _ =>
      (hR.say _ _).bind fun _ => Along.pure _
  · exact Along.pure _

theorem convertRegistration_along (hR : Permits R) (u : SourceUnit) (progress : Progress)
    (call : Place) (method : String) : Along R (convertRegistration u progress call method) := by
  intro s0
  dsimp only [convertRegistration]
  refine Holds.get fun s hs => ?_
  split
  · refine Holds.bind (Q := fun _ => R s0) (Holds.modify fun s' hs' => ?_) fun _ => Keeps.pure
    exact hs' ▸ hR.trans hs (hR.said s _)
  · rename_i editor hed
    refine Holds.bind (Q := fun _ => R s0) (Holds.modify fun s' hs' => ?_) fun _ =>
      (ensureImport_along hR u _ _ _).bind (fun _ => (flagModules_along hR).bind fun _ =>
        Along.pure _) s0
    exact hs' ▸ hR.trans hs (hR.replaced s _ _ _ editor hed)

theorem convertRegistrations_along (hR : Permits R) (u : SourceUnit) (sites : List (Place × String)) :
    Along R (convertRegistrations u sites) := by
  refine Along.foldlM _ _ fun progress site => ?_
  dsimp only
  split
  · exact Along.pure _
  · exact convertRegistration_along hR u progress _ _

theorem convertSourceImport_along (hR : Permits R) (u : SourceUnit) (progress : Progress)
    (statement : Tree) : Along R (convertSourceImport u progress statement) := by
  unfold convertSourceImport
  extract_lets names repositories dropped rest
  have hrest : ∀ ensured, Along R (rest ensured) := by
    intro ensured
    dsimp only [rest]
    split
    · exact (dropSpecifiers_along hR u _ _).bind fun _ => (flagModules_along hR).bind fun _ =>
        Along.pure _
    · exact Along.pure _
  split
  · exact (ensureImport_along hR u _ _ _).bind hrest
  · exact (Along.pure _).bind hrest

theorem convertIntegrationImport_along (hR : Permits R) (u : SourceUnit) (progress : Progress)
    (statement : Tree) : Along R (convertIntegrationImport u progress statement) := by
  unfold convertIntegrationImport
  refine Along.get.bind fun s => ?_
  extract_lets dropped
  split
  · exact (dropSpecifiers_along hR u _ _).bind fun _ => flagModules_along hR
  · exact Along.pure _

theorem convertImport_along (hR : Permits R) (u : SourceUnit) (progress : Progress)
    (statement : Place) : Along R (convertImport u progress statement) := by
  unfold convertImport
  split
  · exact Along.pure _
  split
  · exact convertSourceImport_along hR u _ _
  split
  · exact (hR.removeStatement _).bind fun _ => (flagModules_along hR).bind fun _ => Along.pure _
  split
  · exact (convertIntegrationImport_along hR u _ _).bind fun _ => Along.pure _
  split
  · exact (hR.advise _ (by simp [Calls.advisoryTexts])).bind fun _ => Along.pure _
  · exact Along.pure _

theorem convert_along (hR : Permits R) (u : SourceUnit) : Along R (convert u) := by
  unfold convert
  refine (convertRegistrations_along hR u _).bind fun progress => Along.bind ?_ fun _ => Along.pure _
  exact Along.foldlM _ _ fun b p => convertImport_along hR u b p

end Imports

end OrmCodemod
