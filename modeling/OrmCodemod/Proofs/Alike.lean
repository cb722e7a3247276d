import OrmCodemod.Proofs.Commuting
import OrmCodemod.Proofs.LostNames

/-! Sessions that differ in the order of their replacements, and in what was said. The imports of a
source are converted alike in both, and what is read off them in the end is the same. -/

namespace OrmCodemod

open Syntax Text

/-- Two sessions hold the same edits and have found the same, but for the order of the replacements
and what they have said. -/
structure Session.Alike (s s' : Session) : Prop where
  editor : s.editor.SameEdits s'.editor
  flags : s.flags = s'.flags
  models : s.models = s'.models
  enums : s.enums = s'.enums
  advisories : s.advisories = s'.advisories

theorem Session.Alike.outcome_eq {s s' : Session} (h : s.Alike s') (hs : s.editor.Sound)
    (hs' : s'.editor.Sound) (settings : Settings) (source : String) :
    Outcome.ofSession settings source s = Outcome.ofSession settings source s' := by
  unfold Outcome.ofSession
  rw [h.flags, h.models, h.enums, h.advisories, h.editor.print_eq hs hs']

namespace Pass

variable {α β : Type} {s s' : Session}

/-- The step does the same in sessions that are alike, where it ends well. -/
def Alike (x : Pass α) : Prop :=
  ∀ s s' a t, s.Alike s' → x.result s = (.ok a, t) → ∃ t', x.result s' = (.ok a, t') ∧ t.Alike t'

theorem Alike.pure (a : α) : Alike (pure a : Pass α) := by
  intro s s' b t h hres
  obtain ⟨rfl, rfl⟩ : a = b ∧ s = t := by simpa using hres
  exact ⟨s', rfl, h⟩

theorem Alike.bind {x : Pass α} {f : α → Pass β} (hx : Alike x) (hf : ∀ a, Alike (f a)) :
    Alike (x >>= f) := by
  intro s s' b t h hres
  obtain ⟨a, s1, h1, h2⟩ := result_bind_eq_ok hres
  obtain ⟨s1', h1', hmid⟩ := hx s s' a s1 h h1
  obtain ⟨t', h2', hend⟩ := hf a s1 s1' b t hmid h2
  exact ⟨t', by rw [result_bind_ok h1', h2'], hend⟩

theorem Alike.getFlags {f : Flags → Pass α} (hf : ∀ flags, Alike (f flags)) :
    Alike (get >>= fun s => f s.flags) := by
  intro s s' a t h hres
  rw [result_bind_ok (result_get s)] at hres
  rw [result_bind_ok (result_get s'), ← h.flags]
  exact hf s.flags s s' a t h hres

theorem Alike.foldlM {f : β → α → Pass β} (h : ∀ b x, Alike (f b x)) (xs : List α) :
    ∀ b, Alike (xs.foldlM f b) := by
  induction xs with
  | nil => exact fun b => Alike.pure b
  | cons x xs ih =>
    intro b
    rw [List.foldlM_cons]
    exact (h b x).bind ih

theorem Alike.say (level : Level) (message : String) : Alike (say level message) := by
  intro s s' a t h hres
  obtain rfl := congrArg Prod.snd hres
  exact ⟨_, rfl, h.editor, h.flags, h.models, h.enums, h.advisories⟩

theorem Alike.setFlags (f : Flags → Flags) : Alike (setFlags f) := by
  intro s s' a t h hres
  obtain rfl := congrArg Prod.snd hres
  exact ⟨_, rfl, h.editor, congrArg f h.flags, h.models, h.enums, h.advisories⟩

theorem Alike.edit {f : Editor → Except Overlap Editor}
    (hf : ∀ ed ed' ed1, ed.SameEdits ed' → f ed = .ok ed1 →
      ∃ ed2, f ed' = .ok ed2 ∧ ed1.SameEdits ed2) : Alike (edit f) := by
  intro s s' a t h hres
  rw [result_edit] at hres
  split at hres
  · rename_i ed1 hok
    obtain rfl : { s with editor := ed1 } = t := congrArg Prod.snd hres
    obtain ⟨ed2, hok', hsame⟩ := hf _ _ _ h.editor hok
    refine ⟨{ s' with editor := ed2 }, by rw [result_edit, hok'], hsame, h.flags, h.models, h.enums,
      h.advisories⟩
  · cases hres

theorem Alike.replace (t : Tree) (text : String) : Alike (Pass.edit (·.replace t text)) :=
  Alike.edit fun _ _ _ h hok => h.replaceRange hok

theorem Alike.removeStatement (t : Tree) : Alike (Pass.edit (·.removeStatement t)) := by
  refine Alike.edit fun ed ed' ed1 h hok => ?_
  rw [Editor.removeStatement_eq] at hok ⊢
  rw [← h.source]
  exact h.replaceRange hok

theorem Alike.advise (p : Place) (comment : String) : Alike (advise p comment) := by
  intro s s' a t h hres
  rw [result_advise] at hres
  split at hres
  · rename_i put ed1 hok
    obtain ⟨rfl, rfl⟩ : put = a ∧ _ = t := by simpa using hres
    obtain ⟨ed2, hok', hsame⟩ := h.editor.insertCommentBefore hok
    exact ⟨{ s' with editor := ed2, advisories := if put then s'.advisories + 1 else s'.advisories },
      by rw [result_advise, hok'], hsame, h.flags, h.models, h.enums, by simp only [h.advisories]⟩
  · cases hres

end Pass

namespace Imports

open Pass

variable (u : SourceUnit)

theorem ensureImport_alike (symbol path : String) (ensured : List String) :
    Alike (ensureImport u symbol path ensured) := by
  dsimp only [ensureImport]
  split
  · exact Alike.pure _
  split
  · refine Alike.bind (Alike.edit fun _ _ _ h hok => h.insertAt hok) fun _ => ?_
    exact (Alike.say _ _).bind fun _ => Alike.pure _
  · exact Alike.pure _

theorem dropSpecifiers_alike (statement : Tree) (dropped : List String) :
    Alike (dropSpecifiers u statement dropped) := by
  unfold dropSpecifiers
  split
  · exact Alike.pure _
  · extract_lets kept others parts
    split
    · exact Alike.removeStatement statement
    · exact Alike.replace _ _


theorem convertSourceImport_alike (progress : Progress) (statement : Tree) :
    Alike (convertSourceImport u progress statement) := by
  unfold convertSourceImport
  extract_lets names repositories dropped rest
  have hrest : ∀ ensured, Alike (rest ensured) := by
    intro ensured
    dsimp only [rest]
    split
    · exact (dropSpecifiers_alike u _ _).bind fun _ => (Alike.setFlags _).bind fun _ => Alike.pure _
    · exact Alike.pure _
  split
  · exact (ensureImport_alike u _ _ _).bind hrest
  · exact (Alike.pure _).bind hrest

theorem convertIntegrationImport_alike (progress : Progress) (statement : Tree) :
    Alike (convertIntegrationImport u progress statement) := by
  rw [convertIntegrationImport_eq]
  refine Alike.getFlags (f := fun flags => do
    let names := lost progress flags
    if (importedNames u statement).any names.contains then
      dropSpecifiers u statement names
      setFlags fun f => { f with modules := true }) fun flags => ?_
  dsimp only
  split
  · exact (dropSpecifiers_alike u _ _).bind fun _ => Alike.setFlags _
  · exact Alike.pure _

theorem convertImport_alike (progress : Progress) (statement : Place) :
    Alike (convertImport u progress statement) := by
  unfold convertImport
  split
  · exact Alike.pure _
  split
  · exact convertSourceImport_alike u _ _
  split
  · exact (Alike.removeStatement _).bind fun _ => (Alike.setFlags _).bind fun _ => Alike.pure _
  split
  · exact (convertIntegrationImport_alike u _ _).bind fun _ => Alike.pure _
  split
  · exact (Alike.advise _ _).bind fun _ => Alike.pure _
  · exact Alike.pure _

end Imports

end OrmCodemod
