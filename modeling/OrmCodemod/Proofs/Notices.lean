import OrmCodemod.Pass.Outcome
import OrmCodemod.Proofs.Along

/-! The comments of a pass. Whatever a stage does, the editor has a history, and the session counts the
comments that were put in it. So before no statement a comment is put twice, and none that the source has
there already. -/

namespace OrmCodemod

open Syntax Text Pass

/-- The editor has a history from one session to the other, whose comments are counted. -/
def Noticed (s s' : Session) : Prop :=
  ∃ l, s.editor.History (fun _ _ => True) l s'.editor ∧ s'.advisories = s.advisories + l.length

theorem Noticed.of_same {s s' : Session} (he : s'.editor = s.editor)
    (hn : s'.advisories = s.advisories) : Noticed s s' :=
  ⟨[], he ▸ .start, by simp [hn]⟩

theorem Noticed.trans {s s' s'' : Session} (h : Noticed s s') (h' : Noticed s' s'') :
    Noticed s s'' := by
  obtain ⟨l, h1, h2⟩ := h
  obtain ⟨l', h3, h4⟩ := h'
  exact ⟨l ++ l', h1.trans h3, by simp [h2, h4, Nat.add_assoc]⟩

theorem noticed_permits : Permits Noticed where
  refl _ := .of_same rfl rfl
  trans := .trans
  said _ _ := .of_same rfl rfl
  flagged _ _ _ _ := .of_same rfl rfl
  replaced _ _ _ _ _ h := ⟨[], .replaced .start trivial h, rfl⟩
  lined _ _ _ _ _ h := ⟨[], .line .start h, rfl⟩
  advised s p comment put editor hlisted h := by
    refine ⟨_, Editor.History.advised .start hlisted h, ?_⟩
    cases put <;> simp

theorem stages_noticed (u : SourceUnit) (s : Session) : Noticed s ((Outcome.stages u).result s).2 := by
  have hkeep : ∀ {x : Pass Unit}, Along Noticed x →
      Holds (Noticed s) x (fun _ => Noticed s) fun _ => Noticed s := fun hx =>
    (hx s).mono (fun _ h => h) (fun _ _ h => h) fun _ _ h => h.2
  have hextract : Holds (Noticed s) (Entities.extract u) (fun _ => Noticed s) fun _ => Noticed s := by
    refine Entities.extract_keeps (fun s1 s2 he _ hn h => h.trans (.of_same he hn)) fun class_ _ => ?_
    exact (noticed_permits.advise class_ (by simp [Calls.advisoryTexts]) s).mono (fun _ h => h)
      (fun _ _ h => h) fun _ _ h => h.2
  have hcalls : Holds (Noticed s) (Calls.convert u) (fun _ => Noticed s) fun _ => Noticed s := by
    cases hm : Pattern.parse u.settings.memberPattern with
    | error e =>
      unfold Calls.convert
      rw [hm]
      exact Holds.throw fun _ h => h
    | ok members =>
      exact hkeep (Calls.convert_along noticed_permits (fun _ => .of_same rfl rfl) hm)
  have hall : Holds (Noticed s) (Outcome.stages u) (fun _ => Noticed s) fun _ => Noticed s :=
    hextract.bind fun _ => hcalls.bind fun _ => hkeep (Imports.convert_along noticed_permits u)
  exact hall.left (noticed_permits.refl s)

/-- However a pass over a source ends, its edits have a history whose comments it has counted. Whatever
history they have, before no statement a comment was put twice, and none was put that stood there in the
source. -/
theorem advisories_put_once (u : SourceUnit) (parsed : Parsed) (path : Option String) :
    let start := Outcome.start u.source parsed path
    let ended := ((Outcome.stages u).result start).2
    (∃ l, start.editor.History (fun _ _ => True) l ended.editor ∧ ended.advisories = l.length) ∧
    ∀ l, start.editor.History (fun _ _ => True) l ended.editor →
      (l.map fun n => (n.start, n.comment)).Nodup ∧
      ∀ n ∈ l, Editor.normalizeComment n.comment ∉ start.editor.leadingComments n.statement := by
  intro start ended
  obtain ⟨l, hl, hn⟩ := stages_noticed u start
  refine ⟨⟨l, hl, ?_⟩, fun l hl => ⟨hl.nodup, hl.new⟩⟩
  rw [hn]
  exact Nat.zero_add _

/-- Two calls of one statement get one comment, also where the second is around the first. -/
example : (Outcome.ofSource .typescript {} "a.repository.save(b.repository.save(c));" none).1.toOption.map
    (·.advisories) = some 1 := by
  decide +kernel

end OrmCodemod
