import OrmCodemod.Proofs.Quiet
import OrmCodemod.Proofs.View

/-! Steps that find nothing to edit. Edits once made are never all undone, so a run that ends without
edits made none on the way; a step is idle under a condition if it makes no edit exactly when the
condition holds. -/

namespace OrmCodemod.Pass

open Syntax

variable {α β : Type}

/-- Nothing has been edited yet, and no constructor was converted. -/
def Calm (source : Text.Bytes) (s : Session) : Prop :=
  s.editor = { source } ∧ s.flags.repositories = false

def Grows (x : Pass α) : Prop := ∀ s, (x.result s).2.editor.edits = [] → s.editor.edits = []

theorem Grows.pure (a : α) : Grows (pure a : Pass α) := fun _ h => h

theorem Grows.bind {x : Pass α} {f : α → Pass β} (hx : Grows x) (hf : ∀ a, Grows (f a)) :
    Grows (x >>= f) := by
  intro s h
  rw [result_bind] at h
  refine hx s ?_
  rcases hr : x.result s with ⟨_ | a, s'⟩ <;> rw [hr] at h
  · exact h
  · exact hf a s' h

theorem Quiet.grows {x : Pass α} (h : Quiet x) : Grows x := by
  intro s hs
  obtain ⟨a, s', h1, h2, -⟩ := h s
  rw [h1] at hs
  exact h2 ▸ hs

theorem Grows.forM {f : α → Pass PUnit} (h : ∀ x, Grows (f x)) (xs : List α) :
    Grows (xs.forM f) := by
  induction xs with
  | nil => exact Grows.pure _
  | cons x xs ih => exact (h x).bind fun _ => ih

theorem Grows.setFlags (f : Flags → Flags) : Grows (Pass.setFlags f) := fun _ h => h

theorem Grows.edit {f : Editor → Except Overlap Editor}
    (hf : ∀ ed ed', f ed = .ok ed' → ed'.edits ≠ []) : Grows (Pass.edit f) := by
  intro s hs
  rw [result_edit] at hs
  cases h : f s.editor with
  | ok editor => rw [h] at hs; exact absurd hs (hf _ _ h)
  | error o => rw [h] at hs; exact hs

theorem replaceRange_edits {ed ed' : Editor} {a b : Nat} {text : String}
    (h : ed.replaceRange a b text = .ok ed') : ed'.edits ≠ [] := by
  obtain ⟨-, rfl⟩ := Editor.replaceRange_eq_ok.1 h
  simp

theorem insertAt_edits {ed ed' : Editor} {p : Nat} {text : String}
    (h : ed.insertAt p text = .ok ed') : ed'.edits ≠ [] := by
  obtain ⟨-, rfl⟩ := Editor.insertAt_eq_ok.1 h
  simp [Editor.record]

/-- From a calm state, a step is done and still calm if `c` holds, and has edited if not. -/
structure Idle (source : Text.Bytes) (c : Prop) (Q : α → Prop) (x : Pass α) : Prop where
  grows : Grows x
  waits : ∀ s, Calm source s → c → ∃ a s', x.result s = (.ok a, s') ∧ Q a ∧ Calm source s'
  moves : ∀ s, Calm source s → ¬c → (x.result s).2.editor.edits ≠ []

variable {source : Text.Bytes} {c d : Prop} {Q Q' : α → Prop} {R : β → Prop}

theorem Idle.congr {x : Pass α} (h : Idle source c Q x) (hc : c ↔ d) (hq : ∀ a, Q a → Q' a) :
    Idle source d Q' x where
  grows := h.grows
  waits s hs hd := by
    obtain ⟨a, s', h1, h2, h3⟩ := h.waits s hs (hc.2 hd)
    exact ⟨a, s', h1, hq a h2, h3⟩
  moves s hs hd := h.moves s hs fun hc' => hd (hc.1 hc')

theorem Idle.pure {a : α} (hc : c) (h : Q a) : Idle source c Q (pure a : Pass α) where
  grows := Grows.pure a
  waits s hs _ := ⟨a, s, rfl, h, hs⟩
  moves _ _ hn := absurd hc hn

theorem Quiet.idle {x : Pass α} (h : Quiet x) : Idle source True (fun _ => True) x where
  grows := h.grows
  waits s hs _ := by
    obtain ⟨a, s', h1, h2, h3, -⟩ := h s
    exact ⟨a, s', h1, trivial, by rw [h2]; exact hs.1, by rw [h3]; exact hs.2⟩
  moves _ _ h := absurd trivial h

theorem Idle.modify {f : Session → Session} (h1 : ∀ s, (f s).editor = s.editor)
    (h2 : ∀ s, (f s).flags.repositories = s.flags.repositories) :
    Idle source True (fun _ => True) (modify f : Pass PUnit) where
  grows s hs := h1 s ▸ hs
  waits s hs _ := ⟨⟨⟩, f s, rfl, trivial, (h1 s).trans hs.1, (h2 s).trans hs.2⟩
  moves _ _ h := absurd trivial h

theorem Idle.setFlags {f : Flags → Flags} (h : ∀ g, (f g).repositories = g.repositories) :
    Idle source True (fun _ => True) (Pass.setFlags f) :=
  Idle.modify (fun _ => rfl) fun s => h s.flags

theorem Idle.get : Idle source True (fun _ => True) (get : Pass Session) where
  grows _ h := h
  waits s hs _ := ⟨s, s, rfl, trivial, hs⟩
  moves _ _ h := absurd trivial h

theorem Idle.bind {x : Pass α} {f : α → Pass β} (hx : Idle source c Q x)
    (hg : ∀ a, Grows (f a)) (hf : ∀ a, Q a → Idle source d R (f a)) :
    Idle source (c ∧ d) R (x >>= f) where
  grows := hx.grows.bind hg
  waits s hs hcd := by
    obtain ⟨a, s', h1, h2, h3⟩ := hx.waits s hs hcd.1
    obtain ⟨b, s'', h4, h5, h6⟩ := (hf a h2).waits s' h3 hcd.2
    exact ⟨b, s'', by rw [result_bind_ok h1, h4], h5, h6⟩
  moves s hs hcd := by
    by_cases hc : c
    · obtain ⟨a, s', h1, h2, h3⟩ := hx.waits s hs hc
      rw [result_bind_ok h1]
      exact (hf a h2).moves s' h3 fun hd => hcd ⟨hc, hd⟩
    · have hmoved := hx.moves s hs hc
      rw [result_bind]
      rcases hr : x.result s with ⟨_ | a, s'⟩ <;> rw [hr] at hmoved
      · exact hmoved
      · exact fun h => hmoved (hg a s' h)

theorem Idle.then {x : Pass α} {f : α → Pass β} (hx : Idle source c Q x)
    (hf : ∀ a, Idle source True R (f a)) : Idle source c R (x >>= f) :=
  (hx.bind (fun a => (hf a).grows) fun a _ => hf a).congr (and_true c).to_iff fun _ h => h

theorem Idle.after {x : Pass α} {f : α → Pass β} (hx : Idle source True Q x)
    (hf : ∀ a, Idle source d R (f a)) : Idle source d R (x >>= f) :=
  (hx.bind (fun a => (hf a).grows) fun a _ => hf a).congr (true_and d).to_iff fun _ h => h

theorem Idle.stops {x : Pass α} {f : α → Pass β} (hx : Idle source False Q x)
    (hg : ∀ a, Grows (f a)) : Idle source False R (x >>= f) where
  grows := hx.grows.bind hg
  waits _ _ h := h.elim
  moves s hs _ := by
    have hmoved := hx.moves s hs id
    rw [result_bind]
    rcases hr : x.result s with ⟨_ | a, s'⟩ <;> rw [hr] at hmoved
    · exact hmoved
    · exact fun h => hmoved (hg a s' h)

/-- An edit of an untouched source is never refused. -/
theorem Idle.edit {f : Editor → Except Overlap Editor} (hok : ∃ ed, f { source } = .ok ed)
    (hf : ∀ ed ed', f ed = .ok ed' → ed'.edits ≠ []) : Idle source False (fun _ => True) (Pass.edit f) where
  grows := Grows.edit hf
  waits _ _ h := h.elim
  moves s hs _ := by
    obtain ⟨ed, hed⟩ := hok
    rw [result_edit, hs.1, hed]
    exact hf _ _ hed

theorem Idle.forM {f : α → Pass PUnit} {xs : List α} {c : α → Prop}
    (h : ∀ x ∈ xs, Idle source (c x) (fun _ => True) (f x)) :
    Idle source (∀ x ∈ xs, c x) (fun _ => True) (xs.forM f) := by
  induction xs with
  | nil => exact Idle.pure (by simp) trivial
  | cons x xs ih =>
    have hrest := ih fun y hy => h y (by simp [hy])
    exact ((h x (by simp)).bind (fun _ => hrest.grows) fun _ _ => hrest).congr (by simp)
      fun _ h => h

theorem Idle.foldlM {f : β → α → Pass β} {xs : List α} {c : α → Prop}
    (hg : ∀ b, ∀ x ∈ xs, Grows (f b x)) (h : ∀ b, R b → ∀ x ∈ xs, Idle source (c x) R (f b x)) :
    ∀ b, R b → Idle source (∀ x ∈ xs, c x) R (xs.foldlM f b) := by
  induction xs with
  | nil => exact fun b hb => Idle.pure (by simp) hb
  | cons x xs ih =>
    intro b hb
    have hrest := ih (fun b y hy => hg b y (by simp [hy])) fun b hb y hy => h b hb y (by simp [hy])
    have hgrest : ∀ (ys : List α), (∀ y ∈ ys, y ∈ x :: xs) → ∀ b, Grows (ys.foldlM f b) := by
      intro ys
      induction ys with
      | nil => exact fun _ b => Grows.pure b
      | cons y ys ihy =>
        intro hys b
        rw [List.foldlM_cons]
        exact (hg b y (hys y (by simp))).bind fun b' => ihy (fun z hz => hys z (by simp [hz])) b'
    rw [List.foldlM_cons]
    refine ((h b hb x (by simp)).bind (fun b' => hgrest xs (fun y hy => by simp [hy]) b')
      fun b' hb' => hrest b' hb').congr (by simp) fun _ h => h

theorem Idle.mapM {f : α → Pass β} {xs : List α} {c : α → Prop}
    (h : ∀ x ∈ xs, Idle source (c x) R (f x)) :
    Idle source (∀ x ∈ xs, c x) (fun bs => ∀ b ∈ bs, R b) (xs.mapM f) := by
  induction xs with
  | nil => rw [List.mapM_nil]; exact Idle.pure (by simp) (by simp)
  | cons x xs ih =>
    have hrest := ih fun y hy => h y (by simp [hy])
    rw [List.mapM_cons]
    refine ((h x (by simp)).bind (fun b => hrest.grows.bind fun bs => Grows.pure (b :: bs))
      fun b hb => (hrest.bind (d := True) (fun bs => Grows.pure (b :: bs))
        fun bs hbs => Idle.pure (Q := fun bs => ∀ b ∈ bs, R b) trivial ?_)).congr (by simp)
          fun _ h => h
    intro b' hb'
    rcases List.mem_cons.1 hb' with rfl | hb'
    · exact hb
    · exact hbs b' hb'

/-- Nothing overlaps in an untouched source, so that there is nothing to recover from. -/
theorem Idle.orOnOverlap {x : Pass Unit} {r : Overlap → Pass Unit}
    (hx : Idle source c (fun _ => True) x) (hr : ∀ o, Quiet (r o)) :
    Idle source c (fun _ => True) (Pass.orOnOverlap x r) := by
  have hback : ∀ s, ((Pass.orOnOverlap x r).result s).2.editor.edits = [] →
      (x.result s).2.editor.edits = [] := by
    intro s hs
    rw [result_orOnOverlap] at hs
    rcases h : x.result s with ⟨e | _, s'⟩ <;> rw [h] at hs
    · cases e with
      | overlap o => exact (hr o).grows s' hs
      | dialect _ => exact hs
      | pattern _ => exact hs
      | undecodable _ => exact hs
    · exact hs
  constructor
  · exact fun s hs => hx.grows s (hback s hs)
  · intro s hs hc
    obtain ⟨a, s', h1, -, h2⟩ := hx.waits s hs hc
    exact ⟨a, s', by rw [result_orOnOverlap, h1], trivial, h2⟩
  · exact fun s hs hc h => hx.moves s hs hc (hback s h)

end OrmCodemod.Pass
