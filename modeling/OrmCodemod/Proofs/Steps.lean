import Mathlib.Tactic
import OrmCodemod.Pass.Session

/-! Steps of a pass as functions of the state, and what they keep. A statement about a step says in
which states it ends well and in which ones it fails, since a failed step keeps the state it had
reached. -/

namespace OrmCodemod

theorem toOption_eq_some_iff {ε α : Type} {x : Except ε α} {a : α} :
    x.toOption = some a ↔ x = .ok a := by
  cases x <;> simp [Except.toOption]

theorem exists_ok_of_map {ε α β : Type} {x : Except ε α} {f : α → β} {b : β}
    (h : x.toOption.map f = some b) : ∃ a, x = .ok a ∧ f a = b := by
  obtain ⟨a, ha, hf⟩ := Option.map_eq_some_iff.1 h
  exact ⟨a, toOption_eq_some_iff.1 ha, hf⟩

theorem exists_eq_ok_of_fst {ε α σ : Type} {run : Except ε α × σ} {a : α}
    (h : run.1.toOption = some a) : ∃ s, run = (.ok a, s) :=
  ⟨run.2, Prod.ext (toOption_eq_some_iff.1 h) rfl⟩

/-- The pattern of the default settings is one. -/
theorem Settings.exists_members :
    ∃ members, Pattern.parse ({} : Settings).memberPattern = .ok members := by
  have h : (Pattern.parse ({} : Settings).memberPattern).toOption.isSome = true := by decide +kernel
  obtain ⟨members, hmembers⟩ := Option.isSome_iff_exists.1 h
  exact ⟨members, toOption_eq_some_iff.1 hmembers⟩

end OrmCodemod

namespace OrmCodemod.Pass

variable {α β : Type}

/-- What a step gives, and the state it leaves. -/
def result (x : Pass α) (s : Session) : Except Fault α × Session := x.run.run s

@[simp] theorem result_pure (a : α) (s : Session) : (pure a : Pass α).result s = (.ok a, s) := rfl

theorem result_bind (x : Pass α) (f : α → Pass β) (s : Session) :
    (x >>= f).result s =
      match x.result s with
      | (.ok a, s') => (f a).result s'
      | (.error e, s') => (.error e, s') := by
  simp only [result, ExceptT.run_bind, StateT.run_bind]
  rcases StateT.run (ExceptT.run x) s with ⟨_ | _, _⟩ <;> rfl

theorem result_bind_ok {x : Pass α} {s s' : Session} {a : α} (h : x.result s = (.ok a, s'))
    (f : α → Pass β) : (x >>= f).result s = (f a).result s' := by
  rw [result_bind, h]

/-- A run in two parts ends well only if both parts do. -/
theorem result_bind_eq_ok {x : Pass α} {f : α → Pass β} {s s' : Session} {b : β}
    (h : (x >>= f).result s = (.ok b, s')) :
    ∃ a s1, x.result s = (.ok a, s1) ∧ (f a).result s1 = (.ok b, s') := by
  rw [result_bind] at h
  rcases hx : x.result s with ⟨_ | a, s1⟩ <;> rw [hx] at h
  · cases h
  · exact ⟨a, s1, rfl, h⟩

theorem result_forM_cons (f : α → Pass PUnit) (x : α) (xs : List α) (s : Session) :
    ((x :: xs).forM f).result s = (f x >>= fun _ => xs.forM f).result s := rfl

@[simp] theorem result_get (s : Session) : (get : Pass Session).result s = (.ok s, s) := rfl

@[simp] theorem result_modify (f : Session → Session) (s : Session) :
    (modify f : Pass PUnit).result s = (.ok ⟨⟩, f s) := rfl

@[simp] theorem result_throw (e : Fault) (s : Session) :
    (throw e : Pass α).result s = (.error e, s) := rfl

@[simp] theorem result_say (level : Level) (message : String) (s : Session) :
    (say level message).result s = (.ok (), { s with log := s.log ++ [⟨level, message⟩] }) := rfl

@[simp] theorem result_setFlags (f : Flags → Flags) (s : Session) :
    (setFlags f).result s = (.ok (), { s with flags := f s.flags }) := rfl

theorem result_edit (f : Editor → Except Overlap Editor) (s : Session) :
    (edit f).result s =
      match f s.editor with
      | .ok editor => (.ok (), { s with editor })
      | .error o => (.error (.overlap o), s) := by
  unfold edit
  rw [result_bind_ok (result_get s)]
  cases f s.editor <;> rfl

theorem result_advise (p : Syntax.Place) (comment : String) (s : Session) :
    (advise p comment).result s =
      match s.editor.insertCommentBefore p comment with
      | .ok (put, editor) =>
        (.ok put, { s with
          editor, advisories := if put then s.advisories + 1 else s.advisories })
      | .error o => (.error (.overlap o), s) := by
  unfold advise
  rw [result_bind_ok (result_get s)]
  cases s.editor.insertCommentBefore p comment <;> rfl

theorem result_tryCatch (x : Pass Unit) (recover : Fault → Pass Unit) (s : Session) :
    (tryCatch x recover).result s =
      match x.result s with
      | (.ok a, s') => (.ok a, s')
      | (.error e, s') => (recover e).result s' := by
  simp only [result, tryCatch, tryCatchThe, MonadExceptOf.tryCatch, ExceptT.tryCatch, ExceptT.run,
    ExceptT.mk, StateT.run_bind]
  rcases StateT.run x s with ⟨_ | _, _⟩ <;> rfl

theorem result_orOnOverlap (x : Pass Unit) (r : Overlap → Pass Unit) (s : Session) :
    (orOnOverlap x r).result s =
      match x.result s with
      | (.error (.overlap o), s') => (r o).result s'
      | other => other := by
  rw [orOnOverlap, result_tryCatch]
  rcases x.result s with ⟨e | _, s'⟩
  · cases e <;> rfl
  · rfl

/-- From a state with `P` a step ends well in one with `Q`, or fails in one with `E`. -/
def Holds (P : Session → Prop) (x : Pass α) (Q : α → Session → Prop) (E : Fault → Session → Prop) :
    Prop :=
  ∀ s, P s →
    match x.result s with
    | (.ok a, s') => Q a s'
    | (.error e, s') => E e s'

variable {P P' : Session → Prop} {Q Q' : α → Session → Prop} {E E' : Fault → Session → Prop}

theorem Holds.mono {x : Pass α} (h : Holds P x Q E) (hp : ∀ s, P' s → P s)
    (hq : ∀ a s, Q a s → Q' a s) (he : ∀ e s, E e s → E' e s) : Holds P' x Q' E' := by
  intro s hs
  have h1 := h s (hp s hs)
  rcases hx : x.result s with ⟨_ | _, _⟩ <;> rw [hx] at h1
  · exact he _ _ h1
  · exact hq _ _ h1

theorem Holds.ok {x : Pass α} (h : Holds P x Q E) {s s' : Session} {a : α} (hs : P s)
    (hx : x.result s = (.ok a, s')) : Q a s' := by
  have h1 := h s hs
  rw [hx] at h1
  exact h1

theorem Holds.exists_ok {x : Pass α} (h : Holds P x Q fun _ _ => False) {s : Session} (hs : P s) :
    ∃ a s', x.result s = (.ok a, s') ∧ Q a s' := by
  have h1 := h s hs
  rcases hx : x.result s with ⟨_ | a, s'⟩ <;> rw [hx] at h1
  · exact h1.elim
  · exact ⟨a, s', rfl, h1⟩

theorem Holds.and {x : Pass α} (h : Holds P x Q E) (h' : Holds P x Q' E') :
    Holds P x (fun a s => Q a s ∧ Q' a s) fun e s => E e s ∧ E' e s := by
  intro s hs
  have h1 := h s hs
  have h2 := h' s hs
  rcases hx : x.result s with ⟨_ | _, _⟩ <;> rw [hx] at h1 h2 <;> exact ⟨h1, h2⟩

theorem Holds.pure {a : α} (h : ∀ s, P s → Q a s) : Holds P (pure a) Q E := h

theorem Holds.bind {x : Pass α} {f : α → Pass β} {R : β → Session → Prop} (hx : Holds P x Q E)
    (hf : ∀ a, Holds (Q a) (f a) R E) : Holds P (x >>= f) R E := by
  intro s hs
  have h1 := hx s hs
  rw [result_bind]
  rcases hr : x.result s with ⟨_ | _, _⟩ <;> rw [hr] at h1
  · exact h1
  · exact hf _ _ h1

theorem Holds.get {f : Session → Pass β} {R : β → Session → Prop}
    (h : ∀ s, P s → Holds (· = s) (f s) R E) : Holds P (get >>= f) R E := by
  intro s hs
  rw [result_bind_ok (result_get s)]
  exact h s hs s rfl

theorem Holds.modify {f : Session → Session} {Q : PUnit → Session → Prop}
    (h : ∀ s, P s → Q ⟨⟩ (f s)) : Holds P (modify f) Q E := h

theorem Holds.throw {e : Fault} (h : ∀ s, P s → E e s) : Holds P (throw e : Pass α) Q E := h

theorem Holds.edit {f : Editor → Except Overlap Editor} {Q : Unit → Session → Prop}
    (hok : ∀ s editor, P s → f s.editor = .ok editor → Q () { s with editor })
    (herr : ∀ s o, P s → f s.editor = .error o → E (.overlap o) s) : Holds P (edit f) Q E := by
  intro s hs
  rw [result_edit]
  cases hf : f s.editor with
  | ok editor => exact hok s editor hs hf
  | error o => exact herr s o hs hf

theorem Holds.advise {p : Syntax.Place} {comment : String} {Q : Bool → Session → Prop}
    (hok : ∀ s put editor n, P s → s.editor.insertCommentBefore p comment = .ok (put, editor) →
      Q put { s with editor, advisories := n })
    (herr : ∀ s o, P s → s.editor.insertCommentBefore p comment = .error o → E (.overlap o) s) :
    Holds P (advise p comment) Q E := by
  intro s hs
  rw [result_advise]
  rcases hf : s.editor.insertCommentBefore p comment with o | ⟨put, editor⟩
  · exact herr s o hs hf
  · exact hok s put editor _ hs hf

/-- What a step leaves where it runs into an overlap is where the recovery starts. -/
theorem Holds.orOnOverlap {x : Pass Unit} {r : Overlap → Pass Unit} {Q : Unit → Session → Prop}
    {F : Overlap → Session → Prop}
    (hx : Holds P x Q fun e s => match e with
      | .overlap o => F o s
      | e => E e s)
    (hr : ∀ o, Holds (F o) (r o) Q E) : Holds P (orOnOverlap x r) Q E := by
  intro s hs
  have h1 := hx s hs
  rw [result_orOnOverlap]
  rcases hres : x.result s with ⟨e | _, s'⟩ <;> rw [hres] at h1
  · cases e with
    | overlap o => exact hr o s' h1
    | dialect _ => exact h1
    | pattern _ => exact h1
    | undecodable _ => exact h1
  · exact h1

theorem Holds.foldlM {f : β → α → Pass β} {xs : List α} {I : List α → β → Session → Prop} {b : β}
    (h : ∀ l x r b, xs = l ++ x :: r → Holds (I l b) (f b x) (I (l ++ [x])) E) :
    Holds (I [] b) (xs.foldlM f b) (I xs) E := by
  suffices ∀ r l b, xs = l ++ r → Holds (I l b) (r.foldlM f b) (I xs) E from this xs [] b rfl
  intro r
  induction r with
  | nil =>
    intro l b hl
    rw [List.append_nil] at hl
    subst hl
    exact Holds.pure fun s hs => hs
  | cons x r ih =>
    intro l b hl
    rw [List.foldlM_cons]
    exact (h l x r b hl).bind fun b' => ih (l ++ [x]) b' (by simp [hl])

theorem Holds.forM {f : α → Pass PUnit} {xs : List α} {I : List α → Session → Prop}
    (h : ∀ l x r, xs = l ++ x :: r → Holds (I l) (f x) (fun _ => I (l ++ [x])) E) :
    Holds (I []) (xs.forM f) (fun _ => I xs) E := by
  suffices ∀ r l, xs = l ++ r → Holds (I l) (r.forM f) (fun _ => I xs) E from this xs [] rfl
  intro r
  induction r with
  | nil =>
    intro l hl
    rw [List.append_nil] at hl
    subst hl
    exact Holds.pure fun s hs => hs
  | cons x r ih =>
    intro l hl
    exact (h l x r hl).bind fun _ => ih (l ++ [x]) (by simp [hl])

theorem Holds.left {x : Pass α} {R : Session → Prop} (h : Holds P x (fun _ => R) fun _ => R)
    {s : Session} (hs : P s) : R (x.result s).2 := by
  have h1 := h s hs
  rcases hr : x.result s with ⟨_ | _, _⟩ <;> rw [hr] at h1 <;> exact h1

/-- A step keeps `P`, whether it ends well or fails, and fails only with an overlap. -/
def Keeps (P : Session → Prop) (x : Pass α) : Prop :=
  Holds P x (fun _ => P) fun e s => (∃ o, e = .overlap o) ∧ P s

theorem Keeps.bind {x : Pass α} {f : α → Pass β} (hx : Keeps P x) (hf : ∀ a, Keeps P (f a)) :
    Keeps P (x >>= f) :=
  Holds.bind hx hf

theorem Keeps.pure {a : α} : Keeps P (pure a) := Holds.pure fun _ hs => hs

theorem Keeps.modify {f : Session → Session} (h : ∀ s, P s → P (f s)) : Keeps P (modify f) :=
  Holds.modify h

theorem Keeps.forM {f : α → Pass PUnit} {xs : List α} (h : ∀ x ∈ xs, Keeps P (f x)) :
    Keeps P (xs.forM f) :=
  Holds.forM (I := fun _ => P) fun l x r hl => h x (by simp [hl])

theorem Keeps.foldlM {f : β → α → Pass β} {xs : List α} {b : β}
    (h : ∀ b, ∀ x ∈ xs, Keeps P (f b x)) : Keeps P (xs.foldlM f b) :=
  Holds.foldlM (I := fun _ _ => P) fun l x r b hl => h b x (by simp [hl])

theorem Keeps.mapM {f : α → Pass β} {xs : List α} (h : ∀ x ∈ xs, Keeps P (f x)) :
    Keeps P (xs.mapM f) := by
  induction xs with
  | nil => rw [List.mapM_nil]; exact Keeps.pure
  | cons x xs ih =>
    rw [List.mapM_cons]
    exact (h x (by simp)).bind fun _ =>
      (ih fun y hy => h y (by simp [hy])).bind fun _ => Keeps.pure

end OrmCodemod.Pass
