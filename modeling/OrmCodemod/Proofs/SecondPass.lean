import OrmCodemod.Proofs.Described
import OrmCodemod.Proofs.Injection
import OrmCodemod.Proofs.Lasting
import OrmCodemod.Proofs.Rest

/-! When a pass leaves a source as it is, and a second pass the output of the first one. A pass prints
its edits only if it has set a flag. `Unflagged` tells of a tree that it sets none: there may be edits
all the same, as imports of entities are commented on, and a constructor is left half swapped, without
a flag. -/

namespace OrmCodemod

open Syntax Text Pass

namespace Pass

variable {α β : Type}

/-- A step that ends well has set a flag. -/
def Fires (x : Pass α) : Prop :=
  Holds (fun _ => True) x (fun _ s => s.flags.any = true) fun _ _ => True

theorem Fires.after {x : Pass α} {f : α → Pass β} (h : ∀ a, Fires (f a)) : Fires (x >>= f) :=
  Holds.bind (Q := fun _ _ => True)
    (fun s _ => by rcases x.result s with ⟨_ | _, _⟩ <;> trivial) h

/-- A flag that is set stays set. -/
def Flagged (x : Pass α) : Prop :=
  Holds (fun s => s.flags.any = true) x (fun _ s => s.flags.any = true) fun _ _ => True

theorem Along.flagged {x : Pass α} (h : Along Lasts x) : Flagged x :=
  h.holds lasts_permits fun _ _ h => h.fired

theorem Fires.flagged {x : Pass α} (h : Fires x) : Flagged x :=
  h.mono (fun _ _ => trivial) (fun _ _ h => h) fun _ _ h => h

theorem Flagged.pure (a : α) : Flagged (pure a : Pass α) := Holds.pure fun _ h => h

theorem Flagged.bind {x : Pass α} {f : α → Pass β} (hx : Flagged x) (hf : ∀ a, Flagged (f a)) :
    Flagged (x >>= f) :=
  Holds.bind hx hf

theorem Flagged.forM {f : α → Pass PUnit} (xs : List α) (h : ∀ x, Flagged (f x)) :
    Flagged (xs.forM f) :=
  Holds.forM (I := fun _ s => s.flags.any = true) fun _ x _ _ => h x

theorem Flagged.foldlM {f : β → α → Pass β} (xs : List α) (b : β) (h : ∀ b x, Flagged (f b x)) :
    Flagged (xs.foldlM f b) :=
  Holds.foldlM (I := fun _ _ s => s.flags.any = true) fun _ x _ b _ => h b x

theorem Fires.then {x : Pass α} {f : α → Pass β} (hx : Fires x) (hf : ∀ a, Flagged (f a)) :
    Fires (x >>= f) :=
  Holds.bind hx hf

theorem fires_setFlags {f : Flags → Flags} (h : ∀ g, (f g).any = true) : Fires (Pass.setFlags f) :=
  Holds.modify fun s _ => h s.flags

/-- From `P` and without a flag, a step that ends well has set none exactly if `c`, and leads to `Q` if
it has not. -/
def Unflags (P : Session → Prop) (c : Prop) (Q : α → Session → Prop) (x : Pass α) : Prop :=
  Holds (fun s => P s ∧ s.flags.any = false) x
    (fun a s => (s.flags.any = false ↔ c) ∧ (s.flags.any = false → Q a s)) fun _ _ => True

variable {P P' : Session → Prop} {c d : Prop} {Q Q' : α → Session → Prop} {R : β → Session → Prop}

theorem Unflags.mono {x : Pass α} (h : Unflags P c Q x) (hp : ∀ s, P' s → P s) (hc : c ↔ d)
    (hq : ∀ a s, Q a s → Q' a s) : Unflags P' d Q' x :=
  Holds.mono h (fun s hs => ⟨hp s hs.1, hs.2⟩)
    (fun a s hs => ⟨hs.1.trans hc, fun hf => hq a s (hs.2 hf)⟩) fun _ _ hs => hs

theorem Unflags.congr {x : Pass α} (h : Unflags P c Q x) (hc : c ↔ d) : Unflags P d Q x :=
  h.mono (fun _ hs => hs) hc fun _ _ hs => hs

theorem Unflags.of_fires {x : Pass α} (hc : ¬c) (h : Fires x) : Unflags P c Q x :=
  Holds.mono h (fun _ _ => trivial) (fun _ s hs => by simp [hs, hc]) fun _ _ hs => hs

theorem Unflags.of_keeps {x : Pass α} (hc : c)
    (h : Holds (fun s => P s ∧ s.flags.any = false) x
      (fun a s => s.flags.any = false ∧ Q a s) fun _ _ => True) : Unflags P c Q x :=
  h.mono (fun _ hs => hs) (fun _ _ hs => ⟨iff_of_true hs.1 hc, fun _ => hs.2⟩) fun _ _ hs => hs

theorem Unflags.pure {a : α} (hc : c) (h : ∀ s, P s → Q a s) : Unflags P c Q (pure a : Pass α) :=
  .of_keeps hc (Holds.pure fun s hs => ⟨hs.2, h s hs.1⟩)

theorem Unflags.bind {x : Pass α} {f : α → Pass β} (hx : Unflags P c Q x)
    (hlast : ∀ a, Flagged (f a)) (hf : ∀ a, Unflags (Q a) d R (f a)) :
    Unflags P (c ∧ d) R (x >>= f) := by
  refine Holds.bind hx fun a s ⟨hc, hq⟩ => ?_
  cases hs : s.flags.any with
  | true =>
    have hno : ¬c := fun h => by simp [hc.2 h] at hs
    exact (hlast a).mono (fun _ h => h) (fun _ s' h => ⟨by simp [h, hno], by simp [h]⟩)
      (fun _ _ h => h) s hs
  | false => exact ((hf a).congr (d := c ∧ d) (by simp [hc.1 hs])) s ⟨hq hs, hs⟩

theorem Unflags.forM {f : α → Pass PUnit} {xs : List α} {c : α → Prop}
    (hlast : ∀ x, Flagged (f x)) (h : ∀ x ∈ xs, Unflags P (c x) (fun _ => P) (f x)) :
    Unflags P (∀ x ∈ xs, c x) (fun _ => P) (xs.forM f) := by
  induction xs with
  | nil => exact .pure (by simp) fun _ hs => hs
  | cons x xs ih =>
    exact ((h x (by simp)).bind (fun _ => .forM xs hlast) fun _ =>
      ih fun y hy => h y (by simp [hy])).congr (by simp)

theorem Unflags.foldlM {f : β → α → Pass β} {xs : List α} {c : α → Prop}
    (hlast : ∀ b x, Flagged (f b x)) (h : ∀ b, ∀ x ∈ xs, Unflags (R b) (c x) R (f b x)) :
    ∀ b, Unflags (R b) (∀ x ∈ xs, c x) R (xs.foldlM f b) := by
  induction xs with
  | nil => exact fun b => .pure (by simp) fun _ hs => hs
  | cons x xs ih =>
    intro b
    rw [List.foldlM_cons]
    exact ((h b x (by simp)).bind (fun b' => .foldlM xs b' hlast) fun b' =>
      ih (fun b y hy => h b y (by simp [hy])) b').congr (by simp)

theorem advise_noted {q : Place} {s : Session} {comment : String}
    (h : s.editor.noted q comment = true) : (advise q comment).result s = (.ok false, s) := by
  rw [result_advise, Editor.insertCommentBefore_eq, if_pos h]
  rfl

/-- Comments that stand there already are passed over. -/
theorem advises_noted {q : Place} {s : Session} {comments : List String}
    (h : ∀ comment ∈ comments, s.editor.noted q comment = true) :
    ∃ put, (comments.mapM (advise q)).result s = (.ok put, s) ∧ put.any id = false := by
  induction comments with
  | nil => exact ⟨[], rfl, rfl⟩
  | cons c cs ih =>
    obtain ⟨put, hrest, hput⟩ := ih fun comment hc => h comment (by simp [hc])
    refine ⟨false :: put, ?_, by simpa using hput⟩
    rw [List.mapM_cons, result_bind_ok (advise_noted (h c (by simp))), result_bind_ok hrest]
    rfl

/-- Where there is room, a comment that does not stand there is put. -/
theorem advises_put {q : Place} {s : Session} {comments : List String}
    (hroom : s.editor.Clear q.statement.start q.statement.start) {comment : String}
    (hc : comment ∈ comments) (hnew : s.editor.noted q comment = false) :
    ∃ put s', (comments.mapM (advise q)).result s = (.ok put, s') ∧ put.any id = true := by
  induction comments with
  | nil => simp at hc
  | cons c cs ih =>
    rw [List.mapM_cons]
    cases hn : s.editor.noted q c with
    | false =>
      let s1 : Session := { s with
        editor := s.editor.advised q c
        advisories := s.advisories + 1 }
      have hfirst : (advise q c).result s = (.ok true, s1) := by
        rw [result_advise, (Editor.insertCommentBefore_of_clear hroom c).1, hn]
        rfl
      obtain ⟨put, n, hrest⟩ := advises_made cs (s := s1) (hroom.advised q c)
      rw [result_bind_ok hfirst, result_bind_ok hrest]
      exact ⟨true :: put, _, rfl, rfl⟩
    | true =>
      have hother : comment ∈ cs := (List.mem_cons.1 hc).resolve_left fun heq => by simp [heq, hn] at hnew
      obtain ⟨put, s', hrest, hput⟩ := ih hother
      rw [result_bind_ok (advise_noted hn), result_bind_ok hrest]
      exact ⟨false :: put, s', rfl, by simpa using hput⟩

end Pass

namespace Entities

variable {u : SourceUnit}

theorem extractClass_plain {enums : DeclaredEnums} {class_ : Place} (h : isEntity u class_ = false) :
    extractClass u enums class_ = pure () := by
  unfold extractClass
  dsimp only
  split
  · rename_i entity name hentity hname
    split
    · rfl
    · rename_i hne
      exact absurd (isEntity_iff.2 ⟨entity, name, hentity, hname, by simpa using hne⟩) (by simp [h])
  · rfl

theorem extractClass_fires {enums : DeclaredEnums} {class_ : Place} (h : isEntity u class_ = true) :
    Fires (extractClass u enums class_) := by
  obtain ⟨entity, name, hentity, hname, hne⟩ := isEntity_iff.1 h
  unfold extractClass
  rw [hentity, hname]
  dsimp only
  rw [if_neg (by simpa using hne)]
  refine .after fun _ => .after fun _ => .after fun _ => (fires_setFlags fun g => ?_).then fun _ =>
    (lasts_permits.say _ _).flagged
  simp [Flags.any]

theorem extractClass_flagged (enums : DeclaredEnums) (class_ : Place) :
    Flagged (extractClass u enums class_) := by
  cases h : isEntity u class_ with
  | true => exact (extractClass_fires h).flagged
  | false => exact extractClass_plain h ▸ .pure ()

/-- An entity class always sets a flag; where there is none, nothing happens. -/
theorem extract_unflags {s₀ : Session} (hs₀ : s₀.models = []) :
    Unflags (· = s₀) (∀ class_ ∈ u.place.find Place.classKinds, isEntity u class_ = false)
      (fun _ => (· = s₀)) (extract u) := by
  unfold extract
  have hclasses : Unflags (· = s₀)
      (∀ class_ ∈ sortByStart (u.place.find Place.classKinds), isEntity u class_ = false)
      (fun _ => (· = s₀)) ((sortByStart (u.place.find Place.classKinds)).forM
        (extractClass u (declaredEnums u))) := by
    refine .forM (extractClass_flagged _) fun class_ _ => ?_
    cases h : isEntity u class_ with
    | true => exact .of_fires (by simp) (extractClass_fires h)
    | false => exact extractClass_plain h ▸ .pure rfl fun _ hs => hs
  have hlast : ∀ s : Session, Flagged (if !s.models.isEmpty then
      Pass.say .info (s!"Extracted {s.models.length} entity model(s). The schema is a reference; " ++
        "introspect the database for production use.") else pure () : Pass Unit) := by
    intro s
    split
    · exact (lasts_permits.say _ _).flagged
    · exact .pure ()
  refine (hclasses.bind (d := True) (fun _ => Along.get.flagged.bind hlast) fun _ =>
    .of_keeps trivial ?_).congr ?_
  · refine Holds.get fun s ⟨hs, hflags⟩ => ?_
    rw [if_neg (by simp [hs, hs₀])]
    rintro _ rfl
    exact ⟨hflags, hs⟩
  · rw [and_true]
    exact forall_congr' fun class_ => imp_congr_left (sortByStart_perm _).mem_iff

end Entities

namespace Calls

variable {u : SourceUnit} {members : Pattern.Regex} {base : Editor}

/-- Nothing of a constructor is swapped, or not all of it. -/
def Stalls (u : SourceUnit) (method : Place) : Prop :=
  injected u method = [] ∨ ¬Untangled (injected u method).tail

/-- A call is left alone: its row is supported but what holds it is replaced, or every advisory of its
row that can be put stands there already. -/
def Mute (u : SourceUnit) (base : Editor) (x : Place.RepositoryCall) : Prop :=
  ∀ rule, Rules.rule? (x.method.text u.source) = some rule →
    if rule.supported then (x.receiver.child? .object).isSome → ¬Free base x
    else base.Clear x.call.statement.start x.call.statement.start →
      ∀ comment ∈ rule.advisories, base.noted x.call comment = true

theorem convertConstructor_unflags (hu : u.Nested) {done rest : List Place} {method : Place}
    (hfind : u.place.find [.methodDefinition] = done ++ method :: rest) {s : Session}
    (hrec : Recorded u (Confined done) s.editor) :
    ∃ after, (convertConstructor u method).result s = (.ok (), after) ∧
      (after.flags.any = false ↔ s.flags.any = false ∧ Stalls u method) := by
  have hm : method ∈ u.place.find [.methodDefinition] := by simp [hfind]
  cases hinj : injected u method with
  | nil =>
    rw [convertConstructor_eq, hinj]
    exact ⟨s, rfl, by simp [Stalls, hinj]⟩
  | cons first others =>
    obtain ⟨params, hparams, hlist⟩ := injected_listed hm (by simp [hinj])
    rw [hinj] at hlist
    have hspared := spared_of_confined hu (Place.find_rooted u.place_rooted hm) hparams hlist
      (methods_later hu hfind) hrec.all
    obtain ⟨after, hres, ⟨hun, hswapped⟩ | hhalf⟩ := convertConstructor_result hu hinj hlist hspared
    · refine ⟨after, hres, ?_⟩
      rw [hswapped]
      simp [Stalls, hinj, hun, Flags.any]
    · have hun := (hhalf.not_whole hrec.sound).1
      obtain ⟨l, p, q, r, -, -, -, hafter⟩ := hhalf
      refine ⟨after, hres, ?_⟩
      rw [hafter]
      simp [Stalls, hinj, hun, swapped]

theorem convertConstructors_unflags (hu : u.Nested) :
    Holds (fun s => Recorded u (fun e => e.start = e.stop) s.editor ∧ s.flags.any = false)
      (convertConstructors u)
      (fun _ s => s.flags.any = false ↔ ∀ m ∈ u.place.find [.methodDefinition], Stalls u m)
      fun _ _ => True := by
  have hrun : Holds
      (fun s => Recorded u (Confined []) s.editor ∧
        (s.flags.any = false ↔ ∀ m ∈ ([] : List Place), Stalls u m))
      (convertConstructors u)
      (fun _ s => Recorded u (Confined (u.place.find [.methodDefinition])) s.editor ∧
        (s.flags.any = false ↔ ∀ m ∈ u.place.find [.methodDefinition], Stalls u m))
      fun _ _ => True := by
    refine Holds.forM (I := fun done s => Recorded u (Confined done) s.editor ∧
      (s.flags.any = false ↔ ∀ m ∈ done, Stalls u m)) fun done method rest hfind => ?_
    have hm : method ∈ u.place.find [.methodDefinition] := by simp [hfind]
    intro s ⟨hrec, hflags⟩
    have hkept := convertConstructor_confined (E := fun _ _ => False) hu hm s hrec
    obtain ⟨after, hres, hafter⟩ := convertConstructor_unflags hu hfind hrec
    rw [hres] at hkept ⊢
    refine ⟨hkept, ?_⟩
    rw [hafter, hflags]
    simp [or_imp, forall_and]
  exact hrun.mono (fun s hs => ⟨hs.1.imp fun e he => .inl he, by simp [hs.2]⟩) (fun _ _ h => h.2)
    fun _ _ h => h

/-- A call that is tried: it changes nothing but the log, or is done with and flagged. -/
def Tried (mute : Prop) (s : Session) (run : Except Fault Unit × Session) : Prop :=
  (mute ∧ ((∃ o log, run = (.error (.overlap o), { s with log })) ∨ run = (.ok (), s))) ∨
    (¬mute ∧ ∃ s', run = (.ok (), s') ∧ s'.flags.any = true)

theorem advise_tried (x : Place.RepositoryCall) (rule : Rules.Rule) (s : Session) :
    Tried (s.editor.Clear x.call.statement.start x.call.statement.start →
        ∀ comment ∈ rule.advisories, s.editor.noted x.call comment = true) s
      ((do
        let put ← rule.advisories.mapM (Pass.advise x.call)
        if put.any id then Pass.setFlags fun f => { f with services := true }
        : Pass Unit).result s) := by
  by_cases hnoted : ∀ comment ∈ rule.advisories, s.editor.noted x.call comment = true
  · obtain ⟨put, hput, hnone⟩ := advises_noted hnoted
    rw [result_bind_ok hput, if_neg (by simp [hnone])]
    exact .inl ⟨fun _ => hnoted, .inr rfl⟩
  by_cases hroom : s.editor.Clear x.call.statement.start x.call.statement.start
  · refine .inr ⟨fun h => hnoted (h hroom), ?_⟩
    push Not at hnoted
    obtain ⟨comment, hc, hnew⟩ := hnoted
    obtain ⟨put, s', hput, hany⟩ := advises_put hroom hc (by simpa using hnew)
    rw [result_bind_ok hput, if_pos hany]
    exact ⟨_, rfl, s'.flags.any_services⟩
  · obtain ⟨o, hput⟩ := (advises_refused rule.advisories hroom).resolve_left
      fun ⟨_, _, hall⟩ => hnoted hall
    refine .inl ⟨fun h => absurd h hroom, .inl ⟨o, s.log, ?_⟩⟩
    rw [result_bind, hput]

theorem convertCall_tried (hu : u.Closed) {s : Session}
    (hbase : Recorded u (fun e => e.start = e.stop ∨ IsInjectionEdit u e) s.editor)
    {x : Place.RepositoryCall} (hx : x ∈ callSites u members) :
    Tried (Mute u s.editor x) s ((convertCall u x).result s) := by
  have htracks : Tracks u s.editor [] s.editor s.editor := (Attends.refl hbase).toTracks
  have hwhole := htracks.whole hu hbase.all hx (by simp)
  unfold convertCall at hwhole ⊢
  cases hrule : Rules.rule? (x.method.text u.source) with
  | none => exact .inl ⟨by simp [Mute, hrule], .inr rfl⟩
  | some rule =>
    cases hsupported : rule.supported with
    | false =>
      simp only [Mute, hrule, Option.some.injEq, forall_eq', hsupported, Bool.false_eq_true, if_false,
        Bool.not_false, if_true]
      exact advise_tried x rule s
    | true =>
      simp only [hrule, Option.some.injEq, forall_eq', hsupported, Bool.not_true, Bool.false_eq_true,
        if_false] at hwhole ⊢
      simp only [Mute, hrule, Option.some.injEq, forall_eq', hsupported, if_true]
      cases howner : x.receiver.child? .object with
      | none => exact .inl ⟨by simp, .inr rfl⟩
      | some owner =>
        simp only [howner, Option.isSome_some, forall_const] at hwhole ⊢
        rcases hwhole with ⟨o, log, hres, hnot⟩ | ⟨s', hres, hdone, hfree⟩
        · exact .inl ⟨hnot, .inl ⟨o, log, hres⟩⟩
        · refine .inr ⟨fun h => h hfree, s', hres, ?_⟩
          rw [(hdone.converted rule owner hrule hsupported howner).rest]
          exact s.flags.any_services

theorem attempt_unflags (hu : u.Closed)
    (hbase : Recorded u (fun e => e.start = e.stop ∨ IsInjectionEdit u e) base)
    {x : Place.RepositoryCall} (hx : x ∈ callSites u members) :
    Unflags (·.editor = base) (Mute u base x) (fun _ => (·.editor = base)) (attempt u x) := by
  rintro s ⟨rfl, hflags⟩
  unfold attempt
  rw [result_orOnOverlap]
  rcases convertCall_tried hu hbase hx with
    ⟨hmute, ⟨o, log, hres⟩ | hres⟩ | ⟨hno, s', hres, hfired⟩
  · rw [hres]
    exact ⟨iff_of_true hflags hmute, fun _ => rfl⟩
  · rw [hres]
    exact ⟨iff_of_true hflags hmute, fun _ => rfl⟩
  · rw [hres]
    exact ⟨by simp [hfired, hno], by simp [hfired]⟩

theorem convertCalls_unflags (hu : u.Closed)
    (hbase : Recorded u (fun e => e.start = e.stop ∨ IsInjectionEdit u e) base) :
    Unflags (·.editor = base) (∀ x ∈ callSites u members, Mute u base x) (fun _ => (·.editor = base))
      (convertCalls u (callSites u members)) := by
  rw [convertCalls_eq]
  refine (Unflags.forM (fun x => ?_) fun x hx => attempt_unflags hu hbase (mem_sortSites.1 hx)).congr
    (forall_congr' fun x => imp_congr_left mem_sortSites)
  exact ((convertCall_along lasts_permits u x).orOnOverlap fun _ => lasts_permits.say _ _).flagged

end Calls

namespace Imports

variable {u : SourceUnit} {base : Editor}

/-- An import is left, or only commented on. -/
def muteImport (u : SourceUnit) (p : Place) : Bool :=
  match modulePath? u p.tree with
  | none => true
  | some path =>
    if path == sourceLibrary then
      !(importedNames u p.tree).contains Resolver.repositoryType &&
        !(importedNames u p.tree).any schemaNames.contains
    else !isRepositoryPath path

/-- A registration is left for one around it, or is cut into by what is replaced. -/
def Blocked (u : SourceUnit) (base : Editor) (site : Place × String) : Prop :=
  (registrationSites u).any (fun other => encloses other.1 site.1) = true ∨
    ¬base.Clear site.1.start site.1.stop

theorem fires_flagModules : Fires (Pass.setFlags fun f => { f with modules := true }) :=
  fires_setFlags Flags.any_modules

/-- No registration has been replaced, and nothing edited since `base`. -/
def Untouched (base : Editor) (progress : Progress) (s : Session) : Prop :=
  progress.registrations = 0 ∧ s.editor = base

theorem convertRegistration_unflags (progress : Progress) (site : Place × String) :
    Unflags (Untouched base progress) (¬base.Clear site.1.start site.1.stop) (Untouched base)
      (convertRegistration u progress site.1 site.2) := by
  rintro s ⟨⟨hp, rfl⟩, hflags⟩
  unfold convertRegistration
  dsimp only
  rw [result_bind_ok (result_get s)]
  cases hed : s.editor.replace site.1.tree
      (if rootRegistrations.contains site.2 then u.settings.moduleName ++ "()"
        else u.settings.moduleName) with
  | error o =>
    have hcut : ¬s.editor.Clear site.1.start site.1.stop := fun h =>
      absurd (hed.symm.trans (Editor.replaceRange_eq_ok.2 ⟨h, rfl⟩)) (by simp)
    exact ⟨iff_of_true hflags hcut, fun _ => ⟨hp, rfl⟩⟩
  | ok editor =>
    have hclear : s.editor.Clear site.1.start site.1.stop := (Editor.replaceRange_eq_ok.1 hed).1
    have hfires : Fires (do
        let ensured ← ensureImport u u.settings.moduleName u.settings.modulePath progress.ensured
        Pass.setFlags fun f => { f with modules := true }
        return ⟨ensured, progress.registrations + 1⟩ : Pass Progress) :=
      .after fun _ => fires_flagModules.then fun _ => .pure _
    rw [result_bind_ok (result_modify _ s)]
    exact hfires.mono (fun _ h => h) (fun _ s' h => ⟨by simp [h, hclear], by simp [h]⟩)
      (fun _ _ h => h) _ trivial

theorem convertRegistrations_unflags :
    Unflags (·.editor = base) (∀ site ∈ registrationSites u, Blocked u base site) (Untouched base)
      (convertRegistrations u (registrationSites u)) := by
  have hstep : ∀ (b : Progress) (x : Place × String),
      Unflags (Untouched base b) (Blocked u base x) (Untouched base)
        (if (registrationSites u).any fun other => encloses other.1 x.1 then return b
          else convertRegistration u b x.1 x.2) := by
    intro b x
    split
    · rename_i h
      exact .pure (.inl h) fun _ hs => hs
    · rename_i h
      exact (convertRegistration_unflags b x).congr (by simp [Blocked, h])
  have hlast : ∀ (b : Progress) (x : Place × String),
      Flagged (if (registrationSites u).any fun other => encloses other.1 x.1 then return b
        else convertRegistration u b x.1 x.2) := by
    intro b x
    split
    · exact .pure b
    · exact (convertRegistration_along lasts_permits u b _ _).flagged
  exact (Unflags.foldlM hlast (fun b x _ => hstep b x) {}).mono (fun _ hs => ⟨rfl, hs⟩) .rfl
    fun _ _ hs => hs

/-- No registration has been replaced. -/
def Unregistered (progress : Progress) (_ : Session) : Prop := progress.registrations = 0

theorem convertSourceImport_unflags (progress : Progress) (statement : Tree) :
    Unflags (Unregistered progress)
      ((!(importedNames u statement).contains Resolver.repositoryType &&
        !(importedNames u statement).any schemaNames.contains) = true)
      Unregistered (convertSourceImport u progress statement) := by
  refine Unflags.congr (c := _) ?_ any_dropped_iff
  unfold convertSourceImport
  extract_lets names repositories dropped rest
  cases hany : names.any dropped.contains with
  | true =>
    have hrest : ∀ ensured, Fires (rest ensured) := by
      intro ensured
      dsimp only [rest]
      rw [if_pos hany]
      exact .after fun _ => fires_flagModules.then fun _ => .pure _
    refine .of_fires (by simp) ?_
    split
    · exact .after hrest
    · exact .after hrest
  | false =>
    have hnone : repositories = false := by
      have hkept := any_dropped_iff.1 hany
      rw [Bool.and_eq_true, Bool.not_eq_true'] at hkept
      exact hkept.1
    rw [if_neg (by simp [hnone]), pure_bind]
    dsimp only [rest]
    rw [if_neg (by simp [hany])]
    exact .pure rfl fun _ hs => hs

/-- Without a flag and with no registration replaced, nothing is dropped. -/
theorem convertIntegrationImport_unflags (progress : Progress) (statement : Tree) :
    Unflags (Unregistered progress) True (fun _ => Unregistered progress)
      (convertIntegrationImport u progress statement) := by
  refine .of_keeps trivial fun s ⟨hp, hflags⟩ => ?_
  have hkept : s.flags.repositories = false := by
    simp only [Flags.any, Bool.or_eq_false_iff] at hflags
    exact hflags.1.1.2
  unfold convertIntegrationImport
  rw [result_bind_ok (result_get s), hkept, show progress.registrations = 0 from hp]
  simpa using ⟨hflags, hp⟩

theorem convertImport_unflags (progress : Progress) (p : Place) :
    Unflags (Unregistered progress) (muteImport u p = true) Unregistered
      (convertImport u progress p) := by
  dsimp only [convertImport, muteImport]
  cases hpath : modulePath? u p.tree with
  | none => exact .pure rfl fun _ hs => hs
  | some path =>
    dsimp only
    by_cases hsource : (path == sourceLibrary) = true
    · rw [if_pos hsource, if_pos hsource]
      exact convertSourceImport_unflags progress p.tree
    rw [if_neg hsource, if_neg hsource]
    by_cases hrepo : isRepositoryPath path = true
    · rw [if_pos hrepo, hrepo]
      exact .of_fires (by simp) (.after fun _ => fires_flagModules.then fun _ => .pure _)
    rw [if_neg hrepo, eq_false_of_ne_true hrepo]
    by_cases hlib : (path == integrationLibrary) = true
    · rw [if_pos hlib]
      exact ((convertIntegrationImport_unflags progress p.tree).bind (d := True) (R := Unregistered)
        (fun _ => .pure progress) fun _ => .pure trivial fun _ hs => hs).congr (by simp)
    rw [if_neg hlib]
    split
    · exact .of_keeps rfl (Holds.bind
        (Q := fun _ s => s.flags.any = false ∧ Unregistered progress s)
        (Holds.advise (fun s put ed n hs _ => ⟨hs.2, hs.1⟩) fun _ _ _ _ => trivial)
        fun _ => Holds.pure fun s hs => hs)
    · exact .pure rfl fun _ hs => hs

theorem convert_unflags :
    Unflags (·.editor = base) ((∀ site ∈ registrationSites u, Blocked u base site) ∧
      ∀ p ∈ importStatements u, muteImport u p = true) (fun _ _ => True) (convert u) := by
  have hfold : ∀ b : Progress, Flagged ((importStatements u).foldlM (convertImport u) b) := fun b =>
    .foldlM _ b fun b p => (convertImport_along lasts_permits u b p).flagged
  have himports : ∀ b : Progress,
      Unflags (Untouched base b) (∀ p ∈ importStatements u, muteImport u p = true) Unregistered
        ((importStatements u).foldlM (convertImport u) b) := fun b =>
    (Unflags.foldlM (fun b p => (convertImport_along lasts_permits u b p).flagged)
      (fun b p _ => convertImport_unflags b p) b).mono (fun _ hs => hs.1) .rfl fun _ _ hs => hs
  unfold convert
  refine convertRegistrations_unflags.bind (fun b => (hfold b).bind fun _ => .pure _) fun b => ?_
  exact ((himports b).bind (d := True) (fun _ => .pure _) fun _ =>
    .pure trivial fun _ _ => trivial).congr (by simp)

end Imports

/-- The flags of the constructors, and the edits that the calls start from. -/
theorem Calls.afterConstructors_unflags {u : SourceUnit} (hu : u.Nested) {s : Session}
    (hs : Recorded u (fun e => e.start = e.stop) s.editor) :
    Unflags (· = s) (∀ m ∈ u.place.find [.methodDefinition], Stalls u m)
      (fun _ s' => s'.editor = afterConstructors u s) (convertConstructors u) := by
  rintro _ ⟨rfl, hflags⟩
  have h := convertConstructors_unflags hu _ ⟨hs, hflags⟩
  unfold afterConstructors
  generalize (convertConstructors u).result _ = run at h ⊢
  rcases run with ⟨_ | _, s'⟩
  · trivial
  · exact ⟨h, fun _ => rfl⟩

/-- No stage sets a flag: no class is an entity, no constructor is swapped as a whole, every call and
registration that there is something to do with is held by a parameter that its constructor has
replaced, and no import is of the source library's names or repositories. -/
structure Unflagged (u : SourceUnit) (members : Pattern.Regex) (base : Editor) : Prop where
  entities : ∀ class_ ∈ u.place.find Place.classKinds, Entities.isEntity u class_ = false
  constructors : ∀ method ∈ u.place.find [.methodDefinition], Calls.Stalls u method
  calls : ∀ x ∈ Calls.callSites u members, Calls.Mute u base x
  registrations : ∀ site ∈ Imports.registrationSites u, Imports.Blocked u base site
  imports : ∀ p ∈ Imports.importStatements u, Imports.muteImport u p = true

/-- A pass that ends well has set no flag exactly if none of its stages does. -/
theorem stages_unflags {u : SourceUnit} (hu : u.Closed) {members : Pattern.Regex}
    (hm : Pattern.parse u.settings.memberPattern = .ok members) {s : Session}
    (hfresh : s.editor = { source := u.source }) (hmodels : s.models = []) :
    Unflags (· = s) (Unflagged u members (Calls.afterConstructors u s)) (fun _ _ => True)
      (Outcome.stages u) := by
  have hrec : ∀ L : Edit → Prop, Recorded u L s.editor := fun L => hfresh ▸ Recorded.fresh u L
  have hbase : Recorded u (fun e => e.start = e.stop ∨ Calls.IsInjectionEdit u e)
      (Calls.afterConstructors u s) := by
    obtain ⟨_, s1, hs1, h⟩ := (Calls.convertConstructors_holds
      (L := fun e => e.start = e.stop ∨ Calls.IsInjectionEdit u e) (E := fun _ _ => False)
      hu.toNested fun _ he => .inr he).exists_ok (hrec _)
    rwa [Calls.afterConstructors, hs1]
  have hcalls : Unflags (· = s)
      ((∀ m ∈ u.place.find [.methodDefinition], Calls.Stalls u m) ∧
        ∀ x ∈ Calls.callSites u members, Calls.Mute u (Calls.afterConstructors u s) x)
      (fun _ s' => s'.editor = Calls.afterConstructors u s) (Calls.convert u) := by
    unfold Calls.convert
    rw [hm]
    exact (Calls.afterConstructors_unflags hu.toNested (hrec _)).bind
      (fun _ => (Calls.convertCalls_along lasts_permits u _).flagged)
      fun _ => Calls.convertCalls_unflags hu hbase
  unfold Outcome.stages
  refine ((Entities.extract_unflags hmodels).bind (fun _ => ?_) fun _ => hcalls.bind (fun _ => ?_)
    fun _ => Imports.convert_unflags).congr ?_
  · have hconvert : Along Lasts (Calls.convert u) := Calls.convert_along lasts_permits
      (fun s => ⟨List.prefix_refl _, fun _ => by simp [Flags.any], le_rfl⟩) hm
    exact hconvert.flagged.bind fun _ => (Imports.convert_along lasts_permits u).flagged
  · exact (Imports.convert_along lasts_permits u).flagged
  · constructor
    · rintro ⟨h1, ⟨h2, h3⟩, h4, h5⟩
      exact ⟨h1, h2, h3, h4, h5⟩
    · exact fun h => ⟨h.entities, ⟨h.constructors, h.calls⟩, h.registrations, h.imports⟩

/-- Where no constructor has a parameter to swap, no flag is set exactly if no class is an entity and all
is settled but the imports of entities, which are commented on without a flag. -/
theorem unflagged_iff {u : SourceUnit} {members : Pattern.Regex} {start : Session}
    (hcalm : Calm u.source start)
    (hplain : ∀ method ∈ u.place.find [.methodDefinition], Calls.injected u method = []) :
    Unflagged u members (Calls.afterConstructors u start) ↔
      (∀ class_ ∈ u.place.find Place.classKinds, Entities.isEntity u class_ = false) ∧
      (∀ x ∈ Calls.callSites u members, Calls.settledCall u x = true) ∧
      Imports.registrationSites u = [] ∧
      ∀ p ∈ Imports.importStatements u, Imports.muteImport u p = true := by
  obtain ⟨_, s, hrun, -, hend⟩ := (Idle.forM fun method _ =>
    Calls.idle_convertConstructor (u := u) method).waits start hcalm hplain
  have hbase : Calls.afterConstructors u start = { source := u.source } := by
    rw [Calls.afterConstructors, Calls.convertConstructors, hrun]
    exact hend.1
  have hclear : ∀ a b : Nat, Editor.Clear { source := u.source } a b := fun _ _ _ he => by simp at he
  have hcall : ∀ x, Calls.Mute u { source := u.source } x ↔ Calls.settledCall u x = true := by
    intro x
    unfold Calls.Mute Calls.settledCall
    cases Rules.rule? (x.method.text u.source) with
    | none => simp
    | some rule =>
      cases hs : rule.supported with
      | true => simp [hs, Calls.Free]
      | false =>
        simp [hs, hclear, Editor.noted, SourceUnit.commented]
  have hregistrations : (∀ site ∈ Imports.registrationSites u,
      Imports.Blocked u { source := u.source } site) ↔ Imports.registrationSites u = [] := by
    refine ⟨fun h => by_contra fun hne => ?_, fun h => by simp [h]⟩
    obtain ⟨x, hx, hmax⟩ := Imports.exists_outermost
      (fun x hx => (Imports.registration_within hx).2.1) hne
    obtain ⟨y, hy, hyx⟩ := List.any_eq_true.1 ((h x hx).resolve_right (not_not.2 (hclear _ _)))
    rw [hmax y hy] at hyx
    exact Bool.noConfusion hyx
  rw [hbase]
  constructor
  · exact fun h => ⟨h.entities, fun x hx => (hcall x).1 (h.calls x hx),
      hregistrations.1 h.registrations, h.imports⟩
  · rintro ⟨h1, h2, h3, h4⟩
    exact ⟨h1, fun m hm => .inl (hplain m hm), fun x hx => (hcall x).2 (h2 x hx),
      hregistrations.2 h3, h4⟩

/-- A pass leaves a text alone if there is nothing to edit in it, if no flag is set, or if flags are set
and what is edited comes to the same text. -/
def LeavesAlone (u : SourceUnit) (start : Session) (text : String) : Prop :=
  ∃ members, Pattern.parse u.settings.memberPattern = .ok members ∧
    (Settled u members ∨ Unflagged u members (Calls.afterConstructors u start) ∨
      ∃ s, (Outcome.stages u).result start = (.ok (), s) ∧ s.editor.edits ≠ [] ∧
        s.flags.any = true ∧ s.editor.print = .ok text)

namespace Outcome

theorem ofParsed_unchanged_iff {parsed : Parsed} {settings : Settings} {text : String}
    {path : Option String} (hu : SourceUnit.Regular ⟨encode text, parsed.root, settings⟩) :
    (∃ o, (ofParsed parsed settings text path).1 = .ok o ∧ o.changed = false ∧ o.output = text) ↔
      LeavesAlone ⟨encode text, parsed.root, settings⟩ (start (encode text) parsed path) text := by
  rw [ofParsed_eq, LeavesAlone]
  set u : SourceUnit := ⟨encode text, parsed.root, settings⟩
  set s₀ := start (encode text) parsed path
  have hcalm : Calm u.source s₀ := ⟨rfl, rfl⟩
  constructor
  · rintro ⟨o, ho, hsame⟩
    rcases hrun : (stages u).result s₀ with ⟨_ | _, s⟩ <;> rw [hrun] at ho
    · cases ho
    obtain ⟨members, hm⟩ := pattern_of_stages hrun
    have hunflagged := ((stages_unflags hu.toClosed hm rfl rfl).ok ⟨rfl, rfl⟩ hrun).1.1
    refine ⟨members, hm, ?_⟩
    cases hflags : s.flags.any with
    | false => exact .inr (.inl (hunflagged hflags))
    | true =>
      have hprint := (ofSession_unchanged_iff.1 ⟨o, ho, hsame⟩).resolve_left (by simp [hflags])
      by_cases hedits : s.editor.edits = []
      · refine .inl (by_contra fun hn => ?_)
        have hmoved := (idle_stages (u := u) hm).moves s₀ hcalm hn
        rw [hrun] at hmoved
        exact hmoved hedits
      · exact .inr (.inr ⟨s, rfl, hedits, hflags, hprint⟩)
  · rintro ⟨members, hm, hset | hunflagged | ⟨s, hrun, -, -, hprint⟩⟩
    · obtain ⟨_, s, hrun, -, hend⟩ := (idle_stages (u := u) hm).waits s₀ hcalm hset
      rw [hrun]
      refine ofSession_unchanged_iff.2 (.inr ?_)
      rw [hend.1, Editor.print]
      exact (congrArg decode (Editor.printBytes_fresh _)).trans (decode_encode text)
    · obtain ⟨s, hrun, -⟩ := stages_complete hu.toTopLevel rfl hu.aligned hm (s := s₀) rfl
      rw [hrun]
      exact ofSession_unchanged_iff.2 (.inl
        (((stages_unflags hu.toClosed hm rfl rfl).ok ⟨rfl, rfl⟩ hrun).1.2 hunflagged))
    · rw [hrun]
      exact ofSession_unchanged_iff.2 (.inr hprint)

/-- An outcome that reports no change is the source. -/
theorem ofParsed_output {parsed : Parsed} {settings : Settings} {source : String}
    {path : Option String} {o : Outcome} (h : (ofParsed parsed settings source path).1 = .ok o)
    (hsame : o.changed = false) : o.output = source := by
  rw [ofParsed_eq] at h
  split at h
  · cases h
  rename_i s hrun
  unfold ofSession at h
  cases hf : s.flags.any with
  | false =>
    simp only [hf, Bool.false_eq_true, if_false, pure, Except.pure, bind, Except.bind,
      Except.ok.injEq] at h
    rw [← h]
  | true =>
    cases hp : s.editor.print with
    | error e => simp [hf, hp, Except.mapError, bind, Except.bind] at h
    | ok out =>
      simp only [hf, hp, if_true, Except.mapError, pure, Except.pure, bind, Except.bind,
        Except.ok.injEq] at h
      rw [← h] at hsame ⊢
      simpa using hsame

end Outcome

/-- A second pass reports no change and gives the output of the first one back exactly if a pass
leaves that output alone. -/
theorem second_pass_unchanged_iff (source language : String) (settings : Settings)
    (path : Option String) :
    (∃ o o', (transform source language settings path).1 = .ok o ∧
      (transform o.output language settings path).1 = .ok o' ∧
      o'.changed = false ∧ o'.output = o.output) ↔
    ∃ o dialect, (transform source language settings path).1 = .ok o ∧
      Dialect.ofName language = .ok dialect ∧ (o.changed = true →
        LeavesAlone (.read dialect o.output settings)
          (Outcome.start (encode o.output) (parse dialect o.output) path) o.output) := by
  constructor
  · rintro ⟨o, o', ho, ho', hsame⟩
    obtain ⟨dialect, hd, hparsed⟩ := transform_parsed ho'
    exact ⟨o, dialect, ho, hd, fun _ =>
      (Outcome.ofParsed_unchanged_iff (parse_sheltered _ _ _).toRegular).1 ⟨o', hparsed, hsame⟩⟩
  · rintro ⟨o, dialect, ho, hd, halone⟩
    have hsecond : ∀ text, (transform text language settings path).1 =
        (Outcome.ofParsed (parse dialect text) settings text path).1 := by
      simp only [transform, transformWith, hd, implies_true]
    cases hchanged : o.changed with
    | false =>
      have hsame := Outcome.ofParsed_output (hsecond source ▸ ho) hchanged
      exact ⟨o, o, ho, by rw [hsame]; exact ho, hchanged, rfl⟩
    | true =>
      obtain ⟨o', ho', hsame⟩ :=
        (Outcome.ofParsed_unchanged_iff (parse_sheltered _ _ _).toRegular).2 (halone hchanged)
      exact ⟨o, o', ho, (hsecond o.output).trans ho', hsame⟩

/-- A registration among the arguments of a converted call: the first pass passes it over, since the
arguments are replaced already, and the second one replaces it. -/
def restlessSample : String := "a.repository.findBy(TypeOrmModule.forRoot())"

theorem restlessSample_changes :
    ((transform restlessSample "typescript" {} none).1.toOption.bind fun o =>
      (transform o.output "typescript" {} none).1.toOption.map (·.changed)) = some true := by
  decide +kernel

theorem second_pass_changes_sample :
    (parse .typescript restlessSample).broken = false ∧
    ¬∃ o o', (transform restlessSample "typescript" {} none).1 = .ok o ∧
      (transform o.output "typescript" {} none).1 = .ok o' ∧
      o'.changed = false ∧ o'.output = o.output := by
  refine ⟨by decide +kernel, ?_⟩
  rintro ⟨o, o', ho, ho', hsame, -⟩
  have hchanges := restlessSample_changes
  rw [ho] at hchanges
  simp only [Except.toOption, Option.bind_some] at hchanges
  rw [ho'] at hchanges
  simp [hsame] at hchanges

end OrmCodemod
