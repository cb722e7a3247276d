import OrmCodemod.Proofs.Completion
import OrmCodemod.Proofs.FieldTypes
import OrmCodemod.Proofs.Settled

/-! What the models of a source are models of. A class is described from its own text and the
enumerations of the source. So the fields of a model are those of the members of its class, one after
the other, each by the first decorator that has a role, and the models of a pass are those of its entity
classes in the order of their starts, the last one of a name. -/

namespace OrmCodemod

open Syntax Text Schema Pass

namespace Entities

/-- The decorator that gives a field its role. -/
structure RoleDecorator where
  node : Tree
  name : String
  role : FieldRole

def withRole? (source : Bytes) (decorator : Tree) : Option RoleDecorator := do
  let name ← decorator.decoratorName source
  let role ← roleOfDecorator name
  if role = .join then none else some ⟨decorator, name, role⟩

def roleDecorator? (source : Bytes) (decorators : List Tree) : Option RoleDecorator :=
  decorators.findSome? (withRole? source)

theorem roleDecorator?_skip {source : Bytes} {d : Tree} {rest : List Tree}
    (h : withRole? source d = none) :
    roleDecorator? source (d :: rest) = roleDecorator? source rest := by
  rw [roleDecorator?, List.findSome?_cons, h, roleDecorator?]

theorem roleDecorator?_take {source : Bytes} {d : Tree} {rest : List Tree} {name : String}
    {role : FieldRole} (hname : d.decoratorName source = some name)
    (hrole : roleOfDecorator name = some role) (hne : role ≠ .join) :
    roleDecorator? source (d :: rest) = some ⟨d, name, role⟩ := by
  rw [roleDecorator?, List.findSome?_cons]
  simp [withRole?, hname, hrole, hne]

/-- A field of a class body that has a name. -/
structure Member where
  name : String
  node : Tree
  decorators : List Tree

def member? (source : Bytes) : Tree × List Tree → Option Member
  | (field, decorators) =>
    (field.child? .name <|> field.child? .property).map fun name =>
      ⟨name.text source, field, decorators⟩

def bodyFields (class_ : Place) : List (Tree × List Tree) :=
  match class_.child? .body with
  | some body => decoratedFields [] body.significant
  | none => []

def members (source : Bytes) (class_ : Place) : List Member :=
  (bodyFields class_).filterMap (member? source)

def Member.decorator? (source : Bytes) (m : Member) : Option RoleDecorator :=
  roleDecorator? source m.decorators

/-- The fields that a member gives a model, by the decorator that has a role. -/
inductive Scope.Shows (s : Scope) (name : String) (node : Tree) :
    Option RoleDecorator → List Field → Prop where
  | bare : Shows s name node none []
  | identity (d : RoleDecorator) {f : Field} (role : d.role = .identity)
      (gives : Gives (s.identity name d.name d.node.decoratorArguments node) f) :
      Shows s name node (some d) [f]
  | column (d : RoleDecorator) {f : Field} (role : d.role = .plain)
      (gives : Gives (s.column name d.node.decoratorArguments node) f) :
      Shows s name node (some d) [f]
  | relation (d : RoleDecorator) {kind : RelationKind} {fs : List Field} (role : d.role = .relation)
      (declares : relationOfDecorator d.name = some kind)
      (gives : Gives (s.relation name kind d.node.decoratorArguments node) fs) :
      Shows s name node (some d) fs
  | timestamp (d : RoleDecorator) (role : d.role ∈ [.createdAt, .updatedAt, .deletedAt]) :
      Shows s name node (some d) [timestamp name d.role]

theorem exists_kind {name : String} (h : roleOfDecorator name = some .relation) :
    ∃ kind, relationOfDecorator name = some kind := by
  have htable : ∀ p ∈ decoratorRoles, p.2 = .relation → (relationOfDecorator p.1).isSome = true := by
    decide
  exact Option.isSome_iff_exists.1 (htable _ (lookup_mem h) rfl)

namespace Scope

variable (s : Scope)

theorem describe_settles (name : String) (node : Tree) : ∀ decorators,
    Settles (s.describe name node decorators)
      (s.Shows name node (roleDecorator? s.unit.source decorators))
  | [] => .pure .bare
  | d :: rest => by
    have ih := describe_settles name node rest
    have hskip : withRole? s.unit.source d = none →
        Settles (s.describe name node rest)
          (s.Shows name node (roleDecorator? s.unit.source (d :: rest))) := by
      intro hnone
      rwa [roleDecorator?_skip hnone]
    unfold describe
    split
    · rename_i hname
      exact hskip (by simp [withRole?, hname])
    rename_i id hname
    cases hrole : roleOfDecorator id with
    | none => exact hskip (by simp [withRole?, hname, hrole])
    | some role =>
      cases role with
      | join => exact hskip (by simp [withRole?, hname, hrole])
      | identity =>
        rw [roleDecorator?_take hname hrole (by simp)]
        obtain ⟨f, hf, -⟩ := identity_settles s name id d.decoratorArguments node
        exact ⟨[f], hf.bind (.pure _), .identity ⟨d, id, .identity⟩ rfl hf⟩
      | plain =>
        rw [roleDecorator?_take hname hrole (by simp)]
        obtain ⟨f, hf, -⟩ := column_settles s name d.decoratorArguments node
        exact ⟨[f], hf.bind (.pure _), .column ⟨d, id, .plain⟩ rfl hf⟩
      | relation =>
        rw [roleDecorator?_take hname hrole (by simp)]
        obtain ⟨kind, hkind⟩ := exists_kind hrole
        obtain ⟨fs, hfs, -⟩ := relation_settles s name kind d.decoratorArguments node
        refine ⟨fs, ?_, .relation ⟨d, id, .relation⟩ rfl hkind hfs⟩
        dsimp only
        rw [hkind]
        exact hfs
      | createdAt =>
        rw [roleDecorator?_take hname hrole (by simp)]
        exact .pure (.timestamp ⟨d, id, .createdAt⟩ (by simp))
      | updatedAt =>
        rw [roleDecorator?_take hname hrole (by simp)]
        exact .pure (.timestamp ⟨d, id, .updatedAt⟩ (by simp))
      | deletedAt =>
        rw [roleDecorator?_take hname hrole (by simp)]
        exact .pure (.timestamp ⟨d, id, .deletedAt⟩ (by simp))

def Tells (m : Member) (fs : List Field) : Prop :=
  s.Shows m.name m.node (m.decorator? s.unit.source) fs

end Scope

theorem classFields_settles (s : Scope) (class_ : Place) :
    Settles (classFields s class_) fun fields =>
      ∃ parts, List.Forall₂ s.Tells (members s.unit.source class_) parts ∧
        fields = parts.flatten := by
  unfold classFields
  refine Settles.foldlM (I := fun xs fields => ∃ parts,
    List.Forall₂ s.Tells (xs.filterMap (member? s.unit.source)) parts ∧ fields = parts.flatten)
    (fun l acc x hacc => ?_) ⟨[], .nil, rfl⟩ (bodyFields class_)
  obtain ⟨parts, hparts, rfl⟩ := hacc
  obtain ⟨member, decorators⟩ := x
  rw [List.filterMap_append]
  dsimp only
  split
  · rename_i hnone
    refine .pure ⟨parts, ?_, rfl⟩
    simpa [member?, hnone] using hparts
  · rename_i name hname
    refine (s.describe_settles (s.text name) member decorators).bind fun fs hfs => .pure ?_
    refine ⟨parts ++ [fs], List.rel_append hparts ?_, by simp⟩
    simpa [member?, hname, Scope.Tells, Member.decorator?, Scope.text] using hfs

/-- The model that a class is described by. -/
structure Describes (u : SourceUnit) (class_ : Place) (m : Model) : Prop where
  named : class_.tree.className u.source = some m.name
  table : ∃ d, class_.decorators.find? (fun d => d.decoratorName u.source == some entityDecorator) =
    some d ∧ m.table = (tableName d u.source).getD (lower m.name)
  fields : Gives (classFields ⟨u, m.name, declaredEnums u⟩ class_) m.fields

/-- The classes put the models of those of them that are entities, each under its name. -/
def Puts (u : SourceUnit) (classes : List Place) (before after : List Model) : Prop :=
  ∃ ms, List.Forall₂ (Describes u) (classes.filter (isEntity u)) ms ∧
    after = ms.foldl (fun acc m => upsert Model.name m acc) before

/-- The models are those of the classes of a unit, in the order of their starts. -/
def ModelsOf (u : SourceUnit) (models : List Model) : Prop :=
  Puts u (sortByStart (u.place.find Place.classKinds)) [] models

variable {u : SourceUnit} {class_ : Place} {m : Model} {models : List Model}

theorem exists_right {α β : Type} {R : α → β → Prop} {xs : List α} {ys : List β}
    (h : List.Forall₂ R xs ys) {x : α} (hx : x ∈ xs) : ∃ y ∈ ys, R x y := by
  induction h with
  | nil => simp at hx
  | @cons x' y' xs ys hxy _ ih =>
    rcases List.mem_cons.1 hx with rfl | hx
    · exact ⟨y', List.mem_cons_self, hxy⟩
    · obtain ⟨y, hy, hr⟩ := ih hx
      exact ⟨y, List.mem_cons_of_mem _ hy, hr⟩

theorem Describes.parts (h : Describes u class_ m) :
    ∃ parts, List.Forall₂ (Scope.Tells ⟨u, m.name, declaredEnums u⟩) (members u.source class_) parts ∧
      m.fields = parts.flatten :=
  (classFields_settles _ class_).of_gives h.fields

theorem Describes.part_of_member (h : Describes u class_ m) {member : Member}
    (hmember : member ∈ members u.source class_) :
    ∃ part, Scope.Tells ⟨u, m.name, declaredEnums u⟩ member part ∧ part <:+: m.fields := by
  obtain ⟨parts, hparts, hfields⟩ := h.parts
  obtain ⟨part, hpart, htells⟩ := exists_right hparts hmember
  exact ⟨part, htells, hfields ▸ List.infix_of_mem_flatten hpart⟩

theorem Describes.member_of_field (h : Describes u class_ m) {f : Field} (hf : f ∈ m.fields) :
    ∃ member ∈ members u.source class_, ∃ part,
      Scope.Tells ⟨u, m.name, declaredEnums u⟩ member part ∧ f ∈ part ∧ part <:+: m.fields := by
  obtain ⟨parts, hparts, hfields⟩ := h.parts
  rw [hfields] at hf ⊢
  obtain ⟨part, hpart, hf⟩ := List.mem_flatten.1 hf
  obtain ⟨member, hmember, htells⟩ := exists_right hparts.flip hpart
  exact ⟨member, hmember, part, htells, hf, List.infix_of_mem_flatten hpart⟩

theorem Puts.append {cs cs' : List Place} {ms ms' ms'' : List Model} (h : Puts u cs ms ms')
    (h' : Puts u cs' ms' ms'') : Puts u (cs ++ cs') ms ms'' := by
  obtain ⟨l, hl, rfl⟩ := h
  obtain ⟨l', hl', rfl⟩ := h'
  refine ⟨l ++ l', ?_, (List.foldl_append ..).symm⟩
  rw [List.filter_append]
  exact List.rel_append hl hl'

/-- A model that is there afterwards is that of an entity class, or was there before. -/
theorem Puts.mem {cs : List Place} {ms : List Model} (h : Puts u cs ms models) (hm : m ∈ models) :
    (∃ class_ ∈ cs, Describes u class_ m) ∨ m ∈ ms := by
  obtain ⟨l, hl, rfl⟩ := h
  replace hl : ∀ m ∈ l, ∃ class_ ∈ cs, Describes u class_ m := by
    intro m hm
    obtain ⟨class_, hclass, hd⟩ := exists_right hl.flip hm
    exact ⟨class_, (List.mem_filter.1 hclass).1, hd⟩
  induction l generalizing ms with
  | nil => exact .inr hm
  | cons x xs ih =>
    rcases ih hm fun m hm => hl m (List.mem_cons_of_mem _ hm) with h | h
    · exact .inl h
    · rcases mem_upsert h with rfl | h
      · exact .inl (hl _ List.mem_cons_self)
      · exact .inr h

theorem ModelsOf.described (h : ModelsOf u models) (hm : m ∈ models) :
    ∃ class_ ∈ u.place.find Place.classKinds, Describes u class_ m := by
  obtain ⟨class_, hclass, hd⟩ := (Puts.mem h hm).resolve_right (by simp)
  exact ⟨class_, (sortByStart_perm _).mem_iff.1 hclass, hd⟩

theorem extractClass_puts (class_ : Place) (ms : List Model) :
    Holds (fun s => s.models = ms) (extractClass u (declaredEnums u) class_)
      (fun _ s => Puts u [class_] ms s.models) fun _ _ => True := by
  have hnone : ¬isEntity u class_ = true →
      Holds (fun s => s.models = ms) (pure ()) (fun _ s => Puts u [class_] ms s.models)
        fun _ _ => True :=
    fun hnot => Holds.pure fun s hs => ⟨[], by simp [hnot], hs⟩
  dsimp only [extractClass]
  split
  · rename_i entity name hentity hname
    split
    · rename_i hempty
      refine hnone fun his => ?_
      obtain ⟨_, _, -, hname', hne⟩ := isEntity_iff.1 his
      rw [hname] at hname'
      cases hname'
      exact hne (beq_iff_eq.1 hempty)
    rename_i hne
    have his : isEntity u class_ = true :=
      isEntity_iff.2 ⟨entity, name, hentity, hname, by simpa using hne⟩
    have hread : Holds (fun s => s.models = ms) (classFields ⟨u, name, declaredEnums u⟩ class_)
        (fun fields s => Gives (classFields ⟨u, name, declaredEnums u⟩ class_) fields ∧
          s.models = ms) fun _ _ => True := by
      intro s hs
      obtain ⟨fields, hfields, -⟩ := classFields_settles ⟨u, name, declaredEnums u⟩ class_
      obtain ⟨_, s', hrun, -, -, hmodels, -⟩ := classFields_quiet ⟨u, name, declaredEnums u⟩ class_ s
      obtain rfl := hfields.eq_of_result hrun
      rw [hrun]
      exact ⟨hfields, hmodels.trans hs⟩
    refine hread.bind fun fields => Holds.bind (Q := fun _ s => Puts u [class_] ms s.models)
      (Holds.modify fun s hs => ?_) fun _ => ?_
    · refine ⟨[⟨name, (tableName entity u.source).getD (lower name), fields⟩], ?_,
        congrArg (upsert Model.name _) hs.2⟩
      rw [List.filter_singleton, his]
      exact .cons ⟨hname, ⟨entity, hentity, rfl⟩, hs.1⟩ .nil
    · -- The advisory, the flag and the note leave the models alone.
      let put : Session → Prop := fun s => Puts u [class_] ms s.models
      refine Holds.bind (Q := fun _ => put) (Holds.advise (fun _ _ _ _ h _ => h)
        fun _ _ _ _ => trivial) fun _ => ?_
      exact Holds.bind (Q := fun _ => put) (Holds.modify fun _ h => h) fun _ =>
        Holds.modify fun _ h => h
  · rename_i hno
    refine hnone fun his => ?_
    obtain ⟨entity, name, hentity, hname, -⟩ := isEntity_iff.1 his
    exact hno entity name hentity hname

theorem extract_models (u : SourceUnit) :
    Holds (fun s => s.models = []) (extract u) (fun _ s => ModelsOf u s.models) fun _ _ => True := by
  unfold extract
  have hclasses : Holds (fun s => s.models = [])
      ((sortByStart (u.place.find Place.classKinds)).forM (extractClass u (declaredEnums u)))
      (fun _ s => ModelsOf u s.models) fun _ _ => True := by
    refine (Holds.forM (I := fun l s => Puts u l [] s.models) fun l class_ _ _ s hs => ?_).mono
      (fun s hs => ⟨[], .nil, hs⟩) (fun _ _ h => h) fun _ _ h => h
    exact (extractClass_puts class_ s.models).mono (fun _ h => h) (fun _ _ h => hs.append h)
      (fun _ _ h => h) s rfl
  refine hclasses.bind fun _ => Holds.bind (Q := fun _ s => ModelsOf u s.models) (fun _ h => h)
    fun s => ?_
  dsimp only
  split
  · exact Holds.modify fun _ h => h
  · exact Holds.pure fun _ h => h

end Entities

def SourceUnit.read (dialect : Dialect) (source : String) (settings : Settings) : SourceUnit :=
  ⟨encode source, (parse dialect source).root, settings⟩

/-- The models of an outcome are those of the entity classes of its tree, whatever parser it comes from. -/
theorem Outcome.ofParsed_models {parsed : Parsed} {settings : Settings} {source : String}
    {path : Option String} {o : Outcome} (h : (ofParsed parsed settings source path).1 = .ok o) :
    Entities.ModelsOf ⟨encode source, parsed.root, settings⟩ o.models := by
  obtain ⟨s, hrun, hmodels, -⟩ := ofParsed_schema h
  rw [hmodels]
  exact (Entities.extract_models _).ok rfl hrun

theorem transform_models {source language : String} {settings : Settings} {path : Option String}
    {o : Outcome} (h : (transform source language settings path).1 = .ok o) :
    ∃ dialect, Dialect.ofName language = .ok dialect ∧
      Entities.ModelsOf (.read dialect source settings) o.models := by
  obtain ⟨dialect, hdialect, h⟩ := transform_parsed h
  exact ⟨dialect, hdialect, Outcome.ofParsed_models h⟩

/-- The source is one of the grammar, and this is told by the models that are read off it. -/
def Extracts {α : Type} (source : String) (read : List Model → α) (told : α) : Prop :=
  (parse .typescript source).broken = false ∧
  read ((Entities.extract (.read .typescript source {})).result
    (Outcome.start (encode source) (parse .typescript source) none)).2.models = told

instance {α : Type} [DecidableEq α] (source : String) (read : List Model → α) (told : α) :
    Decidable (Extracts source read told) :=
  inferInstanceAs (Decidable (_ ∧ _ = _))

/-- A pass over the source has an outcome, with the models that are read off it. -/
theorem Extracts.exists_ok {α : Type} {source : String} {read : List Model → α} {told : α}
    (h : Extracts source read told) :
    ∃ o, (transform source "typescript" {} none).1 = .ok o ∧ read o.models = told := by
  obtain ⟨-, htold⟩ := h
  obtain ⟨o, hsource⟩ := Outcome.ofSource_completes .typescript {} source none
    Settings.exists_members
  obtain ⟨s, hrun, hmodels, -⟩ := Outcome.ofParsed_schema hsource
  have hextract : (Entities.extract (.read .typescript source {})).result
      (Outcome.start (encode source) (parse .typescript source) none) = (.ok (), s) := hrun
  exact ⟨o, hsource, by rw [hmodels, ← htold, hextract]⟩

end OrmCodemod
