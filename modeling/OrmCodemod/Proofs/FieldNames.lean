import OrmCodemod.Proofs.Described
import Mathlib.Data.List.Perm.Basic
import Mathlib.Data.List.Nodup

/-! The names of the fields of a model. A member that is a field gives its own name, and a relation that
holds its key gives the name of the key as well. Members of distinct names so give distinct names,
unless the name of a key is that of a member that is a field. -/

namespace OrmCodemod

open Syntax Schema

namespace Entities

def RoleDecorator.ownsKey (d : RoleDecorator) : Bool :=
  d.role == .relation && relationOfDecorator d.name == some .manyToOne

def fieldNames (name : String) : Option RoleDecorator → List String
  | none => []
  | some d => name :: if d.ownsKey then [name ++ "Id"] else []

def Member.isField (source : Text.Bytes) (m : Member) : Bool := (m.decorator? source).isSome

def Member.ownsKey (source : Text.Bytes) (m : Member) : Bool :=
  (m.decorator? source).any RoleDecorator.ownsKey

theorem RoleDecorator.not_ownsKey {d : RoleDecorator} (h : d.role ≠ .relation) :
    d.ownsKey = false := by
  simp [ownsKey, h]

theorem timestamp_name (name : String) (role : FieldRole) :
    (Scope.timestamp name role).name = name := by
  unfold Scope.timestamp
  split <;> rfl

theorem Scope.Shows.names {s : Scope} {name : String} {node : Tree} {d : Option RoleDecorator}
    {fs : List Field} (h : s.Shows name node d fs) : fs.map Field.name = fieldNames name d := by
  cases h with
  | bare => rfl
  | identity d role gives =>
    have hf := (s.identity_settles _ _ _ _).of_gives gives
    simp [fieldNames, RoleDecorator.not_ownsKey (d := d) (by simp [role]), hf.1]
  | column d role gives =>
    have hf := (s.column_settles _ _ _).of_gives gives
    simp [fieldNames, RoleDecorator.not_ownsKey (d := d) (by simp [role]), hf.named]
  | @relation d kind fs role declares gives =>
    obtain ⟨f, hf, rfl⟩ := (s.relation_settles _ _ _ _).of_gives gives
    have howns : d.ownsKey = (kind == .manyToOne) := by
      simp [RoleDecorator.ownsKey, role, declares]
    rw [fieldNames, howns, List.map_cons, hf.named]
    cases kind <;> rfl
  | timestamp d role =>
    have hrole : d.role ≠ .relation := by
      rintro hrole
      simp [hrole] at role
    rw [fieldNames, RoleDecorator.not_ownsKey hrole, List.map_singleton, timestamp_name]
    rfl

variable {u : SourceUnit} {class_ : Place} {m : Model}

theorem Describes.names (h : Describes u class_ m) :
    m.fields.map Field.name = (members u.source class_).flatMap fun member =>
      fieldNames member.name (member.decorator? u.source) := by
  obtain ⟨parts, hparts, hfields⟩ := h.parts
  rw [hfields]
  clear hfields
  generalize members u.source class_ = ms at hparts ⊢
  induction hparts with
  | nil => rfl
  | cons hshows _ ih =>
    rw [List.flatten_cons, List.map_append, List.flatMap_cons, ih, Scope.Shows.names hshows]

theorem names_perm (source : Text.Bytes) (ms : List Member) :
    (ms.flatMap fun m => fieldNames m.name (m.decorator? source)).Perm
      ((ms.filter (·.isField source)).map Member.name ++
        (ms.filter (·.ownsKey source)).map fun m => m.name ++ "Id") := by
  induction ms with
  | nil => exact .refl _
  | cons m ms ih =>
    rw [List.flatMap_cons, List.filter_cons, List.filter_cons, Member.isField, Member.ownsKey]
    cases hd : m.decorator? source with
    | none => exact ih
    | some d =>
      rw [Option.isSome_some, if_pos rfl, Option.any_some, List.map_cons, List.cons_append, fieldNames]
      cases d.ownsKey with
      | false => exact ih.cons _
      | true => exact ((ih.cons _).trans List.perm_middle.symm).cons _

/-- No key has the name of a member that is a field. -/
def KeysFree (source : Text.Bytes) (ms : List Member) : Prop :=
  ∀ owner ∈ ms, owner.ownsKey source = true → ∀ other ∈ ms, other.isField source = true →
    other.name ≠ owner.name ++ "Id"

instance (source : Text.Bytes) (ms : List Member) : Decidable (KeysFree source ms) :=
  inferInstanceAs (Decidable (∀ owner ∈ ms, _ → ∀ other ∈ ms, _ → _ ≠ _))

/-- Members of distinct names give distinct names exactly if the keys are free. -/
theorem names_nodup_iff {source : Text.Bytes} {ms : List Member} (h : (ms.map Member.name).Nodup) :
    (ms.flatMap fun m => fieldNames m.name (m.decorator? source)).Nodup ↔ KeysFree source ms := by
  have hsome : ∀ p : Member → Bool, ((ms.filter p).map Member.name).Nodup :=
    fun p => h.sublist (List.filter_sublist.map _)
  have hkeys : ((ms.filter (·.ownsKey source)).map fun m => m.name ++ "Id").Nodup := by
    have hinj : Function.Injective fun name : String => name ++ "Id" :=
      fun _ _ => (String.append_left_inj "Id").1
    have hmapped := (hsome (·.ownsKey source)).map hinj
    rwa [List.map_map] at hmapped
  rw [(names_perm source ms).nodup_iff, List.nodup_append']
  constructor
  · rintro ⟨-, -, hdisjoint⟩ owner howner hkey other hother hfield heq
    refine hdisjoint (List.mem_map_of_mem (List.mem_filter.2 ⟨hother, hfield⟩)) ?_
    rw [heq]
    exact List.mem_map_of_mem (f := fun m : Member => m.name ++ "Id")
      (List.mem_filter.2 ⟨howner, hkey⟩)
  · intro hfree
    refine ⟨hsome _, hkeys, fun name hname hkey => ?_⟩
    obtain ⟨other, hother, rfl⟩ := List.mem_map.1 hname
    obtain ⟨owner, howner, heq⟩ := List.mem_map.1 hkey
    obtain ⟨hother, hfield⟩ := List.mem_filter.1 hother
    obtain ⟨howner, hkey⟩ := List.mem_filter.1 howner
    exact hfree owner howner hkey other hother hfield heq.symm

theorem Describes.distinct_iff {u : SourceUnit} {class_ : Place} {m : Model}
    (h : Describes u class_ m) (hdistinct : ((members u.source class_).map Member.name).Nodup) :
    (m.fields.map Field.name).Nodup ↔ KeysFree u.source (members u.source class_) := by
  rw [h.names]
  exact names_nodup_iff hdistinct

end Entities

open Entities

/-- In a class whose members have distinct names, the fields of its model have distinct names exactly
if no key of a relation has the name of a member that is a field. -/
theorem field_names_distinct_iff {source language : String} {settings : Settings}
    {path : Option String} {o : Outcome}
    (h : (transform source language settings path).1 = .ok o) :
    ∃ dialect, Dialect.ofName language = .ok dialect ∧
      let u := SourceUnit.read dialect source settings
      ModelsOf u o.models ∧
      ∀ class_ m, Describes u class_ m → ((members u.source class_).map Member.name).Nodup →
        ((m.fields.map Field.name).Nodup ↔ KeysFree u.source (members u.source class_)) := by
  obtain ⟨dialect, hdialect, hmodels⟩ := transform_models h
  exact ⟨dialect, hdialect, hmodels, fun _ _ hm => hm.distinct_iff⟩

def keyedSample : String :=
  "@Entity() class A \x7b @ManyToOne(() => B) b: B; @Column() id: number; " ++
    "@ManyToOne(() => A) a: A; \x7d"

theorem keyedSample_names :
    Extracts keyedSample (·.map fun m => m.fields.map Field.name) [["b", "bId", "id", "a", "aId"]] ∧
    let u := SourceUnit.read .typescript keyedSample {}
    ∀ class_ ∈ u.place.find Place.classKinds,
      ((members u.source class_).map Member.name).Nodup ∧
        KeysFree u.source (members u.source class_) := by
  decide +kernel

theorem field_names_distinct_sample : ∃ o, (transform keyedSample "typescript" {} none).1 = .ok o ∧
    (o.models.map fun m => m.fields.map Field.name) = [["b", "bId", "id", "a", "aId"]] ∧
    ∀ m ∈ o.models, (m.fields.map Field.name).Nodup := by
  obtain ⟨hextracts, hmembers⟩ := keyedSample_names
  obtain ⟨o, ho, hnames⟩ := hextracts.exists_ok
  obtain ⟨dialect, hdialect, hmodels, hiff⟩ := field_names_distinct_iff ho
  cases hdialect
  refine ⟨o, ho, hnames, fun m hm => ?_⟩
  obtain ⟨class_, hclass, hd⟩ := hmodels.described hm
  obtain ⟨hdistinct, hfree⟩ := hmembers class_ hclass
  exact (hiff class_ m hd hdistinct).2 hfree

def collidingSample : String :=
  "@Entity() class A \x7b @ManyToOne(() => B) b: B; @Column() bId: number; \x7d"

theorem collidingSample_names :
    Extracts collidingSample (·.map fun m => m.fields.map Field.name) [["b", "bId", "bId"]] ∧
    let u := SourceUnit.read .typescript collidingSample {}
    ∀ class_ ∈ u.place.find Place.classKinds, (members u.source class_).map Member.name =
      ["b", "bId"] := by
  decide +kernel

/-- The members have distinct names, and the key that is declared is there twice. -/
theorem field_names_collide_sample :
    let u := SourceUnit.read .typescript collidingSample {}
    (parse .typescript collidingSample).broken = false ∧
    ∃ o, (transform collidingSample "typescript" {} none).1 = .ok o ∧ ∃ m ∈ o.models, ∃ class_,
      Describes u class_ m ∧ ((members u.source class_).map Member.name).Nodup ∧
      ¬(m.fields.map Field.name).Nodup := by
  obtain ⟨hextracts, hmembers⟩ := collidingSample_names
  obtain ⟨o, ho, hnames⟩ := hextracts.exists_ok
  obtain ⟨dialect, hdialect, hmodels⟩ := transform_models ho
  cases hdialect
  obtain ⟨m, hm, hfields⟩ := List.map_eq_singleton_iff.1 hnames
  have hmem : m ∈ o.models := by simp [hm]
  obtain ⟨class_, hclass, hd⟩ := hmodels.described hmem
  refine ⟨hextracts.1, o, ho, m, hmem, class_, hd, ?_, ?_⟩
  · rw [hmembers class_ hclass]
    decide
  · rw [hfields]
    decide

end OrmCodemod
