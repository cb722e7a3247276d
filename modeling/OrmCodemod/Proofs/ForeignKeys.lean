import OrmCodemod.Proofs.Described

/-! The types of keys. A many-to-one relation has a key beside it that is an `Int`, whatever it points
to. The identity of the model it points to has the type that its own member declares, so that the key
has the type of what it refers to exactly if that member declares an `Int`. -/

namespace OrmCodemod

open Syntax Schema Pass

namespace Entities

namespace Scope

variable (s : Scope)

/-- The type that the decorator of an identity declares: that of a number which is counted up or of a
unique text, or that of the column type it names, of the annotation where it names none. -/
structure IdentityType (decorator : String) (args : List Tree) (node : Tree) (scalar : String) :
    Prop where
  counted : decorator ≠ "PrimaryColumn" → args.head?.bind s.string? ≠ some "uuid" → scalar = "Int"
  unique : decorator ≠ "PrimaryColumn" → args.head?.bind s.string? = some "uuid" → scalar = "String"
  typed : decorator = "PrimaryColumn" → ∀ type ∈ s.columnType? args, scalar = scalarOfColumn type
  annotated : decorator = "PrimaryColumn" → s.columnType? args = none →
    Gives (s.annotated node) scalar

variable {s} {decorator : String} {args : List Tree} {node : Tree} {scalar scalar' : String}

theorem IdentityType.eq (h : s.IdentityType decorator args node scalar)
    (h' : s.IdentityType decorator args node scalar') : scalar = scalar' := by
  by_cases hcolumn : decorator = "PrimaryColumn"
  · cases htype : s.columnType? args with
    | none => exact (h.annotated hcolumn htype).unique (h'.annotated hcolumn htype)
    | some type => rw [h.typed hcolumn type htype, h'.typed hcolumn type htype]
  · by_cases huuid : args.head?.bind s.string? = some "uuid"
    · rw [h.unique hcolumn huuid, h'.unique hcolumn huuid]
    · rw [h.counted hcolumn huuid, h'.counted hcolumn huuid]

theorem identity_type {name : String} {f : Field}
    (h : Gives (s.identity name decorator args node) f) :
    s.IdentityType decorator args node f.scalar := by
  unfold identity at h
  split at h
  · rename_i hcolumn
    have hcolumn := beq_iff_eq.1 hcolumn
    obtain ⟨scalar, hscalar, -⟩ := s.annotated_settles node
    obtain rfl := h.unique (hscalar.bind (.pure _))
    refine ⟨fun hne => absurd hcolumn hne, fun hne => absurd hcolumn hne, fun _ type htype => ?_,
      fun _ htype => ?_⟩
    · simp only [Option.mem_def.1 htype]
    · simpa only [htype] using hscalar
  · rename_i hcolumn
    have hcolumn : decorator ≠ "PrimaryColumn" := by simpa using hcolumn
    split at h
    · rename_i huuid
      obtain rfl := h.unique (.pure _)
      exact ⟨fun _ hne => absurd (beq_iff_eq.1 huuid) hne, fun _ _ => rfl, fun heq => absurd heq hcolumn,
        fun heq => absurd heq hcolumn⟩
    · rename_i huuid
      obtain rfl := h.unique (.pure _)
      exact ⟨fun _ _ => rfl, fun _ heq => absurd (beq_iff_eq.2 heq) huuid, fun heq => absurd heq hcolumn,
        fun heq => absurd heq hcolumn⟩

theorem timestamp_plain (name : String) {role : FieldRole}
    (h : role ∈ [.createdAt, .updatedAt, .deletedAt]) :
    (timestamp name role).relation = none ∧ (timestamp name role).role ≠ .identity := by
  simp only [List.mem_cons, List.not_mem_nil, or_false] at h
  rcases h with rfl | rfl | rfl <;> exact ⟨rfl, nofun⟩

theorem Shows.keyed {name : String} {d : Option RoleDecorator} {fs : List Field}
    (h : s.Shows name node d fs) {f : Field} (hf : f ∈ fs) {r : Relation} (hr : f.relation = some r)
    (hkind : r.kind = .manyToOne) : fs = [f, keyField f.name] := by
  cases h with
  | bare => simp at hf
  | identity d role gives =>
    obtain rfl := List.mem_singleton.1 hf
    obtain ⟨-, -, hnone⟩ := (s.identity_settles _ _ _ _).of_gives gives
    simp [hnone] at hr
  | column d role gives =>
    obtain rfl := List.mem_singleton.1 hf
    have hcolumn := (s.column_settles _ _ _).of_gives gives
    simp [hcolumn.relation] at hr
  | relation d role declares gives =>
    obtain ⟨f', hf', rfl⟩ := (s.relation_settles _ _ _ _).of_gives gives
    obtain ⟨r', hr', hkind'⟩ := hf'.kind
    rcases List.mem_cons.1 hf with rfl | hf
    · obtain rfl := Option.some.inj (hr'.symm.trans hr)
      rw [if_pos (hkind'.symm.trans hkind), hf'.named]
    · split at hf
      · obtain rfl := List.mem_singleton.1 hf
        simp [keyField] at hr
      · simp at hf
  | timestamp d role =>
    obtain rfl := List.mem_singleton.1 hf
    simp [(timestamp_plain name role).1] at hr

theorem Shows.identified {name : String} {d : Option RoleDecorator} {fs : List Field}
    (h : s.Shows name node d fs) {f : Field} (hf : f ∈ fs) (hrole : f.role = .identity) :
    f.name = name ∧ ∃ d', d = some d' ∧ d'.role = .identity ∧
      s.IdentityType d'.name d'.node.decoratorArguments node f.scalar := by
  cases h with
  | bare => simp at hf
  | identity d role gives =>
    obtain rfl := List.mem_singleton.1 hf
    obtain ⟨hname, -, -⟩ := (s.identity_settles _ _ _ _).of_gives gives
    exact ⟨hname, d, rfl, role, identity_type gives⟩
  | column d role gives =>
    obtain rfl := List.mem_singleton.1 hf
    have hcolumn := (s.column_settles _ _ _).of_gives gives
    simp [hcolumn.role] at hrole
  | relation d role declares gives =>
    obtain ⟨f', hf', rfl⟩ := (s.relation_settles _ _ _ _).of_gives gives
    rcases List.mem_cons.1 hf with rfl | hf
    · simp [hf'.role] at hrole
    · split at hf
      · obtain rfl := List.mem_singleton.1 hf
        simp [keyField] at hrole
      · simp at hf
  | timestamp d role =>
    obtain rfl := List.mem_singleton.1 hf
    exact absurd hrole (timestamp_plain name role).2

end Scope

/-- The member of a class that declares an identity of its model, and its decorator. -/
structure DeclaresIdentity (u : SourceUnit) (class_ : Place) (m : Model) (i : Field) (member : Member)
    (d : RoleDecorator) : Prop where
  place : class_ ∈ u.place.find Place.classKinds
  described : Describes u class_ m
  mem : member ∈ members u.source class_
  named : member.name = i.name
  decorated : member.decorator? u.source = some d
  role : d.role = .identity

theorem ModelsOf.keys_typed {u : SourceUnit} {models : List Model} (h : ModelsOf u models) :
    ∀ m ∈ models, ∀ f ∈ m.fields, ∀ r, f.relation = some r → r.kind = .manyToOne →
      ∃ key, [f, key] <:+: m.fields ∧ key.name = f.name ++ "Id" ∧ key.relation = none ∧
        ∀ t ∈ models, t.name = r.target → ∀ i ∈ t.fields, i.role = .identity →
          ∃ class_ member d, DeclaresIdentity u class_ t i member d ∧
            (key.scalar = i.scalar ↔ Scope.IdentityType ⟨u, t.name, declaredEnums u⟩ d.name
              d.node.decoratorArguments member.node "Int") := by
  intro m hm f hf r hr hkind
  obtain ⟨_, -, hd⟩ := h.described hm
  obtain ⟨_, -, part, htells, hpart, hinfix⟩ := hd.member_of_field hf
  rw [htells.keyed hpart hr hkind] at hinfix
  refine ⟨Scope.keyField f.name, hinfix, rfl, rfl, fun t ht _ i hi hrole => ?_⟩
  obtain ⟨class_, hclass, hd'⟩ := h.described ht
  obtain ⟨member, hmember, part', htells', hpart', -⟩ := hd'.member_of_field hi
  obtain ⟨hname, d, hdecorator, hdrole, htype⟩ := htells'.identified hpart' hrole
  refine ⟨class_, member, d, ⟨hclass, hd', hmember, hname.symm, hdecorator, hdrole⟩, fun heq => ?_,
    fun hint => ?_⟩
  · rw [← heq] at htype
    exact htype
  · exact hint.eq htype

end Entities

open Entities

/-- The key beside a many-to-one relation has the type of an identity of the model that it points to
exactly if the member which declares that identity declares it as an `Int`. -/
theorem keys_typed_iff {source language : String} {settings : Settings} {path : Option String}
    {o : Outcome} (h : (transform source language settings path).1 = .ok o) :
    ∃ dialect, Dialect.ofName language = .ok dialect ∧
      let u := SourceUnit.read dialect source settings
      ModelsOf u o.models ∧
      ∀ m ∈ o.models, ∀ f ∈ m.fields, ∀ r, f.relation = some r → r.kind = .manyToOne →
        ∃ key, [f, key] <:+: m.fields ∧ key.name = f.name ++ "Id" ∧ key.relation = none ∧
          ∀ t ∈ o.models, t.name = r.target → ∀ i ∈ t.fields, i.role = .identity →
            ∃ class_ member d, DeclaresIdentity u class_ t i member d ∧
              (key.scalar = i.scalar ↔ Scope.IdentityType ⟨u, t.name, declaredEnums u⟩ d.name
                d.node.decoratorArguments member.node "Int") := by
  obtain ⟨dialect, hdialect, hmodels⟩ := transform_models h
  exact ⟨dialect, hdialect, hmodels, hmodels.keys_typed⟩

def countedSample : String :=
  "@Entity() class Post \x7b @ManyToOne(() => User) author: User; \x7d " ++
    "@Entity() class User \x7b @PrimaryGeneratedColumn() id: number; \x7d"

def uniqueSample : String :=
  "@Entity() class User \x7b @PrimaryGeneratedColumn('uuid') id: string; \x7d " ++
    "@Entity() class Post \x7b @ManyToOne(() => User) author: User; \x7d"

def authorField : Field :=
  { name := "author", scalar := "User", role := .relation,
    relation := some ⟨.manyToOne, "User", "authorRelation"⟩ }

def postModel : Model := ⟨"Post", "post", [authorField, Scope.keyField "author"]⟩

def userModel (scalar default : String) : Model :=
  ⟨"User", "user", [{ name := "id", scalar, role := .identity, default := some default }]⟩

theorem countedSample_models :
    Extracts countedSample id [postModel, userModel "Int" "autoincrement()"] ∧
    let u := SourceUnit.read .typescript countedSample {}
    ∀ class_ ∈ u.place.find Place.classKinds, ∀ member ∈ members u.source class_,
      ∀ d ∈ (member.decorator? u.source).toList, d.role = .identity →
        d.name ≠ "PrimaryColumn" ∧
          d.node.decoratorArguments.head?.bind (·.stringValue u.source) ≠ some "uuid" := by
  decide +kernel

theorem keys_typed_sample : ∃ o, (transform countedSample "typescript" {} none).1 = .ok o ∧
    ∃ m ∈ o.models, ∃ f ∈ m.fields, ∃ r, f.relation = some r ∧ r.kind = .manyToOne ∧
      ∃ key, [f, key] <:+: m.fields ∧ ∃ t ∈ o.models, t.name = r.target ∧
        ∃ i ∈ t.fields, i.role = .identity ∧ key.scalar = i.scalar := by
  obtain ⟨hextracts, hdecorators⟩ := countedSample_models
  obtain ⟨o, ho, hmodels⟩ := hextracts.exists_ok
  rw [id] at hmodels
  have hpost : postModel ∈ o.models := by simp [hmodels]
  have huser : userModel "Int" "autoincrement()" ∈ o.models := by simp [hmodels]
  obtain ⟨dialect, hdialect, -, hkeys⟩ := keys_typed_iff ho
  cases hdialect
  obtain ⟨key, hinfix, -, -, htyped⟩ :=
    hkeys postModel hpost authorField List.mem_cons_self _ rfl rfl
  obtain ⟨class_, member, d, hi, hiff⟩ := htyped _ huser rfl _ List.mem_cons_self rfl
  obtain ⟨hname, hcounts⟩ :=
    hdecorators class_ hi.place member hi.mem d (by simp [hi.decorated]) hi.role
  refine ⟨o, ho, postModel, hpost, authorField, List.mem_cons_self, _, rfl, rfl, key, hinfix, _, huser,
    rfl, _, List.mem_cons_self, rfl, hiff.2 ?_⟩
  exact ⟨fun _ _ => rfl, fun _ huuid => absurd huuid hcounts, fun heq => absurd heq hname,
    fun heq => absurd heq hname⟩

theorem uniqueSample_models :
    Extracts uniqueSample id [userModel "String" "uuid()", postModel] := by
  decide +kernel

/-- The key of the author is an `Int`, and the identity it points to is a text. -/
theorem keys_mistyped_sample : (parse .typescript uniqueSample).broken = false ∧
    ∃ o, (transform uniqueSample "typescript" {} none).1 = .ok o ∧
    ∃ m ∈ o.models, ∃ f ∈ m.fields, ∃ r, f.relation = some r ∧ r.kind = .manyToOne ∧
      ∃ key, [f, key] <:+: m.fields ∧ key.name = f.name ++ "Id" ∧ ∃ t ∈ o.models, t.name = r.target ∧
        ∃ i ∈ t.fields, i.role = .identity ∧ key.scalar ≠ i.scalar := by
  obtain ⟨o, ho, hmodels⟩ := uniqueSample_models.exists_ok
  rw [id] at hmodels
  have hpost : postModel ∈ o.models := by simp [hmodels]
  have huser : userModel "String" "uuid()" ∈ o.models := by simp [hmodels]
  refine ⟨uniqueSample_models.1, o, ho, postModel, hpost, authorField, List.mem_cons_self, _, rfl, rfl,
    Scope.keyField "author", List.infix_rfl, rfl, _, huser, rfl, _, List.mem_cons_self, rfl, ?_⟩
  decide

end OrmCodemod
