import OrmCodemod.Proofs.Extraction
import OrmCodemod.Proofs.Quiet
import OrmCodemod.Schema.Collection

/-! The types that a schema names. A field is either a relation, typed by the model it points to, or
has a built-in type or the name of an enumeration that the schema has. Enumerations are noted on the
way, and none is ever taken back: what a step gives is stated for the enumerations it leaves. -/

namespace OrmCodemod

open Syntax Text Schema Pass

namespace Schema

def scalars : List String :=
  ["String", "Int", "BigInt", "Float", "Decimal", "Boolean", "DateTime", "Json", "String[]", "Bytes"]

/-- A type that a schema with these enumerations knows. -/
def Known (enums : List EnumType) (type : String) : Prop :=
  type ∈ scalars ∨ type ∈ enums.map EnumType.name

/-- A relation with the type it points to. -/
def Field.Linked (f : Field) : Prop :=
  f.role = .relation ∧ ∃ r, f.relation = some r ∧ f.scalar = r.target

/-- A field of a known type that is no relation. -/
structure Field.Typed (enums : List EnumType) (f : Field) : Prop where
  relation : f.relation = none
  known : Known enums f.scalar

/-- The type of the field is one that the schema has. -/
def Field.Closed (enums : List EnumType) (f : Field) : Prop := f.Linked ∨ f.Typed enums

/-- The types of all fields are ones that the schema has. -/
def Closed (models : List Model) (enums : List EnumType) : Prop :=
  ∀ m ∈ models, ∀ f ∈ m.fields, f.Closed enums

/-- Every enumeration is among the others, by name. -/
def Covered (enums enums' : List EnumType) : Prop :=
  enums.map EnumType.name ⊆ enums'.map EnumType.name

variable {enums enums' enums'' : List EnumType} {type : String} {α : Type} {key : α → String}

theorem Covered.refl (enums : List EnumType) : Covered enums enums := List.Subset.refl _

theorem Covered.trans (h : Covered enums enums') (h' : Covered enums' enums'') :
    Covered enums enums'' :=
  List.Subset.trans h h'

theorem Known.mono (h : Known enums type) (hc : Covered enums enums') : Known enums' type :=
  h.imp id fun hm => hc hm

theorem Field.Typed.mono {f : Field} (h : f.Typed enums) (hc : Covered enums enums') :
    f.Typed enums' :=
  ⟨h.relation, h.known.mono hc⟩

theorem Field.Typed.retype {f : Field} (h : f.Typed enums) (hk : Known enums type) :
    Field.Typed enums { f with scalar := type } :=
  ⟨h.relation, hk⟩

theorem Field.Closed.mono {f : Field} (h : f.Closed enums) (hc : Covered enums enums') :
    f.Closed enums' :=
  h.imp id fun ht => ht.mono hc

theorem Closed.mono {models : List Model} (h : Closed models enums) (hc : Covered enums enums') :
    Closed models enums' :=
  fun m hm f hf => (h m hm f hf).mono hc

theorem lookup_mem {α : Type} {table : List (String × α)} {entry : String} {value : α}
    (h : table.lookup entry = some value) : (entry, value) ∈ table := by
  obtain ⟨l, r, rfl, -⟩ := List.lookup_eq_some_iff.1 h
  simp

theorem known_scalarOfColumn (enums : List EnumType) (type : String) :
    Known enums (scalarOfColumn type) := by
  refine .inl ?_
  have htable : ∀ p ∈ columnTypes, p.2 ∈ scalars := by decide
  unfold scalarOfColumn
  cases hlookup : columnTypes.lookup (lower (trim type)) with
  | none => decide
  | some scalar => exact htable _ (lookup_mem hlookup)

theorem known_annotation {scalar : String} (enums : List EnumType)
    (h : annotationTypes.lookup type = some scalar) : Known enums scalar := by
  have htable : ∀ p ∈ annotationTypes, p.2 ∈ scalars := by decide
  exact .inl (htable _ (lookup_mem h))

theorem known_default (enums : List EnumType) : Known enums defaultScalar := .inl (by decide)

theorem mem_upsert {x y : α} {xs : List α} (h : y ∈ upsert key x xs) : y = x ∨ y ∈ xs := by
  induction xs with
  | nil => exact .inl (by simpa [upsert] using h)
  | cons z zs ih =>
    unfold upsert at h
    split at h
    · exact (List.mem_cons.1 h).imp id fun h => List.mem_cons_of_mem _ h
    · rcases List.mem_cons.1 h with rfl | h
      · exact .inr List.mem_cons_self
      · exact (ih h).imp id fun h => List.mem_cons_of_mem _ h

theorem map_subset_upsert (x : α) (xs : List α) : xs.map key ⊆ (upsert key x xs).map key := by
  induction xs with
  | nil => exact List.nil_subset _
  | cons z zs ih =>
    unfold upsert
    split
    · rename_i hkey
      rw [List.map_cons, List.map_cons, beq_iff_eq.1 hkey]
      exact List.Subset.refl _
    · rw [List.map_cons, List.map_cons]
      exact List.cons_subset_cons _ ih

theorem map_subset_addNew (x : α) (xs : List α) : xs.map key ⊆ (addNew key x xs).map key := by
  unfold addNew
  split
  · exact List.Subset.refl _
  · rw [List.map_append]
    exact List.subset_append_left _ _

theorem key_mem_addNew (x : α) (xs : List α) : key x ∈ (addNew key x xs).map key := by
  unfold addNew
  split
  · rename_i h
    obtain ⟨y, hy, hkey⟩ := List.any_eq_true.1 h
    exact List.mem_map.2 ⟨y, hy, beq_iff_eq.1 hkey⟩
  · simp

end Schema

namespace Pass

variable {α β : Type} {base : List EnumType} {good : List EnumType → α → Prop}

/-- From a state with the given enumerations on, the step takes none away, and what it gives is good
for those it leaves. -/
def Yields (base : List EnumType) (good : List EnumType → α → Prop) (x : Pass α) : Prop :=
  ∀ s a s', Covered base s.enums → x.result s = (.ok a, s') →
    Covered s.enums s'.enums ∧ good s'.enums a

theorem Yields.pure {a : α} (h : ∀ enums, Covered base enums → good enums a) :
    Yields base good (pure a) := by
  rintro s _ _ hs ⟨⟩
  exact ⟨.refl _, h _ hs⟩

theorem Yields.bind {good' : List EnumType → β → Prop} {x : Pass α} {f : α → Pass β}
    (hx : Yields base good x)
    (hf : ∀ a enums, Covered base enums → good enums a → Yields enums good' (f a)) :
    Yields base good' (x >>= f) := by
  intro s b s' hs hrun
  obtain ⟨a, s1, h1, h2⟩ := result_bind_eq_ok hrun
  obtain ⟨hcovered, hgood⟩ := hx s a s1 hs h1
  obtain ⟨hcovered', hgood'⟩ := hf a _ (hs.trans hcovered) hgood s1 b s' (.refl _) h2
  exact ⟨hcovered.trans hcovered', hgood'⟩

theorem Yields.say (level : Level) (message : String) :
    Yields base (fun _ _ => True) (Pass.say level message) := by
  rintro s _ _ - ⟨⟩
  exact ⟨.refl _, trivial⟩

theorem Yields.noteEnum (e : EnumType) :
    Yields base (fun enums _ => e.name ∈ enums.map EnumType.name)
      (modify fun s : Session => { s with enums := addNew EnumType.name e s.enums }) := by
  rintro s _ _ - ⟨⟩
  exact ⟨map_subset_addNew _ _, key_mem_addNew _ _⟩

theorem Yields.foldlM {good : List EnumType → β → Prop} {f : β → α → Pass β}
    (hmono : ∀ b enums enums', Covered enums enums' → good enums b → good enums' b)
    (hf : ∀ base b x, good base b → Yields base good (f b x)) (xs : List α) :
    ∀ base b, good base b → Yields base good (xs.foldlM f b) := by
  induction xs with
  | nil => exact fun base b hb => Yields.pure fun enums hc => hmono b base enums hc hb
  | cons x xs ih =>
    intro base b hb
    rw [List.foldlM_cons]
    exact (hf base b x hb).bind fun b' enums _ hb' => ih enums b' hb'

end Pass

namespace Entities

namespace Scope

variable {base : List EnumType} (s : Scope)

theorem registerEnum_yields (name : String) :
    Yields base (fun enums _ => name ∈ enums.map EnumType.name) (s.registerEnum name) := by
  dsimp only [registerEnum]
  split
  · exact (Yields.say _ _).bind fun _ _ _ _ => Yields.noteEnum _
  · exact Yields.noteEnum _

theorem scalarOfType_yields : ∀ n base type, Yields base Known (s.scalarOfType n type)
  | 0, _, _ => Yields.pure fun _ _ => known_default _
  | _ + 1, _, none => Yields.pure fun _ _ => known_default _
  | n + 1, base, some type => by
    dsimp only [scalarOfType]
    split
    · split
      · rename_i scalar hscalar
        exact Yields.pure fun enums _ => known_annotation enums hscalar
      · split
        · exact (registerEnum_yields s _).bind fun _ enums _ h =>
            Yields.pure fun enums' hc => .inr (hc h)
        · exact Yields.pure fun enums _ => known_scalarOfColumn enums _
    · split
      · split
        · exact scalarOfType_yields n base _
        · exact Yields.pure fun _ _ => known_default _
      · exact Yields.pure fun _ _ => known_default _

theorem annotated_yields (field : Tree) : Yields base Known (s.annotated field) :=
  scalarOfType_yields s _ _ _

theorem identity_yields (name decorator : String) (args : List Tree) (field : Tree) :
    Yields base (fun enums f => f.Typed enums) (s.identity name decorator args field) := by
  unfold identity
  split
  · refine (annotated_yields s field).bind fun scalar enums _ h => Yields.pure fun enums' hc => ?_
    refine ⟨rfl, ?_⟩
    dsimp only
    split
    · exact known_scalarOfColumn enums' _
    · exact h.mono hc
  · split
    · exact Yields.pure fun _ _ => ⟨rfl, .inl (by simp [scalars])⟩
    · exact Yields.pure fun _ _ => ⟨rfl, .inl (by simp [scalars])⟩

/-- An enumeration that an option refers to is noted, by its name or in place. -/
theorem enumReference_yields (field : String) (value : Tree) :
    Yields base (fun enums e => ∀ name ∈ e, name ∈ enums.map EnumType.name)
      (s.enumReference field value) := by
  have hnone : ∀ base, Yields base (fun enums e => ∀ name ∈ e, name ∈ enums.map EnumType.name)
      (pure none) := fun _ => Yields.pure fun _ _ => by simp
  unfold enumReference
  split
  · refine (registerEnum_yields s _).bind fun _ enums _ h => Yields.pure fun enums' hc => ?_
    rintro _ ⟨⟩
    exact hc h
  split
  · extract_lets values name listed
    split
    · exact hnone base
    · refine (Yields.noteEnum _).bind fun _ enums _ h => Yields.pure fun enums' hc => ?_
      rintro _ ⟨⟩
      exact hc h
  · exact hnone base

/-- The field is of a known type, and an enumeration that is found is noted. -/
structure ColumnState.Fits (enums : List EnumType) (st : ColumnState) : Prop where
  typed : st.field.Typed enums
  noted : ∀ name ∈ st.enum, name ∈ enums.map EnumType.name

theorem ColumnState.Fits.mono {enums enums' : List EnumType} {st : ColumnState} (h : st.Fits enums)
    (hc : Covered enums enums') : st.Fits enums' :=
  ⟨h.typed.mono hc, fun name hname => hc (h.noted name hname)⟩

theorem columnOption_yields {st : ColumnState} (h : st.Fits base) (member : Tree) :
    Yields base (fun enums st' => st'.Fits enums) (s.columnOption st member) := by
  have hsame : Yields base (fun enums st' => ColumnState.Fits enums st') (pure st) :=
    Yields.pure fun _ hc => h.mono hc
  -- Every option but the type and the enumeration leaves the type of the field alone.
  have hkept : ∀ f : Field, f.relation = st.field.relation → f.scalar = st.field.scalar →
      Yields base (fun enums st' => ColumnState.Fits enums st') (pure { st with field := f }) := by
    intro f hrelation hscalar
    refine Yields.pure fun enums hc => ⟨⟨hrelation.trans h.typed.relation, ?_⟩, (h.mono hc).noted⟩
    exact hscalar ▸ (h.mono hc).typed.known
  unfold columnOption
  split
  · split
    · split
      · rename_i type _
        exact Yields.pure fun enums hc =>
          ⟨(h.mono hc).typed.retype (known_scalarOfColumn enums type), (h.mono hc).noted⟩
      · exact hsame
    · exact hkept _ rfl rfl
    · exact hkept _ rfl rfl
    · exact hkept _ rfl rfl
    · exact hkept _ rfl rfl
    · exact Yields.pure fun _ hc => ⟨(h.mono hc).typed, (h.mono hc).noted⟩
    · refine (enumReference_yields s _ _).bind fun e enums hc he => Yields.pure fun enums' hc' => ?_
      exact ⟨(h.mono (hc.trans hc')).typed, fun name hname => hc' (he name hname)⟩
    · exact hsame
  · exact hsame

theorem columnOptions_yields {field : Field} (h : field.Typed base) (options : Tree) :
    Yields base (fun enums p => p.1.Typed enums) (s.columnOptions field options) := by
  have hfold : Yields base (fun enums st => ColumnState.Fits enums st)
      (options.significant.foldlM (s.columnOption ·) { field }) :=
    Yields.foldlM (fun _ _ _ hc h => h.mono hc) (fun _ _ member h => columnOption_yields s h member)
      _ base { field } ⟨h, by simp⟩
  unfold columnOptions
  refine hfold.bind fun st enums _ hst => Yields.pure fun enums' hc => ?_
  have hst := hst.mono hc
  cases henum : st.enum with
  | none =>
    cases st.default with
    | none => exact hst.typed
    | some value => exact ⟨hst.typed.relation, hst.typed.known⟩
  | some enum =>
    have hretyped := hst.typed.retype (.inr (hst.noted enum henum))
    cases st.default with
    | none => exact hretyped
    | some value => exact ⟨hretyped.relation, hretyped.known⟩

theorem column_yields (name : String) (args : List Tree) (member : Tree) :
    Yields base (fun enums f => f.Typed enums) (s.column name args member) := by
  have hplain : ∀ {enums scalar}, Known enums scalar →
      Field.Typed enums { name, scalar, role := .plain } := fun h => ⟨rfl, h⟩
  unfold column
  split
  · exact (annotated_yields s member).bind fun scalar enums _ h =>
      Yields.pure fun enums' hc => hplain (h.mono hc)
  · split
    · rename_i type _
      split
      · split
        · exact (columnOptions_yields s (hplain (known_scalarOfColumn base type)) _).bind
            fun p enums _ h => Yields.pure fun enums' hc => h.mono hc
        · exact Yields.pure fun enums _ => hplain (known_scalarOfColumn enums type)
      · exact Yields.pure fun enums _ => hplain (known_scalarOfColumn enums type)
    · split
      · refine (columnOptions_yields s (hplain (known_default base)) _).bind fun p enums _ h => ?_
        dsimp only
        split
        · exact Yields.pure fun enums' hc => h.mono hc
        · exact (annotated_yields s member).bind fun scalar enums' hc hscalar =>
            Yields.pure fun enums'' hc' => (h.mono (hc.trans hc')).retype (hscalar.mono hc')
      · exact Yields.pure fun enums _ => hplain (known_default enums)

theorem typed_timestamp (enums : List EnumType) (name : String) (role : FieldRole) :
    (timestamp name role).Typed enums := by
  have hknown : Known enums "DateTime" := .inl (by decide)
  unfold timestamp
  split <;> exact ⟨rfl, hknown⟩

theorem relation_yields (name : String) (kind : RelationKind) (args : List Tree) (member : Tree) :
    Yields base (fun enums fs => ∀ f ∈ fs, f.Closed enums) (s.relation name kind args member) := by
  have hfields : ∀ (enums : List EnumType) (f : Field) (owns : Bool), f.Linked →
      ∀ g ∈ f :: (if owns then [{ name := name ++ "Id", scalar := "Int", role := .plain }] else []),
        g.Closed enums := by
    intro enums f owns hf g hg
    rcases List.mem_cons.1 hg with rfl | hg
    · exact .inl hf
    · split at hg
      · obtain rfl := List.mem_singleton.1 hg
        exact .inr ⟨rfl, .inl (by simp [scalars])⟩
      · simp at hg
  dsimp only [relation]
  split
  · exact (Yields.say _ _).bind fun _ _ _ _ =>
      Yields.pure fun enums _ => hfields enums _ _ ⟨rfl, _, rfl, rfl⟩
  · exact Yields.pure fun enums _ => hfields enums _ _ ⟨rfl, _, rfl, rfl⟩

/-- Whatever decorates a member, its fields have types that the schema has. -/
theorem describe_yields (name : String) (member : Tree) : ∀ base decorators,
    Yields base (fun enums fs => ∀ f ∈ fs, f.Closed enums) (s.describe name member decorators)
  | _, [] => Yields.pure fun _ _ => by simp
  | base, decorator :: rest => by
    have ih := describe_yields name member base rest
    have hone : ∀ {enums} {f : Field}, f.Typed enums → ∀ g ∈ [f], g.Closed enums := by
      intro enums f h g hg
      obtain rfl := List.mem_singleton.1 hg
      exact .inr h
    unfold describe
    split
    · exact ih
    split
    · exact ih
    · exact ih
    · exact (identity_yields s _ _ _ _).bind fun f enums _ h =>
        Yields.pure fun enums' hc => hone (h.mono hc)
    · exact (column_yields s _ _ _).bind fun f enums _ h =>
        Yields.pure fun enums' hc => hone (h.mono hc)
    · split
      · exact relation_yields s _ _ _ _
      · exact Yields.pure fun _ _ => by simp
    · exact Yields.pure fun enums _ => hone (typed_timestamp enums _ _)

end Scope

theorem classFields_yields {base : List EnumType} (s : Scope) (class_ : Place) :
    Yields base (fun enums fs => ∀ f ∈ fs, f.Closed enums) (classFields s class_) := by
  have hmono : ∀ (fs : List Field) enums enums', Covered enums enums' →
      (∀ f ∈ fs, f.Closed enums) → ∀ f ∈ fs, f.Closed enums' :=
    fun fs enums enums' hc h f hf => (h f hf).mono hc
  unfold classFields
  refine Yields.foldlM hmono (fun base fs x hfs => ?_) _ _ _ (by simp)
  split
  split
  · exact Yields.pure fun enums hc => hmono fs base enums hc hfs
  · refine (Scope.describe_yields s _ _ _ _).bind fun more enums hc hmore =>
      Yields.pure fun enums' hc' f hf => ?_
    rcases List.mem_append.1 hf with hf | hf
    · exact (hfs f hf).mono (hc.trans hc')
    · exact (hmore f hf).mono hc'

variable {u : SourceUnit}

theorem extractClass_closed (enums : DeclaredEnums) (class_ : Place) :
    Keeps (fun s => Closed s.models s.enums) (extractClass u enums class_) := by
  dsimp only [extractClass]
  split
  · rename_i entity name _ _
    split
    · exact Keeps.pure
    -- The fields are closed for the enumerations there are once the class is read.
    have hread : Holds (fun s => Closed s.models s.enums) (classFields ⟨u, name, enums⟩ class_)
        (fun fields s => Closed s.models s.enums ∧ ∀ f ∈ fields, f.Closed s.enums)
        fun e s => (∃ o, e = .overlap o) ∧ Closed s.models s.enums := by
      intro s hs
      obtain ⟨fields, s', hrun, -, -, hmodels, -⟩ := classFields_quiet ⟨u, name, enums⟩ class_ s
      obtain ⟨hcovered, hfields⟩ := classFields_yields _ class_ s fields s' (.refl _) hrun
      rw [hrun]
      exact ⟨hmodels ▸ hs.mono hcovered, hfields⟩
    refine hread.bind (fun fields => Holds.bind (Q := fun _ s => Closed s.models s.enums)
      (Holds.modify fun s hs m hm f hf => ?_) fun _ => ?_)
    · rcases mem_upsert hm with rfl | hm
      · exact hs.2 f hf
      · exact hs.1 m hm f hf
    · refine Keeps.bind (Holds.advise (fun _ _ _ _ h _ => h) fun _ o h _ => ⟨⟨o, rfl⟩, h⟩) fun _ => ?_
      exact (Keeps.modify fun _ h => h).bind fun _ => Keeps.modify fun _ h => h
  · exact Keeps.pure

theorem extract_closed (u : SourceUnit) :
    Keeps (fun s => Closed s.models s.enums) (extract u) := by
  unfold extract
  refine Keeps.bind (Keeps.forM fun class_ _ => extractClass_closed _ class_) fun _ => ?_
  refine Keeps.bind (fun _ h => h) fun s => ?_
  dsimp only
  split
  · exact Keeps.modify fun _ h => h
  · exact Keeps.pure

end Entities

namespace Schema.Collection

variable {c : Collection}

theorem addModels_models (origin : Option String) (c : Collection) (models : List Model) :
    (∀ m ∈ (c.addModels origin models).1.models, m ∈ c.models ∨ m ∈ models) ∧
      (c.addModels origin models).1.enums = c.enums := by
  induction models generalizing c with
  | nil => exact ⟨fun m hm => .inl hm, rfl⟩
  | cons x xs ih =>
    obtain ⟨hmodels, henums⟩ := ih (addModel origin c x).1
    have hadd : (∀ m ∈ (addModel origin c x).1.models, m ∈ c.models ∨ m = x) ∧
        (addModel origin c x).1.enums = c.enums := by
      unfold addModel
      split
      · exact ⟨fun m hm => .inl hm, rfl⟩
      · exact ⟨fun m hm => by simpa using hm, rfl⟩
    refine ⟨fun m hm => ?_, henums.trans hadd.2⟩
    rcases hmodels m hm with h | h
    · exact (hadd.1 m h).imp id fun h => List.mem_cons.2 (.inl h)
    · exact .inr (List.mem_cons_of_mem _ h)

/-- An enumeration that is added stays away only where its name is taken. -/
theorem addEnum_covered (c : Collection) (e : EnumType) :
    Covered c.enums (c.addEnum e).enums ∧ e.name ∈ (c.addEnum e).enums.map EnumType.name ∧
      (c.addEnum e).models = c.models := by
  unfold addEnum
  split
  · refine ⟨?_, by simp, rfl⟩
    dsimp only [Covered]
    rw [List.map_append]
    exact List.subset_append_left _ _
  · rename_i known hfind
    have hname : e.name ∈ c.enums.map EnumType.name := by
      refine List.mem_map.2 ⟨known, List.mem_of_find?_eq_some hfind, ?_⟩
      simpa using List.find?_some hfind
    split
    · have hcovered : Covered c.enums (upsert EnumType.name e c.enums) := map_subset_upsert _ _
      exact ⟨hcovered, hcovered hname, rfl⟩
    · exact ⟨.refl _, hname, rfl⟩

theorem addEnums_covered (c : Collection) (enums : List EnumType) :
    Covered c.enums (enums.foldl addEnum c).enums ∧ Covered enums (enums.foldl addEnum c).enums ∧
      (enums.foldl addEnum c).models = c.models := by
  induction enums generalizing c with
  | nil => exact ⟨.refl _, List.nil_subset _, rfl⟩
  | cons e es ih =>
    obtain ⟨h1, h2, h3⟩ := ih (c.addEnum e)
    obtain ⟨hcovered, hname, hmodels⟩ := addEnum_covered c e
    refine ⟨hcovered.trans h1, ?_, h3.trans hmodels⟩
    dsimp only [Covered]
    rw [List.map_cons]
    exact List.cons_subset.2 ⟨h1 hname, h2⟩

theorem add_closed {models : List Model} {enums : List EnumType} (origin : Option String)
    (hc : Closed c.models c.enums) (h : Closed models enums) :
    Closed (c.add models enums origin).1.models (c.add models enums origin).1.enums := by
  obtain ⟨hmodels, henums⟩ := addModels_models origin c models
  obtain ⟨hknown, hnew, hsame⟩ := addEnums_covered (c.addModels origin models).1 enums
  rw [henums] at hknown
  intro m hm f hf
  replace hm : m ∈ (enums.foldl addEnum (c.addModels origin models).1).models := hm
  rw [hsame] at hm
  rcases hmodels m hm with h' | h'
  · exact (hc m h' f hf).mono hknown
  · exact (h m h' f hf).mono hnew

/-- The collection of the schemas of several passes, each with the file it is of. -/
def gathered (provider : String) (results : List (Outcome × Option String)) : Collection :=
  results.foldl (fun c r => (c.add r.1.models r.1.enums r.2).1) { provider }

theorem gathered_closed (provider : String) (results : List (Outcome × Option String))
    (h : ∀ r ∈ results, Closed r.1.models r.1.enums) :
    Closed (gathered provider results).models (gathered provider results).enums := by
  suffices ∀ c : Collection, Closed c.models c.enums →
      Closed (results.foldl (fun c r => (c.add r.1.models r.1.enums r.2).1) c).models
        (results.foldl (fun c r => (c.add r.1.models r.1.enums r.2).1) c).enums from
    this _ fun m hm => absurd hm (by simp)
  induction results with
  | nil => exact fun c hc => hc
  | cons r rs ih =>
    intro c hc
    exact ih (fun r hr => h r (List.mem_cons_of_mem _ hr)) _ (add_closed r.2 hc (h r (by simp)))

end Schema.Collection

theorem Outcome.ofParsed_closed {parsed : Parsed} {settings : Settings} {source : String}
    {path : Option String} {o : Outcome} (h : (ofParsed parsed settings source path).1 = .ok o) :
    Closed o.models o.enums := by
  obtain ⟨s, hrun, hmodels, henums⟩ := ofParsed_schema h
  rw [hmodels, henums]
  exact (Entities.extract_closed _).ok (fun m hm => absurd hm (by simp [start])) hrun

/-- The schemas that passes give are closed, and so is the one collected from them one after the other,
whatever trees they are passes over. -/
theorem parsed_types_closed (results : List (Outcome × Option String))
    (hresults : ∀ r ∈ results, ∃ parsed settings source path,
      (Outcome.ofParsed parsed settings source path).1 = .ok r.1) (provider : String) :
    (∀ r ∈ results, Closed r.1.models r.1.enums) ∧
      Closed (Collection.gathered provider results).models
        (Collection.gathered provider results).enums := by
  have hclosed : ∀ r ∈ results, Closed r.1.models r.1.enums := by
    intro r hr
    obtain ⟨parsed, settings, source, path, h⟩ := hresults r hr
    exact Outcome.ofParsed_closed h
  exact ⟨hclosed, Collection.gathered_closed provider results hclosed⟩

/-- The types of every schema are closed: of the one that a pass gives, and of the one collected from
any passes one after the other. -/
theorem schema_types_closed (results : List (Outcome × Option String))
    (hresults : ∀ r ∈ results, ∃ source language settings path,
      (transform source language settings path).1 = .ok r.1) (provider : String) :
    (∀ r ∈ results, Closed r.1.models r.1.enums) ∧
      Closed (Collection.gathered provider results).models
        (Collection.gathered provider results).enums := by
  refine parsed_types_closed results (fun r hr => ?_) provider
  obtain ⟨source, language, settings, path, h⟩ := hresults r hr
  obtain ⟨dialect, -, h⟩ := transform_parsed h
  exact ⟨_, _, _, _, h⟩

/-- An entity with an enumeration that is declared elsewhere, and a relation. -/
def typedSample : String :=
  "@Entity() class A \x7b @Column(\x7b enum: B \x7d) b; @ManyToOne(() => C) c; \x7d"

theorem typedSample_types :
    (transform typedSample "ts" {} none).1.toOption.map (fun o =>
      (o.models.map fun m => m.fields.map Field.scalar, o.enums.map EnumType.name)) =
    some ([["B", "C", "Int"]], ["B"]) := by
  decide +kernel

theorem schema_types_closed_sample : ∃ o, (transform typedSample "ts" {} none).1 = .ok o ∧
    o.models.map (fun m => m.fields.map Field.scalar) = [["B", "C", "Int"]] ∧
    Closed o.models o.enums ∧
    Closed (Collection.gathered "sqlite" [(o, none), (o, some "a.ts")]).models
      (Collection.gathered "sqlite" [(o, none), (o, some "a.ts")]).enums := by
  obtain ⟨o, hrun, htypes⟩ := exists_ok_of_map typedSample_types
  have hgiven : ∀ r ∈ [(o, none), (o, some "a.ts")], r.1 = o := by simp
  obtain ⟨hclosed, hgathered⟩ := schema_types_closed [(o, none), (o, some "a.ts")]
    (fun r hr => ⟨typedSample, "ts", {}, none, by rw [hgiven r hr]; exact hrun⟩) "sqlite"
  exact ⟨o, hrun, congrArg Prod.fst htypes, hclosed _ List.mem_cons_self, hgathered⟩

end OrmCodemod
