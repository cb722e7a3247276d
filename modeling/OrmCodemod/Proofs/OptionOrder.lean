import OrmCodemod.Proofs.ColumnFields
import OrmCodemod.Proofs.Content

/-! The order of the options of a column. The loop over the options keeps the last one of each key, so
where no two have the same key their order tells nothing: the column comes to the same field and asks
for the same enumeration. -/

namespace OrmCodemod

open Syntax Text Schema Pass Tree

namespace Entities

/-- Two scopes describe the fields of the same model, each in its source. -/
structure Scope.Agrees (s s' : Scope) : Prop where
  model : s.model = s'.model
  enums : s.enums = s'.enums

namespace Scope

variable {s s' : Scope}

section Values

variable {t t' : Tree} (h : Reads s.unit.source s'.unit.source t t')

include h

theorem string?_reads : s.string? t = s'.string? t' := h.stringValue_eq

theorem text_reads : s.text t = s'.text t' := h.text_eq

theorem enumNamed_reads (hs : s.Agrees s') (field : String) :
    s.enumNamed field t = s'.enumNamed field t' := by
  have hvalues : t.significant.map s.string? = t'.significant.map s'.string? :=
    map_reads h.significant fun _ _ hv => string?_reads hv
  unfold enumNamed
  rw [h.is_eq, h.is_eq, text_reads h, hvalues, hs.model]

theorem asked_reads (hs : s.Agrees s') (field : String) : s.asked field t = s'.asked field t' := by
  have hvalues : t.significant.map s.string? = t'.significant.map s'.string? :=
    map_reads h.significant fun _ _ hv => string?_reads hv
  unfold asked declared
  rw [h.is_eq, text_reads h, hvalues, enumNamed_reads h hs, hs.enums]

theorem defaultOf_reads (hs : s.Agrees s') (enum : Option String) :
    s.defaultOf t enum = s'.defaultOf t' enum := by
  have hmember : ∀ enum value, s.memberFor enum value = s'.memberFor enum value := by
    intro enum value
    rw [memberFor, memberFor, hs.enums]
  have hdate : ∀ role, (t.child? role).any (s.text · == "Date") =
      (t'.child? role).any (s'.text · == "Date") := fun role =>
    option_any_reads (h.child? role) fun _ _ hc => by rw [text_reads hc]
  have hproperty : (t.child? .property).map s.text = (t'.child? .property).map s'.text :=
    option_map_reads (h.child? .property) fun _ _ hc => text_reads hc
  have hbody : ∀ f : String → Option String,
      (do f (← s.string? (← t.child? .body))) = (do f (← s'.string? (← t'.child? .body))) := fun f =>
    bind_reads (h.child? .body) fun _ _ hc => by rw [string?_reads hc]
  unfold defaultOf
  simp only [h.is_eq, h.isAny_eq, string?_reads h, text_reads h, hmember, hdate, hproperty, hbody]

end Values

theorem scalarTold_reads (hs : s.Agrees s') : ∀ (n : Nat) {t t' : Option Tree},
    t.map (content s.unit.source) = t'.map (content s'.unit.source) →
      s.scalarTold n t = s'.scalarTold n t'
  | 0, _, _, _ => rfl
  | _ + 1, none, none, _ => rfl
  | _ + 1, none, some _, h => by simp at h
  | _ + 1, some _, none, h => by simp at h
  | n + 1, some t, some t', h => by
    have hread : Reads s.unit.source s'.unit.source t t' := Option.some.inj h
    have hpart : (t.significant.find? fun part => !emptyTypes.contains (s.text part)).map
        (content s.unit.source) = (t'.significant.find? fun part =>
          !emptyTypes.contains (s'.text part)).map (content s'.unit.source) :=
      find?_reads hread.significant fun _ _ hp => by rw [text_reads hp]
    dsimp only [scalarTold]
    rw [hread.isAny_eq, hread.is_eq, text_reads hread, hs.enums, declared, declared, hs.enums]
    split
    · rfl
    · split
      · have ih := scalarTold_reads hs n hpart
        generalize (t.significant.find? fun part => !emptyTypes.contains (s.text part)) = part
          at hpart ih
        generalize (t'.significant.find? fun part => !emptyTypes.contains (s'.text part)) = part'
          at hpart ih
        cases part with
        | none =>
          cases part' with
          | none => rfl
          | some => simp at hpart
        | some =>
          cases part' with
          | none => simp at hpart
          | some => exact ih
      · rfl

theorem annotationOf_reads (hs : s.Agrees s') {member member' : Tree}
    (h : member.annotatedType.map (content s.unit.source) =
      member'.annotatedType.map (content s'.unit.source)) :
    s.annotationOf member = s'.annotationOf member' := by
  rw [annotationOf, annotationOf, option_map_reads h fun _ _ ht => ht.size_eq]
  exact scalarTold_reads hs _ h

theorem eq_singleton_of_mem {α : Type} {xs : List α} {x : α} (hx : x ∈ xs) (hone : xs.length ≤ 1) :
    xs = [x] := by
  obtain ⟨y, rfl⟩ := List.length_eq_one_iff.1 (le_antisymm hone (List.length_pos_of_mem hx))
  rw [List.mem_singleton.1 hx]

section Options

variable {os os' : List Tree} (hkeys : (os.filterMap (·.memberKey s.unit.source)).Nodup)

include hkeys

/-- Of options with distinct keys at most one tells what a certain key tells. -/
theorem length_filterMap_le {α : Type} {f : Tree → Option α} {key : String}
    (hf : ∀ o v, f o = some v → o.memberKey s.unit.source = some key) :
    (os.filterMap f).length ≤ 1 := by
  induction os with
  | nil => simp
  | cons o os ih =>
    cases hv : f o with
    | none =>
      rw [List.filterMap_cons_none hv]
      exact ih (hkeys.sublist ((List.sublist_cons_self o os).filterMap _))
    | some v =>
      have hkey := hf o v hv
      simp only [List.filterMap_cons, hkey, List.nodup_cons] at hkeys
      have hrest : os.filterMap f = [] := by
        refine List.filterMap_eq_nil_iff.2 fun o' ho' =>
          Option.eq_none_iff_forall_ne_some.2 fun v' hv' => ?_
        exact hkeys.1 (List.mem_filterMap.2 ⟨o', ho', hf o' v' hv'⟩)
      rw [List.filterMap_cons_some hv, hrest]
      simp

theorem lastOption_of_mem {o value : Tree} {key : String} (ho : o ∈ os)
    (hkey : o.memberKey s.unit.source = some key) (hvalue : o.memberValue = some value) :
    s.lastOption os key = some value := by
  let f : Tree → Option Tree := fun o =>
    if o.memberKey s.unit.source = some key then o.memberValue else none
  have hmem : value ∈ os.filterMap f := List.mem_filterMap.2 ⟨o, ho, by simp [f, hkey, hvalue]⟩
  have hone : (os.filterMap f).length ≤ 1 :=
    length_filterMap_le hkeys fun _ _ hv => (Option.ite_none_right_eq_some.1 hv).1
  have hlast : s.lastOption os key = (os.filterMap f).getLast? := List.getLast?_filterMap.symm
  rw [hlast, eq_singleton_of_mem hmem hone]
  rfl

variable (hperm : (os.map (content s.unit.source)).Perm (os'.map (content s'.unit.source)))

include hperm

theorem filterMap_reordered {α : Type} {f f' : Tree → Option α} {key : String}
    (hf : ∀ o v, f o = some v → o.memberKey s.unit.source = some key)
    (hreads : ∀ t t', Reads s.unit.source s'.unit.source t t' → f t = f' t') :
    os.filterMap f = os'.filterMap f' := by
  have hfound := filterMap_perm_reads hperm hreads
  have hone := length_filterMap_le hkeys hf
  generalize os.filterMap f = found at hfound hone
  cases found with
  | nil => exact (List.nil_perm.1 hfound).symm
  | cons v found =>
    obtain rfl := List.length_eq_zero_iff.1 (Nat.le_zero.1 (Nat.le_of_succ_le_succ hone))
    exact List.singleton_perm.1 hfound

theorem lastOption_reordered (key : String) : (s.lastOption os key).map (content s.unit.source) =
    (s'.lastOption os' key).map (content s'.unit.source) := by
  unfold lastOption
  rw [List.map_findSome?, List.map_findSome?, ← List.getLast?_filterMap, ← List.getLast?_filterMap]
  have hkey : ∀ (o : Tree) (v : Content), (if o.memberKey s.unit.source = some key then o.memberValue
      else none).map (content s.unit.source) = some v → o.memberKey s.unit.source = some key := by
    intro o v hv
    obtain ⟨_, hvalue, -⟩ := Option.map_eq_some_iff.1 hv
    exact (Option.ite_none_right_eq_some.1 hvalue).1
  refine congrArg _ (filterMap_reordered hkeys hperm hkey fun t t' ht => ?_)
  simp only [Function.comp, ht.memberKey_eq]
  split
  · exact ht.memberValue
  · rfl

theorem lastType_reordered : s.lastType os = s'.lastType os' := by
  unfold lastType
  rw [← List.getLast?_filterMap, ← List.getLast?_filterMap]
  refine congrArg _ (filterMap_reordered hkeys hperm
    (fun _ _ hv => (Option.ite_none_right_eq_some.1 hv).1) fun t t' ht => ?_)
  rw [ht.memberKey_eq]
  split
  · exact bind_reads ht.memberValue fun _ _ hv => string?_reads hv
  · rfl

theorem optionAsks_reordered (hs : s.Agrees s') (name : String) :
    os.filterMap (s.optionAsks name) = os'.filterMap (s'.optionAsks name) := by
  refine filterMap_reordered hkeys hperm
    (fun _ _ hv => (Option.ite_none_right_eq_some.1 hv).1) fun t t' ht => ?_
  rw [optionAsks, optionAsks, ht.memberKey_eq]
  split
  · exact bind_reads ht.memberValue fun _ _ hv => asked_reads hv hs name
  · rfl

theorem enumGiven_reordered (hs : s.Agrees s') (name : String) :
    s.enumGiven name os = s'.enumGiven name os' :=
  bind_reads (lastOption_reordered hkeys hperm "enum") fun _ _ hv => enumNamed_reads hv hs name

theorem isOn_reordered (key : String) : s.isOn os key = s'.isOn os' key :=
  option_any_reads (lastOption_reordered hkeys hperm key) fun _ _ hv => hv.is_eq _

theorem columnOf_reordered (hs : s.Agrees s') (name scalar : String) :
    s.columnOf name scalar os = s'.columnOf name scalar os' := by
  have henum := enumGiven_reordered hkeys hperm hs name
  have hdefault : ((s.lastOption os "default").bind fun v => s.defaultOf v (s'.enumGiven name os')) =
      (s'.lastOption os' "default").bind fun v => s'.defaultOf v (s'.enumGiven name os') :=
    bind_reads (lastOption_reordered hkeys hperm _) fun _ _ hv => defaultOf_reads hv hs _
  have hmapped : (s.lastOption os "name").bind s.string? = (s'.lastOption os' "name").bind s'.string? :=
    bind_reads (lastOption_reordered hkeys hperm _) fun _ _ hv => string?_reads hv
  simp only [columnOf, henum, hdefault, hmapped, lastType_reordered hkeys hperm,
    isOn_reordered hkeys hperm]

theorem namesType_reordered (hs : s.Agrees s') (name : String) :
    s.namesType name os = s'.namesType name os' := by
  rw [namesType, namesType, lastType_reordered hkeys hperm, enumGiven_reordered hkeys hperm hs]

end Options

/-- Two arguments read alike, up to the order of the members where they are objects. -/
def Shuffled (source source' : Bytes) (a a' : Tree) : Prop :=
  Reads source source' a a' ∨ a.is .object = true ∧ a'.is .object = true ∧
    (a.significant.map (content source)).Perm (a'.significant.map (content source'))

section Arguments

variable {a a' : Tree} (h : Shuffled s.unit.source s'.unit.source a a')

include h

theorem Shuffled.is_object : a.is .object = a'.is .object := by
  rcases h with h | ⟨h, h', -⟩
  · exact h.is_eq _
  · rw [h, h']

theorem Shuffled.string? : s.string? a = s'.string? a' := by
  have hobject : ∀ {t : Tree} {source : Bytes}, t.is .object = true → t.stringValue source = none := by
    intro t source ht
    simp [Tree.stringValue, Tree.is, beq_iff_eq.1 ht]
  rcases h with h | ⟨h, h', -⟩
  · exact string?_reads h
  · rw [Scope.string?, Scope.string?, hobject h, hobject h']

theorem Shuffled.significant :
    (a.significant.map (content s.unit.source)).Perm (a'.significant.map (content s'.unit.source)) := by
  rcases h with h | ⟨-, -, h⟩
  · rw [h.significant]
  · exact h

end Arguments

section Columns

variable {args args' : List Tree} {member member' : Tree}
  (hargs : List.Forall₂ (Shuffled s.unit.source s'.unit.source) args args')
  (hkeys : ((s.optionsOf args).filterMap (·.memberKey s.unit.source)).Nodup)

include hargs in
/-- The options of two columns whose arguments are shuffled are those of the other in some order. -/
theorem optionsOf_shuffled : ((s.optionsOf args).map (content s.unit.source)).Perm
    ((s'.optionsOf args').map (content s'.unit.source)) := by
  cases hargs with
  | nil => exact .nil
  | cons hfirst hrest =>
    unfold optionsOf
    dsimp only
    rw [hfirst.string?, hfirst.is_object]
    split
    · cases hrest with
      | nil => exact .nil
      | cons hsecond _ =>
        dsimp only
        rw [hsecond.is_object]
        split
        · exact hsecond.significant
        · exact .nil
    · split
      · exact hfirst.significant
      · exact .nil

include hargs hkeys in
theorem untyped_shuffled (hs : s.Agrees s') (name : String) :
    s.untyped name args = s'.untyped name args' := by
  have hnames := namesType_reordered hkeys (optionsOf_shuffled hargs) hs name
  cases hargs with
  | nil => rfl
  | cons hfirst _ =>
    unfold untyped
    dsimp only
    rw [hfirst.string?, hfirst.is_object, hnames]

include hargs hkeys in
theorem columnField_shuffled (hs : s.Agrees s')
    (htype : s.annotationOf member = s'.annotationOf member') (name : String) :
    s.columnField name args member = s'.columnField name args' member' := by
  have hhead : args.head?.bind s.string? = args'.head?.bind s'.string? := by
    cases hargs with
    | nil => rfl
    | cons hfirst _ => exact hfirst.string?
  rw [columnField, columnField, untyped_shuffled hargs hkeys hs, htype, hhead,
    columnOf_reordered hkeys (optionsOf_shuffled hargs) hs]

include hargs hkeys in
theorem columnAsks_shuffled (hs : s.Agrees s')
    (htype : s.annotationOf member = s'.annotationOf member') (name : String) :
    s.columnAsks name args member = s'.columnAsks name args' member' := by
  rw [columnAsks, columnAsks, untyped_shuffled hargs hkeys hs, htype,
    optionAsks_reordered hkeys (optionsOf_shuffled hargs) hs]

theorem length_scalarTold_le : ∀ n type, (s.scalarTold n type).2.length ≤ 1
  | 0, _ => by simp [scalarTold]
  | _ + 1, none => by simp [scalarTold]
  | n + 1, some type => by
    unfold scalarTold
    split
    · dsimp only
      split
      · simp
      · split <;> simp
    · split
      · split
        · exact length_scalarTold_le n _
        · simp
      · simp

include hkeys in
/-- A column asks for at most one enumeration: for that of its options, or else of its annotation. -/
theorem length_columnAsks_le (name : String) : (s.columnAsks name args member).length ≤ 1 := by
  have hoptions : ((s.optionsOf args).filterMap (s.optionAsks name)).length ≤ 1 :=
    length_filterMap_le hkeys fun _ _ hv => (Option.ite_none_right_eq_some.1 hv).1
  rw [columnAsks]
  split
  · rename_i huntyped
    have hnone : (s.optionsOf args).filterMap (s.optionAsks name) = [] := by
      refine List.filterMap_eq_nil_iff.2 fun o ho => Option.eq_none_iff_forall_ne_some.2 fun e he => ?_
      obtain ⟨hkey, hasked⟩ := Option.ite_none_right_eq_some.1 he
      obtain ⟨value, hvalue, hasked⟩ := Option.bind_eq_some_iff.1 hasked
      have hnamed := s.asked_name name value
      rw [hasked] at hnamed
      have hgiven : s.enumGiven name (s.optionsOf args) = some e.name := by
        rw [enumGiven, lastOption_of_mem hkeys ho hkey hvalue, Option.bind_some, ← hnamed]
        rfl
      cases args with
      | nil => cases ho
      | cons first rest => simp [untyped, namesType, hgiven] at huntyped
    rw [hnone]
    exact length_scalarTold_le _ _
  · rwa [List.append_nil]

/-- The value of an `enum` option refers to an enumeration: by its name, or by a list of texts. -/
def Refers (value : Tree) : Prop :=
  value.is .identifier = true ∨ value.is .array = true ∧ value.significant ≠ [] ∧
    ∀ e ∈ value.significant, e.is .stringLiteral = true

instance (value : Tree) : Decidable (Refers value) := inferInstanceAs (Decidable (_ ∨ _))

theorem string?_isSome_iff {value : Tree} :
    (s.string? value).isSome = true ↔ value.is .stringLiteral = true := by
  unfold string? Tree.stringValue
  split <;> simp_all

theorem enumNamed_isSome_iff {value : Tree} {name : String} :
    (s.enumNamed name value).isSome = true ↔ Refers value := by
  unfold enumNamed Refers
  by_cases hidentifier : value.is .identifier = true
  · simp [hidentifier]
  by_cases harray : value.is .array = true
  · have hlisted : (∀ e ∈ value.significant, ¬s.string? e = none) ↔
        ∀ e ∈ value.significant, e.is .stringLiteral = true :=
      forall₂_congr fun e _ => by rw [← s.string?_isSome_iff, Option.isSome_iff_ne_none]
    simp [hidentifier, harray, hlisted]
  · simp [hidentifier, harray]

include hkeys in
/-- An option that refers to an enumeration tells the type of the column and what it asks for. -/
theorem column_of_enum {o value : Tree} {name enum : String} (ho : o ∈ s.optionsOf args)
    (hkey : o.memberKey s.unit.source = some "enum") (hvalue : o.memberValue = some value)
    (hnamed : s.enumNamed name value = some enum) :
    s.enumGiven name (s.optionsOf args) = some enum ∧
      ∃ e, s.columnAsks name args member = [e] ∧ e.name = enum := by
  obtain ⟨e, hasked, hname⟩ := Option.map_eq_some_iff.1 ((s.asked_name name value).trans hnamed)
  have hmem : e ∈ s.columnAsks name args member :=
    List.mem_append_left _ (List.mem_filterMap.2 ⟨o, ho, by simp [optionAsks, hkey, hvalue, hasked]⟩)
  exact ⟨by rw [enumGiven, lastOption_of_mem hkeys ho hkey hvalue, Option.bind_some, hnamed], e,
    eq_singleton_of_mem hmem (length_columnAsks_le hkeys name), hname⟩

end Columns

/-- Options with distinct keys may stand in any order: the column comes to the same field and asks for the
same enumeration, if for any. An option that refers to an enumeration gives the field its type, whatever
type is named, and a text that is the default stands for the member with that value. -/
theorem column_any_order {args args' : List Tree} {member member' : Tree} (hs : s.Agrees s')
    (hargs : List.Forall₂ (Shuffled s.unit.source s'.unit.source) args args')
    (htype : member.annotatedType.map (content s.unit.source) =
      member'.annotatedType.map (content s'.unit.source))
    (hkeys : ((s.optionsOf args).filterMap (·.memberKey s.unit.source)).Nodup) (name : String) :
    ∃ f e, Asks (s.column name args member) f (Option.toList e) ∧
      Asks (s'.column name args' member') f (Option.toList e) ∧
      ∀ o ∈ s.optionsOf args, o.memberKey s.unit.source = some "enum" →
        ∀ value, o.memberValue = some value → Refers value →
          ∃ enum, s.enumNamed name value = some enum ∧ f.scalar = enum ∧
            e.map EnumType.name = some enum ∧
            ∀ o' ∈ s.optionsOf args, o'.memberKey s.unit.source = some "default" →
              ∀ given, o'.memberValue = some given → ∀ raw, s.string? given = some raw →
                f.default = some (s.memberFor enum raw) := by
  have hann := annotationOf_reads hs htype
  have hone : (s.columnAsks name args member).length ≤ 1 := length_columnAsks_le hkeys name
  have hasks : (s.columnAsks name args member).head?.toList = s.columnAsks name args member := by
    cases hhead : (s.columnAsks name args member).head? with
    | none => rw [List.head?_eq_none_iff.1 hhead]; rfl
    | some e => rw [eq_singleton_of_mem (List.mem_of_head? hhead) hone]; rfl
  refine ⟨s.columnField name args member, (s.columnAsks name args member).head?, ?_, ?_, ?_⟩
  · rw [hasks]
    exact column_asks s name args member
  · rw [hasks, columnField_shuffled hargs hkeys hs hann, columnAsks_shuffled hargs hkeys hs hann]
    exact column_asks s' name args' member'
  · intro o ho hkey value hvalue hrefers
    obtain ⟨enum, hnamed⟩ := Option.isSome_iff_exists.1 (enumNamed_isSome_iff.2 hrefers)
    obtain ⟨hgiven, e, hcolumn, hname⟩ : _ ∧ ∃ e, s.columnAsks name args member = [e] ∧ _ :=
      column_of_enum hkeys ho hkey hvalue hnamed
    refine ⟨enum, hnamed, ?_, by rw [hcolumn, ← hname]; rfl, ?_⟩
    · rw [columnField, columnOf, hgiven, Option.getD_some]
    · intro o' ho' hkey' given hgiven' raw hraw
      have hstring : given.is .stringLiteral = true :=
        s.string?_isSome_iff.1 (by rw [hraw]; rfl)
      simp [columnField, columnOf, lastOption_of_mem hkeys ho' hkey' hgiven', hgiven, defaultOf,
        hstring, hraw]

end Scope

instance (source source' : Bytes) (a a' : Tree) : Decidable (Scope.Shuffled source source' a a') :=
  inferInstanceAs (Decidable (_ = _ ∨ _ ∧ _ ∧ _))

def sampleScope (source : String) : Scope :=
  let u := SourceUnit.read .typescript source {}
  ⟨u, "A", declaredEnums u⟩

def sampleColumns (source : String) : List (Member × List Tree) :=
  let u := SourceUnit.read .typescript source {}
  ((u.place.find Place.classKinds).flatMap (members u.source)).filterMap fun m =>
    (m.decorator? u.source).map fun d => (m, d.node.decoratorArguments)

def orderedSample : String :=
  "class A \x7b @Column(\x7b type: 'int', enum: C, default: 'r' \x7d) c; \x7d"

def reorderedSample : String :=
  "class A \x7b @Column(\x7b default: 'r', enum: C, type: 'int' \x7d) c; \x7d"

theorem samples_shuffled :
    let s := sampleScope orderedSample
    let s' := sampleScope reorderedSample
    (s.enums = [] ∧ s'.enums = []) ∧
    ∃ c ∈ sampleColumns orderedSample, ∃ c' ∈ sampleColumns reorderedSample,
      List.Forall₂ (Scope.Shuffled s.unit.source s'.unit.source) c.2 c'.2 ∧
      c.1.node.annotatedType.map (content s.unit.source) =
        c'.1.node.annotatedType.map (content s'.unit.source) ∧
      ((s.optionsOf c.2).filterMap (·.memberKey s.unit.source)).Nodup ∧
      (∃ o ∈ s.optionsOf c.2, o.memberKey s.unit.source = some "enum" ∧
        ∃ value ∈ o.memberValue.toList, Scope.Refers value ∧ s.enumNamed "c" value = some "C") ∧
      ∃ o ∈ s.optionsOf c.2, o.memberKey s.unit.source = some "default" ∧
        ∃ given ∈ o.memberValue.toList, s.string? given = some "r" := by
  decide +kernel

theorem column_any_order_sample : ∃ c ∈ sampleColumns orderedSample,
    ∃ c' ∈ sampleColumns reorderedSample, ∃ f e,
      Asks ((sampleScope orderedSample).column "c" c.2 c.1.node) f (Option.toList e) ∧
      Asks ((sampleScope reorderedSample).column "c" c'.2 c'.1.node) f (Option.toList e) ∧
      f.scalar = "C" ∧ e.map EnumType.name = some "C" ∧ f.default = some "r" := by
  obtain ⟨⟨henums, henums'⟩, c, hc, c', hc', hargs, htype, hkeys,
    ⟨o, ho, hkey, value, hvalue, hrefers, hnamed⟩,
    ⟨o', ho', hkey', given, hgiven, hraw⟩⟩ := samples_shuffled
  have hs : (sampleScope orderedSample).Agrees (sampleScope reorderedSample) :=
    ⟨rfl, henums.trans henums'.symm⟩
  obtain ⟨f, e, hasks, hasks', hgoverns⟩ := Scope.column_any_order hs hargs htype hkeys "c"
  obtain ⟨enum, hnamed', hscalar, hnoted, hdefault⟩ :=
    hgoverns o ho hkey value (Option.mem_toList.1 hvalue) hrefers
  obtain rfl : enum = "C" := Option.some.inj (hnamed'.symm.trans hnamed)
  have hraw' := hdefault o' ho' hkey' given (Option.mem_toList.1 hgiven) "r" hraw
  rw [Scope.memberFor, henums] at hraw'
  exact ⟨c, hc, c', hc', f, e, hasks, hasks', hscalar, hnoted, hraw'⟩

/-- A column with a list of numbers for its enumeration, beside a type. -/
def numbersSample : String :=
  "@Entity() class A \x7b @Column(\x7b type: 'int', enum: [1, 2], default: 'a' \x7d) b; \x7d"

theorem numbersSample_told :
    Extracts numbersSample id [⟨"A", "a",
      [{ name := "b", scalar := "Int", role := .plain, default := some "\"a\"" }]⟩] ∧
    ∃ c ∈ sampleColumns numbersSample,
      ((sampleScope numbersSample).optionsOf c.2).map (·.memberKey (encode numbersSample)) =
        [some "type", some "enum", some "default"] := by
  decide +kernel

/-- The list names no enumeration, so the type counts and the default is a text. -/
theorem enum_of_numbers_unread : (parse .typescript numbersSample).broken = false ∧
    (∃ c ∈ sampleColumns numbersSample,
      ((sampleScope numbersSample).optionsOf c.2).map (·.memberKey (encode numbersSample)) =
        [some "type", some "enum", some "default"]) ∧
    ∃ o, (transform numbersSample "typescript" {} none).1 = .ok o ∧ o.models = [⟨"A", "a",
      [{ name := "b", scalar := "Int", role := .plain, default := some "\"a\"" }]⟩] := by
  obtain ⟨o, ho, hmodels⟩ := numbersSample_told.1.exists_ok
  exact ⟨numbersSample_told.1.1, numbersSample_told.2, o, ho, hmodels⟩

end Entities

end OrmCodemod
