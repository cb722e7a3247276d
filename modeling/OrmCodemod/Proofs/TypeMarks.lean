import OrmCodemod.Proofs.TypeNames

/-! Marks of types. The list mark comes from the type of a column as well as from its options, which
also ask for the optional mark, and nothing sees to it that there is only one of them. So the type of a
field has at most one mark unless its column is of the list type and an option asks for one more. -/

namespace OrmCodemod

open Syntax Text Schema Pass

namespace Entities

namespace Scope

variable (s : Scope)

def lastType (options : List Tree) : Option String :=
  options.reverse.findSome? fun o =>
    if o.memberKey s.unit.source = some "type" then o.memberValue.bind s.string? else none

theorem lastType_concat (options : List Tree) (o : Tree) : s.lastType (options ++ [o]) =
    (if o.memberKey s.unit.source = some "type" then o.memberValue.bind s.string? else none).or
      (s.lastType options) := by
  unfold lastType
  rw [List.reverse_append, List.reverse_singleton, List.singleton_append, List.findSome?_cons]
  split
  · rename_i type htype
    rw [htype, Option.some_or]
  · rename_i hnone
    rw [hnone, Option.none_or]

def isOn (options : List Tree) (key : String) : Bool := (s.lastOption options key).any (·.is .trueLiteral)

/-- What a column has taken from its options for its type. -/
structure ColumnState.Marked (scalar : String) (options : List Tree) (st : ColumnState) : Prop where
  scalar : st.field.scalar = ((s.lastType options).map scalarOfColumn).getD scalar
  typed : st.typed = (s.lastType options).isSome
  optional : st.field.optional = s.isOn options "nullable"
  isList : st.field.isList = s.isOn options "array"

theorem ColumnState.Marked.skip {scalar : String} {options : List Tree} {st st' : ColumnState}
    (h : ColumnState.Marked s scalar options st) {o : Tree}
    (ho : ∀ key ∈ ["type", "nullable", "array"],
      o.memberKey s.unit.source = some key → o.memberValue = none)
    (hscalar : st'.field.scalar = st.field.scalar) (htyped : st'.typed = st.typed)
    (hoptional : st'.field.optional = st.field.optional)
    (hlist : st'.field.isList = st.field.isList) :
    ColumnState.Marked s scalar (options ++ [o]) st' := by
  have hsame : ∀ key ∈ ["nullable", "array"],
      s.lastOption (options ++ [o]) key = s.lastOption options key := by
    intro key hkey
    rw [lastOption_concat]
    split
    · rename_i hmember
      rw [ho key (List.mem_cons_of_mem _ hkey) hmember, Option.none_or]
    · rw [Option.none_or]
  have htype : s.lastType (options ++ [o]) = s.lastType options := by
    rw [lastType_concat]
    split
    · rename_i hmember
      rw [ho "type" List.mem_cons_self hmember, Option.bind_none, Option.none_or]
    · rw [Option.none_or]
  refine ⟨?_, ?_, ?_, ?_⟩
  · rw [htype, hscalar, h.scalar]
  · rw [htype, htyped, h.typed]
  · rw [isOn, hsame "nullable" (by simp), hoptional, h.optional, isOn]
  · rw [isOn, hsame "array" (by simp), hlist, h.isList, isOn]

/-- One more option marks the type by its own key only. -/
theorem columnOption_marks {scalar : String} {options : List Tree} {st : ColumnState}
    (h : ColumnState.Marked s scalar options st) (o : Tree) :
    Settles (s.columnOption st o) (ColumnState.Marked s scalar (options ++ [o])) := by
  unfold columnOption
  split
  · rename_i key value hkey hvalue
    have hother : key ∉ ["type", "nullable", "array"] → ∀ k ∈ ["type", "nullable", "array"],
        o.memberKey s.unit.source = some k → o.memberValue = none := by
      intro hne k hk hmember
      rw [hkey] at hmember
      cases hmember
      exact absurd hk hne
    split
    · split
      · rename_i type htype
        exact .pure ⟨by simp [lastType_concat, hkey, hvalue, htype],
          by simp [lastType_concat, hkey, hvalue, htype],
          by simp [isOn, lastOption_concat, hkey, h.optional],
          by simp [isOn, lastOption_concat, hkey, h.isList]⟩
      · rename_i hnone
        exact .pure ⟨by simp [lastType_concat, hkey, hvalue, hnone, h.scalar],
          by simp [lastType_concat, hkey, hvalue, hnone, h.typed],
          by simp [isOn, lastOption_concat, hkey, h.optional],
          by simp [isOn, lastOption_concat, hkey, h.isList]⟩
    · exact .pure ⟨by simp [lastType_concat, hkey, h.scalar], by simp [lastType_concat, hkey, h.typed],
        by simp [isOn, lastOption_concat, hkey, hvalue],
        by simp [isOn, lastOption_concat, hkey, h.isList]⟩
    · exact .pure (h.skip s (hother (by simp)) rfl rfl rfl rfl)
    · exact .pure ⟨by simp [lastType_concat, hkey, h.scalar], by simp [lastType_concat, hkey, h.typed],
        by simp [isOn, lastOption_concat, hkey, h.optional],
        by simp [isOn, lastOption_concat, hkey, hvalue]⟩
    · exact .pure (h.skip s (hother (by simp)) rfl rfl rfl rfl)
    · exact .pure (h.skip s (hother (by simp)) rfl rfl rfl rfl)
    · exact (enumReference_settles s _ value).bind fun _ _ =>
        .pure (h.skip s (hother (by simp)) rfl rfl rfl rfl)
    · exact .pure (h.skip s (hother (by simp_all)) rfl rfl rfl rfl)
  · rename_i hno
    refine .pure (h.skip s (fun key _ hmember => ?_) rfl rfl rfl rfl)
    cases hvalue : o.memberValue with
    | none => rfl
    | some value => exact (hno key value hmember hvalue).elim

def enumGiven (name : String) (options : List Tree) : Option String :=
  (s.lastOption options "enum").bind (s.enumNamed name)

def typeGiven (args : List Tree) : Option String :=
  (s.lastType (s.optionsOf args)).or (args.head?.bind s.string?)

/-- The options of a column leave it with the enumeration they refer to, or else with the type they
name, or else with the type it had. -/
theorem columnOptions_marks (name scalar : String) (options : Tree) :
    Settles (s.columnOptions { name, scalar, role := .plain } options) fun p =>
      p.1.scalar = (s.enumGiven name options.significant).getD
        (((s.lastType options.significant).map scalarOfColumn).getD scalar) ∧
      p.1.optional = s.isOn options.significant "nullable" ∧
      p.1.isList = s.isOn options.significant "array" ∧
      p.2 = ((s.lastType options.significant).isSome ||
        (s.enumGiven name options.significant).isSome) := by
  have hread : Settles
      (options.significant.foldlM (s.columnOption ·) { field := { name, scalar, role := .plain } })
      (ColumnState.Read s name options.significant) :=
    Settles.foldlM (I := ColumnState.Read s name) (fun _ _ o h => columnOption_settles s h o)
      ⟨rfl, rfl, rfl, rfl, rfl, rfl, rfl⟩ _
  have hmarked : Settles
      (options.significant.foldlM (s.columnOption ·) { field := { name, scalar, role := .plain } })
      (ColumnState.Marked s scalar options.significant) :=
    Settles.foldlM (I := ColumnState.Marked s scalar) (fun _ _ o h => columnOption_marks s h o)
      ⟨rfl, rfl, rfl, rfl⟩ _
  unfold columnOptions
  refine (hread.and hmarked).bind fun st h => .pure ?_
  obtain ⟨hst, hmarks⟩ := h
  have henum : st.enum = s.enumGiven name options.significant := hst.enum
  rw [← henum]
  cases he : st.enum <;> cases st.default <;>
    simp [hmarks.scalar, hmarks.optional, hmarks.isList, hmarks.typed]

/-- The type of a column: that of its enumeration, or else of its column type, or else a name; its marks
are those that its options turn on. -/
structure IsMarked (name : String) (args : List Tree) (f : Field) : Prop where
  enum : ∀ e ∈ s.enumGiven name (s.optionsOf args), f.scalar = e
  type : s.enumGiven name (s.optionsOf args) = none →
    ∀ t ∈ s.typeGiven args, f.scalar = scalarOfColumn t
  rest : s.enumGiven name (s.optionsOf args) = none → s.typeGiven args = none → IsName f.scalar
  optional : f.optional = s.isOn (s.optionsOf args) "nullable"
  isList : f.isList = s.isOn (s.optionsOf args) "array"

/-- The options of a column give it a type over the one that it has from elsewhere. -/
theorem IsMarked.of_options {name scalar : String} {args : List Tree} {f : Field}
    (hscalar : f.scalar = (s.enumGiven name (s.optionsOf args)).getD
      (((s.lastType (s.optionsOf args)).map scalarOfColumn).getD scalar))
    (htype : ∀ t ∈ args.head?.bind s.string?, scalar = scalarOfColumn t)
    (hrest : s.enumGiven name (s.optionsOf args) = none → s.typeGiven args = none → IsName scalar)
    (hoptional : f.optional = s.isOn (s.optionsOf args) "nullable")
    (hlist : f.isList = s.isOn (s.optionsOf args) "array") : s.IsMarked name args f := by
  refine ⟨fun e he => ?_, fun hnone t ht => ?_, fun hnone hno => ?_, hoptional, hlist⟩
  · rw [hscalar, Option.mem_def.1 he, Option.getD_some]
  · rw [hscalar, hnone, Option.getD_none]
    rw [typeGiven] at ht
    cases hlast : s.lastType (s.optionsOf args) with
    | none =>
      rw [hlast, Option.none_or] at ht
      rw [Option.map_none, Option.getD_none, htype t ht]
    | some last =>
      rw [hlast, Option.some_or, Option.mem_some_iff] at ht
      rw [Option.map_some, Option.getD_some, ht]
  · rw [hscalar, hnone, (Option.or_eq_none_iff.1 hno).1]
    exact hrest hnone hno

/-- Without options a column has the type it names, or else a name. -/
theorem IsMarked.bare {name scalar : String} {args : List Tree} (hoptions : s.optionsOf args = [])
    (htype : ∀ t ∈ args.head?.bind s.string?, scalar = scalarOfColumn t)
    (hrest : args.head?.bind s.string? = none → IsName scalar) :
    s.IsMarked name args { name, scalar, role := .plain } := by
  refine .of_options s ?_ htype (fun _ hno => hrest (Option.or_eq_none_iff.1 hno).2) ?_ ?_ <;>
    rw [hoptions] <;> rfl

theorem column_marks (name : String) (args : List Tree) {member : Tree}
    (hplain : Settles (s.annotated member) IsName) :
    Settles (s.column name args member) (s.IsMarked name args) := by
  unfold column
  split
  · exact hplain.bind fun scalar h => .pure (.bare s rfl (by simp) fun _ => h)
  rename_i first rest
  split
  · rename_i type htype
    have hbare : s.optionsOf (first :: rest) = [] →
        s.IsMarked name (first :: rest) { name, scalar := scalarOfColumn type, role := .plain } :=
      fun hoptions => .bare s hoptions (by simp [htype]) (by simp [htype])
    cases rest with
    | nil => exact .pure (hbare (by simp [optionsOf, htype]))
    | cons second rest =>
      dsimp only
      split
      · rename_i hobject
        have hoptions : s.optionsOf (first :: second :: rest) = second.significant := by
          simp [optionsOf, htype, hobject]
        refine (columnOptions_marks s _ _ _).bind fun p h => .pure ?_
        rw [← hoptions] at h
        exact .of_options s h.1 (by simp [htype]) (fun _ hno => by simp [typeGiven, htype] at hno)
          h.2.1 h.2.2.1
      · rename_i hobject
        exact .pure (hbare (by simp [optionsOf, htype, hobject]))
  · rename_i hstring
    split
    · rename_i hobject
      have hoptions : s.optionsOf (first :: rest) = first.significant := by
        simp [optionsOf, hstring, hobject]
      refine (columnOptions_marks s _ _ _).bind fun p h => ?_
      rw [← hoptions] at h
      obtain ⟨f, typed⟩ := p
      obtain ⟨hscalar, hoptional, hlist, htyped⟩ := h
      dsimp only at hscalar hoptional hlist htyped ⊢
      split
      · rename_i hon
        refine .pure (.of_options s hscalar (by simp [hstring]) (fun hnone hno => ?_) hoptional hlist)
        rw [htyped, hnone, (Option.or_eq_none_iff.1 hno).1] at hon
        cases hon
      · rename_i hoff
        rw [htyped, Bool.or_eq_true, not_or, Bool.not_eq_true, Option.isSome_eq_false_iff,
          Option.isNone_iff_eq_none, Bool.not_eq_true, Option.isSome_eq_false_iff,
          Option.isNone_iff_eq_none] at hoff
        refine hplain.bind fun scalar h => .pure
          (.of_options s ?_ (by simp [hstring]) (fun _ _ => h) hoptional hlist)
        rw [hoff.1, hoff.2]
        rfl
    · rename_i hobject
      have hoptions : s.optionsOf (first :: rest) = [] := by simp [optionsOf, hstring, hobject]
      exact .pure (.bare s hoptions (by simp [hstring]) fun _ => by decide)

def targetGiven (args : List Tree) : Option String := (args.head?.bind s.string?).filter (· != "")

/-- The name that is made for an enumeration which is listed in place. -/
def enumMade (name : String) (args : List Tree) : Option String :=
  (s.lastOption (s.optionsOf args) "enum").bind fun value =>
    if value.is .array then s.enumNamed name value else none

def typeMade (name : String) (d : RoleDecorator) : Option String :=
  match d.role with
  | .relation => s.targetGiven d.node.decoratorArguments
  | .plain => s.enumMade name d.node.decoratorArguments
  | _ => none

/-- A column of the list type with an option that asks for one more mark. -/
structure Stacks (name : String) (d : RoleDecorator) : Prop where
  role : d.role = .plain
  enum : s.enumGiven name (s.optionsOf d.node.decoratorArguments) = none
  type : ∃ t, s.typeGiven d.node.decoratorArguments = some t ∧ scalarOfColumn t = "String[]"
  option : s.isOn (s.optionsOf d.node.decoratorArguments) "nullable" = true ∨
    s.isOn (s.optionsOf d.node.decoratorArguments) "array" = true

theorem stacks_iff {name : String} {d : RoleDecorator} : s.Stacks name d ↔ d.role = .plain ∧
    s.enumGiven name (s.optionsOf d.node.decoratorArguments) = none ∧
    (s.typeGiven d.node.decoratorArguments).any (scalarOfColumn · == "String[]") = true ∧
    (s.isOn (s.optionsOf d.node.decoratorArguments) "nullable" = true ∨
      s.isOn (s.optionsOf d.node.decoratorArguments) "array" = true) := by
  simp only [Option.any_eq_true, beq_iff_eq]
  exact ⟨fun ⟨hrole, henum, htype, hoption⟩ => ⟨hrole, henum, htype, hoption⟩,
    fun ⟨hrole, henum, htype, hoption⟩ => ⟨hrole, henum, htype, hoption⟩⟩

instance (name : String) (d : RoleDecorator) : Decidable (s.Stacks name d) :=
  decidable_of_iff _ s.stacks_iff.symm

section Within

variable {s}

theorem elementType_within : ∀ n {type element : Tree}, elementType n type = some element →
    element.Within type
  | 0, _, _, h => by cases h
  | n + 1, type, element, h => by
    unfold elementType at h
    split at h
    · obtain ⟨inner, hinner, h⟩ := Option.bind_eq_some_iff.1 h
      exact (elementType_within n h).trans
        (Tree.within_of_mem (Tree.significant_mem (List.mem_of_mem_head? hinner)))
    · cases h
      exact .self

theorem memberValue_within {m value : Tree} (h : m.memberValue = some value) : value.Within m := by
  unfold Tree.memberValue at h
  split at h
  · exact Tree.within_of_mem (Tree.child?_mem h)
  · split at h
    · cases h
      exact .self
    · cases h

theorem optionsOf_within {args : List Tree} (hargs : ∀ a ∈ args, a.Within s.unit.root) :
    ∀ o ∈ s.optionsOf args, o.Within s.unit.root := by
  have hmember : ∀ a ∈ args, ∀ o ∈ a.significant, o.Within s.unit.root := fun a ha o ho =>
    (Tree.within_of_mem (Tree.significant_mem ho)).trans (hargs a ha)
  intro o ho
  unfold optionsOf at ho
  split at ho
  · cases ho
  · split at ho
    · split at ho
      · split at ho
        · exact hmember _ (by simp) o ho
        · cases ho
      · cases ho
    · split at ho
      · exact hmember _ (by simp) o ho
      · cases ho

theorem lastOption_within {args : List Tree} (hargs : ∀ a ∈ args, a.Within s.unit.root) {key : String}
    {value : Tree} (h : s.lastOption (s.optionsOf args) key = some value) :
    value.Within s.unit.root := by
  obtain ⟨o, ho, hvalue⟩ := List.exists_of_findSome?_eq_some h
  split at hvalue
  · exact (memberValue_within hvalue).trans (optionsOf_within hargs o (List.mem_reverse.1 ho))
  · cases hvalue

theorem decoratorArguments_within {decorator a : Tree} (h : a ∈ decorator.decoratorArguments) :
    a.Within decorator := by
  unfold Tree.decoratorArguments at h
  split at h
  · rename_i e he
    have hexpression := Tree.within_of_mem (Tree.significant_mem (List.mem_of_mem_head? he))
    split at h
    · unfold Tree.callArguments at h
      split at h
      · rename_i args hargs
        split at h
        · exact ((Tree.within_of_mem (Tree.significant_mem h)).trans
            (Tree.within_of_mem (Tree.child?_mem hargs))).trans hexpression
        · cases h
      · cases h
    · cases h
  · cases h

end Within

section Named

variable {s} (hs : s.Spelled)
include hs

theorem isName_text {t : Tree} (ht : t.Within s.unit.root)
    (hk : t.is .identifier = true ∨ t.is .typeIdentifier = true) : IsName (s.text t) :=
  hs.unit.isName ht (by simpa [Tree.isAny] using hk)

/-- The target of a relation is a name, unless it is given as a text that is none. -/
theorem relationTarget_named {args : List Tree} {member : Tree}
    (hargs : ∀ a ∈ args, a.Within s.unit.root) (hmember : member.Within s.unit.root)
    (hmade : ∀ n ∈ s.targetGiven args, IsName n) {target : String}
    (h : s.relationTarget args member = some target) : IsName target := by
  simp only [relationTarget, Option.orElse_eq_orElse, Option.orElse_eq_or, Option.or_eq_some_iff] at h
  rcases h with h | ⟨-, h | ⟨-, h⟩⟩
  · obtain ⟨first, hfirst, h⟩ := Option.bind_eq_some_iff.1 h
    split at h
    · cases h
    obtain ⟨body, hbody, h⟩ := Option.bind_eq_some_iff.1 h
    split at h
    · cases h
      exact isName_text hs ((Tree.within_of_mem (Tree.child?_mem hbody)).trans
        (hargs first (List.mem_of_mem_head? hfirst))) (.inl ‹_›)
    · cases h
  · refine hmade target ?_
    obtain ⟨first, hfirst, h⟩ := Option.bind_eq_some_iff.1 h
    obtain ⟨named, hnamed, h⟩ := Option.bind_eq_some_iff.1 h
    split at h
    · cases h
    · cases h
      rename_i hne
      rw [targetGiven, hfirst, Option.bind_some, hnamed, Option.mem_def, Option.filter_some,
        if_pos (by simpa using hne)]
  · obtain ⟨type, htype, h⟩ := Option.bind_eq_some_iff.1 h
    obtain ⟨element, helement, h⟩ := Option.bind_eq_some_iff.1 h
    split at h
    · cases h
      exact isName_text hs (((elementType_within _ helement).trans (annotatedType_within htype)).trans
        hmember) (.inr ‹_›)
    · cases h

theorem relation_named {name : String} {kind : RelationKind} {args : List Tree} {member : Tree}
    (hargs : ∀ a ∈ args, a.Within s.unit.root) (hmember : member.Within s.unit.root)
    (hmade : ∀ n ∈ s.targetGiven args, IsName n) :
    Settles (s.relation name kind args member) fun fs => ∀ f ∈ fs, IsName f.scalar := by
  have htarget : IsName ((s.relationTarget args member).getD unknownModel) := by
    cases h : s.relationTarget args member with
    | none => decide
    | some target => exact relationTarget_named hs hargs hmember hmade h
  have hint : IsName "Int" := by decide
  have hfields : ∀ (f : Field) (owns : Bool), IsName f.scalar →
      ∀ g ∈ f :: (if owns then [keyField name] else []), IsName g.scalar := by
    intro f owns hf g hg
    rcases List.mem_cons.1 hg with rfl | hg
    · exact hf
    · split at hg
      · rw [List.mem_singleton.1 hg]
        exact hint
      · cases hg
  dsimp only [relation]
  split
  · exact (Settles.say _ _).bind fun _ _ => .pure (hfields _ _ htarget)
  · exact .pure (hfields _ _ htarget)

theorem identity_marks {name decorator : String} {args : List Tree} {member : Tree}
    (hmember : member.Within s.unit.root) :
    Settles (s.identity name decorator args member) fun f =>
      f.isList = false ∧ f.optional = false ∧ (IsName f.scalar ∨ f.scalar = "String[]") := by
  unfold identity
  split
  · refine (annotated_named hs hmember).bind fun scalar h => .pure ⟨rfl, rfl, ?_⟩
    dsimp only
    split
    · rw [or_comm]
      exact or_iff_not_imp_left.2 isName_scalarOfColumn
    · exact .inl h
  · have hstring : IsName "String" := by decide
    have hint : IsName "Int" := by decide
    split
    · exact .pure ⟨rfl, rfl, .inl hstring⟩
    · exact .pure ⟨rfl, rfl, .inl hint⟩

/-- An enumeration that options refer to has a name, unless one is made for it that is none. -/
theorem enumGiven_named {name : String} {args : List Tree} (hargs : ∀ a ∈ args, a.Within s.unit.root)
    (hmade : ∀ n ∈ s.enumMade name args, IsName n) {e : String}
    (h : s.enumGiven name (s.optionsOf args) = some e) : IsName e := by
  obtain ⟨value, hvalue, hnamed⟩ := Option.bind_eq_some_iff.1 h
  cases harray : value.is .array with
  | true =>
    refine hmade e ?_
    rw [enumMade, hvalue, Option.bind_some, if_pos harray]
    exact hnamed
  | false =>
    unfold enumNamed at hnamed
    split at hnamed
    · cases hnamed
      exact isName_text hs (lastOption_within hargs hvalue) (.inl ‹_›)
    · simp [harray] at hnamed

/-- A column has at most one mark behind the name of its type, unless it stacks them. -/
theorem IsMarked.oneMark_iff {name : String} {d : RoleDecorator} {f : Field}
    (h : s.IsMarked name d.node.decoratorArguments f)
    (hargs : ∀ a ∈ d.node.decoratorArguments, a.Within s.unit.root) (hrole : d.role = .plain)
    (hmade : ∀ n ∈ s.enumMade name d.node.decoratorArguments, IsName n) :
    OneMark f.typeText ↔ ¬s.Stacks name d := by
  cases henum : s.enumGiven name (s.optionsOf d.node.decoratorArguments) with
  | some e =>
    refine iff_of_true (Field.oneMark_of_isName ?_) fun hstacks => ?_
    · rw [h.enum e henum]
      exact enumGiven_named hs hargs hmade henum
    · simp [hstacks.enum] at henum
  | none =>
    cases htype : s.typeGiven d.node.decoratorArguments with
    | none =>
      refine iff_of_true (Field.oneMark_of_isName (h.rest henum htype)) fun hstacks => ?_
      obtain ⟨t, ht, -⟩ := hstacks.type
      simp [ht] at htype
    | some t =>
      have hscalar := h.type henum t htype
      by_cases hlist : scalarOfColumn t = "String[]"
      · rw [Field.oneMark_of_list (hscalar.trans hlist), h.isList, h.optional]
        constructor
        · rintro ⟨h1, h2⟩ hstacks
          rcases hstacks.option with h3 | h3
          · simp [h3] at h2
          · simp [h3] at h1
        · intro hno
          constructor
          · by_contra hon
            exact hno ⟨hrole, henum, ⟨t, htype, hlist⟩, .inr (by simpa using hon)⟩
          · by_contra hon
            exact hno ⟨hrole, henum, ⟨t, htype, hlist⟩, .inl (by simpa using hon)⟩
      · refine iff_of_true (Field.oneMark_of_isName ?_) fun hstacks => ?_
        · rw [hscalar]
          exact isName_scalarOfColumn hlist
        · obtain ⟨t', ht', hlist'⟩ := hstacks.type
          rw [ht', Option.some.injEq] at htype
          exact hlist (htype ▸ hlist')

/-- A field has at most one mark behind the name of its type, unless its column stacks them. -/
theorem Shows.oneMark_iff {name : String} {node : Tree} {d : Option RoleDecorator} {fs : List Field}
    (h : s.Shows name node d fs) (hnode : node.Within s.unit.root)
    (hd : ∀ d' ∈ d, d'.node.Within s.unit.root) {f : Field} (hf : f ∈ fs) :
    ∃ d', d = some d' ∧ ((∀ n ∈ s.typeMade name d', IsName n) →
      (OneMark f.typeText ↔ ¬s.Stacks name d')) := by
  have hargs : ∀ d' ∈ d, ∀ a ∈ d'.node.decoratorArguments, a.Within s.unit.root :=
    fun d' hd' a ha => (decoratorArguments_within ha).trans (hd d' hd')
  cases h with
  | bare => cases hf
  | identity d role gives =>
    obtain rfl := List.mem_singleton.1 hf
    obtain ⟨hlist, hoptional, hscalar⟩ := (identity_marks hs hnode).of_gives gives
    refine ⟨d, rfl, fun _ => iff_of_true ?_ fun hstacks => ?_⟩
    · rcases hscalar with h | h
      · exact Field.oneMark_of_isName h
      · exact (Field.oneMark_of_list h).2 ⟨hlist, hoptional⟩
    · have := hstacks.role
      rw [role] at this
      cases this
  | column d role gives =>
    obtain rfl := List.mem_singleton.1 hf
    have hmarked := (column_marks s name _ (annotated_named hs hnode)).of_gives gives
    refine ⟨d, rfl, fun hmade => ?_⟩
    rw [typeMade, role] at hmade
    exact hmarked.oneMark_iff hs (hargs d rfl) role hmade
  | relation d role declares gives =>
    refine ⟨d, rfl, fun hmade => ?_⟩
    rw [typeMade, role] at hmade
    have hnamed := (relation_named hs (hargs d rfl) hnode hmade).of_gives gives
    refine iff_of_true (Field.oneMark_of_isName (hnamed f hf)) fun hstacks => ?_
    have := hstacks.role
    rw [role] at this
    cases this
  | timestamp d role =>
    obtain rfl := List.mem_singleton.1 hf
    have hdate : IsName "DateTime" := by decide
    refine ⟨d, rfl, fun _ => iff_of_true ?_ fun hstacks => ?_⟩
    · refine Field.oneMark_of_isName ?_
      unfold Scope.timestamp
      split <;> exact hdate
    · rw [hstacks.role] at role
      revert role
      decide

end Named

end Scope

variable {u : SourceUnit} {class_ : Place}

theorem decorators_within {r : Tree} {p : Place} (hp : p.Rooted r) {d : Tree} (hd : d ∈ p.decorators) :
    d.Within r := by
  have hown : ∀ d ∈ p.tree.children.filter (·.is .decorator), d.Within r := fun d hd =>
    (Tree.within_of_mem (List.mem_filter.1 hd).1).trans hp.within
  obtain ⟨t, path⟩ := p
  cases path with
  | nil => exact hown d hd
  | cons c path =>
    have habove := hp.siblings.1.within
    simp only [Place.decorators, Place.up?] at hd
    split at hd
    · rcases List.mem_append.1 hd with hd | hd
      · exact (Tree.within_of_mem (List.mem_filter.1 hd).1).trans habove
      · exact hown d hd
    · exact hown d hd

theorem decoratedFields_within {r : Tree} {ps : List Place} (hps : ∀ p ∈ ps, p.Rooted r) :
    ∀ {pending : List Tree}, (∀ d ∈ pending, d.Within r) →
      ∀ x ∈ decoratedFields pending ps, x.1.Within r ∧ ∀ d ∈ x.2, d.Within r := by
  induction ps with
  | nil => simp [decoratedFields]
  | cons p ps ih =>
    have hp := hps p List.mem_cons_self
    have ih := fun {pending} => @ih (fun q hq => hps q (List.mem_cons_of_mem _ hq)) pending
    intro pending hpending x hx
    unfold decoratedFields at hx
    split at hx
    · refine ih (fun d hd => ?_) x hx
      rcases List.mem_append.1 hd with hd | hd
      · exact hpending d hd
      · rw [List.mem_singleton.1 hd]
        exact hp.within
    · split at hx
      · rcases List.mem_cons.1 hx with rfl | hx
        · exact ⟨hp.within, fun d hd => (List.mem_append.1 hd).elim (hpending d) (decorators_within hp)⟩
        · exact ih (by simp) x hx
      · exact ih (by simp) x hx

theorem members_within (hc : class_.Rooted u.root) {member : Member}
    (hm : member ∈ members u.source class_) :
    member.node.Within u.root ∧ ∀ d ∈ member.decorators, d.Within u.root := by
  obtain ⟨⟨field, decorators⟩, hx, hmember⟩ := List.mem_filterMap.1 hm
  obtain ⟨name, -, rfl⟩ := Option.map_eq_some_iff.1 hmember
  unfold bodyFields at hx
  split at hx
  · rename_i body hbody
    refine decoratedFields_within (fun p hp => ?_) (by simp) _ hx
    have hbody := hc.child (List.mem_of_find?_eq_some hbody)
    exact hbody.child (List.mem_filter.1 (List.mem_filter.1 hp).1).1
  · cases hx

theorem decorator_within (hc : class_.Rooted u.root) {member : Member}
    (hm : member ∈ members u.source class_) {d : RoleDecorator}
    (hd : member.decorator? u.source = some d) : d.node.Within u.root := by
  obtain ⟨node, hnode, hrole⟩ := List.exists_of_findSome?_eq_some hd
  simp only [withRole?, Option.bind_eq_bind, Option.bind_eq_some_iff] at hrole
  obtain ⟨name, -, role, -, hrole⟩ := hrole
  split at hrole
  · cases hrole
  · cases hrole
    exact (members_within hc hm).2 node hnode

variable {m : Model} {f : Field}

/-- What gives a model one of its fields: a member of its class, by its decorator. -/
structure IsGiven (u : SourceUnit) (class_ : Place) (m : Model) (f : Field) (member : Member)
    (d : RoleDecorator) : Prop where
  mem : member ∈ members u.source class_
  decorated : member.decorator? u.source = some d
  shown : ∃ fs, Scope.Tells ⟨u, m.name, declaredEnums u⟩ member fs ∧ f ∈ fs

/-- The field of a model has at most one mark behind the name of its type, unless its column stacks
them. -/
theorem Describes.oneMark_iff (hd : Describes u class_ m) (hu : u.Spelled) (hc : class_.Rooted u.root)
    (hf : f ∈ m.fields) : ∃ member d, IsGiven u class_ m f member d ∧
      ((∀ n ∈ Scope.typeMade ⟨u, m.name, declaredEnums u⟩ member.name d, IsName n) →
        (OneMark f.typeText ↔ ¬Scope.Stacks ⟨u, m.name, declaredEnums u⟩ member.name d)) := by
  obtain ⟨member, hmember, fs, htells, hmem, -⟩ := hd.member_of_field hf
  have hs : Scope.Spelled ⟨u, m.name, declaredEnums u⟩ := ⟨hu, rfl⟩
  obtain ⟨d, hdecorator, hiff⟩ := Scope.Shows.oneMark_iff hs htells (members_within hc hmember).1
    (fun d hd => decorator_within hc hmember (Option.mem_def.1 hd)) hmem
  exact ⟨member, d, ⟨hmember, hdecorator, fs, htells, hmem⟩, hiff⟩

theorem ModelsOf.type_marks {u : SourceUnit} {models : List Model} (h : ModelsOf u models) :
    ∀ m ∈ models, ∃ class_ ∈ u.place.find Place.classKinds, Describes u class_ m ∧
      ∀ f ∈ m.fields,
        f.render = "  " ++ f.name ++ " " ++ f.typeText ++
          (if f.attributes.isEmpty then "" else " " ++ joinWith " " f.attributes) ∧
        (u.Spelled → ∃ member d, IsGiven u class_ m f member d ∧
          ((∀ n ∈ Scope.typeMade ⟨u, m.name, declaredEnums u⟩ member.name d, IsName n) →
            (OneMark f.typeText ↔
              ¬Scope.Stacks ⟨u, m.name, declaredEnums u⟩ member.name d))) := by
  intro m hm
  obtain ⟨class_, hclass, hd⟩ := h.described hm
  have hrooted := Place.find_rooted u.place_rooted hclass
  exact ⟨class_, hclass, hd, fun f hf => ⟨f.render_eq, fun hspelled =>
    hd.oneMark_iff hspelled hrooted hf⟩⟩

end Entities

open Entities

/-- A field line is a name, a type and what is said of the field. Where the names of a source are spelled
as names, and those made of other texts are names too, the type has at most one mark exactly if the
field's column is not of the list type with an option that is on for one more. -/
theorem type_marks_iff {source language : String} {settings : Settings} {path : Option String}
    {o : Outcome} (h : (transform source language settings path).1 = .ok o) :
    ∃ dialect, Dialect.ofName language = .ok dialect ∧
      let u := SourceUnit.read dialect source settings
      ∀ m ∈ o.models, ∃ class_ ∈ u.place.find Place.classKinds, Describes u class_ m ∧
        ∀ f ∈ m.fields,
          f.render = "  " ++ f.name ++ " " ++ f.typeText ++
            (if f.attributes.isEmpty then "" else " " ++ joinWith " " f.attributes) ∧
          (u.Spelled → ∃ member d, IsGiven u class_ m f member d ∧
            ((∀ n ∈ Scope.typeMade ⟨u, m.name, declaredEnums u⟩ member.name d, IsName n) →
              (OneMark f.typeText ↔
                ¬Scope.Stacks ⟨u, m.name, declaredEnums u⟩ member.name d))) := by
  obtain ⟨dialect, hdialect, hmodels⟩ := transform_models h
  exact ⟨dialect, hdialect, hmodels.type_marks⟩

def marksSample : String :=
  "@Entity() class A \x7b @Column('simple-array') tags: string[]; " ++
    "@Column(\x7b type: 'text', nullable: true \x7d) note: string; \x7d"

def tagsField : Field := { name := "tags", scalar := "String[]", role := .plain }

def noteField : Field := { name := "note", scalar := "String", role := .plain, optional := true }

theorem marksSample_told : Extracts marksSample id [⟨"A", "a", [tagsField, noteField]⟩] ∧
    let u := SourceUnit.read .typescript marksSample {}
    u.Spelled ∧ ∀ class_ ∈ u.place.find Place.classKinds, ∀ member ∈ members u.source class_,
      ∀ d ∈ (member.decorator? u.source).toList,
        Scope.typeMade ⟨u, "A", declaredEnums u⟩ member.name d = none ∧
          ¬Scope.Stacks ⟨u, "A", declaredEnums u⟩ member.name d := by
  decide +kernel

theorem type_marks_sample : ∃ o, (transform marksSample "typescript" {} none).1 = .ok o ∧
    o.models = [⟨"A", "a", [tagsField, noteField]⟩] ∧
    ∀ f ∈ [tagsField, noteField], OneMark f.typeText := by
  obtain ⟨hextracts, hspelled, hmembers⟩ := marksSample_told
  obtain ⟨o, ho, hmodels⟩ := hextracts.exists_ok
  rw [id] at hmodels
  obtain ⟨dialect, hdialect, hmarks⟩ := type_marks_iff ho
  cases hdialect
  obtain ⟨class_, hclass, -, hfields⟩ := hmarks ⟨"A", "a", [tagsField, noteField]⟩ (by simp [hmodels])
  refine ⟨o, ho, hmodels, fun f hf => ?_⟩
  obtain ⟨member, d, hgiven, hiff⟩ := (hfields f hf).2 hspelled
  obtain ⟨hmade, hstacks⟩ := hmembers class_ hclass member hgiven.mem d (by simp [hgiven.decorated])
  exact (hiff (by simp [hmade])).2 hstacks

def stackedSample : String :=
  "@Entity() class A \x7b @Column('simple-array', \x7b nullable: true \x7d) tags: string[]; \x7d"

theorem stackedSample_models :
    Extracts stackedSample id [⟨"A", "a", [{ tagsField with optional := true }]⟩] := by
  decide +kernel

/-- The type of the field has two marks. -/
theorem type_marks_stacked_sample : (parse .typescript stackedSample).broken = false ∧
    ∃ o, (transform stackedSample "typescript" {} none).1 = .ok o ∧ ∃ m ∈ o.models, ∃ f ∈ m.fields,
      f.render = "  tags String[]?" ∧ f.typeText = "String[]?" ∧ ¬OneMark f.typeText := by
  obtain ⟨o, ho, hmodels⟩ := stackedSample_models.exists_ok
  rw [id] at hmodels
  refine ⟨stackedSample_models.1, o, ho, _, by rw [hmodels]; exact List.mem_cons_self, _,
    List.mem_cons_self, by decide +kernel, by decide, by decide⟩

end OrmCodemod
