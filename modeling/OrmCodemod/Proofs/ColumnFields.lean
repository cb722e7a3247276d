import OrmCodemod.Proofs.TypeMarks

/-! What a column comes to. Its options are taken one by one, and each key is read apart from the
others; so the field is told by the last option of each key, and the enumerations that are asked for on
the way are those of the `enum` options and, where nothing names a type, of the annotation. -/

namespace OrmCodemod

open Syntax Text Schema Pass

namespace Schema

/-- Note enumerations one after the other: the first of a name stays. -/
def noteAll (asked enums : List EnumType) : List EnumType :=
  asked.foldl (fun acc e => addNew EnumType.name e acc) enums

theorem noteAll_append (asked asked' enums : List EnumType) :
    noteAll (asked ++ asked') enums = noteAll asked' (noteAll asked enums) :=
  List.foldl_append

variable {α : Type} {key : α → String}

theorem find?_addNew (x : α) (xs : List α) (k : String) :
    (addNew key x xs).find? (key · == k) = (xs ++ [x]).find? (key · == k) := by
  unfold addNew
  split
  · rename_i htaken
    rw [List.find?_append]
    cases hfind : xs.find? (key · == k) with
    | some y => rw [Option.some_or]
    | none =>
      obtain ⟨y, hy, hkey⟩ := List.any_eq_true.1 htaken
      have hother : (key x == k) = false := by
        have := List.find?_eq_none.1 hfind y hy
        rw [beq_iff_eq.1 hkey] at this
        simpa using this
      rw [Option.none_or, List.find?_singleton, hother]
      rfl
  · rfl

theorem nodup_addNew {x : α} {xs : List α} (h : (xs.map key).Nodup) :
    ((addNew key x xs).map key).Nodup := by
  unfold addNew
  split
  · exact h
  · rename_i hfree
    rw [List.map_append, List.map_singleton]
    refine List.Nodup.append h (List.nodup_singleton _) (List.disjoint_singleton.2 fun hmem => ?_)
    obtain ⟨y, hy, hkey⟩ := List.mem_map.1 hmem
    exact hfree (List.any_eq_true.2 ⟨y, hy, beq_iff_eq.2 hkey⟩)

/-- The first request for a name is the one that counts, behind those noted before. -/
theorem find?_noteAll (asked enums : List EnumType) (name : String) :
    (noteAll asked enums).find? (·.name == name) = (enums ++ asked).find? (·.name == name) := by
  unfold noteAll
  induction asked generalizing enums with
  | nil => rw [List.foldl_nil, List.append_nil]
  | cons e asked ih =>
    rw [List.foldl_cons, ih, List.find?_append, find?_addNew, ← List.find?_append, List.append_assoc,
      List.singleton_append]

theorem nodup_noteAll {asked enums : List EnumType} (h : (enums.map EnumType.name).Nodup) :
    ((noteAll asked enums).map EnumType.name).Nodup := by
  unfold noteAll
  induction asked generalizing enums with
  | nil => exact h
  | cons e asked ih => exact ih (nodup_addNew h)

end Schema

namespace Pass

variable {α β : Type} {a : α} {b : β} {x : Pass α} {es es' : List EnumType}

/-- The step ends well, gives this and asks for these enumerations, whatever session it starts in. -/
def Asks (x : Pass α) (a : α) (es : List EnumType) : Prop :=
  ∀ s, ∃ s', x.result s = (.ok a, s') ∧ s'.enums = noteAll es s.enums

theorem Asks.gives (h : Asks x a es) : Gives x a := fun s => by
  obtain ⟨s', hrun, -⟩ := h s
  exact ⟨s', hrun⟩

theorem Asks.pure (a : α) : Asks (pure a) a [] := fun s => ⟨s, rfl, rfl⟩

theorem Asks.pure_of_eq {a' : α} (h : a' = a) (hes : es = []) : Asks (Pure.pure a) a' es :=
  h ▸ hes ▸ .pure a'

theorem Asks.say (level : Level) (message : String) : Asks (Pass.say level message) () [] :=
  fun _ => ⟨_, rfl, rfl⟩

theorem Asks.note (e : EnumType) :
    Asks (modify fun s : Session => { s with enums := addNew EnumType.name e s.enums }) ⟨⟩ [e] :=
  fun _ => ⟨_, rfl, rfl⟩

theorem Asks.bind {f : α → Pass β} (hx : Asks x a es) (hf : Asks (f a) b es') :
    Asks (x >>= f) b (es ++ es') := by
  intro s
  obtain ⟨s1, hrun1, henums1⟩ := hx s
  obtain ⟨s2, hrun2, henums2⟩ := hf s1
  exact ⟨s2, by rw [result_bind_ok hrun1, hrun2], by rw [henums2, henums1, noteAll_append]⟩

theorem Asks.map {f : α → Pass β} (hx : Asks x a es) (hf : Asks (f a) b []) :
    Asks (x >>= f) b es := by
  have h := hx.bind hf
  rwa [List.append_nil] at h

theorem Asks.foldlM {f : β → α → Pass β} {g : List α → β} {asked : α → List EnumType}
    (h : ∀ l x, Asks (f (g l) x) (g (l ++ [x])) (asked x)) (xs : List α) :
    Asks (xs.foldlM f (g [])) (g xs) (xs.flatMap asked) := by
  suffices ∀ r l, Asks (r.foldlM f (g l)) (g (l ++ r)) (r.flatMap asked) from this xs []
  intro r
  induction r with
  | nil =>
    intro l
    rw [List.append_nil]
    exact .pure _
  | cons x r ih =>
    intro l
    rw [List.foldlM_cons, List.flatMap_cons, ← List.singleton_append, ← List.append_assoc]
    exact (h l x).bind (ih (l ++ [x]))

end Pass

namespace Entities

namespace Scope

variable (s : Scope)

/-- The enumeration of a name as the source declares it; without members where it does not. -/
def declared (name : String) : EnumType := ⟨name, ((s.enums.lookup name).getD []).map (·.name)⟩

theorem registerEnum_asks (name : String) :
    Asks (s.registerEnum name) () [s.declared name] := by
  dsimp only [registerEnum]
  split
  · exact (Asks.say _ _).bind (.note _)
  · exact .note (s.declared name)

/-- The schema type of an annotation, and the enumerations that it asks for. -/
def scalarTold : Nat → Option Tree → String × List EnumType
  | 0, _ => (defaultScalar, [])
  | _, none => (defaultScalar, [])
  | n + 1, some type =>
    if type.isAny [.predefinedType, .typeIdentifier] then
      let name := s.text type
      match annotationTypes.lookup name with
      | some scalar => (scalar, [])
      | none =>
        if (s.enums.lookup name).isSome then (name, [s.declared name]) else (scalarOfColumn name, [])
    else if type.is .unionType then
      match type.significant.find? fun part => !emptyTypes.contains (s.text part) with
      | some part => scalarTold n (some part)
      | none => (defaultScalar, [])
    else (defaultScalar, [])

theorem scalarOfType_asks : ∀ n type,
    Asks (s.scalarOfType n type) (s.scalarTold n type).1 (s.scalarTold n type).2
  | 0, _ => .pure _
  | _ + 1, none => .pure _
  | n + 1, some type => by
    dsimp only [scalarOfType, scalarTold]
    split
    · cases hlookup : annotationTypes.lookup (s.text type) with
      | some scalar => exact .pure _
      | none =>
        dsimp only
        split
        · exact (registerEnum_asks s _).map (.pure _)
        · dsimp only
          exact .pure _
    · split
      · cases hpart : type.significant.find? fun part => !emptyTypes.contains (s.text part) with
        | some part => exact scalarOfType_asks n _
        | none => exact .pure _
      · exact .pure _

def annotationOf (field : Tree) : String × List EnumType :=
  s.scalarTold ((field.annotatedType.map Tree.size).getD 0 + 1) field.annotatedType

theorem annotated_asks (field : Tree) :
    Asks (s.annotated field) (s.annotationOf field).1 (s.annotationOf field).2 :=
  scalarOfType_asks s _ _

def asked (field : String) (value : Tree) : Option EnumType :=
  if value.is .identifier then some (s.declared (s.text value))
  else
    (s.enumNamed field value).map fun name =>
      ⟨name, ((value.significant.map s.string?).filterMap id).filter (· != "")⟩

theorem enumReference_asks (field : String) (value : Tree) :
    Asks (s.enumReference field value) (s.enumNamed field value) (s.asked field value).toList := by
  unfold enumReference asked enumNamed
  split
  · exact (registerEnum_asks s _).map (.pure _)
  split
  · extract_lets values name listed
    split
    · exact .pure _
    · exact (Asks.note _).map (.pure _)
  · exact .pure _

theorem asked_name (field : String) (value : Tree) :
    (s.asked field value).map EnumType.name = s.enumNamed field value := by
  unfold asked
  split
  · rename_i hidentifier
    rw [enumNamed, if_pos hidentifier]
    rfl
  · rw [Option.map_map]
    exact Option.map_id'

def optionAsks (name : String) (o : Tree) : Option EnumType :=
  if o.memberKey s.unit.source = some "enum" then o.memberValue.bind (s.asked name) else none

def taken (name scalar : String) (options : List Tree) : ColumnState where
  field :=
    { name, role := .plain
      scalar := ((s.lastType options).map scalarOfColumn).getD scalar
      optional := s.isOn options "nullable"
      unique := s.isOn options "unique"
      isList := s.isOn options "array"
      mappedName := (s.lastOption options "name").bind s.string? }
  typed := (s.lastType options).isSome
  enum := s.enumGiven name options
  default := s.lastOption options "default"

def optionKeys : List String := ["type", "nullable", "unique", "array", "name", "default", "enum"]

variable {s} in
theorem taken_unread {name scalar : String} {options : List Tree} {o : Tree}
    (ho : ∀ key ∈ optionKeys, o.memberKey s.unit.source = some key → o.memberValue = none) :
    s.taken name scalar (options ++ [o]) = s.taken name scalar options := by
  have hlast : ∀ key ∈ optionKeys, s.lastOption (options ++ [o]) key = s.lastOption options key := by
    intro key hkey
    rw [lastOption_concat]
    split
    · rename_i hmember
      rw [ho key hkey hmember, Option.none_or]
    · rw [Option.none_or]
  have htype : s.lastType (options ++ [o]) = s.lastType options := by
    rw [lastType_concat]
    split
    · rename_i hmember
      rw [ho "type" (by decide) hmember, Option.bind_none, Option.none_or]
    · rw [Option.none_or]
  simp only [taken, enumGiven, isOn, htype, hlast "nullable" (by decide), hlast "unique" (by decide),
    hlast "array" (by decide), hlast "name" (by decide), hlast "default" (by decide),
    hlast "enum" (by decide)]

theorem columnOption_asks (name scalar : String) (options : List Tree) (o : Tree) :
    Asks (s.columnOption (s.taken name scalar options) o) (s.taken name scalar (options ++ [o]))
      (s.optionAsks name o).toList := by
  unfold columnOption
  split
  · rename_i key value hkey hvalue
    -- Only the key tells which entry changes, and only `enum` asks for an enumeration.
    split
    case h_1 =>
      split
      · rename_i type htype
        exact .pure_of_eq (by simp [taken, enumGiven, isOn, lastType_concat, lastOption_concat, hkey,
          hvalue, htype]) (by simp [optionAsks, hkey])
      · rename_i hnone
        exact .pure_of_eq (by simp [taken, enumGiven, isOn, lastType_concat, lastOption_concat, hkey,
          hvalue, hnone]) (by simp [optionAsks, hkey])
    case h_7 =>
      have hasks : s.optionAsks name o = s.asked name value := by
        simp [optionAsks, hkey, hvalue]
      have htaken : s.taken name scalar (options ++ [o]) =
          { s.taken name scalar options with enum := s.enumNamed name value } := by
        simp [taken, enumGiven, isOn, lastType_concat, lastOption_concat, hkey, hvalue]
      rw [hasks, htaken]
      exact (enumReference_asks s name value).map (.pure _)
    case h_8 =>
      have hother : key ∉ optionKeys := by simp_all [optionKeys]
      have hne : key ≠ "enum" := fun h => hother (by simp [h, optionKeys])
      refine .pure_of_eq (taken_unread fun k hk hmember => ?_) (by simp [optionAsks, hkey, hne])
      rw [hkey] at hmember
      cases hmember
      exact absurd hk hother
    all_goals
      exact .pure_of_eq (by simp [taken, enumGiven, isOn, lastType_concat, lastOption_concat, hkey,
        hvalue]) (by simp [optionAsks, hkey])
  · rename_i hno
    have hnone : ∀ key, o.memberKey s.unit.source = some key → o.memberValue = none := by
      intro key hkey
      cases hvalue : o.memberValue with
      | none => rfl
      | some value => exact (hno key value hkey hvalue).elim
    refine .pure_of_eq (taken_unread fun key _ => hnone key) ?_
    unfold optionAsks
    split
    · rename_i hkey
      rw [hnone "enum" hkey]
      rfl
    · rfl

/-- The field that options leave of a column, with the type it has without them. -/
def columnOf (name scalar : String) (options : List Tree) : Field :=
  { name, role := .plain
    scalar := (s.enumGiven name options).getD (((s.lastType options).map scalarOfColumn).getD scalar)
    optional := s.isOn options "nullable"
    unique := s.isOn options "unique"
    isList := s.isOn options "array"
    default := (s.lastOption options "default").bind fun value =>
      s.defaultOf value (s.enumGiven name options)
    mappedName := (s.lastOption options "name").bind s.string? }

def namesType (name : String) (options : List Tree) : Bool :=
  (s.lastType options).isSome || (s.enumGiven name options).isSome

theorem columnOptions_asks (name scalar : String) (options : Tree) :
    Asks (s.columnOptions { name, scalar, role := .plain } options)
      (s.columnOf name scalar options.significant, s.namesType name options.significant)
      (options.significant.filterMap (s.optionAsks name)) := by
  have hfold : Asks
      (options.significant.foldlM (s.columnOption ·) { field := { name, scalar, role := .plain } })
      (s.taken name scalar options.significant)
      (options.significant.flatMap fun o => (s.optionAsks name o).toList) :=
    Asks.foldlM (g := s.taken name scalar) (fun l o => columnOption_asks s name scalar l o) _
  rw [← List.filterMap_eq_flatMap_toList] at hfold
  unfold columnOptions
  refine hfold.map (.pure_of_eq ?_ rfl)
  cases henum : s.enumGiven name options.significant <;>
    cases hdefault : s.lastOption options.significant "default" <;>
      simp [taken, columnOf, namesType, henum, hdefault]

/-- Nothing but its annotation tells the type of a column: no argument is there, or only options, and
none of them names one. -/
def untyped (name : String) (args : List Tree) : Bool :=
  match args with
  | [] => true
  | first :: _ =>
    (s.string? first).isNone && first.is .object && !s.namesType name (s.optionsOf args)

def columnField (name : String) (args : List Tree) (member : Tree) : Field :=
  s.columnOf name
    (if s.untyped name args then (s.annotationOf member).1
      else ((args.head?.bind s.string?).map scalarOfColumn).getD defaultScalar)
    (s.optionsOf args)

def columnAsks (name : String) (args : List Tree) (member : Tree) : List EnumType :=
  (s.optionsOf args).filterMap (s.optionAsks name) ++
    if s.untyped name args then (s.annotationOf member).2 else []

/-- Without options a column is the name with its type. -/
theorem columnOf_nil (name scalar : String) :
    s.columnOf name scalar [] = { name, scalar, role := .plain } := rfl

/-- Options that name no type leave the one that the column has without them. -/
theorem columnOf_retype {s : Scope} {name scalar type : String} {options : List Tree}
    (h : s.namesType name options = false) :
    { s.columnOf name type options with scalar } = s.columnOf name scalar options := by
  simp only [namesType, Bool.or_eq_false_iff, Option.isSome_eq_false_iff,
    Option.isNone_iff_eq_none] at h
  simp only [columnOf, h.1, h.2, Option.map_none, Option.getD_none]

theorem column_asks (name : String) (args : List Tree) (member : Tree) :
    Asks (s.column name args member) (s.columnField name args member)
      (s.columnAsks name args member) := by
  unfold column
  split
  · rw [columnField, columnAsks]
    exact (annotated_asks s member).map (.pure _)
  rename_i first rest
  split
  · rename_i type htype
    have hfield : s.columnField name (first :: rest) member =
        s.columnOf name (scalarOfColumn type) (s.optionsOf (first :: rest)) := by
      simp [columnField, untyped, htype]
    have hasks : s.columnAsks name (first :: rest) member =
        (s.optionsOf (first :: rest)).filterMap (s.optionAsks name) := by
      simp [columnAsks, untyped, htype]
    rw [hfield, hasks]
    cases rest with
    | nil =>
      have hoptions : s.optionsOf [first] = [] := by simp [optionsOf, htype]
      exact .pure_of_eq (by rw [hoptions, columnOf_nil]) (by rw [hoptions, List.filterMap_nil])
    | cons second rest =>
      dsimp only
      split
      · rename_i hobject
        have hoptions : s.optionsOf (first :: second :: rest) = second.significant := by
          simp [optionsOf, htype, hobject]
        rw [hoptions]
        exact (columnOptions_asks s _ _ _).map (.pure _)
      · rename_i hobject
        have hoptions : s.optionsOf (first :: second :: rest) = [] := by
          simp [optionsOf, htype, hobject]
        exact .pure_of_eq (by rw [hoptions, columnOf_nil]) (by rw [hoptions, List.filterMap_nil])
  · rename_i hstring
    split
    · rename_i hobject
      have hoptions : s.optionsOf (first :: rest) = first.significant := by
        simp [optionsOf, hstring, hobject]
      have huntyped : s.untyped name (first :: rest) = !s.namesType name first.significant := by
        simp [untyped, hstring, hobject, hoptions]
      rw [columnField, columnAsks, huntyped, hoptions]
      cases htyped : s.namesType name first.significant with
      | true =>
        have h := columnOptions_asks s name defaultScalar first
        rw [htyped] at h
        simp only [Bool.not_true, Bool.false_eq_true, if_false, hstring, List.head?_cons,
          Option.bind_some, Option.map_none, Option.getD_none, List.append_nil]
        refine h.map ?_
        dsimp only
        rw [if_pos rfl]
        exact .pure _
      | false =>
        have h := columnOptions_asks s name defaultScalar first
        rw [htyped] at h
        simp only [Bool.not_false, if_true]
        refine h.bind ?_
        dsimp only
        rw [if_neg (by simp)]
        exact (annotated_asks s member).map (.pure_of_eq (columnOf_retype htyped).symm rfl)
    · rename_i hobject
      have hoptions : s.optionsOf (first :: rest) = [] := by simp [optionsOf, hstring, hobject]
      exact .pure_of_eq (by simp [columnField, untyped, hstring, hobject, hoptions, columnOf_nil])
        (by simp [columnAsks, untyped, hobject, hoptions])

end Scope

end Entities

end OrmCodemod
