import OrmCodemod.Proofs.Quiet

/-! Steps that hang on nothing. What the description of a field gives is told by its source alone: a
step may say something and note an enumeration, but gives the same in every session. `Gives` names what
it gives, and `Settles` what holds of that, for each of the steps that describe a field. -/

namespace OrmCodemod

open Syntax Text Schema Pass

namespace Pass

variable {α β : Type} {a b : α} {x : Pass α} {P : α → Prop} {R : β → Prop}

/-- The step ends well and gives this, whatever session it starts in. -/
def Gives (x : Pass α) (a : α) : Prop := ∀ s, ∃ s', x.result s = (.ok a, s')

theorem Gives.pure (a : α) : Gives (pure a) a := fun s => ⟨s, rfl⟩

theorem Gives.bind {f : α → Pass β} {b : β} (hx : Gives x a) (hf : Gives (f a) b) :
    Gives (x >>= f) b := by
  intro s
  obtain ⟨s1, h1⟩ := hx s
  obtain ⟨s2, h2⟩ := hf s1
  exact ⟨s2, by rw [result_bind_ok h1, h2]⟩

theorem Gives.eq_of_result (h : Gives x a) {s s' : Session} (hrun : x.result s = (.ok b, s')) :
    a = b := by
  obtain ⟨s1, h1⟩ := h s
  rw [h1] at hrun
  cases hrun
  rfl

theorem Gives.unique (h : Gives x a) (h' : Gives x b) : a = b := by
  obtain ⟨s', hrun⟩ := h' { editor := { source := [] } }
  exact h.eq_of_result hrun

/-- The step gives the same in every session, and `P` holds of it. -/
def Settles (x : Pass α) (P : α → Prop) : Prop := ∃ a, Gives x a ∧ P a

theorem Settles.pure (h : P a) : Settles (pure a) P := ⟨a, .pure a, h⟩

theorem Settles.bind {f : α → Pass β} (hx : Settles x P) (hf : ∀ a, P a → Settles (f a) R) :
    Settles (x >>= f) R := by
  obtain ⟨a, ha, hP⟩ := hx
  obtain ⟨b, hb, hR⟩ := hf a hP
  exact ⟨b, ha.bind hb, hR⟩

theorem Settles.of_gives (h : Settles x P) (ha : Gives x a) : P a := by
  obtain ⟨b, hb, hP⟩ := h
  exact hb.unique ha ▸ hP

theorem Settles.say (level : Level) (message : String) :
    Settles (Pass.say level message) fun _ => True :=
  ⟨(), fun _ => ⟨_, rfl⟩, trivial⟩

theorem Settles.modify (f : Session → Session) :
    Settles (modify f : Pass PUnit) fun _ => True :=
  ⟨⟨⟩, fun _ => ⟨_, rfl⟩, trivial⟩

theorem Settles.foldlM {f : β → α → Pass β} {I : List α → β → Prop}
    (h : ∀ l b x, I l b → Settles (f b x) (I (l ++ [x]))) {b : β} (hb : I [] b) (xs : List α) :
    Settles (xs.foldlM f b) (I xs) := by
  suffices ∀ r l b, I l b → Settles (r.foldlM f b) (I (l ++ r)) from this xs [] b hb
  intro r
  induction r with
  | nil =>
    intro l b hl
    rw [List.append_nil]
    exact .pure hl
  | cons x r ih =>
    intro l b hl
    rw [List.foldlM_cons, ← List.singleton_append, ← List.append_assoc]
    exact (h l b x hl).bind fun b' hb' => ih (l ++ [x]) b' hb'

end Pass

namespace Entities

namespace Scope

variable (s : Scope)

theorem registerEnum_settles (name : String) : Settles (s.registerEnum name) fun _ => True := by
  dsimp only [registerEnum]
  split
  · exact (Settles.say _ _).bind fun _ _ => .modify _
  · exact .modify _

theorem scalarOfType_settles : ∀ n type, Settles (s.scalarOfType n type) fun _ => True
  | 0, _ => .pure trivial
  | _ + 1, none => .pure trivial
  | n + 1, some type => by
    dsimp only [scalarOfType]
    split
    · split
      · exact .pure trivial
      · split
        · exact (registerEnum_settles s _).bind fun _ _ => .pure trivial
        · exact .pure trivial
    · split
      · split
        · exact scalarOfType_settles n _
        · exact .pure trivial
      · exact .pure trivial

theorem annotated_settles (field : Tree) : Settles (s.annotated field) fun _ => True :=
  scalarOfType_settles s _ _

theorem identity_settles (name decorator : String) (args : List Tree) (field : Tree) :
    Settles (s.identity name decorator args field) fun f =>
      f.name = name ∧ f.role = .identity ∧ f.relation = none := by
  unfold identity
  split
  · exact (annotated_settles s field).bind fun _ _ => .pure ⟨rfl, rfl, rfl⟩
  · split
    · exact .pure ⟨rfl, rfl, rfl⟩
    · exact .pure ⟨rfl, rfl, rfl⟩

def enumNamed (field : String) (value : Tree) : Option String :=
  if value.is .identifier then some (s.text value)
  else if value.is .array then
    let values := value.significant.map s.string?
    if values.isEmpty || values.any (·.isNone) then none else some (s.model ++ upperFirst field)
  else none

theorem enumReference_settles (field : String) (value : Tree) :
    Settles (s.enumReference field value) fun e => e = s.enumNamed field value := by
  unfold enumReference enumNamed
  split
  · exact (registerEnum_settles s _).bind fun _ _ => .pure rfl
  split
  · extract_lets values name listed
    split
    · exact .pure rfl
    · exact (Settles.modify _).bind fun _ _ => .pure rfl
  · exact .pure rfl

/-- The value of the last option with a key, among those that have a value. -/
def lastOption (options : List Tree) (key : String) : Option Tree :=
  options.reverse.findSome? fun o =>
    if o.memberKey s.unit.source = some key then o.memberValue else none

theorem lastOption_concat (options : List Tree) (o : Tree) (key : String) :
    s.lastOption (options ++ [o]) key =
      (if o.memberKey s.unit.source = some key then o.memberValue else none).or
        (s.lastOption options key) := by
  unfold lastOption
  rw [List.reverse_append, List.reverse_singleton, List.singleton_append, List.findSome?_cons]
  split
  · rename_i value hvalue
    rw [hvalue, Option.some_or]
  · rename_i hnone
    rw [hnone, Option.none_or]

/-- What a column has taken from its options, of those that are read one by one. -/
structure ColumnState.Read (name : String) (options : List Tree) (st : ColumnState) : Prop where
  named : st.field.name = name
  role : st.field.role = .plain
  relation : st.field.relation = none
  mappedName : st.field.mappedName = (s.lastOption options "name").bind s.string?
  unset : st.field.default = none
  default : st.default = s.lastOption options "default"
  enum : st.enum = (s.lastOption options "enum").bind (s.enumNamed name)

theorem ColumnState.Read.skip {name : String} {options : List Tree} {st st' : ColumnState}
    (h : ColumnState.Read s name options st) {o : Tree}
    (ho : ∀ key ∈ ["name", "default", "enum"],
      o.memberKey s.unit.source = some key → o.memberValue = none)
    (hname : st'.field.name = st.field.name) (hrole : st'.field.role = st.field.role)
    (hrelation : st'.field.relation = st.field.relation)
    (hmapped : st'.field.mappedName = st.field.mappedName)
    (hunset : st'.field.default = st.field.default) (hdefault : st'.default = st.default)
    (henum : st'.enum = st.enum) : ColumnState.Read s name (options ++ [o]) st' := by
  have hsame : ∀ key ∈ ["name", "default", "enum"],
      s.lastOption (options ++ [o]) key = s.lastOption options key := by
    intro key hkey
    rw [lastOption_concat]
    split
    · rename_i hmember
      rw [ho key hkey hmember, Option.none_or]
    · rw [Option.none_or]
  refine ⟨hname.trans h.named, hrole.trans h.role, hrelation.trans h.relation, ?_,
    hunset.trans h.unset, ?_, ?_⟩
  · rw [hsame "name" (by simp), hmapped, h.mappedName]
  · rw [hsame "default" (by simp), hdefault, h.default]
  · rw [hsame "enum" (by simp), henum, h.enum]

/-- One more option changes what is read of its own key only. -/
theorem columnOption_settles {name : String} {options : List Tree} {st : ColumnState}
    (h : ColumnState.Read s name options st) (o : Tree) :
    Settles (s.columnOption st o) (ColumnState.Read s name (options ++ [o])) := by
  unfold columnOption
  split
  · rename_i key value hkey hvalue
    have hother : key ∉ ["name", "default", "enum"] → ∀ k ∈ ["name", "default", "enum"],
        o.memberKey s.unit.source = some k → o.memberValue = none := by
      intro hne k hk hmember
      rw [hkey] at hmember
      cases hmember
      exact absurd hk hne
    split
    · have ho := hother (by simp)
      split
      · exact .pure (h.skip s ho rfl rfl rfl rfl rfl rfl rfl)
      · exact .pure (h.skip s ho rfl rfl rfl rfl rfl rfl rfl)
    · exact .pure (h.skip s (hother (by simp)) rfl rfl rfl rfl rfl rfl rfl)
    · exact .pure (h.skip s (hother (by simp)) rfl rfl rfl rfl rfl rfl rfl)
    · exact .pure (h.skip s (hother (by simp)) rfl rfl rfl rfl rfl rfl rfl)
    · exact .pure ⟨h.named, h.role, h.relation, by simp [lastOption_concat, hkey, hvalue], h.unset,
        by simp [lastOption_concat, hkey, h.default], by simp [lastOption_concat, hkey, h.enum]⟩
    · exact .pure ⟨h.named, h.role, h.relation, by simp [lastOption_concat, hkey, h.mappedName],
        h.unset, by simp [lastOption_concat, hkey, hvalue],
        by simp [lastOption_concat, hkey, h.enum]⟩
    · refine (enumReference_settles s _ value).bind fun e he => .pure ?_
      exact ⟨h.named, h.role, h.relation, by simp [lastOption_concat, hkey, h.mappedName], h.unset,
        by simp [lastOption_concat, hkey, h.default],
        by simp [lastOption_concat, hkey, hvalue, he, h.named]⟩
    · have ho := hother (by simp_all)
      exact .pure (h.skip s ho rfl rfl rfl rfl rfl rfl rfl)
  · rename_i hno
    refine .pure (h.skip s (fun key _ hmember => ?_) rfl rfl rfl rfl rfl rfl rfl)
    cases hvalue : o.memberValue with
    | none => rfl
    | some value => exact (hno key value hmember hvalue).elim

/-- The field of a column, as far as its options are read one by one. -/
structure IsColumn (name : String) (options : List Tree) (f : Field) : Prop where
  named : f.name = name
  role : f.role = .plain
  relation : f.relation = none
  mappedName : f.mappedName = (s.lastOption options "name").bind s.string?
  default : f.default = (s.lastOption options "default").bind fun value =>
    s.defaultOf value ((s.lastOption options "enum").bind (s.enumNamed name))

theorem IsColumn.plain (name scalar : String) :
    s.IsColumn name [] { name, scalar, role := .plain } :=
  ⟨rfl, rfl, rfl, rfl, rfl⟩

theorem IsColumn.retype {name : String} {options : List Tree} {f : Field}
    (h : s.IsColumn name options f) (scalar : String) :
    s.IsColumn name options { f with scalar } :=
  ⟨h.named, h.role, h.relation, h.mappedName, h.default⟩

theorem columnOptions_settles (name scalar : String) (options : Tree) :
    Settles (s.columnOptions { name, scalar, role := .plain } options) fun p =>
      s.IsColumn name options.significant p.1 := by
  have hfold : Settles
      (options.significant.foldlM (s.columnOption ·) { field := { name, scalar, role := .plain } })
      (ColumnState.Read s name options.significant) :=
    Settles.foldlM (I := ColumnState.Read s name) (fun _ _ o h => columnOption_settles s h o)
      ⟨rfl, rfl, rfl, rfl, rfl, rfl, rfl⟩ _
  unfold columnOptions
  refine hfold.bind fun st h => .pure ?_
  have hgiven := h.default
  cases hst : st.default with
  | none =>
    rw [hst] at hgiven
    cases st.enum <;>
      exact ⟨h.named, h.role, h.relation, h.mappedName, by rw [← hgiven]; exact h.unset⟩
  | some value =>
    rw [hst] at hgiven
    cases henum : st.enum <;>
      exact ⟨h.named, h.role, h.relation, h.mappedName, by rw [← hgiven, ← h.enum, henum]; rfl⟩

/-- The members of the object that a column reads as its options: its first argument, or the one after
a type. -/
def optionsOf (args : List Tree) : List Tree :=
  match args with
  | [] => []
  | first :: rest =>
    if (s.string? first).isSome then
      match rest with
      | second :: _ => if second.is .object then second.significant else []
      | [] => []
    else if first.is .object then first.significant else []

theorem column_settles (name : String) (args : List Tree) (member : Tree) :
    Settles (s.column name args member) (s.IsColumn name (s.optionsOf args)) := by
  unfold column optionsOf
  split
  · exact (annotated_settles s member).bind fun _ _ => .pure (.plain s _ _)
  · rename_i first rest
    split
    · rename_i type htype
      simp only [htype, Option.isSome_some, if_true]
      cases rest with
      | nil => exact .pure (.plain s _ _)
      | cons second _ =>
        dsimp only
        split
        · exact (columnOptions_settles s _ _ _).bind fun p h => .pure h
        · exact .pure (.plain s _ _)
    · rename_i hnone
      simp only [hnone, Option.isSome_none, Bool.false_eq_true, if_false]
      split
      · refine (columnOptions_settles s _ _ _).bind fun p h => ?_
        split
        · exact .pure h
        · exact (annotated_settles s member).bind fun scalar _ => .pure (h.retype s scalar)
      · exact .pure (.plain s _ _)

def keyField (name : String) : Field := { name := name ++ "Id", scalar := "Int", role := .plain }

/-- A relation field points to what it says. -/
structure IsRelation (name : String) (kind : RelationKind) (f : Field) : Prop where
  named : f.name = name
  role : f.role = .relation
  kind : ∃ r, f.relation = some r ∧ r.kind = kind

theorem relation_settles (name : String) (kind : RelationKind) (args : List Tree)
    (member : Tree) :
    Settles (s.relation name kind args member) fun fs =>
      ∃ f, IsRelation name kind f ∧
        fs = f :: (if kind = .manyToOne then [keyField name] else []) := by
  have hkey : ∀ target relationName, (if Relation.ownsKey ⟨kind, target, relationName⟩ then
      [keyField name] else []) = if kind = .manyToOne then [keyField name] else [] := by
    intro target relationName
    cases kind <;> rfl
  dsimp only [relation]
  split
  · refine (Settles.say _ _).bind fun _ _ => .pure ?_
    exact ⟨_, ⟨rfl, rfl, _, rfl, rfl⟩, congrArg _ (hkey _ _)⟩
  · exact .pure ⟨_, ⟨rfl, rfl, _, rfl, rfl⟩, congrArg _ (hkey _ _)⟩

end Scope

end Entities

end OrmCodemod
