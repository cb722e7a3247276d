import OrmCodemod.Pass.Calls
import OrmCodemod.Pass.Entities
import OrmCodemod.Proofs.Steps

/-! Steps that find something out. Reading the fields of an entity class and telling the model of a
call never fail and leave the edits, the flags and the models alone; they may say something and note
enumerations. -/

namespace OrmCodemod

open Syntax Text

namespace Pass

variable {α β : Type}

/-- The step ends well and leaves alone what a pass gives, enumerations apart. -/
def Quiet (x : Pass α) : Prop :=
  ∀ s, ∃ a s', x.result s = (.ok a, s') ∧ s'.editor = s.editor ∧ s'.flags = s.flags ∧
    s'.models = s.models ∧ s'.advisories = s.advisories

theorem Quiet.pure (a : α) : Quiet (pure a : Pass α) :=
  fun s => ⟨a, s, rfl, rfl, rfl, rfl, rfl⟩

theorem Quiet.bind {x : Pass α} {f : α → Pass β} (hx : Quiet x) (hf : ∀ a, Quiet (f a)) :
    Quiet (x >>= f) := by
  intro s
  obtain ⟨a, s1, h1, h2, h3, h4, h5⟩ := hx s
  obtain ⟨b, s2, h6, h7, h8, h9, h10⟩ := hf a s1
  refine ⟨b, s2, ?_, h7.trans h2, h8.trans h3, h9.trans h4, h10.trans h5⟩
  rw [result_bind_ok h1, h6]

theorem Quiet.say (level : Level) (message : String) : Quiet (Pass.say level message) :=
  fun _ => ⟨_, _, rfl, rfl, rfl, rfl, rfl⟩

theorem Quiet.noteEnums (f : List Schema.EnumType → List Schema.EnumType) :
    Quiet (modify fun s : Session => { s with enums := f s.enums }) :=
  fun _ => ⟨_, _, rfl, rfl, rfl, rfl, rfl⟩

theorem Quiet.ite {c : Prop} [Decidable c] {x y : Pass α} (hx : Quiet x) (hy : Quiet y) :
    Quiet (if c then x else y) := by
  split
  · exact hx
  · exact hy

theorem Quiet.foldlM {f : β → α → Pass β} (h : ∀ b x, Quiet (f b x)) (xs : List α) :
    ∀ b, Quiet (xs.foldlM f b) := by
  induction xs with
  | nil => exact fun b => Quiet.pure b
  | cons x xs ih =>
    intro b
    rw [List.foldlM_cons]
    exact (h b x).bind ih

theorem Quiet.forM {f : α → Pass PUnit} (h : ∀ x, Quiet (f x)) (xs : List α) :
    Quiet (xs.forM f) := by
  induction xs with
  | nil => exact Quiet.pure _
  | cons x xs ih => exact (h x).bind fun _ => ih

theorem Quiet.keeps_told {P : Session → Prop} {E : Fault → Session → Prop} {x : Pass α} (h : Quiet x)
    (hP : ∀ s s' : Session, s'.editor = s.editor → s'.flags = s.flags → s'.advisories = s.advisories →
      P s → P s') :
    Holds P x (fun _ => P) E := by
  intro s hs
  obtain ⟨a, s', h1, h2, h3, -, h4⟩ := h s
  rw [h1]
  exact hP s s' h2 h3 h4 hs

theorem Quiet.holds {P : Editor → Prop} {E : Fault → Session → Prop} {x : Pass α} (h : Quiet x) :
    Holds (fun s => P s.editor) x (fun _ s => P s.editor) E :=
  h.keeps_told fun _ _ he _ _ hs => (congrArg P he).mpr hs

end Pass

namespace Entities.Scope

open Pass

theorem registerEnum_quiet (s : Scope) (name : String) : Quiet (s.registerEnum name) := by
  dsimp only [registerEnum]
  exact Quiet.ite ((Quiet.say _ _).bind fun _ => Quiet.noteEnums _) (Quiet.noteEnums _)

theorem scalarOfType_quiet (s : Scope) : ∀ n t, Quiet (s.scalarOfType n t)
  | 0, _ => Quiet.pure _
  | _ + 1, none => Quiet.pure _
  | n + 1, some type => by
    dsimp only [scalarOfType]
    split
    · split
      · exact Quiet.pure _
      · exact Quiet.ite ((registerEnum_quiet s _).bind fun _ => Quiet.pure _) (Quiet.pure _)
    · split
      · split
        · exact scalarOfType_quiet s n _
        · exact Quiet.pure _
      · exact Quiet.pure _

theorem annotated_quiet (s : Scope) (field : Tree) : Quiet (s.annotated field) :=
  scalarOfType_quiet s _ _

theorem identity_quiet (s : Scope) (name decorator : String) (args : List Tree) (field : Tree) :
    Quiet (s.identity name decorator args field) := by
  unfold identity
  refine Quiet.ite ((annotated_quiet s field).bind fun _ => Quiet.pure _) ?_
  exact Quiet.ite (Quiet.pure _) (Quiet.pure _)

theorem enumReference_quiet (s : Scope) (field : String) (value : Tree) :
    Quiet (s.enumReference field value) := by
  unfold enumReference
  refine Quiet.ite ((registerEnum_quiet s _).bind fun _ => Quiet.pure _) ?_
  refine Quiet.ite ?_ (Quiet.pure _)
  exact Quiet.ite (Quiet.pure _) ((Quiet.noteEnums _).bind fun _ => Quiet.pure _)

theorem columnOption_quiet (s : Scope) (st : ColumnState) (member : Tree) :
    Quiet (s.columnOption st member) := by
  unfold columnOption
  split
  · split
    · split <;> exact Quiet.pure _
    · exact Quiet.pure _
    · exact Quiet.pure _
    · exact Quiet.pure _
    · exact Quiet.pure _
    · exact Quiet.pure _
    · exact (enumReference_quiet s _ _).bind fun _ => Quiet.pure _
    · exact Quiet.pure _
  · exact Quiet.pure _

theorem columnOptions_quiet (s : Scope) (field : Schema.Field) (options : Tree) :
    Quiet (s.columnOptions field options) :=
  (Quiet.foldlM (fun b x => columnOption_quiet s b x) _ _).bind fun _ => Quiet.pure _

theorem column_quiet (s : Scope) (name : String) (args : List Tree) (member : Tree) :
    Quiet (s.column name args member) := by
  unfold column
  split
  · exact (annotated_quiet s _).bind fun _ => Quiet.pure _
  · split
    · split
      · exact Quiet.ite ((columnOptions_quiet s _ _).bind fun _ => Quiet.pure _) (Quiet.pure _)
      · exact Quiet.pure _
    · refine Quiet.ite ((columnOptions_quiet s _ _).bind fun _ => ?_) (Quiet.pure _)
      exact Quiet.ite (Quiet.pure _) ((annotated_quiet s _).bind fun _ => Quiet.pure _)

theorem relation_quiet (s : Scope) (name : String) (kind : Schema.RelationKind) (args : List Tree)
    (member : Tree) : Quiet (s.relation name kind args member) := by
  dsimp only [relation]
  exact Quiet.ite ((Quiet.say _ _).bind fun _ => Quiet.pure _) (Quiet.pure _)

theorem describe_quiet (s : Scope) (name : String) (member : Tree) :
    ∀ decorators, Quiet (s.describe name member decorators)
  | [] => Quiet.pure _
  | decorator :: rest => by
    have ih := describe_quiet s name member rest
    unfold describe
    split
    · exact ih
    · split
      · exact ih
      · exact ih
      · exact (identity_quiet s _ _ _ _).bind fun _ => Quiet.pure _
      · exact (column_quiet s _ _ _).bind fun _ => Quiet.pure _
      · split
        · exact relation_quiet s _ _ _ _
        · exact Quiet.pure _
      · exact Quiet.pure _

end Entities.Scope

open Pass in
theorem Entities.classFields_quiet (s : Scope) (class_ : Place) : Quiet (classFields s class_) := by
  unfold classFields
  refine Quiet.foldlM (fun acc x => ?_) _ _
  split
  split
  · exact Quiet.pure _
  · exact (Scope.describe_quiet s _ _ _).bind fun _ => Quiet.pure _

open Pass in
theorem Calls.modelOf_quiet (u : SourceUnit) (call : Place) : Quiet (modelOf u call) := by
  unfold modelOf
  refine (Quiet.forM (fun _ => Quiet.say _ _) _).bind fun _ => ?_
  split
  · exact Quiet.pure _
  · exact (Quiet.say _ _).bind fun _ => Quiet.pure _

end OrmCodemod
