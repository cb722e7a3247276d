import OrmCodemod.Proofs.Along
import OrmCodemod.Proofs.Rest

/-! What the schema of a source depends on. Describing the entity classes asks for nothing in the
settings, and the stages after it leave the models and the enumerations alone. So the schema that a
pass gives is the one its first stage has read off the source. -/

namespace OrmCodemod

open Syntax Text Schema Pass

namespace Entities

namespace Scope

def under (t : Settings) (s : Scope) : Scope := { s with unit := { s.unit with settings := t } }

variable (s : Scope) (t : Settings)

theorem scalarOfType_under :
    ∀ n type, (s.under t).scalarOfType n type = s.scalarOfType n type
  | 0, _ => rfl
  | _ + 1, none => rfl
  | n + 1, some type => by
    have ih := scalarOfType_under n
    unfold scalarOfType
    simp only [ih]
    rfl

theorem annotated_under (field : Tree) : (s.under t).annotated field = s.annotated field :=
  scalarOfType_under s t _ _

theorem identity_under (name decorator : String) (args : List Tree) (field : Tree) :
    (s.under t).identity name decorator args field = s.identity name decorator args field := by
  unfold identity
  rw [annotated_under]
  rfl

theorem column_under (name : String) (args : List Tree) (member : Tree) :
    (s.under t).column name args member = s.column name args member := by
  unfold column
  simp only [annotated_under]
  rfl

theorem describe_under (name : String) (member : Tree) :
    ∀ decorators, (s.under t).describe name member decorators = s.describe name member decorators
  | [] => rfl
  | decorator :: rest => by
    have ih := describe_under name member rest
    unfold describe
    simp only [ih, identity_under, column_under]
    rfl

end Scope

theorem classFields_under (s : Scope) (t : Settings) (class_ : Place) :
    classFields (s.under t) class_ = classFields s class_ := by
  unfold classFields
  simp only [Scope.describe_under]
  rfl

variable (source : Bytes) (root : Tree) (t t' : Settings)

theorem extractClass_under (enums : DeclaredEnums) (class_ : Place) :
    extractClass ⟨source, root, t⟩ enums class_ = extractClass ⟨source, root, t'⟩ enums class_ := by
  have h : ∀ name, classFields ⟨⟨source, root, t⟩, name, enums⟩ class_ =
      classFields ⟨⟨source, root, t'⟩, name, enums⟩ class_ :=
    fun name => classFields_under ⟨⟨source, root, t'⟩, name, enums⟩ t class_
  unfold extractClass
  simp only [h]

theorem extract_under : extract ⟨source, root, t⟩ = extract ⟨source, root, t'⟩ := by
  have h : extractClass ⟨source, root, t⟩ = extractClass ⟨source, root, t'⟩ := by
    funext enums class_
    exact extractClass_under source root t t' enums class_
  unfold extract
  rw [h]
  rfl

end Entities

namespace Pass

/-- Two sessions tell the same schema. -/
structure SameSchema (s s' : Session) : Prop where
  models : s'.models = s.models
  enums : s'.enums = s.enums

theorem sameSchema_permits : Permits SameSchema :=
  .of_records (fun _ => ⟨rfl, rfl⟩)
    (fun h h' => ⟨h'.models.trans h.models, h'.enums.trans h.enums⟩) (fun _ _ => ⟨rfl, rfl⟩)
    (fun _ _ => ⟨rfl, rfl⟩) (fun _ _ _ _ => ⟨rfl, rfl⟩) fun _ _ _ => ⟨rfl, rfl⟩

theorem callStage_sameSchema {u : SourceUnit} {members : Pattern.Regex}
    (hm : Pattern.parse u.settings.memberPattern = .ok members) : Along SameSchema (Calls.convert u) :=
  Calls.convert_along sameSchema_permits (fun _ => ⟨rfl, rfl⟩) hm

end Pass

namespace Outcome

variable {u : SourceUnit} {s s' : Session}

theorem stages_sameSchema (h : (stages u).result s = (.ok (), s')) :
    ∃ s1, (Entities.extract u).result s = (.ok (), s1) ∧ SameSchema s1 s' := by
  obtain ⟨members, hm⟩ := pattern_of_stages h
  obtain ⟨_, s1, h1, h⟩ := result_bind_eq_ok h
  obtain ⟨_, s2, h2, h3⟩ := result_bind_eq_ok h
  have hcalls := (callStage_sameSchema hm).after sameSchema_permits s1
  have himports := (Imports.convert_along sameSchema_permits u).after sameSchema_permits s2
  rw [h2] at hcalls
  rw [h3] at himports
  exact ⟨s1, h1, sameSchema_permits.trans hcalls himports⟩

/-- Where the pattern can be read, nothing but an overlap makes the stages fail. -/
theorem stages_fault {members : Pattern.Regex}
    (hm : Pattern.parse u.settings.memberPattern = .ok members) :
    Holds (fun _ => True) (stages u) (fun _ _ => True) fun e _ => ∃ o, e = .overlap o := by
  have hextract : Holds (fun _ => True) (Entities.extract u) (fun _ _ => True)
      fun e _ => ∃ o, e = .overlap o :=
    Entities.extract_holds (P := fun _ => True) fun _ _ =>
      Holds.advise (fun _ _ _ _ _ _ => trivial) fun _ o _ _ => ⟨o, rfl⟩
  have hlater : ∀ {x : Pass Unit}, Along SameSchema x →
      Holds (fun _ => True) x (fun _ _ => True) fun e _ => ∃ o, e = .overlap o := by
    intro x hx s _
    exact (hx s).mono (fun _ h => h) (fun _ _ _ => trivial) (fun _ _ h => h.1) s
      (sameSchema_permits.refl s)
  exact hextract.bind fun _ => (hlater (callStage_sameSchema hm)).bind fun _ =>
    hlater (Imports.convert_along sameSchema_permits u)

/-- A session gives its schema, unless its text cannot be decoded. -/
theorem ofSession_cases (settings : Settings) (source : String) (s : Session) :
    (∃ e, ofSession settings source s = .error (.undecodable e)) ∨
      ∃ o, ofSession settings source s = .ok o ∧ o.models = s.models ∧ o.enums = s.enums := by
  unfold ofSession
  cases s.flags.any with
  | false => exact .inr ⟨_, rfl, rfl, rfl⟩
  | true =>
    cases s.editor.print with
    | error e => exact .inl ⟨e, rfl⟩
    | ok output => exact .inr ⟨_, rfl, rfl, rfl⟩

variable {parsed : Parsed} {settings : Settings} {source : String} {path : Option String}

theorem ofParsed_schema {o : Outcome} (h : (ofParsed parsed settings source path).1 = .ok o) :
    ∃ s, (Entities.extract ⟨encode source, parsed.root, settings⟩).result
        (start (encode source) parsed path) = (.ok (), s) ∧
      o.models = s.models ∧ o.enums = s.enums := by
  rw [ofParsed_eq] at h
  split at h
  · cases h
  · rename_i s' hrun
    obtain ⟨s1, hextract, hsame⟩ := stages_sameSchema hrun
    rcases ofSession_cases settings source s' with ⟨e, he⟩ | ⟨o', ho', hmodels, henums⟩
    · rw [he] at h
      cases h
    rw [ho'] at h
    cases h
    exact ⟨s1, hextract, hmodels.trans hsame.models, henums.trans hsame.enums⟩

/-- A pass gives an outcome only where the pattern of the settings can be read. -/
theorem ofParsed_pattern {o : Outcome} (h : (ofParsed parsed settings source path).1 = .ok o) :
    ∃ members, Pattern.parse settings.memberPattern = .ok members := by
  rw [ofParsed_eq] at h
  split at h
  · cases h
  · rename_i hrun
    exact pattern_of_stages (u := ⟨_, _, settings⟩) hrun

/-- Where it can, a pass fails with an overlap or with a text that cannot be decoded. -/
theorem ofParsed_fault {members : Pattern.Regex} {fault : Fault}
    (hm : Pattern.parse settings.memberPattern = .ok members)
    (h : (ofParsed parsed settings source path).1 = .error fault) :
    (∃ o, fault = .overlap o) ∨ ∃ e, fault = .undecodable e := by
  rw [ofParsed_eq] at h
  split at h
  · rename_i fault' s' hrun
    cases h
    have hfault := stages_fault (u := ⟨encode source, parsed.root, settings⟩) hm
      (start (encode source) parsed path) trivial
    rw [hrun] at hfault
    exact .inl hfault
  · rename_i s' hrun
    rcases ofSession_cases settings source s' with ⟨e, he⟩ | ⟨o, ho, -⟩
    · rw [he] at h
      cases h
      exact .inr ⟨e, rfl⟩
    · rw [ho] at h
      cases h

end Outcome

/-- What is so of the outcomes of every tree is so of those of the trees that are read of a source. -/
theorem transform_parsed {source language : String} {settings : Settings} {path : Option String}
    {o : Outcome} (h : (transform source language settings path).1 = .ok o) :
    ∃ dialect, Dialect.ofName language = .ok dialect ∧
      (Outcome.ofParsed (parse dialect source) settings source path).1 = .ok o := by
  unfold transform transformWith at h
  split at h
  · cases h
  · rename_i dialect hdialect
    exact ⟨dialect, hdialect, h⟩

end OrmCodemod
