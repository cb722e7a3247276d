import OrmCodemod.Proofs.Described

/-! Names of types. A type is written as a name with at most one mark behind it. Where the names of a
source are spelled as names, so are the types that annotations, column types and declared enumerations
give; but one column type gives a name that has a mark already. -/

namespace OrmCodemod

open Syntax Text Schema Pass Syntax.Grammar

def IsName (text : String) : Prop :=
  text.toList.head?.any startsName = true ∧ text.toList.all inName = true

instance (text : String) : Decidable (IsName text) := inferInstanceAs (Decidable (_ ∧ _))

namespace Schema

def typeMarks : List String := ["", "?", "[]"]

/-- A name with at most one mark behind it. -/
def OneMark (text : String) : Prop := ∃ name mark, IsName name ∧ mark ∈ typeMarks ∧ text = name ++ mark

def Field.typeText (f : Field) : String := f.scalar ++ f.typeMark

theorem Field.typeMark_mem (f : Field) : f.typeMark ∈ typeMarks := by
  unfold typeMark
  split
  · decide
  · split <;> decide

theorem Field.render_eq (f : Field) : f.render = "  " ++ f.name ++ " " ++ f.typeText ++
    (if f.attributes.isEmpty then "" else " " ++ joinWith " " f.attributes) := by
  unfold render typeText
  split <;> simp [String.append_assoc, toString]

theorem oneMark_iff {text : String} : OneMark text ↔
    IsName (String.ofList (text.toList.takeWhile inName)) ∧
      String.ofList (text.toList.dropWhile inName) ∈ typeMarks := by
  constructor
  · rintro ⟨name, mark, ⟨hstart, hall⟩, hmark, rfl⟩
    have hname : ∀ c ∈ name.toList, inName c = true := List.all_eq_true.1 hall
    have hbare : mark.toList.takeWhile inName = [] ∧ mark.toList.dropWhile inName = mark.toList := by
      fin_cases hmark <;> decide
    rw [String.toList_append, List.takeWhile_append_of_pos hname, List.dropWhile_append_of_pos hname,
      hbare.1, hbare.2, List.append_nil, String.ofList_toList, String.ofList_toList]
    exact ⟨⟨hstart, hall⟩, hmark⟩
  · rintro ⟨hname, hmark⟩
    refine ⟨_, _, hname, hmark, ?_⟩
    rw [← String.ofList_append, List.takeWhile_append_dropWhile, String.ofList_toList]

instance (text : String) : Decidable (OneMark text) := decidable_of_iff _ oneMark_iff.symm

theorem oneMark_list_iff {mark : String} (h : mark ∈ typeMarks) :
    OneMark ("String[]" ++ mark) ↔ mark = "" := by
  fin_cases h <;> decide

theorem Field.oneMark_of_isName {f : Field} (h : IsName f.scalar) : OneMark f.typeText :=
  ⟨f.scalar, f.typeMark, h, f.typeMark_mem, rfl⟩

theorem Field.oneMark_of_list {f : Field} (h : f.scalar = "String[]") :
    OneMark f.typeText ↔ f.isList = false ∧ f.optional = false := by
  rw [typeText, h, oneMark_list_iff f.typeMark_mem]
  unfold typeMark
  cases f.isList <;> cases f.optional <;> decide

theorem shifted_ne_dash {c : Char} (hc : c ≠ '-') : shifted lowerShifts c ≠ '-' := by
  have htable : ∀ r ∈ lowerShifts, 45 < r.1 + r.2.2.2 := by decide +kernel
  unfold shifted shiftOf
  split
  · rename_i d hd
    obtain ⟨r, hr, rfl⟩ := Option.map_eq_some_iff.1 hd
    have hrow := htable r (List.mem_of_find?_eq_some hr)
    have hin := List.find?_some hr
    simp only [Bool.and_eq_true, decide_eq_true_eq] at hin
    by_cases hvalid : (Int.toNat (c.toNat + r.2.2.2)).isValidChar
    · rw [Char.ofNat, dif_pos hvalid]
      intro hdash
      have hnat : Int.toNat (c.toNat + r.2.2.2) = 45 := congrArg Char.toNat hdash
      omega
    · rw [Char.ofNat, dif_neg hvalid]
      decide
  · exact hc

/-- Lowering a character gives a dash for a dash only. -/
theorem dash_of_lowerChar {c : Char} (h : '-' ∈ lowerChar c) : c = '-' := by
  by_contra hc
  unfold lowerChar at h
  split at h
  · revert h
    decide
  rw [List.mem_singleton] at h
  unfold lowerSimple at h
  split at h
  · rename_i hlt
    have hascii : ∀ n < 128, (Char.ofNat n).toLower = '-' → n = 45 := by decide
    have hnat := hascii c.toNat hlt (by rw [Char.ofNat_toNat, h])
    exact hc (by rw [← Char.ofNat_toNat c, hnat])
  · exact shifted_ne_dash hc h.symm

theorem dash_of_lowerAfter {cs : List Char} : ∀ {before}, '-' ∈ lowerAfter before cs → '-' ∈ cs := by
  induction cs with
  | nil => simp [lowerAfter]
  | cons c cs ih =>
    intro before h
    rw [lowerAfter, List.mem_append] at h
    rcases h with h | h
    · split at h
      · split at h <;> exact absurd h (by decide)
      · rw [dash_of_lowerChar h]
        exact List.mem_cons_self
    · exact List.mem_cons_of_mem _ (ih h)

/-- A text without a dash is not the name of the list type. -/
theorem scalarOfColumn_ne_list {name : String} (h : '-' ∉ name.toList) :
    scalarOfColumn name ≠ "String[]" := by
  have hlist : ∀ p ∈ columnTypes, p.2 = "String[]" → '-' ∈ p.1.toList := by decide
  unfold scalarOfColumn
  cases hlookup : columnTypes.lookup (lower (trim name)) with
  | none => decide
  | some scalar =>
    rw [Option.getD_some]
    rintro rfl
    have hdash := hlist _ (lookup_mem hlookup) rfl
    rw [lower, String.toList_ofList] at hdash
    have htrim := dash_of_lowerAfter hdash
    rw [trim, String.toList_ofList, trimChars, List.mem_reverse] at htrim
    have := List.dropWhile_subset _ htrim
    rw [List.mem_reverse] at this
    exact h (List.dropWhile_subset _ this)

theorem isName_scalarOfColumn {type : String} (h : scalarOfColumn type ≠ "String[]") :
    IsName (scalarOfColumn type) := by
  have htable : ∀ p ∈ columnTypes, p.2 ≠ "String[]" → IsName p.2 := by decide
  unfold scalarOfColumn at h ⊢
  cases hlookup : columnTypes.lookup (lower (trim type)) with
  | none => decide
  | some scalar =>
    rw [hlookup, Option.getD_some] at h
    exact htable _ (lookup_mem hlookup) h

theorem not_dash_of_isName {text : String} (h : IsName text) : '-' ∉ text.toList :=
  fun hdash => absurd (List.all_eq_true.1 h.2 _ hdash) (by decide)

end Schema

/-- Names are spelled as names, built-in types have no dash, and enumerations have names. -/
def Syntax.Tree.spelled (source : Bytes) (t : Tree) : Bool :=
  (!t.isAny [.identifier, .typeIdentifier] || decide (IsName (t.text source))) &&
    (!t.is .predefinedType || !(t.text source).toList.contains '-') &&
    (!t.is .enumDeclaration || (t.child? .name).all (·.is .identifier))

/-- The names of a unit are spelled as names. -/
def SourceUnit.Spelled (u : SourceUnit) : Prop := u.root.everyNode (Tree.spelled u.source) = true

instance (u : SourceUnit) : Decidable u.Spelled := inferInstanceAs (Decidable (_ = _))

section Spelled

variable {u : SourceUnit} {t : Tree}

theorem SourceUnit.Spelled.isName (hu : u.Spelled) (ht : t.Within u.root)
    (hk : t.isAny [.identifier, .typeIdentifier] = true) : IsName (t.text u.source) := by
  have htest := Tree.test_within hu ht
  simp only [Tree.spelled, hk, Bool.not_true, Bool.false_or, Bool.and_eq_true, decide_eq_true_eq] at htest
  exact htest.1.1

theorem SourceUnit.Spelled.noDash (hu : u.Spelled) (ht : t.Within u.root)
    (hk : t.isAny [.predefinedType, .typeIdentifier] = true) : '-' ∉ (t.text u.source).toList := by
  cases hname : t.is .typeIdentifier with
  | true => exact not_dash_of_isName (hu.isName ht (by simp [Tree.isAny, hname]))
  | false =>
    have htest := Tree.test_within hu ht
    have hpre : t.is .predefinedType = true := by simpa [Tree.isAny, hname] using hk
    simp only [Tree.spelled, hpre, Bool.not_true, Bool.false_or, Bool.and_eq_true] at htest
    simpa using htest.1.2

end Spelled

namespace Pass

variable {α : Type} {x : Pass α} {P Q : α → Prop}

theorem Settles.and (h : Settles x P) (h' : Settles x Q) : Settles x fun a => P a ∧ Q a := by
  obtain ⟨a, ha, hP⟩ := h
  exact ⟨a, ha, hP, h'.of_gives ha⟩

end Pass

namespace Entities

theorem mem_putEnum {name : String} {members : List EnumMember} {acc : DeclaredEnums}
    {p : String × List EnumMember} (h : p ∈ putEnum name members acc) : p.1 = name ∨ p ∈ acc := by
  induction acc with
  | nil => exact .inl (by rw [List.mem_singleton.1 h])
  | cons q acc ih =>
    unfold putEnum at h
    split at h
    · exact (List.mem_cons.1 h).imp (fun h => by rw [h]) (List.mem_cons_of_mem _)
    · rcases List.mem_cons.1 h with rfl | h
      · exact .inr List.mem_cons_self
      · exact (ih h).imp_right (List.mem_cons_of_mem _)

theorem isName_of_declared {u : SourceUnit} (hu : u.Spelled) {name : String}
    (h : ((declaredEnums u).lookup name).isSome) : IsName name := by
  have hall : ∀ q ∈ declaredEnums u, IsName q.1 := by
    refine List.foldlRecOn (motive := fun acc : DeclaredEnums => ∀ q ∈ acc, IsName q.1) _ _
      (by simp) fun acc hacc p hp => ?_
    split
    · rename_i name body hname _
      have hw := (Place.find_rooted u.place_rooted hp).within
      have hkind : p.tree.is .enumDeclaration = true := by
        simpa [Tree.isAny] using (List.mem_filter.1 hp).2
      have htest := Tree.test_within hu hw
      simp only [Tree.spelled, hkind, hname, Bool.not_true, Bool.false_or, Option.all_some,
        Bool.and_eq_true] at htest
      intro q hq
      rcases mem_putEnum hq with hq | hq
      · rw [hq]
        exact hu.isName ((Tree.within_of_mem (Tree.child?_mem hname)).trans hw)
          (by simp [Tree.isAny, htest.2])
      · exact hacc q hq
    · exact hacc
  obtain ⟨members, h⟩ := Option.isSome_iff_exists.1 h
  exact hall _ (lookup_mem h)

namespace Scope

/-- The scope of a class of a unit whose names are spelled as names. -/
structure Spelled (s : Scope) : Prop where
  unit : s.unit.Spelled
  enums : s.enums = declaredEnums s.unit

variable {s : Scope}

theorem scalarOfType_named (hs : s.Spelled) : ∀ n type, (∀ t ∈ type, Tree.Within t s.unit.root) →
    Settles (s.scalarOfType n type) IsName
  | 0, _, _ => .pure (by decide)
  | _ + 1, none, _ => .pure (by decide)
  | n + 1, some type, hw => by
    have hw := hw type rfl
    dsimp only [scalarOfType]
    split
    · rename_i hkind
      split
      · rename_i scalar hscalar
        have htable : ∀ p ∈ annotationTypes, IsName p.2 := by decide
        exact .pure (htable _ (lookup_mem hscalar))
      · split
        · rename_i hdeclared
          rw [hs.enums] at hdeclared
          exact (registerEnum_settles s _).bind fun _ _ => .pure (isName_of_declared hs.unit hdeclared)
        · exact .pure (isName_scalarOfColumn (scalarOfColumn_ne_list (hs.unit.noDash hw hkind)))
    · split
      · split
        · rename_i part hpart
          have hmem := Tree.within_of_mem (Tree.significant_mem (List.mem_of_find?_eq_some hpart))
          refine scalarOfType_named hs n _ ?_
          rintro _ ⟨⟩
          exact hmem.trans hw
        · exact .pure (by decide)
      · exact .pure (by decide)

theorem annotatedType_within {t type : Tree} (h : t.annotatedType = some type) : type.Within t := by
  unfold Tree.annotatedType at h
  obtain ⟨ascription, h1, h2⟩ := Option.bind_eq_some_iff.1 h
  have hmem := Tree.within_of_mem (Tree.child?_mem h1)
  split at h2
  · exact (Tree.within_of_mem (Tree.significant_mem (List.mem_of_mem_head? h2))).trans hmem
  · cases h2
    exact hmem

theorem annotated_named (hs : s.Spelled) {field : Tree} (hf : field.Within s.unit.root) :
    Settles (s.annotated field) IsName :=
  scalarOfType_named hs _ _ fun _ ht => (annotatedType_within ht).trans hf

end Scope

end Entities

end OrmCodemod
