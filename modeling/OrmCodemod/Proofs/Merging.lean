import OrmCodemod.Proofs.FieldTypes

/-! What a collection holds after any number of schemas. A name stands where it first came up. A model
is bound to its first definition; an enumeration is bound to the first one with members, so that a
stand-in gives way without losing its place. Adding one definition keeps this, and so does every
sequence of them. -/

namespace OrmCodemod.Schema

variable {α : Type} {key : α → String}

theorem eraseDups_concat (xs : List String) (x : String) :
    (xs ++ [x]).eraseDups = if x ∈ xs then xs.eraseDups else xs.eraseDups ++ [x] := by
  rw [List.eraseDups_append]
  by_cases h : x ∈ xs
  · simp [List.removeAll, h]
  · simp [List.removeAll, h, List.eraseDups_cons]

theorem find?_concat_of_ne {x : α} {name : String} (h : key x ≠ name) (xs : List α) :
    (xs ++ [x]).find? (key · == name) = xs.find? (key · == name) := by
  simp [List.find?_append, h]

theorem find?_isSome_iff {xs : List α} {name : String} :
    (xs.find? (key · == name)).isSome = true ↔ name ∈ xs.map key := by
  simp [List.find?_isSome]

theorem find?_upsert (x : α) (xs : List α) (name : String) :
    (upsert key x xs).find? (key · == name) =
      if key x = name then some x else xs.find? (key · == name) := by
  induction xs with
  | nil => simp [upsert, List.find?_cons]; split <;> simp_all
  | cons y ys ih =>
    unfold upsert
    split
    · rename_i hkey
      have hkey : key y = key x := beq_iff_eq.1 hkey
      by_cases h : key x = name
      · simp [h]
      · simp [h, hkey]
    · rename_i hkey
      have hkey : key y ≠ key x := by simpa using hkey
      by_cases hy : key y = name
      · have hx : key x ≠ name := fun h => hkey (hy.trans h.symm)
        simp [hy, hx]
      · simp [hy, ih]

theorem map_upsert_of_mem {x : α} {xs : List α} (h : key x ∈ xs.map key) :
    (upsert key x xs).map key = xs.map key := by
  induction xs with
  | nil => simp at h
  | cons y ys ih =>
    unfold upsert
    split
    · rename_i hkey
      rw [List.map_cons, List.map_cons, beq_iff_eq.1 hkey]
    · rename_i hkey
      have hne : key x ≠ key y := fun h => hkey (by simp [h])
      rw [List.map_cons, List.map_cons, ih (by simpa [hne] using h)]

/-- The definition that counts for the name of an enumeration: the first one with members, or else the
first one. -/
def definition? (enums : List EnumType) (name : String) : Option EnumType :=
  (enums.find? fun e => e.name == name && !e.values.isEmpty).or (enums.find? (·.name == name))

theorem definition?_concat_of_ne {e : EnumType} {name : String} (h : e.name ≠ name)
    (enums : List EnumType) : definition? (enums ++ [e]) name = definition? enums name := by
  simp [definition?, List.find?_append, h]

/-- Where the definition that counts has no members, no definition of the name has any. -/
theorem find?_filled_of_isEmpty {enums : List EnumType} {name : String} {known : EnumType}
    (h : definition? enums name = some known) (hempty : known.values.isEmpty = true) :
    (enums.find? fun e => e.name == name && !e.values.isEmpty) = none := by
  cases hfilled : enums.find? fun e => e.name == name && !e.values.isEmpty with
  | none => rfl
  | some e =>
    rw [definition?, hfilled, Option.some_or] at h
    cases h
    simpa [hempty] using List.find?_some hfilled

theorem find?_filled_of_not_isEmpty {enums : List EnumType} {name : String} {known : EnumType}
    (h : definition? enums name = some known) (hfilled : known.values.isEmpty = false) :
    (enums.find? fun e => e.name == name && !e.values.isEmpty) = some known := by
  cases hfind : enums.find? fun e => e.name == name && !e.values.isEmpty with
  | some e => rw [definition?, hfind, Option.some_or] at h; exact h
  | none =>
    -- The first definition of the name would be one with members.
    rw [definition?, hfind, Option.none_or] at h
    have hname : (known.name == name) = true := by simpa using List.find?_some h
    have hnone := List.find?_eq_none.1 hfind known (List.mem_of_find?_eq_some h)
    rw [hname, hfilled] at hnone
    exact absurd rfl hnone

/-- One more definition of a name counts where there was none, or none with members and it has some. -/
theorem definition?_concat_self (enums : List EnumType) (e : EnumType) :
    definition? (enums ++ [e]) e.name =
      match definition? enums e.name with
      | none => some e
      | some known => if known.values.isEmpty && !e.values.isEmpty then some e else some known := by
  cases hknown : definition? enums e.name with
  | none =>
    obtain ⟨hfilled, hnamed⟩ := Option.or_eq_none_iff.1 hknown
    cases hempty : e.values.isEmpty <;>
      simp [definition?, List.find?_append, hfilled, hnamed, hempty]
  | some known =>
    dsimp only
    cases hvalues : known.values.isEmpty with
    | false =>
      rw [definition?, List.find?_append, find?_filled_of_not_isEmpty hknown hvalues]
      rfl
    | true =>
      have hfilled := find?_filled_of_isEmpty hknown hvalues
      have hnamed : enums.find? (·.name == e.name) = some known := by
        rwa [definition?, hfilled, Option.none_or] at hknown
      cases hempty : e.values.isEmpty <;>
        simp only [definition?, List.find?_append, hfilled, hnamed, List.find?_cons, hempty,
          beq_self_eq_true] <;> rfl

namespace Collection

/-- The collection holds what these models and enumerations define, one after the other. -/
structure Merged (provider : String) (c : Collection) (models : List Model)
    (enums : List EnumType) : Prop where
  provider : c.provider = provider
  modelNames : c.modelNames = (models.map Model.name).eraseDups
  modelBound : ∀ name, c.models.find? (·.name == name) = models.find? (·.name == name)
  enumNames : c.enums.map EnumType.name = (enums.map EnumType.name).eraseDups
  enumBound : ∀ name, c.enums.find? (·.name == name) = definition? enums name

variable {provider : String} {c : Collection} {models : List Model} {enums : List EnumType}

theorem Merged.nil (provider : String) : Merged provider { provider } [] [] :=
  ⟨rfl, rfl, fun _ => rfl, rfl, fun _ => rfl⟩

theorem Merged.addModel (h : Merged provider c models enums) (origin : Option String) (m : Model) :
    Merged provider (addModel origin c m).1 (models ++ [m]) enums := by
  have htaken : c.models.any (·.name == m.name) = true ↔ m.name ∈ models.map Model.name := by
    rw [← find?_isSome_iff, ← h.modelBound, find?_isSome_iff]
    simp
  unfold Collection.addModel
  split
  · rename_i hany
    have hmem := htaken.1 hany
    refine ⟨h.provider, ?_, fun name => ?_, h.enumNames, h.enumBound⟩
    · rw [h.modelNames, List.map_append, List.map_singleton, eraseDups_concat, if_pos hmem]
    · obtain ⟨known, hknown⟩ := Option.isSome_iff_exists.1 (find?_isSome_iff.2 hmem)
      rw [h.modelBound]
      by_cases hname : m.name = name
      · rw [List.find?_append, ← hname, hknown, Option.some_or]
      · rw [find?_concat_of_ne hname]
  · rename_i hany
    have hmem : m.name ∉ models.map Model.name := fun hm => hany (htaken.2 hm)
    refine ⟨h.provider, ?_, fun name => ?_, h.enumNames, h.enumBound⟩
    · rw [List.map_append, List.map_singleton, eraseDups_concat, if_neg hmem, ← h.modelNames]
      simp [Collection.modelNames]
    · rw [List.find?_append, List.find?_append, h.modelBound]

theorem Merged.addModels (origin : Option String) (ms : List Model) :
    ∀ {c models}, Merged provider c models enums →
      Merged provider (c.addModels origin ms).1 (models ++ ms) enums := by
  induction ms with
  | nil =>
    intro c models h
    rw [List.append_nil]
    exact h
  | cons m ms ih =>
    intro c models h
    rw [← List.singleton_append, ← List.append_assoc]
    exact ih (h.addModel origin m)

theorem Merged.addEnum (h : Merged provider c models enums) (e : EnumType) :
    Merged provider (c.addEnum e) models (enums ++ [e]) := by
  have hknown := h.enumBound e.name
  have hself := definition?_concat_self enums e
  have htaken : e.name ∈ c.enums.map EnumType.name ↔ e.name ∈ enums.map EnumType.name := by
    rw [h.enumNames, List.mem_eraseDups]
  have hnames : (enums ++ [e]).map EnumType.name = enums.map EnumType.name ++ [e.name] := by simp
  unfold Collection.addEnum
  split
  · rename_i hfind
    rw [← hknown, hfind] at hself
    have hnew : e.name ∉ c.enums.map EnumType.name := by
      rw [← find?_isSome_iff, hfind]
      simp
    refine ⟨h.provider, h.modelNames, h.modelBound, ?_, fun name => ?_⟩
    · rw [hnames, eraseDups_concat, if_neg (mt htaken.2 hnew), ← h.enumNames]
      simp
    · by_cases hname : e.name = name
      · subst hname
        rw [hself, List.find?_append, hfind]
        simp
      · rw [find?_concat_of_ne hname, definition?_concat_of_ne hname, h.enumBound]
  · rename_i known hfind
    rw [← hknown, hfind] at hself
    have hmem : e.name ∈ c.enums.map EnumType.name := by
      rw [← find?_isSome_iff, hfind]
      rfl
    have hsame : (enums.map EnumType.name ++ [e.name]).eraseDups = c.enums.map EnumType.name := by
      rw [eraseDups_concat, if_pos (htaken.1 hmem), h.enumNames]
    dsimp only at hself
    split
    · rename_i hcond
      rw [if_pos hcond] at hself
      refine ⟨h.provider, h.modelNames, h.modelBound, ?_, fun name => ?_⟩
      · rw [hnames, hsame, map_upsert_of_mem hmem]
      · rw [find?_upsert]
        split
        · rename_i hname
          rw [← hname, hself]
        · rename_i hname
          rw [definition?_concat_of_ne hname, h.enumBound]
    · rename_i hcond
      rw [if_neg hcond] at hself
      refine ⟨h.provider, h.modelNames, h.modelBound, ?_, fun name => ?_⟩
      · rw [hnames, hsame]
      · by_cases hname : e.name = name
        · rw [← hname, hself, hfind]
        · rw [definition?_concat_of_ne hname, h.enumBound]

theorem Merged.addEnums (es : List EnumType) :
    ∀ {c enums}, Merged provider c models enums →
      Merged provider (es.foldl Collection.addEnum c) models (enums ++ es) := by
  induction es with
  | nil =>
    intro c enums h
    rw [List.append_nil]
    exact h
  | cons e es ih =>
    intro c enums h
    rw [← List.singleton_append, ← List.append_assoc]
    exact ih (h.addEnum e)

theorem Merged.add (h : Merged provider c models enums) (origin : Option String)
    (ms : List Model) (es : List EnumType) :
    Merged provider (c.add ms es origin).1 (models ++ ms) (enums ++ es) :=
  (h.addModels origin ms).addEnums es

def allModels (results : List (Outcome × Option String)) : List Model :=
  results.flatMap (·.1.models)

def allEnums (results : List (Outcome × Option String)) : List EnumType :=
  results.flatMap (·.1.enums)

theorem gathered_holds (provider : String) (results : List (Outcome × Option String)) :
    Merged provider (gathered provider results) (allModels results) (allEnums results) := by
  suffices ∀ c models enums, Merged provider c models enums →
      Merged provider (results.foldl (fun c r => (c.add r.1.models r.1.enums r.2).1) c)
        (models ++ allModels results) (enums ++ allEnums results) from this _ _ _ (.nil provider)
  induction results with
  | nil =>
    intro c models enums h
    simpa [allModels, allEnums] using h
  | cons r rs ih =>
    intro c models enums h
    have hrest := ih _ _ _ (h.add r.2 r.1.models r.1.enums)
    rw [List.append_assoc, List.append_assoc] at hrest
    exact hrest

/-- Only a collection without models has no document. -/
theorem Merged.models_isEmpty (h : Merged provider c models enums) :
    c.models.isEmpty = models.isEmpty := by
  have hnames := h.modelNames
  unfold Collection.modelNames at hnames
  cases models with
  | nil =>
    cases hc : c.models with
    | nil => rfl
    | cons m ms => rw [hc] at hnames; simp at hnames
  | cons m ms =>
    rw [List.map_cons, List.eraseDups_cons] at hnames
    cases hc : c.models with
    | nil => rw [hc] at hnames; simp at hnames
    | cons m ms => rfl

/-- The schemas of any passes, collected one after the other: every name once, in the order in which
the names came up, a model with its first definition, an enumeration with the first one that has
members. There is no document exactly if there is no model; else it is the preamble, the enumerations
and the models, in those orders. -/
theorem collection_merges (provider : String) (results : List (Outcome × Option String)) :
    (gathered provider results).modelNames = ((allModels results).map Model.name).eraseDups ∧
      (∀ name, (gathered provider results).models.find? (·.name == name) =
        (allModels results).find? (·.name == name)) ∧
      (gathered provider results).enums.map EnumType.name =
        ((allEnums results).map EnumType.name).eraseDups ∧
      (∀ name, (gathered provider results).enums.find? (·.name == name) =
        ((allEnums results).find? fun e => e.name == name && !e.values.isEmpty).or
          ((allEnums results).find? (·.name == name))) ∧
      (gathered provider results).render =
        if (allModels results).isEmpty then none
        else some (preamble provider ++
          String.join ((gathered provider results).enums.map fun e => e.render ++ "\n") ++
          String.join ((gathered provider results).models.map fun m => m.render ++ "\n")) := by
  have h := gathered_holds provider results
  refine ⟨h.modelNames, h.modelBound, h.enumNames, h.enumBound, ?_⟩
  unfold Collection.render document
  rw [h.models_isEmpty, h.provider]

/-- A stand-in gives way in its place, and later definitions change nothing. -/
example : [⟨"A", []⟩, ⟨"B", []⟩, ⟨"A", ["x"]⟩, ⟨"A", ["y"]⟩].foldl addEnum {} =
    { enums := [⟨"A", ["x"]⟩, ⟨"B", []⟩] } := by
  rfl

end Collection

end OrmCodemod.Schema
