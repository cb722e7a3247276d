import OrmCodemod.Proofs.ColumnFields

/-! The enumerations of a source. Each column and each annotated identity may ask for one, class by class
and member by member, and of several requests for a name the first is kept. So what becomes of an
enumeration that is listed in place depends on who else asks for its name, which is made of the names
of the class and the field. -/

namespace OrmCodemod

open Syntax Text Schema Pass

namespace Pass

variable {α β : Type} {a : α} {x : Pass α} {es es' : List EnumType}

/-- The step ends well and asks for these enumerations, whatever it gives. -/
def Notes (x : Pass α) (es : List EnumType) : Prop :=
  ∀ s, ∃ a s', x.result s = (.ok a, s') ∧ s'.enums = noteAll es s.enums

theorem Asks.notes (h : Asks x a es) : Notes x es := fun s => ⟨a, h s⟩

theorem Notes.pure (a : α) : Notes (pure a) [] := (Asks.pure a).notes

theorem Notes.bind {f : α → Pass β} (hx : Notes x es) (hf : ∀ a, Notes (f a) es') :
    Notes (x >>= f) (es ++ es') := by
  intro s
  obtain ⟨a, s1, hrun1, henums1⟩ := hx s
  obtain ⟨b, s2, hrun2, henums2⟩ := hf a s1
  exact ⟨b, s2, by rw [result_bind_ok hrun1, hrun2], by rw [henums2, henums1, noteAll_append]⟩

theorem Notes.map {f : α → Pass β} (hx : Notes x es) (hf : ∀ a, Notes (f a) []) :
    Notes (x >>= f) es := by
  have h := hx.bind hf
  rwa [List.append_nil] at h

theorem Notes.foldlM {f : β → α → Pass β} {asked : α → List EnumType}
    (h : ∀ b x, Notes (f b x) (asked x)) (xs : List α) :
    ∀ b, Notes (xs.foldlM f b) (xs.flatMap asked) := by
  induction xs with
  | nil => exact fun b => .pure b
  | cons x xs ih =>
    intro b
    rw [List.foldlM_cons, List.flatMap_cons]
    exact (h b x).bind ih

end Pass

namespace Entities

namespace Scope

variable (s : Scope)

theorem identity_notes (name decorator : String) (args : List Tree) (field : Tree) :
    Notes (s.identity name decorator args field)
      (if decorator = "PrimaryColumn" then (s.annotationOf field).2 else []) := by
  unfold identity
  simp only [beq_iff_eq]
  split
  · exact (annotated_asks s field).notes.map fun _ => .pure _
  · split
    · exact .pure _
    · exact .pure _

theorem relation_notes (name : String) (kind : RelationKind) (args : List Tree) (member : Tree) :
    Notes (s.relation name kind args member) [] := by
  dsimp only [relation]
  split
  · exact (Asks.say _ _).notes.map fun _ => .pure _
  · exact .pure _

/-- The enumerations that a field asks for, by the decorator that has a role. -/
def roleAsks (name : String) (node : Tree) : Option RoleDecorator → List EnumType
  | none => []
  | some d =>
    match d.role with
    | .identity => if d.name = "PrimaryColumn" then (s.annotationOf node).2 else []
    | .plain => s.columnAsks name d.node.decoratorArguments node
    | _ => []

theorem describe_notes (name : String) (node : Tree) : ∀ decorators,
    Notes (s.describe name node decorators)
      (s.roleAsks name node (roleDecorator? s.unit.source decorators))
  | [] => .pure _
  | d :: rest => by
    have ih := describe_notes name node rest
    have hskip : withRole? s.unit.source d = none →
        Notes (s.describe name node rest)
          (s.roleAsks name node (roleDecorator? s.unit.source (d :: rest))) := by
      intro hnone
      rwa [roleDecorator?_skip hnone]
    unfold describe
    split
    · rename_i hname
      exact hskip (by simp [withRole?, hname])
    rename_i id hname
    cases hrole : roleOfDecorator id with
    | none => exact hskip (by simp [withRole?, hname, hrole])
    | some role =>
      cases role with
      | join => exact hskip (by simp [withRole?, hname, hrole])
      | identity =>
        rw [roleDecorator?_take hname hrole (by simp)]
        exact (identity_notes s name id d.decoratorArguments node).map fun _ => .pure _
      | plain =>
        rw [roleDecorator?_take hname hrole (by simp)]
        exact (column_asks s name d.decoratorArguments node).notes.map fun _ => .pure _
      | relation =>
        rw [roleDecorator?_take hname hrole (by simp)]
        dsimp only
        split
        · exact relation_notes s _ _ _ _
        · exact .pure _
      | createdAt =>
        rw [roleDecorator?_take hname hrole (by simp)]
        exact .pure _
      | updatedAt =>
        rw [roleDecorator?_take hname hrole (by simp)]
        exact .pure _
      | deletedAt =>
        rw [roleDecorator?_take hname hrole (by simp)]
        exact .pure _

def memberAsks (m : Member) : List EnumType := s.roleAsks m.name m.node (m.decorator? s.unit.source)

end Scope

theorem classFields_notes (s : Scope) (class_ : Place) :
    Notes (classFields s class_) ((members s.unit.source class_).flatMap s.memberAsks) := by
  have hfields : (members s.unit.source class_).flatMap s.memberAsks = (bodyFields class_).flatMap
      fun x => ((member? s.unit.source x).map s.memberAsks).getD [] := by
    rw [members]
    induction bodyFields class_ with
    | nil => rfl
    | cons x xs ih =>
      rw [List.flatMap_cons, ← ih, List.filterMap_cons]
      cases member? s.unit.source x <;> rfl
  rw [hfields]
  unfold classFields
  refine Notes.foldlM (fun acc x => ?_) (bodyFields class_) []
  obtain ⟨field, decorators⟩ := x
  dsimp only [member?]
  cases field.child? .name <|> field.child? .property with
  | none => exact .pure _
  | some name => exact (s.describe_notes (s.text name) field decorators).map fun _ => .pure _

variable {u : SourceUnit}

/-- The enumerations that the members of a class ask for, if it is an entity. -/
def classAsks (u : SourceUnit) (class_ : Place) : List EnumType :=
  match class_.tree.className u.source with
  | some model =>
    if isEntity u class_ then
      (members u.source class_).flatMap (Scope.memberAsks ⟨u, model, declaredEnums u⟩)
    else []
  | none => []

/-- The enumerations that a source asks for, in the order in which it does. -/
def enumRequests (u : SourceUnit) : List EnumType :=
  (sortByStart (u.place.find Place.classKinds)).flatMap (classAsks u)

theorem extractClass_requests (class_ : Place) (enums : List EnumType) :
    Holds (fun s => s.enums = enums) (extractClass u (declaredEnums u) class_)
      (fun _ s => s.enums = noteAll (classAsks u class_) enums) fun _ _ => True := by
  have hnone : ¬isEntity u class_ = true → Holds (fun s => s.enums = enums) (pure ())
      (fun _ s => s.enums = noteAll (classAsks u class_) enums) fun _ _ => True := by
    intro hnot
    have hasks : classAsks u class_ = [] := by
      unfold classAsks
      split
      · rw [if_neg hnot]
      · rfl
    rw [hasks]
    exact Holds.pure fun _ hs => hs
  dsimp only [extractClass]
  split
  · rename_i entity name hentity hname
    split
    · rename_i hempty
      refine hnone fun his => ?_
      obtain ⟨_, _, -, hname', hne⟩ := isEntity_iff.1 his
      rw [hname] at hname'
      cases hname'
      exact hne (beq_iff_eq.1 hempty)
    rename_i hne
    have his : isEntity u class_ = true :=
      isEntity_iff.2 ⟨entity, name, hentity, hname, by simpa using hne⟩
    have hread : Holds (fun s => s.enums = enums) (classFields ⟨u, name, declaredEnums u⟩ class_)
        (fun _ s => s.enums = noteAll (classAsks u class_) enums) fun _ _ => True := by
      intro s hs
      obtain ⟨fields, s', hrun, henums⟩ := classFields_notes ⟨u, name, declaredEnums u⟩ class_ s
      rw [hrun]
      rw [hs] at henums
      simpa only [classAsks, hname, his, if_true] using henums
    -- What follows leaves the enumerations alone.
    let noted : Session → Prop := fun s => s.enums = noteAll (classAsks u class_) enums
    refine hread.bind fun fields => Holds.bind (Q := fun _ => noted) (Holds.modify fun _ h => h)
      fun _ => ?_
    refine Holds.bind (Q := fun _ => noted) (Holds.advise (fun _ _ _ _ h _ => h)
      fun _ _ _ _ => trivial) fun _ => ?_
    exact Holds.bind (Q := fun _ => noted) (Holds.modify fun _ h => h) fun _ =>
      Holds.modify fun _ h => h
  · rename_i hno
    refine hnone fun his => ?_
    obtain ⟨entity, name, hentity, hname, -⟩ := isEntity_iff.1 his
    exact hno entity name hentity hname

theorem extract_requests (u : SourceUnit) : Holds (fun s => s.enums = []) (extract u)
    (fun _ s => s.enums = noteAll (enumRequests u) []) fun _ _ => True := by
  unfold extract
  have hclasses : Holds (fun s => s.enums = [])
      ((sortByStart (u.place.find Place.classKinds)).forM (extractClass u (declaredEnums u)))
      (fun _ s => s.enums = noteAll (enumRequests u) []) fun _ _ => True := by
    refine (Holds.forM (I := fun l s => s.enums = noteAll (l.flatMap (classAsks u)) [])
      fun l class_ _ _ s hs => ?_).mono (fun _ hs => hs) (fun _ _ h => h) fun _ _ h => h
    refine (extractClass_requests class_ s.enums).mono (fun _ h => h) (fun _ s' h => ?_)
      (fun _ _ h => h) s rfl
    rw [h, hs, List.flatMap_append, List.flatMap_singleton, noteAll_append]
  refine hclasses.bind fun _ => Holds.bind
    (Q := fun _ s => s.enums = noteAll (enumRequests u) []) (fun _ h => h) fun s => ?_
  dsimp only
  split
  · exact Holds.modify fun _ h => h
  · exact Holds.pure fun _ h => h

variable {s : Scope} {args : List Tree} {values : List String}

def Scope.listed (s : Scope) (args : List Tree) : Option (List String) :=
  (s.lastOption (s.optionsOf args) "enum").bind fun value =>
    if value.is .array && value.significant.all (fun e => (s.string? e).isSome) then
      some (value.significant.filterMap s.string?)
    else none

theorem Scope.lastOption_mem {options : List Tree} {key : String} {value : Tree}
    (h : s.lastOption options key = some value) :
    ∃ o ∈ options, o.memberKey s.unit.source = some key ∧ o.memberValue = some value := by
  obtain ⟨o, ho, h⟩ := List.exists_of_findSome?_eq_some h
  split at h
  · exact ⟨o, List.mem_reverse.1 ho, ‹_›, h⟩
  · cases h

/-- A column that lists texts gets an enumeration made for it, and asks for it with these texts. -/
theorem Scope.listed_asks (h : s.listed args = some values) (hne : values ≠ [])
    (hfilled : "" ∉ values) (name : String) (member : Tree) :
    s.enumGiven name (s.optionsOf args) = some (s.model ++ upperFirst name) ∧
      ⟨s.model ++ upperFirst name, values⟩ ∈ s.columnAsks name args member := by
  obtain ⟨value, hvalue, h⟩ := Option.bind_eq_some_iff.1 h
  split at h
  · rename_i harray
    rw [Bool.and_eq_true, List.all_eq_true] at harray
    obtain rfl := Option.some.inj h
    have hidentifier : value.is .identifier = false := by
      simp [Tree.is, beq_iff_eq.1 harray.1]
    have hnamed : s.enumNamed name value = some (s.model ++ upperFirst name) := by
      have hsome : value.significant ≠ [] := fun hnil => hne (by rw [hnil]; rfl)
      have hnone : (value.significant.map s.string?).any (·.isNone) = false := by
        simpa [List.any_map, Option.isSome_iff_ne_none] using harray.2
      simp [enumNamed, hidentifier, harray.1, hsome, hnone]
    have hasked : s.asked name value =
        some ⟨s.model ++ upperFirst name, value.significant.filterMap s.string?⟩ := by
      have hkept : (value.significant.filterMap s.string?).filter (· != "") =
          value.significant.filterMap s.string? :=
        List.filter_eq_self.2 fun v hv => by simpa using ne_of_mem_of_not_mem hv hfilled
      simp [asked, hidentifier, hnamed, List.filterMap_map, hkept]
    refine ⟨by rw [enumGiven, hvalue, Option.bind_some, hnamed], ?_⟩
    obtain ⟨o, ho, hkey, hmember⟩ := lastOption_mem hvalue
    refine List.mem_append_left _ (List.mem_filterMap.2 ⟨o, ho, ?_⟩)
    simp [optionAsks, hkey, hmember, hasked]
  · cases h

end Entities

open Entities

/-- The enumerations of an outcome are those that its tree asks for, whatever parser it comes from. -/
theorem Outcome.ofParsed_enums {parsed : Parsed} {settings : Settings} {source : String}
    {path : Option String} {o : Outcome} (h : (ofParsed parsed settings source path).1 = .ok o) :
    o.enums = noteAll (enumRequests ⟨encode source, parsed.root, settings⟩) [] := by
  obtain ⟨s, hrun, -, henums⟩ := ofParsed_schema h
  exact henums ▸ (extract_requests _).ok rfl hrun

theorem transform_enums {source language : String} {settings : Settings} {path : Option String}
    {o : Outcome} (h : (transform source language settings path).1 = .ok o) :
    ∃ dialect, Dialect.ofName language = .ok dialect ∧
      o.enums = noteAll (enumRequests (.read dialect source settings)) [] := by
  obtain ⟨dialect, hdialect, h⟩ := transform_parsed h
  exact ⟨dialect, hdialect, Outcome.ofParsed_enums h⟩

/-- With distinct keys, the first value of a key is the only one. -/
theorem filter_eq_of_find? {α : Type} {key : α → String} {xs : List α} {k : String} {x : α}
    (hkeys : (xs.map key).Nodup) (h : xs.find? (key · == k) = some x) :
    xs.filter (key · == k) = [x] := by
  obtain ⟨hkey, l, r, rfl, hl⟩ := List.find?_eq_some_iff_append.1 h
  rw [List.map_append, List.map_cons, List.nodup_middle, List.nodup_cons, List.mem_append] at hkeys
  have hleft : l.filter (key · == k) = [] := List.filter_eq_nil_iff.2 fun y hy => by
    simpa using hl y hy
  have hright : r.filter (key · == k) = [] := by
    refine List.filter_eq_nil_iff.2 fun y hy heq => hkeys.1 (.inr ?_)
    rw [beq_iff_eq.1 hkey, ← beq_iff_eq.1 heq]
    exact List.mem_map_of_mem hy
  rw [List.filter_append, hleft, List.filter_cons, if_pos hkey, hright, List.nil_append]

/-- A column of an entity class whose `enum` option lists texts in place. -/
structure ListsEnum (u : SourceUnit) (class_ : Place) (model : String) (member : Member)
    (values : List String) : Prop where
  found : class_ ∈ u.place.find Place.classKinds
  entity : isEntity u class_ = true
  named : class_.tree.className u.source = some model
  mem : member ∈ members u.source class_
  column : ∃ d, member.decorator? u.source = some d ∧ d.role = .plain ∧
    Scope.listed ⟨u, model, declaredEnums u⟩ d.node.decoratorArguments = some values
  filled : values ≠ [] ∧ "" ∉ values

section Listed

variable {u : SourceUnit} {class_ : Place} {model : String} {member : Member} {values : List String}

theorem ListsEnum.requested (h : ListsEnum u class_ model member values) :
    ⟨model ++ upperFirst member.name, values⟩ ∈ enumRequests u := by
  obtain ⟨d, hdecorator, hrole, hlisted⟩ := h.column
  have hasks := (Scope.listed_asks hlisted h.filled.1 h.filled.2 member.name member.node).2
  refine List.mem_flatMap.2 ⟨class_, (sortByStart_perm _).mem_iff.2 h.found, ?_⟩
  rw [classAsks, h.named]
  dsimp only
  rw [if_pos h.entity]
  refine List.mem_flatMap.2 ⟨member, h.mem, ?_⟩
  rw [Scope.memberAsks, hdecorator, Scope.roleAsks, hrole]
  exact hasks

/-- The field of such a column has the type that is made of the names of its class and itself. -/
theorem ListsEnum.typed (h : ListsEnum u class_ model member values) {m : Model}
    (hd : Describes u class_ m) : m.name = model ∧
      ∃ f ∈ m.fields, f.name = member.name ∧ f.scalar = model ++ upperFirst member.name := by
  obtain ⟨d, hdecorator, hrole, hlisted⟩ := h.column
  obtain rfl : m.name = model := Option.some.inj (hd.named.symm.trans h.named)
  obtain ⟨part, htells, hpart⟩ := hd.part_of_member h.mem
  rw [Scope.Tells, hdecorator] at htells
  refine ⟨rfl, ?_⟩
  cases htells with
  | column _ _ gives =>
    obtain rfl := (Scope.column_asks _ _ _ _).gives.unique gives
    refine ⟨_, hpart.subset List.mem_cons_self, rfl, ?_⟩
    have hgiven := (Scope.listed_asks hlisted h.filled.1 h.filled.2 member.name member.node).1
    rw [Scope.columnField, Scope.columnOf, hgiven, Option.getD_some]
  | identity _ role => rw [hrole] at role; cases role
  | relation _ role => rw [hrole] at role; cases role
  | timestamp _ role => rw [hrole] at role; simp at role

/-- The enumeration of such a column, in the schema that is read of the unit. -/
theorem ListsEnum.kept (h : ListsEnum u class_ model member values) {models : List Model}
    {enums : List EnumType} (hmodels : ModelsOf u models)
    (henums : enums = noteAll (enumRequests u) []) :
    let name := model ++ upperFirst member.name
    (∃ m, Describes u class_ m ∧ m.name = model ∧
      ∃ f ∈ m.fields, f.name = member.name ∧ f.scalar = name) ∧
    ∃ kept, enums.filter (·.name == name) = [⟨name, kept⟩] ∧
      (kept = values ↔ (enumRequests u).find? (·.name == name) = some ⟨name, values⟩) := by
  constructor
  · obtain ⟨ms, hms, -⟩ := hmodels
    obtain ⟨m, -, hd⟩ := exists_right hms (List.mem_filter.2
      ⟨(sortByStart_perm _).mem_iff.2 h.found, h.entity⟩)
    exact ⟨m, hd, h.typed hd⟩
  · have hfind := find?_noteAll (enumRequests u) [] (model ++ upperFirst member.name)
    rw [← henums, List.nil_append] at hfind
    have hsome : ((enumRequests u).find? (·.name == model ++ upperFirst member.name)).isSome :=
      List.find?_isSome.2 ⟨_, h.requested, beq_self_eq_true _⟩
    obtain ⟨⟨name, kept⟩, he⟩ := Option.isSome_iff_exists.1 hsome
    obtain rfl : name = model ++ upperFirst member.name := by simpa using List.find?_some he
    have hkeys : (enums.map EnumType.name).Nodup := henums ▸ nodup_noteAll List.nodup_nil
    refine ⟨kept, filter_eq_of_find? hkeys (hfind.trans he), ?_⟩
    rw [he, Option.some.injEq, EnumType.mk.injEq, eq_self, true_and]

end Listed

/-- A column that lists its values in place has an enumeration of its own name in the schema, and no
other of that name. It has the values of the column exactly if the first request for the name, among
those of all columns and annotations of the source, is one for these values. -/
theorem inline_enums_iff {source language : String} {settings : Settings} {path : Option String}
    {o : Outcome} (h : (transform source language settings path).1 = .ok o) :
    ∃ dialect, Dialect.ofName language = .ok dialect ∧
      let u := SourceUnit.read dialect source settings
      ∀ class_ model member values, ListsEnum u class_ model member values →
        let name := model ++ upperFirst member.name
        (∃ m, Describes u class_ m ∧ m.name = model ∧
          ∃ f ∈ m.fields, f.name = member.name ∧ f.scalar = name) ∧
        ∃ kept, o.enums.filter (·.name == name) = [⟨name, kept⟩] ∧
          (kept = values ↔ (enumRequests u).find? (·.name == name) = some ⟨name, values⟩) := by
  obtain ⟨dialect, hdialect, h⟩ := transform_parsed h
  exact ⟨dialect, hdialect, fun _ _ _ _ hlists =>
    hlists.kept (Outcome.ofParsed_models h) (Outcome.ofParsed_enums h)⟩

/-- What a source with one entity class asks for, and the values that a column of the class lists. -/
def Requests (source : String) (requests : List EnumType) (model field : String)
    (values : List String) : Prop :=
  Extracts source (List.map Model.name) [model] ∧
  let u := SourceUnit.read .typescript source {}
  enumRequests u = requests ∧ ∃ class_ ∈ u.place.find Place.classKinds, isEntity u class_ = true ∧
    class_.tree.className u.source = some model ∧ ∃ member ∈ members u.source class_,
      member.name = field ∧ ∃ d ∈ (member.decorator? u.source).toList, d.role = .plain ∧
        Scope.listed ⟨u, model, declaredEnums u⟩ d.node.decoratorArguments = some values

instance (source : String) (requests : List EnumType) (model field : String) (values : List String) :
    Decidable (Requests source requests model field values) :=
  inferInstanceAs (Decidable (_ ∧ _))

/-- Such a source has an outcome with the enumerations of its requests, and the column is one that lists
values in place. -/
theorem Requests.exists_ok {source model field : String} {requests : List EnumType}
    {values : List String} (h : Requests source requests model field values)
    (hfilled : values ≠ [] ∧ "" ∉ values) :
    ∃ o, (transform source "typescript" {} none).1 = .ok o ∧ o.enums = noteAll requests [] ∧
      ∃ class_ member, member.name = field ∧
        ListsEnum (.read .typescript source {}) class_ model member values := by
  obtain ⟨hextracts, hrequests, class_, hfound, hentity, hnamed, member, hmem, hname, d, hd, hrole,
    hlisted⟩ := h
  obtain ⟨o, ho, -⟩ := hextracts.exists_ok
  obtain ⟨dialect, hdialect, henums⟩ := transform_enums ho
  cases hdialect
  exact ⟨o, ho, by rw [henums, hrequests], class_, member, hname, hfound, hentity, hnamed, hmem,
    ⟨d, by simpa using hd, hrole, hlisted⟩, hfilled⟩

def listsSample : String :=
  "@Entity() class A \x7b @Column(\x7b enum: ['p', 'q'] \x7d) b; @Column(\x7b enum: ['r'] \x7d) c; \x7d"

theorem listsSample_requests :
    Requests listsSample [⟨"AB", ["p", "q"]⟩, ⟨"AC", ["r"]⟩] "A" "b" ["p", "q"] := by
  decide +kernel

theorem inline_enums_sample : ∃ o, (transform listsSample "typescript" {} none).1 = .ok o ∧
    o.enums.filter (·.name == "AB") = [⟨"AB", ["p", "q"]⟩] := by
  obtain ⟨o, ho, -, class_, member, hname, hlists⟩ := listsSample_requests.exists_ok (by decide)
  obtain ⟨dialect, hdialect, hinline⟩ := inline_enums_iff ho
  cases hdialect
  obtain ⟨-, kept, hkept, hiff⟩ := hinline class_ "A" member ["p", "q"] hlists
  have hmade : "A" ++ upperFirst member.name = "AB" := by
    rw [hname]
    decide
  have hfirst : (enumRequests (.read .typescript listsSample {})).find? (·.name == "AB") =
      some ⟨"AB", ["p", "q"]⟩ := by
    rw [listsSample_requests.2.1]
    decide
  rw [hmade] at hkept hiff
  obtain rfl : kept = ["p", "q"] := hiff.2 hfirst
  exact ⟨o, ho, hkept⟩

/-- A column with an enumeration that is declared elsewhere, and one that lists the values of its own,
for which the same name is made. -/
def takenSample : String :=
  "@Entity() class Order \x7b @Column(\x7b enum: OrderStatus \x7d) last: OrderStatus; " ++
    "@Column(\x7b enum: ['open', 'done'] \x7d) status: string; \x7d"

theorem takenSample_requests : Requests takenSample
    [⟨"OrderStatus", []⟩, ⟨"OrderStatus", ["open", "done"]⟩] "Order" "status" ["open", "done"] := by
  decide +kernel

/-- The values that the column lists are lost. -/
theorem inline_enums_lost_sample : (parse .typescript takenSample).broken = false ∧
    ∃ o, (transform takenSample "typescript" {} none).1 = .ok o ∧
      o.enums = [⟨"OrderStatus", []⟩] ∧ ∃ class_ member, member.name = "status" ∧
        ListsEnum (.read .typescript takenSample {}) class_ "Order" member ["open", "done"] := by
  obtain ⟨o, ho, henums, hlists⟩ := takenSample_requests.exists_ok (by decide)
  exact ⟨takenSample_requests.1.1, o, ho, by rw [henums]; decide, hlists⟩

end OrmCodemod
