import OrmCodemod.Proofs.WholeCalls

/-! New arguments as what is made of the old ones: nodes as they stand, values under a new key, and
objects around them. A row that gives new arguments uses every argument once; of an object that it
takes apart, every member. -/

namespace OrmCodemod

open Syntax Text Pass

namespace Rules

/-- A new argument, or an entry of one, before it is a text. -/
inductive Part where
  /-- A node as it stands. -/
  | node (t : Tree)
  /-- The value of a member of an object literal. -/
  | value (member : Tree)
  | pair (key : String) (value : Part)
  | object (entries : List Part)

/-- The text of a member's value; a shorthand is a key that is its own value. -/
def valueText (render : Render) (keyOf : KeyOf) (member : Tree) : String :=
  if member.is .pair then ((member.child? .value).map render).getD ""
  else (keyOf member).getD ""

namespace Part

mutual

def text (render : Render) (keyOf : KeyOf) : Part → String
  | node t => render t
  | value member => valueText render keyOf member
  | pair key part => key ++ ": " ++ text render keyOf part
  | object entries => objectText (texts render keyOf entries)

def texts (render : Render) (keyOf : KeyOf) : List Part → List String
  | [] => []
  | part :: parts => text render keyOf part :: texts render keyOf parts

end

mutual

def nodes : Part → List Tree
  | node t => [t]
  | value member => [member]
  | pair _ part => nodes part
  | object entries => nodesOf entries

def nodesOf : List Part → List Tree
  | [] => []
  | part :: parts => nodes part ++ nodesOf parts

end

variable {render : Render} {keyOf : KeyOf}

@[simp] theorem texts_eq (parts : List Part) : texts render keyOf parts = parts.map (text render keyOf) := by
  induction parts with
  | nil => rfl
  | cons part parts ih => rw [texts, ih, List.map_cons]

@[simp] theorem nodesOf_append (ps qs : List Part) : nodesOf (ps ++ qs) = nodesOf ps ++ nodesOf qs := by
  induction ps with
  | nil => rfl
  | cons p ps ih => rw [List.cons_append, nodesOf, ih, nodesOf, List.append_assoc]

theorem nodesOf_map {f : Tree → Part} (h : ∀ t, (f t).nodes = [t]) (ts : List Tree) :
    nodesOf (ts.map f) = ts := by
  induction ts with
  | nil => rfl
  | cons t ts ih => rw [List.map_cons, nodesOf, h, ih, List.singleton_append]

@[simp] theorem nodesOf_node (ts : List Tree) : nodesOf (ts.map node) = ts := nodesOf_map (fun _ => rfl) ts

end Part

variable {keyOf : KeyOf} {method : String} {args : List Tree} {parts : List Part}

/-- Some member of an object literal has a key. -/
def HasKey (keyOf : KeyOf) (object : Tree) (key : String) : Prop :=
  ∃ m ∈ object.significant, keyOf m = some key

/-- The member tells which object is meant: its key is `id`, and its value is one. -/
def isIdentity (keyOf : KeyOf) (m : Tree) : Bool :=
  keyOf m == some "id" && m.memberValue.any fun v => !v.isAny [.nullLiteral, .undefinedLiteral]

/-- A member as an entry of new options: `relations` are `include`. -/
def optionPart (keyOf : KeyOf) (m : Tree) : Part :=
  if keyOf m = some "relations" then .pair "include" (.value m) else .node m

def criteriaOf (keyOf : KeyOf) (object : Tree) : List Tree :=
  object.significant.filter fun m => !isOption keyOf m

def identityKinds : List NodeKind := [.numberLiteral, .stringLiteral, .identifier, .memberExpression]

/-- The new arguments of each method. -/
inductive Layout (keyOf : KeyOf) : String → List Tree → List Part → Prop where
  /-- The first argument is the criteria. -/
  | searched {method : String} {first : Tree} {rest : List Tree} (hm : method ∈ ["findOneBy", "findBy"]) :
      Layout keyOf method (first :: rest) (.object [.pair "where" (.node first)] :: rest.map .node)
  /-- Criteria are given as such: all members stay in order. -/
  | given {options : Tree} {rest : List Tree} (ho : options.is .object = true)
      (hw : HasKey keyOf options "where") (hr : HasKey keyOf options "relations") :
      Layout keyOf "findOne" (options :: rest)
        (.object (options.significant.map (optionPart keyOf)) :: rest.map .node)
  /-- The options come first, and the other members are the criteria. -/
  | gathered {options : Tree} {rest : List Tree} (ho : options.is .object = true)
      (hw : ¬HasKey keyOf options "where") (hc : criteriaOf keyOf options ≠ []) :
      Layout keyOf "findOne" (options :: rest)
        (.object ((options.significant.filter (isOption keyOf)).map (optionPart keyOf) ++
          [.pair "where" (.object ((criteriaOf keyOf options).map .node))]) :: rest.map .node)
  /-- There are only options. -/
  | unfiltered {options : Tree} {rest : List Tree} (ho : options.is .object = true)
      (hw : ¬HasKey keyOf options "where") (hc : criteriaOf keyOf options = [])
      (hr : HasKey keyOf options "relations") :
      Layout keyOf "findOne" (options :: rest)
        (.object (options.significant.map (optionPart keyOf)) :: rest.map .node)
  /-- An object without an identity, or anything else, is all data. -/
  | created {only : Tree}
      (hno : only.is .object = true → ∀ m ∈ only.significant, isIdentity keyOf m = false) :
      Layout keyOf "save" [only] [.object [.pair "data" (.node only)]]
  /-- The first identity of an object is its criteria, and the other members are the data. -/
  | saved {object member : Tree} {before after : List Tree} (ho : object.is .object = true)
      (hmembers : object.significant = before ++ member :: after)
      (hid : isIdentity keyOf member = true) (hfirst : ∀ m ∈ before, isIdentity keyOf m = false) :
      Layout keyOf "save" [object]
        [.object [.pair "where" (.object [.pair "id" (.value member)]),
          .pair "data" (.object ((before ++ after).map .node))]]
  /-- Criteria and data. -/
  | updated {criteria data : Tree} {rest : List Tree} (ho : criteria.is .object = true) :
      Layout keyOf "update" (criteria :: data :: rest)
        (.object [.pair "where" (.node criteria), .pair "data" (.node data)] :: rest.map .node)
  /-- Identity and data. -/
  | updatedById {id data : Tree} {rest : List Tree} (ho : id.is .object = false) :
      Layout keyOf "update" (id :: data :: rest)
        (.object [.pair "where" (.object [.pair "id" (.node id)]), .pair "data" (.node data)] ::
          rest.map .node)
  | deleted {method : String} {criteria : Tree} {rest : List Tree} (hm : method ∈ ["delete", "remove"])
      (ho : criteria.is .object = true) :
      Layout keyOf method (criteria :: rest)
        (.object [.pair "where" (.node criteria)] :: rest.map .node)
  | deletedById {method : String} {id : Tree} {rest : List Tree} (hm : method ∈ ["delete", "remove"])
      (hk : id.isAny identityKinds = true) :
      Layout keyOf method (id :: rest)
        (.object [.pair "where" (.object [.pair "id" (.node id)])] :: rest.map .node)
  | counted {criteria : Tree} {rest : List Tree} (ho : criteria.is .object = true)
      (hw : ¬HasKey keyOf criteria "where") :
      Layout keyOf "count" (criteria :: rest)
        (.object [.pair "where" (.node criteria)] :: rest.map .node)

/-- Arguments that the grammar has; the members of an object literal stand apart. -/
structure Grammatical (args : List Tree) : Prop where
  arguments : ∀ a ∈ args, a.isArgument = true
  members : ∀ a ∈ args, a.is .object = true → ∀ m ∈ a.significant, m.isMember = true
  apart : ∀ a ∈ args, a.is .object = true →
    a.significant.Pairwise fun m n => ¬(m.start = n.start ∧ m.stop = n.stop)

theorem grammatical_of_parts {u : SourceUnit} (hu : u.Composed) {x : Place.RepositoryCall}
    (hp : x.Parts) (hw : x.call.tree.Within u.root) : Grammatical x.call.tree.callArguments := by
  have hargs := (Tree.within_of_mem (Tree.child?_mem hp.arguments)).trans hw
  rw [Calls.Scene.callArguments_eq hp]
  have hlist := Tree.test_within hu.composed hargs
  simp only [Tree.composed, hp.argumentsKind, Bool.not_true, Bool.false_or, Bool.and_eq_true,
    List.all_eq_true] at hlist
  have hobject : ∀ a ∈ x.arguments.significant, a.is .object = true → a.ordered = true ∧
      ∀ m ∈ a.significant, m.isMember = true ∧ m.start < m.stop := by
    intro a ha ho
    have hw := (Tree.within_of_mem (Tree.significant_mem ha)).trans hargs
    have htest := Tree.test_within hu.composed hw
    simp only [Tree.composed, ho, Bool.not_true, Bool.false_or, Bool.and_eq_true, List.all_eq_true,
      decide_eq_true_eq] at htest
    exact ⟨Tree.test_within hu.ordered hw, htest.2⟩
  refine ⟨hlist.1, fun a ha ho m hm => ((hobject a ha ho).2 m hm).1, fun a ha ho => ?_⟩
  obtain ⟨hord, hmembers⟩ := hobject a ha ho
  have hsub : a.significant.Sublist a.children := List.filter_sublist.trans List.filter_sublist
  refine ((Tree.inOrder_pairwise hord).sublist hsub).imp_of_mem fun {m n} hm hn hle => ?_
  have := (hmembers m hm).2
  have := (hmembers n hn).2
  omega

theorem grammatical_arguments {u : SourceUnit} (hu : u.Composed) {x : Place.RepositoryCall}
    (hx : Calls.Convertible u x) : Grammatical x.call.tree.callArguments :=
  grammatical_of_parts hu hx.parts hx.rooted.within

/-- Every argument is used once and in order; in the place of an object that is taken apart stand its
members, each of them once. -/
def UsesAll (args : List Tree) (parts : List Part) : Prop :=
  Part.nodesOf parts = args ∨
    ∃ object rest members, args = object :: rest ∧ object.is .object = true ∧
      Part.nodesOf parts = members ++ rest ∧ members.Perm object.significant

theorem optionPart_nodes (m : Tree) : (optionPart keyOf m).nodes = [m] := by
  unfold optionPart
  split <;> rfl

@[simp] theorem nodesOf_options (members : List Tree) :
    Part.nodesOf (members.map (optionPart keyOf)) = members := Part.nodesOf_map optionPart_nodes members

theorem Layout.usesAll (h : Layout keyOf method args parts) : UsesAll args parts := by
  cases h with
  | searched | created | updated | updatedById | deleted | deletedById | counted =>
    exact .inl (by simp [Part.nodesOf, Part.nodes])
  | @given options rest ho | @unfiltered options rest ho =>
    exact .inr ⟨options, rest, _, rfl, ho, by simp [Part.nodesOf, Part.nodes], .refl _⟩
  | @gathered options rest ho =>
    refine .inr ⟨options, rest, options.significant.filter (isOption keyOf) ++
      criteriaOf keyOf options, rfl, ho, ?_, List.filter_append_perm _ _⟩
    simp [Part.nodesOf, Part.nodes]
  | @saved object member before after ho hmembers =>
    refine .inr ⟨object, [], member :: (before ++ after), rfl, ho, ?_, ?_⟩
    · simp [Part.nodesOf, Part.nodes]
    · rw [hmembers]
      exact List.perm_middle.symm

section Texts

variable {render : Render} {rule : Rule}

theorem memberValue_of_pair {m : Tree} (h : m.is .pair = true) : m.memberValue = m.child? .value := by
  rw [Tree.memberValue, if_pos h]

theorem text_optionPart {m : Tree} (hm : m.isMember = true) :
    (optionPart keyOf m).text render keyOf = renameRelations render keyOf m := by
  unfold optionPart renameRelations
  by_cases hk : keyOf m = some "relations"
  · rw [if_pos hk, if_neg (by simp [hk]), Part.text, Part.text, valueText]
    cases hp : m.is .pair with
    | true =>
      obtain ⟨v, hv, hexp⟩ : ∃ v, m.child? .value = some v ∧ v.isExpression = true := by
        have hkind := Tree.is_iff.1 hp
        simpa [Tree.isMember, Tree.isAny, Tree.is, hkind, Option.any_eq_true] using hm
      have hshort : v.is .shorthandPropertyIdentifier = false := by
        by_contra hcon
        rw [Bool.not_eq_false] at hcon
        rw [Tree.isExpression, Tree.not_isAny_of_is hcon (by decide)] at hexp
        cases hexp
      simp [memberValue_of_pair hp, hv, hshort]
    | false =>
      simp only [Tree.memberValue, hp, hk, Bool.false_eq_true, if_false, Option.getD_some]
      cases hs : m.is .shorthandPropertyIdentifier <;> simp [hs]
  · rw [if_neg hk, if_pos (by simpa using hk)]
    rfl

theorem texts_options {object : Tree} (hm : ∀ m ∈ object.significant, m.isMember = true)
    {members : List Tree} (hsub : members ⊆ object.significant) :
    (members.map (optionPart keyOf)).map (Part.text render keyOf) =
      members.map (renameRelations render keyOf) := by
  rw [List.map_map]
  exact List.map_congr_left fun m h => text_optionPart (hm m (hsub h))

theorem texts_nodes (ts : List Tree) : (ts.map Part.node).map (Part.text render keyOf) = ts.map render := by
  rw [List.map_map]
  rfl

theorem any_key_iff {object : Tree} {key : String} :
    (object.significant.any fun m => keyOf m == some key) = true ↔ HasKey keyOf object key := by
  simp [HasKey]

theorem savedId_singleton (object : Tree) : savedId [object] keyOf =
    if object.is .object = true then object.significant.find? (isIdentity keyOf) else none := by
  dsimp only [savedId]
  congr 2
  funext m
  unfold isIdentity
  cases m.memberValue <;> rfl

theorem savedId_eq_some {object m : Tree} : savedId [object] keyOf = some m ↔
    ∃ before after, object.is .object = true ∧ object.significant = before ++ m :: after ∧
      isIdentity keyOf m = true ∧ ∀ n ∈ before, isIdentity keyOf n = false := by
  rw [savedId_singleton]
  by_cases ho : object.is .object = true
  · rw [if_pos ho, List.find?_eq_some_iff_append]
    simp only [Bool.not_eq_true']
    constructor
    · rintro ⟨hid, before, after, hmembers, hfirst⟩
      exact ⟨before, after, ho, hmembers, hid, hfirst⟩
    · rintro ⟨before, after, -, hmembers, hid, hfirst⟩
      exact ⟨hid, before, after, hmembers, hfirst⟩
  · rw [if_neg ho]
    simp [ho]

theorem savedId_eq_none {only : Tree} : savedId [only] keyOf = none ↔
    (only.is .object = true → ∀ m ∈ only.significant, isIdentity keyOf m = false) := by
  rw [savedId_singleton]
  by_cases ho : only.is .object = true
  · simp [ho]
  · simp [ho]

theorem reshape_eq {f : List Tree → Render → KeyOf → Option (List String)}
    (h : rule? method = some rule) (hf : (rule? method).map Rule.reshape = some f) :
    rule.reshape = f := by
  simpa [h] using hf

/-- Without the identity, the members are those before and after it. -/
theorem filter_apart {object member : Tree} {before after : List Tree}
    (hmembers : object.significant = before ++ member :: after)
    (hapart : object.significant.Pairwise fun m n => ¬(m.start = n.start ∧ m.stop = n.stop)) :
    (object.significant.filter fun m => !(m.start == member.start && m.stop == member.stop)) =
      before ++ after := by
  rw [hmembers] at hapart ⊢
  obtain ⟨-, hafter, hbefore⟩ := List.pairwise_append.1 hapart
  rw [List.filter_append, List.filter_cons_of_neg (by simp), List.filter_eq_self.2,
    List.filter_eq_self.2]
  · intro m hm
    have := (List.pairwise_cons.1 hafter).1 m hm
    simp only [Bool.not_eq_true', Bool.and_eq_false_iff, beq_eq_false_iff_ne]
    omega
  · intro m hm
    have := hbefore m hm member (by simp)
    simp only [Bool.not_eq_true', Bool.and_eq_false_iff, beq_eq_false_iff_ne]
    omega

theorem valueText_identity (render : Render) {m : Tree} (hid : isIdentity keyOf m = true) :
    ∃ v, m.memberValue = some v ∧ valueText render keyOf m =
      if m.is .shorthandPropertyIdentifier = true then "id" else render v := by
  simp only [isIdentity, Bool.and_eq_true, beq_iff_eq, Option.any_eq_true] at hid
  obtain ⟨hk, v, hv, -⟩ := hid
  refine ⟨v, hv, ?_⟩
  unfold valueText
  cases hp : m.is .pair with
  | true =>
    rw [memberValue_of_pair hp] at hv
    have hshort : m.is .shorthandPropertyIdentifier = false := by
      simp [Tree.is, Tree.is_iff.1 hp]
    simp [hv, hshort]
  | false =>
    have hshort : m.is .shorthandPropertyIdentifier = true := by
      by_contra hcon
      simp [Tree.memberValue, hp, hcon] at hv
    simp [hk, hshort]

theorem Layout.reshape (hrule : rule? method = some rule) (hargs : Grammatical args)
    (h : Layout keyOf method args parts) :
    rule.reshape args render keyOf = some (parts.map (Part.text render keyOf)) := by
  cases h with
  | @searched _ first rest hm =>
    have hr : rule.reshape = wrapInWhere := by
      fin_cases hm <;> exact reshape_eq hrule rfl
    rw [hr, wrapInWhere, List.map_cons, texts_nodes]
    rfl
  | @given options rest ho hw hr =>
    rw [reshape_eq hrule (f := findOne) rfl, findOne, if_pos ho, findOneEntries,
      if_pos (any_key_iff.2 hw), if_pos (any_key_iff.2 hr), List.map_cons, texts_nodes, Part.text,
      Part.texts_eq, texts_options (hargs.members options (by simp) ho) (List.Subset.refl _)]
    rfl
  | @gathered options rest ho hw hc =>
    have hempty : (criteriaOf keyOf options).isEmpty = false := by simpa using hc
    rw [reshape_eq hrule (f := findOne) rfl, findOne, if_pos ho, findOneEntries,
      if_neg (by rwa [any_key_iff]), List.map_cons, texts_nodes, Part.text,
      Part.texts_eq, List.map_append, texts_options (hargs.members options (by simp) ho)
        List.filter_sublist.subset]
    unfold criteriaOf at hempty ⊢
    simp [hempty, Part.text, Function.comp_def]
  | @unfiltered options rest ho hw hc hr =>
    have hall : options.significant.filter (isOption keyOf) = options.significant := by
      refine List.filter_eq_self.2 fun m hm => ?_
      have := List.filter_eq_nil_iff.1 hc m hm
      simpa using this
    rw [reshape_eq hrule (f := findOne) rfl, findOne, if_pos ho, findOneEntries,
      if_neg (by rwa [any_key_iff]), List.map_cons, texts_nodes, Part.text,
      Part.texts_eq, texts_options (hargs.members options (by simp) ho) (List.Subset.refl _)]
    unfold criteriaOf at hc
    simp [hall, hc, any_key_iff.2 hr]
  | @created only hno =>
    rw [reshape_eq hrule (f := save) rfl, save, savedId_eq_none.2 hno]
    rfl
  | @saved object member before after ho hmembers hid hfirst =>
    obtain ⟨v, hv, htext⟩ := valueText_identity render hid
    rw [reshape_eq hrule (f := save) rfl, save,
      savedId_eq_some.2 ⟨before, after, ho, hmembers, hid, hfirst⟩]
    simp only [filter_apart hmembers (hargs.apart object (by simp) ho), hv, ← htext]
    simp [Part.text, idText, Function.comp_def]
  | @updated criteria data rest ho =>
    rw [reshape_eq hrule (f := update) rfl, update, ho, List.map_cons, texts_nodes]
    rfl
  | @updatedById id data rest ho =>
    rw [reshape_eq hrule (f := update) rfl, update, ho, List.map_cons, texts_nodes]
    rfl
  | @deleted _ criteria rest hm ho =>
    have hr : rule.reshape = delete := by
      fin_cases hm <;> exact reshape_eq hrule rfl
    rw [hr, delete, Tree.not_isAny_of_is ho (by decide), ho, List.map_cons, texts_nodes]
    rfl
  | @deletedById _ id rest hm hk =>
    have hr : rule.reshape = delete := by
      fin_cases hm <;> exact reshape_eq hrule rfl
    unfold identityKinds at hk
    rw [hr, delete, hk, List.map_cons, texts_nodes]
    rfl
  | @counted criteria rest ho hw =>
    have hany : (criteria.significant.any fun m => keyOf m == some "where") = false := by
      rwa [← Bool.not_eq_true, any_key_iff]
    rw [reshape_eq hrule (f := count) rfl, count, ho, hany, List.map_cons, texts_nodes]
    rfl

theorem exists_layout_search (hm : method ∈ ["findOneBy", "findBy"])
    (h : (wrapInWhere args render keyOf).isSome) : ∃ parts, Layout keyOf method args parts := by
  cases args with
  | nil => cases h
  | cons first rest => exact ⟨_, .searched hm⟩

theorem exists_layout_findOne (h : (findOne args render keyOf).isSome) :
    ∃ parts, Layout keyOf "findOne" args parts := by
  cases args with
  | nil => simp [findOne] at h
  | cons options rest =>
    cases ho : options.is .object with
    | false => simp [findOne, ho] at h
    | true =>
      simp only [findOne, ho, if_true, Option.isSome_map, findOneEntries] at h
      by_cases hw : HasKey keyOf options "where"
      · rw [if_pos (any_key_iff.2 hw)] at h
        by_cases hr : HasKey keyOf options "relations"
        · exact ⟨_, .given ho hw hr⟩
        · rw [if_neg (by rwa [any_key_iff])] at h
          cases h
      · rw [if_neg (by rwa [any_key_iff])] at h
        by_cases hc : criteriaOf keyOf options = []
        · by_cases hr : HasKey keyOf options "relations"
          · exact ⟨_, .unfiltered ho hw hc hr⟩
          · have hany : (options.significant.any fun m => keyOf m == some "relations") = false := by
              rwa [← Bool.not_eq_true, any_key_iff]
            unfold criteriaOf at hc
            simp [hc, hany] at h
        · exact ⟨_, .gathered ho hw hc⟩

theorem exists_layout_save (h : (save args render keyOf).isSome) :
    ∃ parts, Layout keyOf "save" args parts := by
  match args with
  | [] => simp [save] at h
  | _ :: _ :: _ => simp [save] at h
  | [only] =>
    cases hid : savedId [only] keyOf with
    | none => exact ⟨_, .created (savedId_eq_none.1 hid)⟩
    | some m =>
      obtain ⟨before, after, ho, hmembers, hid, hfirst⟩ := savedId_eq_some.1 hid
      exact ⟨_, .saved ho hmembers hid hfirst⟩

theorem exists_layout_update (h : (update args render keyOf).isSome) :
    ∃ parts, Layout keyOf "update" args parts := by
  match args with
  | [] => simp [update] at h
  | [_] => simp [update] at h
  | criteria :: data :: rest =>
    cases ho : criteria.is .object with
    | true => exact ⟨_, .updated ho⟩
    | false => exact ⟨_, .updatedById ho⟩

theorem exists_layout_delete (hm : method ∈ ["delete", "remove"])
    (h : (delete args render keyOf).isSome) : ∃ parts, Layout keyOf method args parts := by
  cases args with
  | nil => simp [delete] at h
  | cons first rest =>
    cases hk : first.isAny identityKinds with
    | true => exact ⟨_, .deletedById hm hk⟩
    | false =>
      cases ho : first.is .object with
      | true => exact ⟨_, .deleted hm ho⟩
      | false =>
        unfold identityKinds at hk
        simp [delete, hk, ho] at h

theorem exists_layout_count (h : (count args render keyOf).isSome) :
    ∃ parts, Layout keyOf "count" args parts := by
  cases args with
  | nil => simp [count] at h
  | cons criteria rest =>
    by_cases ho : criteria.is .object = true ∧ ¬HasKey keyOf criteria "where"
    · exact ⟨_, .counted ho.1 ho.2⟩
    · have hno : (criteria.is .object && !criteria.significant.any fun m =>
          keyOf m == some "where") = false := by
        rw [← Bool.not_eq_true, Bool.and_eq_true, Bool.not_eq_true', ← Bool.not_eq_true, any_key_iff]
        exact ho
      simp only [count, hno] at h
      cases h

theorem exists_layout (hrule : rule? method = some rule)
    (h : (rule.reshape args render keyOf).isSome) : ∃ parts, Layout keyOf method args parts := by
  have hmem := mem_table hrule
  simp only [table, List.mem_cons, Prod.mk.injEq, List.not_mem_nil, or_false] at hmem
  rcases hmem with ⟨rfl, rfl⟩ | ⟨rfl, rfl⟩ | ⟨rfl, rfl⟩ | ⟨rfl, rfl⟩ | ⟨rfl, rfl⟩ | ⟨rfl, rfl⟩ |
    ⟨rfl, rfl⟩ | ⟨rfl, rfl⟩ | ⟨rfl, rfl⟩ | ⟨rfl, rfl⟩
  · cases h
  · exact exists_layout_findOne h
  · exact exists_layout_search (by simp) h
  · exact exists_layout_search (by simp) h
  · exact exists_layout_save h
  · exact exists_layout_update h
  · exact exists_layout_delete (by simp) h
  · exact exists_layout_delete (by simp) h
  · exact exists_layout_count h
  · cases h

/-- A row gives new arguments exactly where they have a layout, and then as its text. -/
theorem reshape_iff (hrule : rule? method = some rule) (hargs : Grammatical args)
    {texts : List String} : rule.reshape args render keyOf = some texts ↔
      ∃ parts, Layout keyOf method args parts ∧ texts = parts.map (Part.text render keyOf) := by
  constructor
  · intro h
    obtain ⟨parts, hparts⟩ := exists_layout hrule (Option.isSome_iff_exists.2 ⟨texts, h⟩)
    exact ⟨parts, hparts, Option.some.inj (h.symm.trans (hparts.reshape hrule hargs))⟩
  · rintro ⟨parts, hparts, rfl⟩
    exact hparts.reshape hrule hargs

/-- The arguments of an update by identity. -/
def IsUpdateForm (parts : List Part) : Prop :=
  ∃ member others, parts = [.object [.pair "where" (.object [.pair "id" (.value member)]),
    .pair "data" (.object others)]]

/-- What is saved is updated exactly where it has an identity. -/
theorem method_eq_update (hrule : rule? "save" = some rule) :
    rule.method args keyOf = "update" ↔ (savedId args keyOf).isSome := by
  have hm : rule.method = saveMethod := by
    have : (rule? "save").map Rule.method = some saveMethod := rfl
    simpa [hrule] using this
  rw [hm, saveMethod]
  split <;> simp_all

/-- What is saved is updated exactly where its arguments are those of an update. -/
theorem Layout.updates (hrule : rule? "save" = some rule) (h : Layout keyOf "save" args parts) :
    rule.method args keyOf = "update" ↔ IsUpdateForm parts := by
  rw [method_eq_update hrule]
  generalize hsave : "save" = method at h
  cases h with
  | @created only hno =>
    rw [savedId_eq_none.2 hno]
    simp [IsUpdateForm]
  | @saved object member before after ho hmembers hid hfirst =>
    rw [savedId_eq_some.2 ⟨before, after, ho, hmembers, hid, hfirst⟩]
    exact iff_of_true rfl ⟨member, _, rfl⟩
  | searched hm | deleted hm | deletedById hm =>
    subst hsave
    simp at hm
  | given | gathered | unfiltered | updated | updatedById | counted => simp at hsave

theorem not_updates (hrule : rule? "save" = some rule) (hno : rule.reshape args render keyOf = none) :
    rule.method args keyOf ≠ "update" := by
  rw [Ne, method_eq_update hrule]
  rw [reshape_eq hrule (f := save) rfl] at hno
  intro hsome
  match args with
  | [] => cases hsome
  | _ :: _ :: _ => cases hsome
  | [only] =>
    unfold save at hno
    cases hid : savedId [only] keyOf <;> simp [hid] at hno

end Texts

end Rules

namespace Calls

open Rules

variable {u : SourceUnit} {x : Place.RepositoryCall} {rule : Rule} {owner : Tree}

theorem convertible_of_mem (hx : x ∈ u.place.repositoryCalls)
    (hrule : rule? (x.method.text u.source) = some rule)
    (howner : x.receiver.child? .object = some owner) : Convertible u x := by
  obtain ⟨p, -, hp⟩ := List.mem_filterMap.1 hx
  have hcall := (Place.repositoryCall?_parts hp).1
  exact ⟨(Place.mem_repositoryCalls u.place_rooted hx).1, hcall ▸ hp, ⟨rule, hrule⟩, ⟨owner, howner⟩⟩

theorem replaced_of_edit {t : Tree} {text : String} {s s' : Session}
    (h : (edit (·.replace t text)).result s = (.ok (), s')) :
    s.editor.replaceRange t.start t.stop text = .ok s'.editor := by
  rw [result_edit] at h
  cases hr : s.editor.replaceRange t.start t.stop text with
  | error o =>
    dsimp only [Editor.replace] at h
    rw [hr] at h
    cases h
  | ok ed =>
    dsimp only [Editor.replace] at h
    rw [hr] at h
    cases h
    rfl

/-- After its conversion, the arguments of a call read as its row says, or as they read before. -/
theorem apply_arguments (hu : u.Closed) (hx : Convertible u x) {s s' : Session}
    (hs : s.editor.Sound) (h : (apply u x owner rule).result s = (.ok (), s')) :
    s'.editor.renderBytes x.arguments.start x.arguments.stop =
      match rule.reshape x.call.tree.callArguments (renderText s.editor)
        (fun m => m.memberKey u.source) with
      | some texts => encode ("(" ++ joinWith ", " texts ++ ")")
      | none => s.editor.renderBytes x.arguments.start x.arguments.stop := by
  have ho := hx.order hu
  obtain ⟨log, hmodel⟩ := modelOf_result u x.call s
  rw [apply_result hmodel] at h
  obtain ⟨_, s1, hcallee, hargs⟩ := result_bind_eq_ok h
  have hfirst := replaced_of_edit hcallee
  cases hnew : rule.reshape x.call.tree.callArguments (renderText s.editor)
      fun m => m.memberKey u.source with
  | none =>
    rw [hnew] at hargs
    cases hargs
    exact Editor.renderBytes_apart hs ho.1 (.inl ho.2.1) hfirst
  | some texts =>
    rw [hnew] at hargs
    exact Editor.renderBytes_replaced ho.2.2.1 (replaced_of_edit hargs)

end Calls

namespace Rules

/-- A row that gives new arguments makes them of the old ones, in the layout of its method and each of
them once; what is saved is updated exactly where its criteria and its data are told apart. A row that
gives none has no layout for the arguments. A call whose conversion ends well has the new arguments in
the place of its own, and its own as they read before where there are none. -/
theorem new_arguments {method : String} {rule : Rule} (hrule : rule? method = some rule)
    {args : List Tree} (hargs : Grammatical args) (render : Render) (keyOf : KeyOf) :
    (match rule.reshape args render keyOf with
    | some texts => ∃ parts, Layout keyOf method args parts ∧ UsesAll args parts ∧
        texts = parts.map (Part.text render keyOf) ∧
        (method = "save" → (rule.method args keyOf = "update" ↔ IsUpdateForm parts))
    | none => (∀ parts, ¬Layout keyOf method args parts) ∧
        (method = "save" → rule.method args keyOf ≠ "update")) ∧
    ∀ (u : SourceUnit) (x : Place.RepositoryCall) (owner : Tree) (s s' : Session), u.Closed →
      Calls.Convertible u x → s.editor.Sound →
      (Calls.apply u x owner rule).result s = (.ok (), s') →
      s'.editor.renderBytes x.arguments.start x.arguments.stop =
        match rule.reshape x.call.tree.callArguments (Calls.renderText s.editor)
          (fun m => m.memberKey u.source) with
        | some texts => encode ("(" ++ joinWith ", " texts ++ ")")
        | none => s.editor.renderBytes x.arguments.start x.arguments.stop := by
  refine ⟨?_, fun u x owner s s' hu hx hs h => Calls.apply_arguments hu hx hs h⟩
  cases hnew : rule.reshape args render keyOf with
  | none =>
    refine ⟨fun parts hparts => ?_, ?_⟩
    · rw [hparts.reshape hrule hargs] at hnew
      cases hnew
    · rintro rfl
      exact not_updates hrule hnew
  | some texts =>
    obtain ⟨parts, hparts, htexts⟩ := (reshape_iff hrule hargs).1 hnew
    refine ⟨parts, hparts, hparts.usesAll, htexts, ?_⟩
    rintro rfl
    exact hparts.updates hrule

def searchSample : String := "a.repository.findOne(\x7b name, relations: r, ...rest \x7d, q)"

def searchUnit : SourceUnit := ⟨encode searchSample, (parse .typescript searchSample).root, {}⟩

def searchStart : Session := { editor := { source := searchUnit.source } }

def searchRow : Rule := { renamed "findUnique" with reshape := findOne }

theorem searchUnit_composed : searchUnit.Composed :=
  (parse_sheltered .typescript searchSample {}).toComposed

theorem searchUnit_calls : searchUnit.place.repositoryCalls.map (fun x =>
    (x.method.text searchUnit.source, (x.receiver.child? .object).map fun owner =>
      (((Calls.apply searchUnit x owner searchRow).result searchStart).1,
        searchRow.reshape x.call.tree.callArguments (Calls.renderText searchStart.editor)
          fun m => m.memberKey searchUnit.source))) =
    [("findOne", some (.ok (), some ["\x7binclude: r, where: \x7bname, ...rest\x7d\x7d", "q"]))] := by
  decide +kernel

theorem new_arguments_sample : ∃ x owner s', x ∈ searchUnit.place.repositoryCalls ∧
    (Calls.apply searchUnit x owner searchRow).result searchStart = (.ok (), s') ∧
    (∃ parts, Layout (fun m => m.memberKey searchUnit.source) "findOne" x.call.tree.callArguments parts ∧
      UsesAll x.call.tree.callArguments parts ∧
      parts.map (Part.text (Calls.renderText searchStart.editor) fun m =>
        m.memberKey searchUnit.source) = ["\x7binclude: r, where: \x7bname, ...rest\x7d\x7d", "q"]) ∧
    s'.editor.renderBytes x.arguments.start x.arguments.stop =
      encode "(\x7binclude: r, where: \x7bname, ...rest\x7d\x7d, q)" := by
  have hcalls := searchUnit_calls
  obtain ⟨x, hx⟩ := List.length_eq_one_iff.1 (by simpa using congrArg List.length hcalls)
  rw [hx, List.map_singleton, List.singleton_inj, Prod.mk.injEq, Option.map_eq_some_iff] at hcalls
  obtain ⟨hmethod, owner, howner, heq⟩ := hcalls
  obtain ⟨hrun, htexts⟩ := Prod.mk.injEq _ _ _ _ ▸ heq
  have hmem : x ∈ searchUnit.place.repositoryCalls := hx ▸ List.mem_singleton_self x
  have hrule : rule? (x.method.text searchUnit.source) = some searchRow := by
    rw [hmethod]
    rfl
  have hconv := Calls.convertible_of_mem hmem hrule howner
  obtain ⟨hlayout, hrender⟩ := new_arguments hrule (grammatical_arguments searchUnit_composed hconv)
    (Calls.renderText searchStart.editor) fun m => m.memberKey searchUnit.source
  have hplaced := hrender searchUnit x owner searchStart _ searchUnit_composed.toClosed hconv
    (Editor.sound_fresh _) (Prod.ext hrun rfl)
  rw [htexts] at hlayout hplaced
  obtain ⟨parts, hparts, huses, heq, -⟩ := hlayout
  exact ⟨x, owner, _, hmem, Prod.ext hrun rfl, ⟨parts, hmethod ▸ hparts, huses, heq.symm⟩, hplaced⟩

end Rules
end OrmCodemod
