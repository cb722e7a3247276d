import OrmCodemod.Pass.Outcome
import OrmCodemod.Proofs.Content
import OrmCodemod.Proofs.PostOrder

/-! The scope of the model of a call. It is told by the callee, by the name of the innermost class around
the call, by the fields of the body of that class, and by the parameter properties in the body that no
class inside of it holds. What stands elsewhere has no part in it. -/

namespace OrmCodemod.Resolver

open Syntax Text

def parameterKinds : List NodeKind := [.requiredParameter, .optionalParameter]

mutual

/-- The parameter properties at a node and below it that lie in no class there, inner ones first. -/
def ownParameters : Tree → List Tree
  | .node k r a b cs =>
    let t := Syntax.Tree.node k r a b cs
    if t.isAny Place.classKinds then []
    else ownParametersIn cs ++ if t.isAny parameterKinds && isParameterProperty t then [t] else []

def ownParametersIn : List Tree → List Tree
  | [] => []
  | t :: ts => ownParameters t ++ ownParametersIn ts

end

/-- The parameter properties in the body of a class that belong to the class. -/
def classParameters (class_ : Tree) : List Tree :=
  match class_.child? .body with
  | some body => ownParameters body
  | none => []

def fieldMembers (class_ : Tree) : List Tree :=
  match class_.child? .body with
  | some body => body.namedChildren.filter (·.isAny [.publicFieldDefinition, .fieldDefinition])
  | none => []

def entityNamed (role : Role) (member : String) (source : Bytes) (t : Tree) : Option String := do
  let name ← t.child? role
  if name.text source == member then declaredEntity t source else none

/-- No two classes of a tree have one range. -/
def ClassesApart (root : Tree) : Prop :=
  ((⟨root, []⟩ : Place).find Place.classKinds).Pairwise
    fun p q => ¬(p.start = q.start ∧ p.stop = q.stop)

instance (root : Tree) : Decidable (ClassesApart root) := inferInstanceAs (Decidable (List.Pairwise _ _))

variable {root t : Tree} {path : List Crumb} {class_ k p q : Place} {source source' : Bytes}
  {member : String}

theorem classAbove_length (h : Place.classAbove path = some k) : k.path.length < path.length := by
  induction path with
  | nil => cases h
  | cons c path ih =>
    unfold Place.classAbove at h
    split at h
    · obtain rfl := Option.some.inj h
      exact Nat.lt_succ_self _
    · exact (ih h).trans (Nat.lt_succ_self _)

theorem classAbove_below {c : Crumb} (hc : c.parent.isAny Place.classKinds = true) :
    ∀ way : List Crumb, c :: path <:+ way →
      ∃ k, Place.classAbove way = some k ∧ path.length ≤ k.path.length := by
  intro way
  induction way with
  | nil => exact fun h => by simp at h
  | cons d way ih =>
    intro h
    unfold Place.classAbove
    split
    · refine ⟨_, rfl, ?_⟩
      have := h.length_le
      simpa using this
    · rename_i hd
      rcases List.suffix_cons_iff.1 h with heq | h
      · obtain ⟨rfl, -⟩ := List.cons_eq_cons.1 heq
        exact absurd hc hd
      · exact ih h

theorem classAbove_rooted : ∀ (path : List Crumb) (t : Tree), Place.Rooted root ⟨t, path⟩ →
    Place.classAbove path = some k → Place.Rooted root k ∧ k.tree.isAny Place.classKinds = true := by
  intro path
  induction path with
  | nil => exact fun _ _ h => by cases h
  | cons c path ih =>
    intro t ht h
    obtain ⟨hparent, -⟩ := ht.siblings
    unfold Place.classAbove at h
    split at h
    · rename_i hc
      obtain rfl := Option.some.inj h
      exact ⟨hparent, hc⟩
    · exact ih _ hparent h

theorem ClassesApart.eq_of_same (h : ClassesApart root) (hk : k.Rooted root)
    (hkc : k.tree.isAny Place.classKinds = true) (hc : class_.Rooted root)
    (hcc : class_.tree.isAny Place.classKinds = true) (hsame : k.same class_ = true) : k = class_ := by
  have hmem : ∀ {q : Place}, q.Rooted root → q.tree.isAny Place.classKinds = true →
      q ∈ (⟨root, []⟩ : Place).find Place.classKinds := fun hq hqc =>
    List.mem_filter.2 ⟨hq.mem_all, hqc⟩
  have : Std.Symm fun p q : Place => ¬(p.start = q.start ∧ p.stop = q.stop) :=
    ⟨fun p q hpq he => hpq ⟨he.1.symm, he.2.symm⟩⟩
  by_contra hne
  refine List.Pairwise.forall h (hmem hk hkc) (hmem hc hcc) hne ?_
  simp only [Place.same, Bool.and_eq_true, beq_iff_eq] at hsame
  exact hsame.1

def isOwn (class_ p : Place) : Bool :=
  p.tree.isAny parameterKinds && isParameterProperty p.tree &&
    p.enclosingClass.any fun around => around.same class_

theorem Place.same_self (p : Place) : p.same p = true := by
  simp [Place.same]

theorem not_parameter_of_class (h : t.isAny Place.classKinds = true) :
    t.isAny parameterKinds = false := by
  obtain ⟨k, hk, hkind⟩ := List.any_eq_true.1 h
  rw [Tree.is_iff] at hkind
  simp only [Place.classKinds, List.mem_cons, List.not_mem_nil, or_false] at hk
  rcases hk with rfl | rfl | rfl <;> simp [Tree.isAny, Tree.is, hkind, parameterKinds]

mutual

/-- The parameters whose class is the one around the walk are those that lie in no class of the walk. -/
theorem own_postOrder (path : List Crumb) (hclass : Place.classAbove path = some class_) : (t : Tree) →
    (∀ q ∈ Place.postOrder path t, ∀ k, q.enclosingClass = some k → k.same class_ = true →
      k = class_) →
    ((Place.postOrder path t).filter (isOwn class_)).map Place.tree = ownParameters t
  | .node kind r a b cs => fun hsame => by
    rw [Place.postOrder] at hsame ⊢
    rw [ownParameters, List.filter_append, List.map_append]
    split
    · rename_i hkind
      have hbelow : (Place.postOrderIn (.node kind r a b cs) path [] cs).filter (isOwn class_) = [] := by
        refine List.filter_eq_nil_iff.2 fun q hq => ?_
        obtain ⟨c, hc, hsuffix⟩ := Place.path_suffixIn _ path [] cs hq
        obtain ⟨k, hk, hlength⟩ := classAbove_below (hc ▸ hkind) q.path hsuffix
        -- the class around `q` is this one or lies in it
        have hne : k ≠ class_ := by
          rintro rfl
          exact absurd (classAbove_length hclass) (Nat.not_lt.2 hlength)
        have hnot : k.same class_ = false := by
          by_contra hsome
          exact hne (hsame q (List.mem_append_left _ hq) k hk (by simpa using hsome))
        simp [isOwn, Place.enclosingClass, hk, hnot]
      have hself : isOwn class_ ⟨.node kind r a b cs, path⟩ = false := by
        simp only [isOwn, not_parameter_of_class hkind, Bool.false_and]
      simp [hbelow, hself]
    · rename_i hkind
      rw [own_postOrderIn _ path (by simpa using hkind) hclass [] cs
        fun q hq => hsame q (List.mem_append_left _ hq)]
      have hself : isOwn class_ ⟨.node kind r a b cs, path⟩ =
          ((Syntax.Tree.node kind r a b cs).isAny parameterKinds &&
            isParameterProperty (.node kind r a b cs)) := by
        simp [isOwn, Place.enclosingClass, hclass, Place.same_self]
      rw [List.filter_singleton, hself]
      cases (Syntax.Tree.node kind r a b cs).isAny parameterKinds &&
        isParameterProperty (.node kind r a b cs) <;> rfl

theorem own_postOrderIn (parent : Tree) (path : List Crumb)
    (hparent : parent.isAny Place.classKinds = false)
    (hclass : Place.classAbove path = some class_) : (before ts : List Tree) →
    (∀ q ∈ Place.postOrderIn parent path before ts, ∀ k, q.enclosingClass = some k →
      k.same class_ = true → k = class_) →
    ((Place.postOrderIn parent path before ts).filter (isOwn class_)).map Place.tree =
      ownParametersIn ts
  | _, [] => fun _ => by
    rw [Place.postOrderIn, ownParametersIn, List.filter_nil, List.map_nil]
  | before, t :: after => fun hsame => by
    rw [Place.postOrderIn] at hsame ⊢
    rw [ownParametersIn, List.filter_append, List.map_append]
    have habove : Place.classAbove (⟨parent, before, after⟩ :: path) = some class_ := by
      rw [Place.classAbove, if_neg (by simp [hparent]), hclass]
    rw [own_postOrder _ habove t fun q hq => hsame q (List.mem_append_left _ hq),
      own_postOrderIn parent path hparent hclass (t :: before) after
        fun q hq => hsame q (List.mem_append_right _ hq)]

end

/-- What is searched for in a list, if only some of its elements can give it. -/
theorem findSome?_guard {α β : Type} {f g : α → Option β} {c : α → Bool}
    (h : ∀ x, g x = if c x then f x else none) (xs : List α) :
    xs.findSome? g = (xs.filter c).findSome? f := by
  induction xs with
  | nil => rfl
  | cons x xs ih =>
    cases hc : c x with
    | true => rw [List.findSome?_cons, h, hc, if_pos rfl, List.filter_cons_of_pos hc, List.findSome?_cons, ih]
    | false =>
      rw [List.findSome?_cons, h, hc, if_neg (by simp), List.filter_cons_of_neg (by simp [hc]), ih]

theorem map_tree_child? (p : Place) (r : Role) : (p.child? r).map Place.tree = p.tree.child? r := by
  rw [Place.child?, Tree.child?, ← Place.map_tree_children, List.find?_map]
  rfl

/-- The entity of a member is that of a field of the class, or else of a parameter property of its own. -/
theorem memberEntity_eq (happ : ClassesApart root) (hroot : class_.Rooted root)
    (hkind : class_.tree.isAny Place.classKinds = true) (member : String) (source : Bytes) :
    memberEntity class_ member source =
      ((fieldMembers class_.tree).findSome? (entityNamed .name member source) <|>
        (classParameters class_.tree).findSome? (entityNamed .pattern member source)) := by
  unfold memberEntity fieldMembers classParameters
  rw [← map_tree_child?]
  cases hbody : class_.child? .body with
  | none => rfl
  | some body =>
    have hmem : body ∈ class_.children := List.mem_of_find?_eq_some hbody
    obtain ⟨l, r, -, hpath⟩ := Place.mem_children hmem
    have habove : Place.classAbove body.path = some class_ := by
      rw [hpath, Place.classAbove, if_pos hkind]
    -- the class of a parameter is this one exactly if it has its range
    have hsame : ∀ q ∈ Place.postOrder body.path body.tree, ∀ k, q.enclosingClass = some k →
        k.same class_ = true → k = class_ := by
      intro q hq k hk hsame
      rw [← Place.all_eq] at hq
      obtain ⟨hkr, hkc⟩ := classAbove_rooted q.path q.tree (Place.all_rooted (hroot.child hmem) hq) hk
      exact happ.eq_of_same hkr hkc hroot hkind hsame
    simp only [Option.bind_eq_bind, Option.bind_some, Option.map_some]
    refine congrArg₂ (fun x y : Option String => x <|> y) ?_ ?_
    · refine findSome?_guard (fun child => ?_) _
      cases child.isAny [.publicFieldDefinition, .fieldDefinition] <;> rfl
    · rw [← own_postOrder body.path habove body.tree hsame, List.findSome?_map, ← Place.all_eq]
      have hfilter : body.all.filter (isOwn class_) =
          (body.find parameterKinds).filter fun p => isParameterProperty p.tree &&
            p.enclosingClass.any fun around => around.same class_ := by
        rw [Place.find, List.filter_filter]
        refine List.filter_congr fun p _ => ?_
        rw [isOwn, Bool.and_assoc, Bool.and_comm]
      rw [hfilter]
      refine findSome?_guard (fun param => ?_) _
      cases param.enclosingClass with
      | none => simp
      | some around =>
        simp only [Option.bind_some, Option.any_some]
        by_cases hclass : around.same class_ = true <;>
          by_cases hproperty : isParameterProperty param.tree = true <;>
            simp [hclass, hproperty, entityNamed]

/-- What a class tells about the members of its instances: its name, its fields and its parameter
properties, wherever they stand. -/
structure ClassScope where
  name : Option String
  fields : List Content
  parameters : List Content

instance : DecidableEq ClassScope := fun x y =>
  decidable_of_iff (x.name = y.name ∧ x.fields = y.fields ∧ x.parameters = y.parameters) (by
    cases x
    cases y
    simp)

def classScope (source : Bytes) (class_ : Tree) : ClassScope where
  name := class_.className source
  fields := (fieldMembers class_).map (Tree.content source)
  parameters := (classParameters class_).map (Tree.content source)

/-- What a call tells of its model: its callee, and the scope of the class around it. -/
def calledScope (source : Bytes) (call : Place) : Option Content × Option ClassScope :=
  ((call.tree.child? .callee).map (Tree.content source),
    call.enclosingClass.map fun c => classScope source c.tree)

section Reads

variable {t' : Tree} (h : Tree.Reads source source' t t')

include h

theorem declaredEntity_eq : declaredEntity t source = declaredEntity t' source' := by
  unfold declaredEntity
  refine Tree.bind_reads h.annotatedType fun type type' htype => ?_
  rw [htype.genericArgument_eq]

theorem entityNamed_eq (role : Role) (member : String) :
    entityNamed role member source t = entityNamed role member source' t' := by
  unfold entityNamed
  refine Tree.bind_reads (h.child? role) fun name name' hname => ?_
  rw [hname.text_eq, declaredEntity_eq h]

end Reads

variable {call call' : Place} {root' : Tree}

theorem repositoryMember_eq (h : (call.tree.child? .callee).map (Tree.content source) =
      (call'.tree.child? .callee).map (Tree.content source')) :
    repositoryMember call.tree source = repositoryMember call'.tree source' := by
  unfold repositoryMember
  refine Tree.bind_reads h fun callee callee' hcallee => ?_
  rw [hcallee.is_eq]
  split
  · rfl
  refine Tree.bind_reads (hcallee.child? _) fun receiver receiver' hreceiver => ?_
  rw [hreceiver.is_eq]
  split
  · rfl
  refine Tree.bind_reads (hreceiver.child? _) fun owner owner' howner => ?_
  rw [howner.is_eq]
  split
  · rfl
  refine Tree.bind_reads (hreceiver.child? _) fun property property' hproperty => ?_
  rw [hproperty.text_eq]

theorem memberEntity_scope {class_ class_' : Place} (happ : ClassesApart root)
    (hroot : class_.Rooted root) (hkind : class_.tree.isAny Place.classKinds = true)
    (happ' : ClassesApart root') (hroot' : class_'.Rooted root')
    (hkind' : class_'.tree.isAny Place.classKinds = true)
    (hscope : classScope source class_.tree = classScope source' class_'.tree) (member : String) :
    memberEntity class_ member source = memberEntity class_' member source' := by
  obtain ⟨-, hfields, hparameters⟩ := ClassScope.mk.inj hscope
  rw [memberEntity_eq happ hroot hkind, memberEntity_eq happ' hroot' hkind',
    Tree.findSome?_reads hfields fun _ _ h => entityNamed_eq h .name member,
    Tree.findSome?_reads hparameters fun _ _ h => entityNamed_eq h .pattern member]

/-- The model of a call hangs on nothing but its callee and the scope of the innermost class around it:
not on classes around that one or in it, nor on parameters that are no properties. -/
theorem resolve_scoped (root root' : Tree) (source source' : Bytes) (happ : ClassesApart root)
    (happ' : ClassesApart root') (call call' : Place) (hcall : call.Rooted root)
    (hcall' : call'.Rooted root') (hsame : calledScope source call = calledScope source' call') :
    byConvention call source = byConvention call' source' ∧
      ∀ mapping, resolve mapping call source = resolve mapping call' source' := by
  obtain ⟨hcallee, hscope⟩ := Prod.mk.inj hsame
  have hmember := repositoryMember_eq hcallee
  have hconvention : byConvention call source = byConvention call' source' := by
    unfold byConvention
    cases hclass : call.enclosingClass with
    | none =>
      cases hclass' : call'.enclosingClass with
      | none => rfl
      | some => simp [hclass, hclass'] at hscope
    | some class_ =>
      cases hclass' : call'.enclosingClass with
      | none => simp [hclass, hclass'] at hscope
      | some class_' =>
        rw [hclass, hclass', Option.map_some, Option.map_some, Option.some.injEq] at hscope
        obtain ⟨hroot, hkind⟩ := classAbove_rooted call.path call.tree hcall hclass
        obtain ⟨hroot', hkind'⟩ := classAbove_rooted call'.path call'.tree hcall' hclass'
        have hname : class_.tree.className source = class_'.tree.className source' :=
          congrArg ClassScope.name hscope
        have hentity := memberEntity_scope happ hroot hkind happ' hroot' hkind' hscope
        simp only [hname, hmember, hentity]
  have hmapping : ∀ mapping, byMapping mapping call source = byMapping mapping call' source' := by
    intro mapping
    have hname : ∀ {source : Bytes} {call : Place}, (call.enclosingClass.bind fun c =>
        (c.tree.className source).bind fun name => mapping.lookup name) =
          ((call.enclosingClass.map fun c => classScope source c.tree).bind ClassScope.name).bind
            fun name => mapping.lookup name := by
      intro source call
      cases call.enclosingClass <;> rfl
    unfold byMapping
    simp only [Option.bind_eq_bind]
    rw [hname, hname, hscope, hmember]
  refine ⟨hconvention, fun mapping => ?_⟩
  rw [resolve, resolve, hmapping, hconvention]

def sampleRoot (source : String) : Tree := (parse .typescript source).root

def sampleCall (source : String) : Option Place :=
  ((⟨sampleRoot source, []⟩ : Place).repositoryCalls.getLast?).map (·.call)

theorem sampleCall_rooted {source : String} (h : sampleCall source = some call) :
    call.Rooted (sampleRoot source) := by
  obtain ⟨x, hx, rfl⟩ := Option.map_eq_some_iff.1 h
  exact (Place.mem_repositoryCalls .root (List.mem_of_getLast? hx)).1

/-- What a call tells, with all parameter properties that have the class around it as their innermost
class, in its body or not. -/
def enclosedScope (root : Tree) (source : Bytes) (call : Place) : Option Content × Option ClassScope :=
  ((call.tree.child? .callee).map (Tree.content source), call.enclosingClass.map fun c =>
    { classScope source c.tree with
      parameters := ((⟨root, []⟩ : Place).all.filter (isOwn c)).map fun p => p.tree.content source })

/-- A class with another one in it, and with a parameter that is no property. -/
def aroundSample : String :=
  "class A \x7b q() \x7b class B \x7b constructor(private u: Repository<T>) \x7b\x7d \x7d " ++
    "this.u.find() \x7d constructor(u: Repository<V>, private u: Repository<U>) \x7b\x7d \x7d"

def aloneSample : String :=
  "class A \x7b constructor(private u: Repository<U>) \x7b\x7d q() \x7b this.u.find() \x7d \x7d"

def heritageSample : String :=
  "class A extends f((private u: Repository<U>) => 0) \x7b q() \x7b this.u.find() \x7d \x7d"

theorem samples_read :
    (ClassesApart (sampleRoot aroundSample) ∧ ClassesApart (sampleRoot aloneSample) ∧
      ClassesApart (sampleRoot heritageSample)) ∧
    ((sampleRoot aloneSample).everyNode Tree.ordered = true ∧
      (sampleRoot heritageSample).everyNode Tree.ordered = true) ∧
    (sampleCall aroundSample).map (calledScope (encode aroundSample)) =
      (sampleCall aloneSample).map (calledScope (encode aloneSample)) ∧
    (sampleCall heritageSample).map (enclosedScope (sampleRoot heritageSample) (encode heritageSample)) =
      (sampleCall aloneSample).map (enclosedScope (sampleRoot aloneSample) (encode aloneSample)) ∧
    (sampleCall aloneSample).map (fun c => (byConvention c (encode aloneSample)).1) = some (some "U") ∧
    (sampleCall heritageSample).map (fun c => (byConvention c (encode heritageSample)).1) =
      some none := by
  decide +kernel

theorem exists_both {α β : Type} {o o' : Option Place} {f f' : Place → α} {g : Place → β} {b : β}
    (h : o.map f = o'.map f') (hg : o'.map g = some b) :
    ∃ x y, o = some x ∧ o' = some y ∧ f x = f' y ∧ g y = b := by
  obtain ⟨y, rfl, hy⟩ := Option.map_eq_some_iff.1 hg
  obtain ⟨x, rfl, hx⟩ := Option.map_eq_some_iff.1 h
  exact ⟨x, y, rfl, rfl, hx, hy⟩

theorem resolve_scoped_sample : ∃ call call', sampleCall aroundSample = some call ∧
    sampleCall aloneSample = some call' ∧ (byConvention call' (encode aloneSample)).1 = some "U" ∧
    byConvention call (encode aroundSample) = byConvention call' (encode aloneSample) := by
  obtain ⟨⟨happ, happ', -⟩, -, hsame, -, hmodel, -⟩ := samples_read
  obtain ⟨call, call', hcall, hcall', hscope, hfound⟩ := exists_both hsame hmodel
  exact ⟨call, call', hcall, hcall', hfound, (resolve_scoped _ _ _ _ happ happ' call call'
    (sampleCall_rooted hcall) (sampleCall_rooted hcall') hscope).1⟩

theorem heritage_parameter_unread :
    ((sampleRoot heritageSample).everyNode Tree.ordered = true ∧
      (sampleRoot aloneSample).everyNode Tree.ordered = true) ∧
    (ClassesApart (sampleRoot heritageSample) ∧ ClassesApart (sampleRoot aloneSample)) ∧
    ∃ call call', sampleCall heritageSample = some call ∧ sampleCall aloneSample = some call' ∧
      enclosedScope (sampleRoot heritageSample) (encode heritageSample) call =
        enclosedScope (sampleRoot aloneSample) (encode aloneSample) call' ∧
      byConvention call (encode heritageSample) ≠ byConvention call' (encode aloneSample) := by
  obtain ⟨⟨-, halone, hheritage⟩, ⟨hordered, hordered'⟩, -, hsame, hmodel, hnone⟩ := samples_read
  obtain ⟨call, call', hcall, hcall', hscope, hfound⟩ := exists_both hsame hmodel
  refine ⟨⟨hordered', hordered⟩, ⟨hheritage, halone⟩, call, call', hcall, hcall', hscope, fun heq => ?_⟩
  obtain ⟨call'', hcall'', hnothing⟩ := Option.map_eq_some_iff.1 hnone
  obtain rfl : call = call'' := Option.some.inj (hcall.symm.trans hcall'')
  rw [heq, hfound] at hnothing
  cases hnothing

end OrmCodemod.Resolver
