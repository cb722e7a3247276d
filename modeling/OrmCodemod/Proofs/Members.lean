import OrmCodemod.Proofs.Attached

/-! Constructors and calls agree on members whose names the settings select. A constructor parameter is
known by its type or its decorator, a call by the name of the member; where the name is selected, every
call on the member is converted, so that none is left on a member that is gone. -/

namespace OrmCodemod.Calls

open Syntax Text Pass

variable {u : SourceUnit} {all K : List Place.RepositoryCall} {x : Place.RepositoryCall}
  {sh ed : Editor} {members : Pattern.Regex}

theorem own_member (hx : x ∈ u.place.repositoryCalls) {member : String}
    (h : Resolver.repositoryMember x.call.tree u.source = some member) :
    x.member.text u.source = member ∧ isClientAccess u x.receiver = false ∧
      ∃ owner, x.receiver.child? .object = some owner ∧ owner.is .thisExpr = true := by
  obtain ⟨q, -, hq⟩ := List.mem_filterMap.1 hx
  obtain ⟨-, hparts⟩ := Place.repositoryCall?_parts hq
  obtain ⟨-, hname, -⟩ := Place.repositoryCall?_names hq
  simp only [Resolver.repositoryMember, hparts.callee, hparts.calleeKind, hparts.receiver,
    hparts.receiverKind, hname, Option.bind_eq_bind, Option.bind_some, Bool.not_true,
    Bool.false_eq_true, if_false] at h
  obtain ⟨owner, howner, h⟩ := Option.bind_eq_some_iff.1 h
  cases hthis : owner.is .thisExpr with
  | false => simp [hthis] at h
  | true =>
    have hno : owner.is .memberExpression = false := by
      rw [Tree.is_iff] at hthis
      simp [Tree.is, hthis]
    refine ⟨by simpa [hthis] using h, ?_, owner, howner, hthis⟩
    simp [isClientAccess, howner, hno]

theorem Mirrors.inserted_child (hu : u.Regular) (h : Mirrors u all K sh ed) (hx : Convertible u x)
    {c : Tree} (hc : c ∈ x.call.tree.children) (hne : c.start < c.stop)
    (hlater : c.start ≠ x.call.start) : sh.view.inserted c.start = [] := by
  have ht := hx.rooted.within
  have ho := Tree.test_within hu.ordered ht
  have hrange := Tree.inOrder_mem ho hc
  simp only [Place.start] at hlater
  have hzero : c.start ≠ 0 := by omega
  by_contra hins
  obtain ⟨s, hs, hstart⟩ := h.labelled hu c.start (by
    simpa [attached, scene, View.put, View.hide, hzero] using hins)
  have hlt := hs.nonempty
  rcases hs.cases hu.toShaped ht (by omega) (by omega) with ⟨h1, -⟩ | ⟨hk, -⟩ | ⟨d, hd, h1, h2⟩
  · omega
  · rw [Tree.not_isAny_of_is hx.parts.isCall (by decide)] at hk
    cases hk
  · rcases Tree.inOrder_apart ho hc hd with rfl | h3 | h3 <;> omega

/-- A call that is not replaced with what is around it reads as a call on the client. -/
theorem Mirrors.text_call (hu : u.Regular) (h : Mirrors u all K sh ed) (hx : x ∈ K)
    {rule : Rules.Rule} {owner : Tree} (hrule : Rules.rule? (x.method.text u.source) = some rule)
    (howner : x.receiver.child? .object = some owner) :
    (scene u sh.view K).text x.call.tree = (scene u sh.view K).callText x rule owner := by
  have hxc := h.calls x hx
  have ho := hxc.order hu.toClosed
  have hmem := Tree.child?_mem hxc.parts.callee
  have hrange := Tree.child_range (Tree.everyNode_within hu.ordered hxc.rooted.within) hmem
  refine scene_text_call hu.toClosed h.calls hx hrule howner
    (fun hlater => h.inserted_child hu hxc hmem ho.1 hlater) ?_
  refine h.inserted_child hu hxc (Tree.child?_mem hxc.parts.arguments) ho.2.2.1 ?_
  simp only [Place.start]
  omega

/-- Every call on a member of `this` whose name the settings select and whose method has a supported
row comes out as a call on the client, by itself or in the text of a call around it, or lies in a
parameter, a registration or an import that is replaced as a whole. So no call on a constructor
parameter with such a name outlives the parameter. -/
theorem member_calls_converted (u : SourceUnit) (hu : u.Regular) (source : String)
    (hsource : u.source = encode source) (members : Pattern.Regex)
    (hm : Pattern.parse u.settings.memberPattern = .ok members) (s : Session)
    (hs : s.editor = { source := u.source }) :
    ∃ s' o K sh, (Outcome.stages u).result s = (.ok (), s') ∧ Ended u source members s' o K sh ∧
      ∀ x ∈ u.place.repositoryCalls, ∀ member rule,
        Resolver.repositoryMember x.call.tree u.source = some member →
        members.matchesStart member = true →
        Rules.rule? (x.method.text u.source) = some rule → rule.supported = true →
        (x ∈ K ∧ s'.flags.any = true ∧
          ∃ owner, x.receiver.child? .object = some owner ∧ owner.is .thisExpr = true ∧
            (scene u sh.view K).text x.call.tree = (scene u sh.view K).callText x rule owner ∧
            (¬Covered u K x.call.start x.call.stop →
              (scene u sh.view K).callText x rule owner <:+: encode o.output)) ∨
        ∃ e ∈ sh.edits, Around u e ∧ e.start < e.stop ∧
          e.start ≤ x.call.start ∧ x.call.stop ≤ e.stop := by
  obtain ⟨s', o, K, sh, hrun, hended, -⟩ := pass_ended hu hsource hm hs
  have hmirrors := hended.mirrors
  refine ⟨s', o, K, sh, hrun, hended, fun x hx member rule hmember hmatch hrule hsupported => ?_⟩
  obtain ⟨rfl, hclient, owner, howner, hthis⟩ := own_member hx hmember
  have hsite : x ∈ supportedSites u members := by
    refine List.mem_filter.2 ⟨List.mem_filter.2 ⟨hx, by simp [hmatch, hclient]⟩, ?_⟩
    simp [hrule, hsupported, howner]
  rcases hmirrors.gone x hsite with hK | ⟨e, he, hne, hin⟩
  · have hfired := hended.fired (List.ne_nil_of_mem hK)
    have htext := hmirrors.text_call hu hK hrule howner
    refine .inl ⟨hK, hfired, owner, howner, hthis, htext, fun hfree => ?_⟩
    have hxc := hmirrors.calls x hK
    have hne := (hxc.splits hu.toClosed).nonempty (Tree.everyNode_within hu.ordered hxc.rooted.within)
    exact htext ▸ hended.text_infix hu hfired hxc.rooted.within hne hfree
  · have hrange := hmirrors.around.sound.range e he
    exact .inr ⟨e, he, hmirrors.around.all e he, by omega, hin⟩

/-- Where nothing is registered and nothing imported, only parameters are replaced besides the calls. -/
theorem Around.injection_of_replaces {e : Edit} (h : Around u e)
    (hsites : Imports.registrationSites u = []) (himports : Imports.importStatements u = [])
    (hne : e.start < e.stop) : IsInjectionEdit u e := by
  cases h with
  | advisory _ _ _ _ _ _ _ before =>
    have hpoint : e.start = e.stop := before.1.trans before.2.1.symm
    omega
  | line _ _ _ hstart hstop => omega
  | injection edit => exact edit
  | registration _ hmem => simp [hsites] at hmem
  | clause _ _ _ hmem => simp [himports] at hmem
  | statement _ _ hmem => simp [himports] at hmem

def memberSample : String :=
  "class A \x7b constructor(private readonly userRepository: Repository<User>) \x7b\x7d " ++
    "list() \x7b return this.userRepository.find(); \x7d \x7d"

def memberUnit : SourceUnit := ⟨encode memberSample, (parse .typescript memberSample).root, {}⟩

theorem memberSample_call :
    (memberUnit.place.repositoryCalls.map fun x =>
      (Resolver.repositoryMember x.call.tree memberUnit.source,
        (Rules.rule? (x.method.text memberUnit.source)).any (·.supported), x.call.stop)) =
      [(some "userRepository", true, 118)] ∧
    (Pattern.parse memberUnit.settings.memberPattern).toOption.any (·.matchesStart "userRepository") =
      true := by
  decide +kernel

theorem memberSample_around : Imports.registrationSites memberUnit = [] ∧
    Imports.importStatements memberUnit = [] ∧
    (memberUnit.place.find [.methodDefinition]).all fun method =>
      (method.child? .parameters).all (·.stop ≤ 92) := by
  decide +kernel

theorem memberSample_output :
    (Outcome.ofSession memberUnit.settings memberSample
      ((Outcome.stages memberUnit).result { editor := { source := memberUnit.source } }).2).toOption.map
        (·.output) =
      some ("class A \x7b constructor(private readonly prisma: PrismaService) \x7b\x7d " ++
        "list() \x7b return this.prisma.User.findMany(); \x7d \x7d") := by
  decide +kernel

theorem member_calls_converted_sample : ∃ s' o K sh x members rule owner,
    (Outcome.stages memberUnit).result { editor := { source := memberUnit.source } } = (.ok (), s') ∧
    Ended memberUnit memberSample members s' o K sh ∧ x ∈ memberUnit.place.repositoryCalls ∧
    Rules.rule? (x.method.text memberUnit.source) = some rule ∧
    x ∈ K ∧ s'.flags.any = true ∧
    x.receiver.child? .object = some owner ∧ owner.is .thisExpr = true ∧
    (scene memberUnit sh.view K).text x.call.tree =
      (scene memberUnit sh.view K).callText x rule owner ∧
    o.output = "class A \x7b constructor(private readonly prisma: PrismaService) \x7b\x7d " ++
      "list() \x7b return this.prisma.User.findMany(); \x7d \x7d" := by
  obtain ⟨hcalls, hmatch⟩ := memberSample_call
  obtain ⟨members, hm, hmatch⟩ := (Option.any_eq_true _ _).1 hmatch
  obtain ⟨x, hx⟩ : ∃ x, memberUnit.place.repositoryCalls = [x] :=
    List.length_eq_one_iff.1 (by simpa using congrArg List.length hcalls)
  simp only [hx, List.map_cons, List.map_nil, List.cons.injEq, Prod.mk.injEq, and_true] at hcalls
  obtain ⟨rule, hrule, hsupported⟩ := (Option.any_eq_true _ _).1 hcalls.2.1
  have hregular : memberUnit.Regular := (parse_sheltered .typescript memberSample {}).toRegular
  obtain ⟨s', o, K, sh, hrun, hended, h⟩ := member_calls_converted memberUnit hregular memberSample
    (by simp only [memberUnit]) members (toOption_eq_some_iff.1 hm)
    { editor := { source := memberUnit.source } } rfl
  have hout := memberSample_output
  rw [hrun, hended.outcome] at hout
  obtain ⟨hsites, himports, hparams⟩ := memberSample_around
  rcases h x (by simp [hx]) _ rule hcalls.1 hmatch hrule hsupported with
    ⟨hK, hfired, owner, howner, hthis, htext, -⟩ | ⟨e, -, haround, hne, hstart, hstop⟩
  · exact ⟨s', o, K, sh, x, members, rule, owner, hrun, hended, by simp [hx], hrule, hK, hfired,
      howner, hthis, htext, Option.some.inj hout⟩
  · -- the call comes after the parameters of every method
    obtain ⟨method, hmethod, params, hfound, hin⟩ :=
      (haround.injection_of_replaces hsites himports hne).within_parameters hregular.ordered
    have hbefore := List.all_eq_true.1 hparams method hmethod
    simp only [hfound, Option.all_some, decide_eq_true_eq] at hbefore
    omega

/-- A parameter that is known by its type, with a name that is not selected. -/
def unmatchedSample : String :=
  "class A \x7b constructor(private readonly users: Repository<User>) \x7b\x7d " ++
    "list() \x7b return this.users.find(); \x7d \x7d"

theorem unmatchedSample_output : (parse .typescript unmatchedSample).broken = false ∧
    (Rules.rule? "find").any (·.supported) = true ∧
    (Outcome.ofSource .typescript {} unmatchedSample none).1.toOption.map (·.output) =
      some "class A \x7b constructor(private readonly prisma: PrismaService) \x7b\x7d list() \x7b return this.users.find(); \x7d \x7d" := by
  decide +kernel

/-- The parameter is gone, and the call on it is left. -/
theorem member_call_left_sample :
    (parse .typescript unmatchedSample).broken = false ∧
    (Rules.rule? "find").any (·.supported) = true ∧
    ∃ o, (Outcome.ofSource .typescript {} unmatchedSample none).1 = .ok o ∧
      ¬"users: Repository<User>".toList <:+: o.output.toList ∧
      "this.users.find()".toList <:+: o.output.toList := by
  obtain ⟨hbroken, hrule, hout⟩ := unmatchedSample_output
  obtain ⟨o, ho, hout⟩ := exists_ok_of_map hout
  refine ⟨hbroken, hrule, o, ho, ?_⟩
  rw [hout, Text.infix_iff rfl rfl, Text.infix_iff rfl rfl]
  set_option maxRecDepth 2000 in decide

end OrmCodemod.Calls
