import OrmCodemod.Proofs.Members

/-! How a converted call reads the client from its owner. The source may read the repository with `?.`,
which passes over the rest of the call where the owner is null or undefined; the client is always read
with a plain `.`, so that the operator of the source is kept exactly where it was plain. -/

namespace OrmCodemod.Calls

open Syntax Text Pass

/-- How a property is read from its owner. -/
inductive Access where
  | plain
  | optional
  deriving DecidableEq, Repr

namespace Access

def operator : Access → String
  | .plain => "."
  | .optional => "?."

/-- Whether the rest of the chain is passed over, for an owner that is null or undefined or is not. -/
def skips : Access → Bool → Bool
  | .plain, _ => false
  | .optional, nullish => nullish

/-- The access of a member expression, by the operator that stands in the source. -/
def ofMember (t : Tree) (source : Bytes) : Access :=
  if t.children.any fun c => c.text source == operator .optional then .optional else .plain

theorem skips_injective {a b : Access} (h : ∀ nullish, a.skips nullish = b.skips nullish) : a = b := by
  have hnull := h true
  cases a <;> cases b <;> simp [skips] at hnull ⊢

theorem operator_length_injective {a b : Access}
    (h : (encode a.operator).length = (encode b.operator).length) : a = b := by
  have hplain : (encode Access.plain.operator).length = 1 := by decide
  have hoptional : (encode Access.optional.operator).length = 2 := by decide
  cases a <;> cases b <;> simp [hplain, hoptional] at h ⊢

end Access

/-- The text of a converted call, were the client read from the owner by a given access. -/
def Scene.textBy (σ : Scene) (x : Place.RepositoryCall) (rule : Rules.Rule) (owner : Tree)
    (access : Access) : Bytes :=
  let keyOf : Rules.KeyOf := fun m => m.memberKey σ.unit.source
  let method := rule.method x.arguments.significant keyOf
  σ.stretch x.call.tree x.call.start x.callee.start ++
    encode (Scene.render σ.text owner ++ access.operator ++
      s!"{σ.unit.settings.clientMember}.{modelText σ.unit x.call}.{method}") ++
    σ.stretch x.call.tree x.callee.stop x.arguments.start ++
    match rule.reshape x.arguments.significant (Scene.render σ.text) keyOf with
    | some texts => encode ("(" ++ joinWith ", " texts ++ ")")
    | none => σ.text x.arguments

/-- The call reads the client by an access that passes over the rest of it for the same owners as the
access of the source. -/
def Scene.KeepsAccess (σ : Scene) (x : Place.RepositoryCall) (rule : Rules.Rule) (owner : Tree) :
    Prop :=
  ∃ access, σ.text x.call.tree = σ.textBy x rule owner access ∧
    ∀ nullish, access.skips nullish = (Access.ofMember x.receiver σ.unit.source).skips nullish

section

variable {σ : Scene} {x : Place.RepositoryCall} {rule : Rules.Rule} {owner : Tree}

theorem Scene.textBy_plain : σ.textBy x rule owner .plain = σ.callText x rule owner := by
  simp only [Scene.textBy, Scene.callText, Access.operator]
  congr 4
  simp [toString, String.append_assoc]

theorem Scene.textBy_injective {a b : Access} (h : σ.textBy x rule owner a = σ.textBy x rule owner b) :
    a = b := by
  refine Access.operator_length_injective ?_
  have hlength := congrArg List.length h
  simp only [Scene.textBy, List.length_append, encode_append] at hlength
  omega

theorem Scene.keepsAccess_iff (h : σ.text x.call.tree = σ.callText x rule owner) :
    σ.KeepsAccess x rule owner ↔ Access.ofMember x.receiver σ.unit.source = .plain := by
  refine ⟨fun ⟨access, htext, hskips⟩ => ?_, fun hplain => ?_⟩
  · have hread : access = .plain :=
      Scene.textBy_injective (htext.symm.trans (h.trans Scene.textBy_plain.symm))
    rw [← Access.skips_injective hskips, hread]
  · exact ⟨.plain, h.trans Scene.textBy_plain.symm, fun nullish => by rw [hplain]⟩

end

/-- Every call with a supported row comes out as a call that reads the client from its owner with `.`,
and so with the access of the source exactly if that one is plain; or it lies in a parameter, a
registration or an import that is replaced as a whole. -/
theorem optional_access_kept_iff (u : SourceUnit) (hu : u.Regular) (source : String)
    (hsource : u.source = encode source) (members : Pattern.Regex)
    (hm : Pattern.parse u.settings.memberPattern = .ok members) (s : Session)
    (hs : s.editor = { source := u.source }) :
    ∃ s' o K sh, (Outcome.stages u).result s = (.ok (), s') ∧ Ended u source members s' o K sh ∧
      ∀ x ∈ supportedSites u members,
        (x ∈ K ∧ s'.flags.any = true ∧ ∃ rule owner,
          Rules.rule? (x.method.text u.source) = some rule ∧ rule.supported = true ∧
          x.receiver.child? .object = some owner ∧
          (scene u sh.view K).text x.call.tree = (scene u sh.view K).textBy x rule owner .plain ∧
          ((scene u sh.view K).KeepsAccess x rule owner ↔
            Access.ofMember x.receiver u.source = .plain) ∧
          (¬Covered u K x.call.start x.call.stop →
            (scene u sh.view K).textBy x rule owner .plain <:+: encode o.output)) ∨
        ∃ e ∈ sh.edits, Around u e ∧ e.start < e.stop ∧
          e.start ≤ x.call.start ∧ x.call.stop ≤ e.stop := by
  obtain ⟨s', o, K, sh, hrun, hended, -⟩ := pass_ended hu hsource hm hs
  have hmirrors := hended.mirrors
  refine ⟨s', o, K, sh, hrun, hended, fun x hx => ?_⟩
  rcases hmirrors.gone x hx with hK | ⟨e, he, hne, hin⟩
  · obtain ⟨-, hsupported⟩ := List.mem_filter.1 hx
    rw [Bool.and_eq_true] at hsupported
    obtain ⟨rule, hrule, hrow⟩ := (Option.any_eq_true ..).1 hsupported.1
    obtain ⟨owner, howner⟩ := Option.isSome_iff_exists.1 hsupported.2
    have hfired := hended.fired (List.ne_nil_of_mem hK)
    have htext := hmirrors.text_call hu hK hrule howner
    refine .inl ⟨hK, hfired, rule, owner, hrule, hrow, howner, htext.trans Scene.textBy_plain.symm,
      Scene.keepsAccess_iff htext, fun hfree => ?_⟩
    have hxc := hmirrors.calls x hK
    have hne := (hxc.splits hu.toClosed).nonempty (Tree.everyNode_within hu.ordered hxc.rooted.within)
    rw [Scene.textBy_plain, ← htext]
    exact hended.text_infix hu hfired hxc.rooted.within hne hfree
  · have hrange := hmirrors.around.sound.range e he
    exact .inr ⟨e, he, hmirrors.around.all e he, by omega, hin⟩

def accessSample : String := "a.repository.find()?.repository.count();"

def accessUnit : SourceUnit := ⟨encode accessSample, (parse .typescript accessSample).root, {}⟩

theorem accessUnit_calls :
    ((Pattern.parse accessUnit.settings.memberPattern).toOption.map fun members =>
      (supportedSites accessUnit members).map fun x =>
        Access.ofMember x.receiver accessUnit.source) = some [.plain, .optional] := by
  decide +kernel

theorem accessUnit_around : Imports.registrationSites accessUnit = [] ∧
    Imports.importStatements accessUnit = [] ∧ accessUnit.place.find [.methodDefinition] = [] := by
  decide +kernel

theorem accessSample_output :
    (Outcome.ofSession accessUnit.settings accessSample
      ((Outcome.stages accessUnit).result { editor := { source := accessUnit.source } }).2).toOption.map
        (·.output) = some "a.prisma.model.findMany().prisma.model.count();" := by
  decide +kernel

theorem optional_access_kept_iff_sample : ∃ members s' o K sh x rule owner,
    (Outcome.stages accessUnit).result { editor := { source := accessUnit.source } } = (.ok (), s') ∧
    Ended accessUnit accessSample members s' o K sh ∧ x ∈ supportedSites accessUnit members ∧
    Access.ofMember x.receiver accessUnit.source = .optional ∧ x ∈ K ∧
    Rules.rule? (x.method.text accessUnit.source) = some rule ∧
    x.receiver.child? .object = some owner ∧
    (scene accessUnit sh.view K).text x.call.tree =
      (scene accessUnit sh.view K).textBy x rule owner .plain ∧
    ¬(scene accessUnit sh.view K).KeepsAccess x rule owner ∧
    o.output = "a.prisma.model.findMany().prisma.model.count();" := by
  obtain ⟨members, hparse, hcalls⟩ := exists_ok_of_map accessUnit_calls
  obtain ⟨x, hx, haccess⟩ := List.mem_map.1 (hcalls ▸ List.mem_cons_of_mem _ List.mem_cons_self)
  have hregular : accessUnit.Regular := (parse_sheltered .typescript accessSample {}).toRegular
  obtain ⟨s', o, K, sh, hrun, hended, h⟩ := optional_access_kept_iff accessUnit hregular
    accessSample (by simp only [accessUnit]) members hparse
    { editor := { source := accessUnit.source } } rfl
  have hout := accessSample_output
  rw [hrun, hended.outcome] at hout
  obtain ⟨hsites, himports, hmethods⟩ := accessUnit_around
  rcases h x hx with
    ⟨hK, -, rule, owner, hrule, -, howner, htext, hkeeps, -⟩ | ⟨e, -, haround, hne, -, -⟩
  · refine ⟨members, s', o, K, sh, x, rule, owner, hrun, hended, hx, haccess, hK, hrule, howner,
      htext, fun hkept => ?_, Option.some.inj hout⟩
    rw [hkeeps.1 hkept] at haccess
    cases haccess
  · obtain ⟨method, hmethod, -⟩ :=
      (haround.injection_of_replaces hsites himports hne).within_parameters hregular.ordered
    simp [hmethods] at hmethod

def missingOwnerSample : String := "a?.repository.find()"

def missingOwnerUnit : SourceUnit :=
  ⟨encode missingOwnerSample, (parse .typescript missingOwnerSample).root, {}⟩

theorem missingOwnerSample_output :
    (parse .typescript missingOwnerSample).broken = false ∧
    (missingOwnerUnit.place.repositoryCalls.map fun x =>
      (Access.ofMember x.receiver missingOwnerUnit.source,
        (Rules.rule? (x.method.text missingOwnerUnit.source)).any (·.supported))) =
      [(.optional, true)] ∧
    (Outcome.ofSource .typescript {} missingOwnerSample none).1.toOption.map (·.output) =
      some "a.prisma.model.findMany()" := by
  decide +kernel

/-- The rewritten call reads the client with a plain access, which passes over nothing. -/
theorem optional_access_lost_sample :
    (parse .typescript missingOwnerSample).broken = false ∧
    (missingOwnerUnit.place.repositoryCalls.map fun x =>
      (Access.ofMember x.receiver missingOwnerUnit.source,
        (Rules.rule? (x.method.text missingOwnerUnit.source)).any (·.supported))) =
      [(.optional, true)] ∧
    Access.optional.skips true = true ∧ Access.plain.skips true = false ∧
    ∃ o, (Outcome.ofSource .typescript {} missingOwnerSample none).1 = .ok o ∧
      o.output = "a" ++ Access.plain.operator ++ "prisma.model.findMany()" ∧
      o.output ≠ "a" ++ Access.optional.operator ++ "prisma.model.findMany()" := by
  obtain ⟨hbroken, hcalls, hout⟩ := missingOwnerSample_output
  obtain ⟨o, ho, hout⟩ := exists_ok_of_map hout
  refine ⟨hbroken, hcalls, rfl, rfl, o, ho, ?_, ?_⟩ <;> rw [hout] <;> decide

end OrmCodemod.Calls
