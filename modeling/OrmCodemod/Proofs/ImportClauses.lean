import OrmCodemod.Proofs.ClauseGrammar
import OrmCodemod.Proofs.Turns

/-! The bindings that an import of a library keeps. Which of its names are dropped is told by its names and
by what else the pass has rewritten. The new clause is put together from the bindings that are left, and the
grammar reads these from it again, unless only a default is left and the next word follows right behind
it. -/

namespace OrmCodemod.Imports

open Syntax Text Pass Calls
open Grammar (Gap Bindings)

variable {u : SourceUnit} {source name : String} {members : Pattern.Regex} {s s1 s2 s' : Session}
  {progress last : Progress} {o : Outcome} {l r : List Place} {p : Place} {clause : Tree}
  {names : List String} {ed ed' : Editor} {n : Nat}

/-- A name is dropped from an import of a library, with `n` registrations replaced. -/
def IsDropped (u : SourceUnit) (n : Nat) (p : Place) (name : String) : Prop :=
  (modulePath? u p.tree = some sourceLibrary ∧
    ((name ∈ repositoryNames ∧ Resolver.repositoryType ∈ importedNames u p.tree) ∨
      (name ∈ schemaNames ∧ ∃ other ∈ importedNames u p.tree, other ∈ schemaNames))) ∨
  (modulePath? u p.tree = some integrationLibrary ∧
    ((name = registrar ∧ n ≠ 0) ∨
      (name = injectionDecorator ∧ ∃ method ∈ u.place.find [.methodDefinition], Swappable u method)))

instance : Decidable (IsDropped u n p name) := inferInstanceAs (Decidable (_ ∨ _))

theorem mem_sourceLost {all : List String} : name ∈ sourceLost all ↔
    (name ∈ repositoryNames ∧ Resolver.repositoryType ∈ all) ∨
      (name ∈ schemaNames ∧ ∃ other ∈ all, other ∈ schemaNames) := by
  have hany : all.any schemaNames.contains = true ↔ ∃ other ∈ all, other ∈ schemaNames := by simp
  rw [sourceLost, List.mem_append]
  refine or_congr ?_ ?_
  · split <;> rename_i h <;> rw [List.contains_iff_mem] at h <;> simp [h]
  · split <;> rename_i h <;> rw [hany] at h
    · exact ⟨fun hmem => ⟨hmem, h⟩, fun hmem => hmem.1⟩
    · exact ⟨fun hmem => by simp at hmem, fun hmem => absurd hmem.2 h⟩

theorem mem_lost {flags : Flags} : name ∈ lost progress flags ↔
    (name = registrar ∧ progress.registrations ≠ 0) ∨
      (name = injectionDecorator ∧ flags.repositories = true) := by
  cases h : flags.repositories <;> by_cases h0 : progress.registrations = 0 <;> simp [lost, h, h0]

/-- The flag of the repositories tells before the imports whether a constructor was rewritten. -/
theorem Course.swaps (hu : u.Regular) (hm : Pattern.parse u.settings.memberPattern = .ok members)
    (hfresh : s.editor = { source := u.source }) (hflags : s.flags.repositories = false)
    (h : Course u source s s1 progress s2 last s' o) : s2.flags.repositories = true ↔
      ∃ method ∈ u.place.find [.methodDefinition], Swappable u method := by
  obtain ⟨_, s0, hextract, hcalls⟩ := result_bind_eq_ok h.before
  have hnotes := (extract_complete hu.toTopLevel hu.aligned).ok (hfresh ▸ Recorded.fresh u _) hextract
  obtain ⟨sc, hctors, hflag, -⟩ := convertConstructors_swaps hu.toNested
    (hnotes.imp fun _ he => he.1)
  rw [swapFlag_kept hm hctors hcalls h.registrations, hflag, extract_swapFlag hflags hextract]
  simp

theorem Course.mem_lostBy (hu : u.Regular) (hm : Pattern.parse u.settings.memberPattern = .ok members)
    (hfresh : s.editor = { source := u.source }) (hflags : s.flags.repositories = false)
    (h : Course u source s s1 progress s2 last s' o) :
    name ∈ lostBy u progress s2.flags p ↔ IsDropped u progress.registrations p name := by
  have hne : sourceLibrary ≠ integrationLibrary := by decide
  unfold lostBy IsDropped
  cases hpath : modulePath? u p.tree with
  | none => simp
  | some path =>
    dsimp only
    split
    · subst path
      rw [mem_sourceLost]
      simp [hne]
    split
    · subst path
      rw [mem_lost, h.swaps hu hm hfresh hflags]
      simp [hne.symm]
    · simp [*]

def keptBindings (u : SourceUnit) (n : Nat) (p : Place) (clause : Tree) : Bindings :=
  .of u.source clause fun specifier => !decide (IsDropped u n p (importedName u specifier))

theorem specifiers_of_clause (h : clause? p.tree = some clause) :
    specifiers p.tree = Bindings.specifiersOf clause := by
  rw [specifiers, h]
  rfl

theorem keptParts_eq (hclause : clause? p.tree = some clause)
    (hnames : ∀ name, name ∈ names ↔ IsDropped u n p name) :
    keptParts u p.tree clause names = (keptBindings u n p clause).parts := by
  have hkeeps : (fun sp => !names.contains (importedName u sp)) =
      fun sp => !decide (IsDropped u n p (importedName u sp)) := by
    funext sp
    rw [Bool.eq_iff_iff]
    simp [hnames]
  rw [keptParts, specifiers_of_clause hclause, hkeeps]
  simp [Bindings.parts, keptBindings, Bindings.of]

theorem clause_short (hu : u.TopLevel) (hp : p ∈ importStatements u) {path : String}
    (hpath : modulePath? u p.tree = some path) (hne : path ≠ "") (hclause : clause? p.tree = some clause) :
    p.start < clause.start ∨ clause.stop < p.stop := by
  have hpr := (statement_rooted hp).1.within
  have hordered := Tree.everyNode_within hu.ordered hpr
  obtain ⟨module, hmodule, hvalue⟩ := Option.bind_eq_some_iff.1 hpath
  have hliteral : module.is .stringLiteral = true := by
    by_contra hno
    simp [Tree.stringValue, hno] at hvalue
  have hlt : module.start < module.stop := by
    have htext : module.text u.source ≠ "" := by
      intro hempty
      rw [Tree.stringValue, if_pos hliteral, hempty] at hvalue
      exact hne (Option.some.inj hvalue).symm
    exact Tree.start_lt_of_text htext
  have hin := Tree.child_range hordered (Tree.child?_mem hmodule)
  have hck : clause.is .importClause = true := by simpa using List.find?_some hclause
  simp only [Place.start, Place.stop]
  rcases Tree.inOrder_apart (Tree.test_within hu.ordered hpr) (Tree.child?_mem hmodule)
    (clause_mem hclause) with rfl | h | h
  · rw [Tree.is_iff] at hliteral hck
    rw [hliteral] at hck
    cases hck
  · omega
  · omega

theorem HasClause.not_left {text : String} (h : HasClause u ed p clause text) : ¬IsLeft u ed p := by
  intro hleft
  obtain ⟨k, hk⟩ := h.taken
  rw [hleft.free] at hk
  cases hk

theorem HasClause.not_gone {text : String} (hu : u.TopLevel) (hp : p ∈ importStatements u)
    {path : String} (hpath : modulePath? u p.tree = some path) (hne : path ≠ "")
    (hclause : clause? p.tree = some clause) (h : HasClause u ed p clause text) : ¬IsGone u ed p := by
  intro hgone
  obtain ⟨-, -, hc, -⟩ := statement_facts hu hp hpath
  have htakes := statement_takesLine hu hp
  have h1 := htakes.start_le
  have h2 := htakes.le_stop
  obtain ⟨k, hk⟩ := hgone.reaching hu hp hc
  obtain ⟨k', hk'⟩ := h.taken
  rw [hk] at hk'
  obtain ⟨hedit, -⟩ := List.cons.inj hk'
  -- the removal is longer than the clause
  have hstart := congrArg Edit.start hedit
  have hstop := congrArg Edit.stop hedit
  have hshort := clause_short hu hp hpath hne hclause
  simp only [Place.start, Place.stop] at hshort hstart hstop
  omega

/-- What becomes of an import of a library with `n` registrations replaced: it is left if no name is
dropped from it, it goes if names are dropped and no binding is left, and else its clause is put together
from the bindings that are left. -/
structure IsRewritten (u : SourceUnit) (n : Nat) (p : Place) (s' : Session) : Prop where
  left : IsLeft u s'.printed p ↔ ∀ name ∈ importedNames u p.tree, ¬IsDropped u n p name
  flagged : (∃ name ∈ importedNames u p.tree, IsDropped u n p name) → s'.flags.modules = true
  gone : IsGone u s'.printed p ↔ (∃ name ∈ importedNames u p.tree, IsDropped u n p name) ∧
    ∃ clause, clause? p.tree = some clause ∧ keptBindings u n p clause = ⟨[], []⟩
  clause : ∀ clause, clause? p.tree = some clause → keptBindings u n p clause ≠ ⟨[], []⟩ →
    (∃ name ∈ importedNames u p.tree, IsDropped u n p name) →
    HasClause u s'.printed p clause (keptBindings u n p clause).text

/-- An import with names to drop goes in its turn, or its clause is replaced. -/
theorem Turn.lossy {mid : Editor} {after : Session} (hu : u.Regular)
    (hcourse : Course u source s s1 progress s2 last s' o) (hsplit : importStatements u = l ++ p :: r)
    (hc : p.tree.children ≠ []) (h : Turn u r p (lostBy u progress s2.flags p) last s' mid after)
    (hnames : ∀ name, name ∈ lostBy u progress s2.flags p ↔ IsDropped u n p name)
    (hloses : Loses u p.tree (lostBy u progress s2.flags p) mid after.editor)
    (hflag : after.flags.modules = true)
    (hsome : ∃ name ∈ importedNames u p.tree, IsDropped u n p name) :
    ∃ clause, clause? p.tree = some clause ∧
      (keptBindings u n p clause = ⟨[], []⟩ → IsGone u s'.printed p) ∧
      (keptBindings u n p clause ≠ ⟨[], []⟩ →
        HasClause u s'.printed p clause (keptBindings u n p clause).text) := by
  have hp : p ∈ importStatements u := hsplit ▸ by simp
  have hlost : ∃ name ∈ importedNames u p.tree, name ∈ lostBy u progress s2.flags p := by
    simpa only [hnames] using hsome
  rw [Loses, if_pos hlost] at hloses
  obtain ⟨clause, hclause, hdone⟩ := hloses
  rw [keptParts_eq hclause hnames] at hdone
  refine ⟨clause, hclause, fun hnone => ?_, fun hrest => ?_⟩
  · rw [if_pos (Bindings.parts_eq_nil.2 hnone)] at hdone
    exact h.gone hu hcourse hsplit hc hdone hflag
  · rw [if_neg (Bindings.parts_eq_nil.not.2 hrest)] at hdone
    exact h.clause hu hcourse hsplit hc hclause
      (lossy_clause_nonempty hu.toTopLevel hp hclause hlost) hdone hflag

theorem Course.rewritten (hu : u.Regular) (hm : Pattern.parse u.settings.memberPattern = .ok members)
    (hfresh : s.editor = { source := u.source }) (hflags : s.flags.repositories = false)
    (h : Course u source s s1 progress s2 last s' o) (hp : p ∈ importStatements u)
    (hplain : p.tree.plainImport = true) {path : String} (hpath : modulePath? u p.tree = some path)
    (hlib : isLibrary path) : IsRewritten u progress.registrations p s' := by
  have hnames : ∀ name, name ∈ lostBy u progress s2.flags p ↔
      IsDropped u progress.registrations p name := fun _ => h.mem_lostBy hu hm hfresh hflags
  have hne : path ≠ "" := by
    rcases hlib with rfl | rfl <;> decide
  obtain ⟨-, -, hc, -⟩ := statement_facts hu.toTopLevel hp hpath
  obtain ⟨l, r, hsplit⟩ := List.append_of_mem hp
  obtain ⟨mid, after, hturn⟩ := h.turn hu hm hfresh hsplit hplain hc
  have hloses : Loses u p.tree (lostBy u progress s2.flags p) mid after.editor := by
    have halters := hturn.alters
    rw [Alters, hpath] at halters
    simpa [hlib] using halters
  have hflag : (∃ name ∈ importedNames u p.tree, IsDropped u progress.registrations p name) →
      after.flags.modules = true := fun hsome => hturn.fired (.inl (by simpa only [hnames] using hsome))
  have hlossy := fun hsome => hturn.lossy hu h hsplit hc hnames hloses (hflag hsome) hsome
  have hleft : (∀ name ∈ importedNames u p.tree, ¬IsDropped u progress.registrations p name) →
      IsLeft u s'.printed p := by
    intro hnone
    rw [Loses, if_neg (by simpa only [hnames, not_exists, not_and] using hnone)] at hloses
    exact hturn.left hu h hsplit hc (hloses ▸ hturn.free)
  refine ⟨⟨fun hleaves name hname hdropped => ?_, hleft⟩, fun hsome => ?_, ⟨fun hgone => ?_, ?_⟩,
    fun clause hclause hrest hsome => ?_⟩
  · obtain ⟨clause, hclause, hgone, hreplaced⟩ := hlossy ⟨name, hname, hdropped⟩
    by_cases hempty : keptBindings u progress.registrations p clause = ⟨[], []⟩
    · exact (hgone hempty).not_left hu.toTopLevel hp hc hleaves
    · exact (hreplaced hempty).not_left hleaves
  · exact (hturn.lasts hu.toTopLevel hp fun q hq =>
      ⟨by simp [hsplit, hq], lineApart_of_split hu.toTopLevel hsplit hc (.inr hq)⟩).2 (hflag hsome)
  · by_cases hsome : ∃ name ∈ importedNames u p.tree, IsDropped u progress.registrations p name
    · obtain ⟨clause, hclause, -, hreplaced⟩ := hlossy hsome
      refine ⟨hsome, clause, hclause, ?_⟩
      by_contra hrest
      exact (hreplaced hrest).not_gone hu.toTopLevel hp hpath hne hclause hgone
    · have hnone := hleft fun name hname hdropped => hsome ⟨name, hname, hdropped⟩
      exact absurd hnone (hgone.not_left hu.toTopLevel hp hc)
  · rintro ⟨hsome, clause, hclause, hempty⟩
    obtain ⟨clause', hclause', hgone, -⟩ := hlossy hsome
    obtain rfl : clause = clause' := Option.some.inj (hclause.symm.trans hclause')
    exact hgone hempty
  · obtain ⟨clause', hclause', -, hreplaced⟩ := hlossy hsome
    obtain rfl : clause = clause' := Option.some.inj (hclause.symm.trans hclause')
    exact hreplaced hrest

/-- The bindings of the libraries' imports. What names such an import is left with is told by the names that
are dropped, with its other bindings in their order. The grammar reads the new clause with just these
bindings, unless only a default is left and the next word follows right behind it: then it is joined to
that. -/
theorem library_imports_rewritten (u : SourceUnit) (hu : u.Regular) (source : String)
    (hsource : u.source = encode source) (members : Pattern.Regex)
    (hm : Pattern.parse u.settings.memberPattern = .ok members) (s : Session)
    (hs : s.editor = { source := u.source }) (hflags : s.flags.repositories = false) :
    ∃ s1 progress s2 last s' o, Course u source s s1 progress s2 last s' o ∧
      ∀ p ∈ importStatements u, p.tree.plainImport = true →
        ∀ path, modulePath? u p.tree = some path → isLibrary path →
          IsRewritten u progress.registrations p s' ∧
          ∀ clause g gap more, clause? p.tree = some clause →
            Bindings.Grammatical g (.of u.source clause fun _ => true) → Gap gap →
            slice u.source clause.stop p.stop = encodeChars (gap ++ ("from".toList ++ more)) →
            keptBindings u progress.registrations p clause ≠ ⟨[], []⟩ → ∀ before after,
            ((keptBindings u progress.registrations p clause).ReadsBack g before
                (gap ++ ("from".toList ++ (more ++ after))) ↔
              ¬((keptBindings u progress.registrations p clause).named = [] ∧ gap = [])) := by
  obtain ⟨s1, progress, s2, last, s', o, hcourse⟩ := exists_course hu hsource hm hs
  refine ⟨s1, progress, s2, last, s', o, hcourse, fun p hp hplain path hpath hlib => ?_⟩
  refine ⟨hcourse.rewritten hu hm hs hflags hp hplain hpath hlib, ?_⟩
  intro clause g gap more _ hgrammatical hgap _ hsome before after
  exact Bindings.readsBack_iff hgrammatical.fewer hsome hgap

/-- An import that keeps a default and one of two names, one that keeps nothing, and one of which no name is
dropped. -/
def clauseSample : String :=
  "import T, \x7bRepository, \"In\" as I\x7d from 'typeorm';\n" ++
    "import \x7bTypeOrmModule\x7d from '@nestjs/typeorm';\nimport \x7bLike\x7d from 'typeorm';\n" ++
    "TypeOrmModule.forRoot();\n"

def clauseUnit : SourceUnit := ⟨encode clauseSample, (parse .typescript clauseSample).root, {}⟩

def clauseStart : Session := { editor := { source := clauseUnit.source } }

def clauseGrammar : Grammar.Context := ⟨.typescript, 2, production .typescript 2⟩

theorem clauseSample_imports :
    (importStatements clauseUnit).map (fun p : Place => (p.tree.plainImport,
      modulePath? clauseUnit p.tree,
      decide (∃ name ∈ importedNames clauseUnit p.tree, IsDropped clauseUnit 1 p name))) =
      [(true, some "typeorm", true), (true, some "@nestjs/typeorm", true),
        (true, some "typeorm", false)] ∧
    (importStatements clauseUnit).map (fun p => (clause? p.tree).map fun clause =>
      (slice clauseUnit.source clause.stop p.stop, Bindings.of clauseUnit.source clause fun _ => true,
        keptBindings clauseUnit 1 p clause)) =
      [some (encode " from 'typeorm';", ⟨["T"], ["Repository", "\"In\" as I"]⟩, ⟨["T"], ["\"In\" as I"]⟩),
        some (encode " from '@nestjs/typeorm';", ⟨[], ["TypeOrmModule"]⟩, ⟨[], []⟩),
        some (encode " from 'typeorm';", ⟨[], ["Like"]⟩, ⟨[], ["Like"]⟩)] ∧
    (((Entities.extract clauseUnit >>= fun _ => Calls.convert clauseUnit) >>= fun _ =>
      convertRegistrations clauseUnit (registrationSites clauseUnit)).result
        clauseStart).1.toOption.map (·.registrations) = some 1 := by
  decide +kernel

open Grammar in
theorem clauseSample_grammatical :
    Bindings.Grammatical clauseGrammar ⟨["T"], ["Repository", "\"In\" as I"]⟩ := by
  refine ⟨.inr ⟨"T", rfl, by decide⟩, fun name hname => ?_, by decide⟩
  have hstring : IsString clauseGrammar ('"' :: ("In".toList ++ ['"'])) :=
    plain_isString (.inr rfl) (by decide) (by decide)
  have hrenamed : Specifier clauseGrammar
      ('"' :: ("In".toList ++ ['"']) ++ ([' '] ++ ("as".toList ++ ([' '] ++ "I".toList)))) :=
    .renamed (.string hstring) Gap.space (fun _ => rfl) Gap.space (by simp) (by decide) (by decide)
  rcases List.mem_pair.1 hname with rfl | rfl
  · exact .plain (.name (by decide))
  · exact hrenamed

theorem library_imports_rewritten_sample : ∃ s1 progress s2 last s' o shared emptied kept clause,
    Course clauseUnit clauseSample clauseStart s1 progress s2 last s' o ∧
    importStatements clauseUnit = [shared, emptied, kept] ∧ s'.flags.modules = true ∧
    clause? shared.tree = some clause ∧
    HasClause clauseUnit s'.printed shared clause "T, \x7b \"In\" as I \x7d" ∧
    (⟨["T"], ["\"In\" as I"]⟩ : Bindings).ReadsBack clauseGrammar "import ".toList
      " from 'typeorm';".toList ∧
    IsGone clauseUnit s'.printed emptied ∧ IsLeft clauseUnit s'.printed kept := by
  obtain ⟨himports, hclauses, hcount⟩ := clauseSample_imports
  obtain ⟨s1, progress, s2, last, s', o, hcourse, hall⟩ :=
    library_imports_rewritten clauseUnit (parse_sheltered .typescript clauseSample {}).toRegular clauseSample
      (by simp only [clauseUnit]) _ Settings.exists_members.choose_spec
      clauseStart rfl rfl
  have hone := hcourse.count_eq hcount
  rw [hone] at hall
  obtain ⟨shared, emptied, kept, hlist⟩ :
      ∃ shared emptied kept, importStatements clauseUnit = [shared, emptied, kept] :=
    List.length_eq_three.1 (by simpa using congrArg List.length himports)
  rw [hlist] at himports hclauses
  simp only [List.map_cons, List.map_nil, List.cons.injEq, Prod.mk.injEq, decide_eq_true_eq,
    decide_eq_false_iff_not, and_true, Option.map_eq_some_iff] at himports hclauses
  obtain ⟨⟨h1, h2, hshared⟩, ⟨h3, h4, hemptied⟩, h5, h6, hkept⟩ := himports
  obtain ⟨⟨clause, hclause, hslice, hwhole, hleft⟩, ⟨clause', hclause', -, -, hnone⟩, -⟩ := hclauses
  obtain ⟨hfirst, hreads⟩ := hall shared (by simp [hlist]) h1 _ h2 (by decide)
  obtain ⟨hsecond, -⟩ := hall emptied (by simp [hlist]) h3 _ h4 (by decide)
  obtain ⟨hthird, -⟩ := hall kept (by simp [hlist]) h5 _ h6 (by decide)
  have hsome : keptBindings clauseUnit 1 shared clause ≠ ⟨[], []⟩ := by
    rw [hleft]
    decide
  refine ⟨s1, progress, s2, last, s', o, shared, emptied, kept, clause, hcourse, hlist,
    hfirst.flagged hshared, hclause, ?_, ?_, hsecond.gone.2 ⟨hemptied, clause', hclause', hnone⟩,
    hthird.left.2 (by simpa using hkept)⟩
  · have hnew := hfirst.clause clause hclause hsome hshared
    rw [hleft] at hnew
    exact hnew
  · have hback := hreads clause clauseGrammar [' '] " 'typeorm';".toList hclause
      (hwhole ▸ clauseSample_grammatical) Grammar.Gap.space (hslice.trans rfl) hsome "import ".toList []
    rw [hleft] at hback
    exact hback.2 (by simp)

/-- An import of which only the default is kept, where nothing stands between the brace and the next
word. -/
def joinedSample : String := "import T,\x7bRepository\x7dfrom'typeorm';\nlet x: T;"

def joinedUnit : SourceUnit := ⟨encode joinedSample, (parse .typescript joinedSample).root, {}⟩

theorem joinedSample_output : (parse .typescript joinedSample).broken = false ∧
    (importStatements joinedUnit).map (fun p => (clause? p.tree).map fun clause =>
      (Bindings.of joinedUnit.source clause fun _ => true, keptBindings joinedUnit 0 p clause)) =
      [some (⟨["T"], ["Repository"]⟩, ⟨["T"], []⟩)] ∧
    (Outcome.ofSource .typescript {} joinedSample none).1.toOption.map (·.output) =
      some "import \x7b PrismaService \x7d from './prisma.service';\nimport Tfrom'typeorm';\nlet x: T;" := by
  decide +kernel

/-- The default is joined to the next word, and the output cannot be read. -/
theorem default_joined_sample : ∃ o, (parse .typescript joinedSample).broken = false ∧
    (importStatements joinedUnit).map (fun p => (clause? p.tree).map fun clause =>
      (Bindings.of joinedUnit.source clause fun _ => true, keptBindings joinedUnit 0 p clause)) =
      [some (⟨["T"], ["Repository"]⟩, ⟨["T"], []⟩)] ∧
    (Outcome.ofSource .typescript {} joinedSample none).1 = .ok o ∧
    "import Tfrom'typeorm'".toList <:+: o.output.toList ∧
    (parse .typescript o.output).broken = true := by
  obtain ⟨hbroken, hbindings, hout⟩ := joinedSample_output
  obtain ⟨o, ho, hout⟩ := exists_ok_of_map hout
  refine ⟨o, hbroken, hbindings, ho, ?_⟩
  rw [hout, Text.infix_iff rfl rfl]
  decide +kernel

end OrmCodemod.Imports
