import OrmCodemod.Pass.Outcome
import OrmCodemod.Proofs.Grammar.Parsed
import OrmCodemod.Proofs.ImportEdits
import OrmCodemod.Proofs.Utf8

/-! What a whole pass leaves alone. Every edit that the three stages hold at the end is one of a few
sorts, with a range that is told; the bytes outside these ranges come out unchanged and in order, and
so does every node that no such range touches. -/

namespace OrmCodemod

open Syntax Text Pass

/-- A call on a repository member that the settings select. -/
def Calls.IsMatched (u : SourceUnit) (site : Place.RepositoryCall) : Prop :=
  ∃ members, Pattern.parse u.settings.memberPattern = .ok members ∧ site ∈ callSites u members

/-- What an edit of a pass may be. -/
inductive Licensed (u : SourceUnit) (e : Edit) : Prop where
  | importLine (symbol path : String) (wanted : Imports.isWanted u symbol path) (start : e.start = 0)
      (stop : e.stop = 0) (text : e.replacement = encode (Imports.importLine u symbol path))
  | entityAdvisory (class_ : Place) (entity : Entities.IsEntity u class_)
      (before : e.IsAdvisory u class_ Entities.entityAdvisory)
  | callAdvisory (site : Place.RepositoryCall) (rule : Rules.Rule) (comment : String)
      (matched : Calls.IsMatched u site)
      (row : Rules.rule? (site.method.text u.source) = some rule)
      (listed : comment ∈ rule.advisories)
      (method : site.method.text u.source = "save" ∨
        site.method.text u.source = "createQueryBuilder")
      (before : e.IsAdvisory u site.call comment)
  | importAdvisory (p : Place) (path : String) (mem : p ∈ Imports.importStatements u)
      (module : Imports.modulePath? u p.tree = some path) (entity : Imports.isEntityPath path = true)
      (before : e.IsAdvisory u p Imports.entityImportAdvisory)
  | callee (site : Place.RepositoryCall) (rule : Rules.Rule) (matched : Calls.IsMatched u site)
      (row : Rules.rule? (site.method.text u.source) = some rule) (supported : rule.supported = true)
      (on : e.IsOn site.callee)
  | arguments (site : Place.RepositoryCall) (rule : Rules.Rule) (matched : Calls.IsMatched u site)
      (row : Rules.rule? (site.method.text u.source) = some rule) (supported : rule.supported = true)
      (on : e.IsOn site.arguments)
  | registration (site : Place × String) (mem : site ∈ Imports.registrationSites u)
      (on : e.IsOn site.1.tree)
  | parameter (p : Place) (injected : Calls.IsInjected u p) (on : e.IsOn p.tree)
  | listItem (p : Place) (injected : Calls.IsInjected u p)
      (takes : Editor.TakesComma u.source p e.start e.stop)
      (range : (e.start, e.stop) = Editor.itemRange p) (text : e.replacement = [])
  | clause (p : Place) (path : String) (clause : Tree) (mem : p ∈ Imports.importStatements u)
      (module : Imports.modulePath? u p.tree = some path) (library : Imports.isLibrary path)
      (found : Imports.clause? p.tree = some clause) (on : e.IsOn clause)
  | statement (p : Place) (mem : p ∈ Imports.importStatements u)
      (takes : Editor.TakesLine u.source p.tree e.start e.stop) (text : e.replacement = [])

variable {u : SourceUnit}

/-- Only `save` and `createQueryBuilder` come with advisories. -/
theorem Rules.method_of_advisory {method : String} {rule : Rule} {comment : String}
    (hr : rule? method = some rule) (hc : comment ∈ rule.advisories) :
    method = "save" ∨ method = "createQueryBuilder" := by
  have hmem := mem_table hr
  simp only [table, List.mem_cons, Prod.mk.injEq, List.not_mem_nil, or_false] at hmem
  rcases hmem with ⟨rfl, rfl⟩ | ⟨rfl, rfl⟩ | ⟨rfl, rfl⟩ | ⟨rfl, rfl⟩ | ⟨rfl, rfl⟩ | ⟨rfl, rfl⟩ |
    ⟨rfl, rfl⟩ | ⟨rfl, rfl⟩ | ⟨rfl, rfl⟩ | ⟨rfl, rfl⟩ <;> simp_all [renamed]

theorem licensed_of_injection (hu : u.WellFormed) {e : Edit} (h : Calls.IsInjectionEdit u e) :
    Licensed u e := by
  cases h with
  | client p hp on _ => exact .parameter p hp on
  | removal p hp start stop text =>
    obtain ⟨f, hf, hmem⟩ := hp.rooted
    rcases Editor.itemRange_takesComma hf hmem hu.ordered hu.spaced with h | h
    · exact .listItem p hp (by rw [start, stop]; exact h) (by rw [start, stop]) text
    · exact .parameter p hp ⟨by rw [start, h]; rfl, by rw [stop, h]; rfl⟩

theorem licensed_of_call {members : Pattern.Regex} {e : Edit}
    (hm : Pattern.parse u.settings.memberPattern = .ok members) (h : Calls.IsCallEdit u members e) :
    Licensed u e := by
  cases h with
  | callee site rule mem row supported on =>
    exact .callee site rule ⟨members, hm, mem⟩ row supported on
  | arguments site rule mem row supported on =>
    exact .arguments site rule ⟨members, hm, mem⟩ row supported on
  | advisory site rule comment mem row listed before =>
    exact .callAdvisory site rule comment ⟨members, hm, mem⟩ row listed
      (Rules.method_of_advisory row listed) before

theorem imports_licensed (hu : u.WellFormed) :
    Imports.Admits u (fun _ s => Recorded u (Licensed u) s.editor)
      fun e s => (∃ o, e = .overlap o) ∧ Recorded u (Licensed u) s.editor := by
  have hmem : ∀ {l p r}, Imports.importStatements u = l ++ p :: r →
      p ∈ Imports.importStatements u := fun h => h ▸ by simp
  constructor
  · exact fun _ s s' he _ hs => he ▸ hs
  · intro l symbol path hw
    refine keeps_edit fun ed ed' hed he => hed.insertAt (Nat.zero_le _) (fun k => ?_) he
    exact .importLine symbol path hw rfl rfl (by dsimp only)
  · intro site hs s ed' hed he
    exact hed.replace hu.toNested (Imports.registration_within hs).1.within
      (fun _ => .registration site hs ⟨rfl, rfl⟩) he
  · exact fun l p r _ s hed => hed
  · intro l p r path clause text hl hp hlib hclause _
    refine keeps_edit fun ed ed' hed he => hed.replace hu.toNested ?_
      (fun _ => .clause p path clause (hmem hl) hp hlib hclause ⟨rfl, rfl⟩) he
    exact (Tree.within_of_mem (Imports.clause_mem hclause)).trans
      (Imports.statement_rooted (hmem hl)).1.within
  · intro l p r path hl _ _
    refine keeps_edit fun ed ed' hed he => ?_
    have hn := hu.node (Imports.statement_rooted (hmem hl)).1.within
    have ht := Editor.removal_takesLine hn.1 hn.2
    rw [Editor.removeStatement_eq, hed.source] at he
    have hle := ht.start_le.trans (hn.1.trans ht.le_stop)
    exact hed.replaceRange hle ht.fits (fun _ => .statement p (hmem hl) ht rfl) he
  · intro l p r path hl hp hentity
    exact keeps_advise hu.toNested (Imports.statement_rooted (hmem hl)).1 fun e he =>
      .importAdvisory p path (hmem hl) hp hentity he

/-- However a pass ends, its editor holds licensed edits only. -/
theorem stages_recorded (hu : u.WellFormed) {s : Session} (hs : s.editor = { source := u.source }) :
    Recorded u (Licensed u) ((Outcome.stages u).result s).2.editor := by
  refine Holds.left (P := fun s => Recorded u (Licensed u) s.editor)
    (R := fun s => Recorded u (Licensed u) s.editor) ?_ (hs ▸ Recorded.fresh u _)
  have hend : ∀ (e : Fault) (s : Session), (∃ o, e = .overlap o) ∧ Recorded u (Licensed u) s.editor →
      Recorded u (Licensed u) s.editor := fun _ _ h => h.2
  unfold Outcome.stages
  refine Holds.bind (Q := fun _ s => Recorded u (Licensed u) s.editor) ?_ fun _ => ?_
  · refine Entities.extract_holds fun class_ hc => ?_
    exact (keeps_advise hu.toNested hc.rooted fun e he => Licensed.entityAdvisory class_ hc he).mono
      (fun _ h => h) (fun _ _ h => h) hend
  refine Holds.bind (Q := fun _ s => Recorded u (Licensed u) s.editor) ?_ fun _ => ?_
  · unfold Calls.convert
    split
    · exact Holds.throw fun _ h => h
    · rename_i members hm
      exact Holds.bind (Calls.convertConstructors_holds hu.toNested
        fun e he => licensed_of_injection hu he) fun _ =>
          Calls.convertCalls_holds hu.toNested fun e he => licensed_of_call hm he
  · exact (Imports.convert_holds (imports_licensed hu)).mono (fun _ h => h) (fun _ _ h => h) hend

/-- A licensed edit and a node of a statement lie one in the other, or do not overlap. -/
theorem licensed_or_apart (hu : u.WellFormed) {e : Edit} (he : Licensed u e) {top t : Tree}
    (htop : top ∈ u.root.children) (hc : top.children ≠ []) (ht : t.Within top) :
    e.inside t.start t.stop = true ∨ (e.start ≤ t.start ∧ t.stop ≤ e.stop) ∨
      e.stop ≤ t.start ∨ t.stop ≤ e.start := by
  have hroot : t.Within u.root := ht.trans (Tree.within_of_mem htop)
  have hn := hu.node hroot
  have hinsertion : e.start = e.stop → e.inside t.start t.stop = true ∨
      (e.start ≤ t.start ∧ t.stop ≤ e.stop) ∨ e.stop ≤ t.start ∨ t.stop ≤ e.start := by
    intro heq
    rw [Edit.inside_iff]
    omega
  have hpart : ∀ {site : Place.RepositoryCall}, Calls.IsMatched u site →
      site.callee.Within u.root ∧ site.arguments.Within u.root := by
    rintro site ⟨members, -, hs⟩
    obtain ⟨hr, hp⟩ := Calls.mem_callSites hs
    exact ⟨(Tree.within_of_mem (Tree.child?_mem hp.callee)).trans hr.within,
      (Tree.within_of_mem (Tree.child?_mem hp.arguments)).trans hr.within⟩
  cases he with
  | importLine _ _ _ start stop _ => exact hinsertion (by rw [start, stop])
  | entityAdvisory _ _ h => exact hinsertion (h.1.trans h.2.1.symm)
  | callAdvisory _ _ _ _ _ _ _ h => exact hinsertion (h.1.trans h.2.1.symm)
  | importAdvisory _ _ _ _ _ h => exact hinsertion (h.1.trans h.2.1.symm)
  | callee site _ h _ _ on => exact onNode_or_apart hu.toNested on (hpart h).1 hroot
  | arguments site _ h _ _ on => exact onNode_or_apart hu.toNested on (hpart h).2 hroot
  | registration site h on =>
    exact onNode_or_apart hu.toNested on (Imports.registration_within h).1.within hroot
  | parameter p h on =>
    obtain ⟨f, hf, hp⟩ := h.rooted
    exact onNode_or_apart hu.toNested on (hf.child hp).within hroot
  | listItem p h _ range _ =>
    obtain ⟨f, hf, hp⟩ := h.rooted
    exact onItem_or_apart hu.toNested hf hp (congrArg Prod.fst range) (congrArg Prod.snd range) hroot
  | clause p _ clause hmem _ _ found on =>
    refine onNode_or_apart hu.toNested on ?_ hroot
    exact (Tree.within_of_mem (Imports.clause_mem found)).trans
      (Imports.statement_rooted hmem).1.within
  | statement p hmem takes _ =>
    have hx := (Imports.statement_rooted hmem).2
    have hrange := ht.range (Tree.everyNode_within hu.ordered (Tree.within_of_mem htop))
    have h1 := takes.start_le
    have h2 := takes.le_stop
    rcases removal_apart hu.toTopLevel hx htop hc takes with rfl | h | h
    · exact .inr (.inl (by omega))
    · exact .inr (.inr (.inr (by omega)))
    · exact .inr (.inr (.inl (by omega)))

/-- The output of a session: what its editor prints, or the source where nothing was converted. -/
theorem Outcome.output_eq {settings : Settings} {source : String} {s : Session} {o : Outcome}
    (h : ofSession settings source s = .ok o) :
    (s.flags.any = true ∧ encode o.output = s.editor.printBytes) ∨
      (s.flags.any = false ∧ o.output = source) := by
  unfold ofSession at h
  dsimp only at h
  cases hf : s.flags.any with
  | false =>
    simp only [hf, Bool.false_eq_true, if_false, pure_bind] at h
    exact .inr ⟨rfl, (congrArg Outcome.output (Except.ok.inj h)).symm⟩
  | true =>
    simp only [hf, if_true] at h
    cases hp : s.editor.print with
    | error e => simp [hp, Except.mapError, bind, Except.bind] at h
    | ok text =>
      simp only [hp, Except.mapError, bind, Except.bind] at h
      have := congrArg Outcome.output (Except.ok.inj h)
      exact .inl ⟨rfl, this ▸ encode_of_decode hp⟩

/-- The frame of a pass: the edits that it holds at the end are licensed, the bytes outside them come
out unchanged and in order, and a node that neither holds nor lies in one comes out as it is. -/
theorem pass_frame (u : SourceUnit) (hu : u.WellFormed) (source : String)
    (hsource : u.source = encode source) (s : Session)
    (hs : s.editor = { source := u.source }) :
    (∀ e ∈ ((Outcome.stages u).result s).2.editor.edits, Licensed u e) ∧
    ∀ o, Outcome.ofSession u.settings source ((Outcome.stages u).result s).2 = .ok o →
      ((Outcome.stages u).result s).2.editor.kept.Sublist (encode o.output) ∧
      ∀ t, t.Within u.root → t ≠ u.root → t.children ≠ [] →
        (∀ e ∈ ((Outcome.stages u).result s).2.editor.edits,
          e.inside t.start t.stop = false ∧ ¬(e.start ≤ t.start ∧ t.stop ≤ e.stop)) →
        t.bytes u.source <:+: encode o.output := by
  have hrec := stages_recorded hu hs
  generalize ((Outcome.stages u).result s).2 = final at hrec ⊢
  refine ⟨hrec.all, fun o ho => ?_⟩
  rcases Outcome.output_eq ho with ⟨-, hout⟩ | ⟨-, hout⟩
  · rw [hout]
    refine ⟨Editor.kept_sublist_printBytes hrec.sound, fun t ht hne hc hfree => ?_⟩
    obtain ⟨top, htop, htc, htt⟩ := exists_top ht hne hc
    have hn := hu.node ht
    have hinfix := Editor.slice_infix_printBytes hrec.sound hn.1 (hrec.source ▸ hn.2)
      fun e he => ?_
    · rwa [hrec.source] at hinfix
    · obtain ⟨h1, h2⟩ := hfree e he
      rcases licensed_or_apart hu (hrec.all e he) htop htc htt with h | h | h
      · simp [h1] at h
      · exact absurd h h2
      · exact h
  · rw [hout, ← hsource]
    refine ⟨?_, fun t _ _ _ _ => ?_⟩
    · exact hrec.source ▸ Editor.kept_sublist_source final.editor
    · exact ((List.take_prefix _ _).isInfix).trans (List.drop_suffix _ _).isInfix

def frameSample : String := "import \x7b Repository \x7d from 'typeorm';\na.repository.find(x);\n"

def frameSampleUnit : SourceUnit := ⟨encode frameSample, (parse .typescript frameSample).root, {}⟩

theorem pass_frame_sample :
    ((Outcome.stages frameSampleUnit).result
      { editor := { source := frameSampleUnit.source } }).2.editor.edits.length = 3 ∧
    ∀ e ∈ ((Outcome.stages frameSampleUnit).result
      { editor := { source := frameSampleUnit.source } }).2.editor.edits, Licensed frameSampleUnit e :=
  ⟨by decide +kernel, (pass_frame frameSampleUnit (parse_wellFormed .typescript frameSample {}) frameSample rfl
    { editor := { source := frameSampleUnit.source } } rfl).1⟩

end OrmCodemod
