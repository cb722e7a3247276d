import OrmCodemod.Pass.Imports
import OrmCodemod.Proofs.Quiet
import OrmCodemod.Proofs.Removal
import OrmCodemod.Proofs.View

/-! Which edits the stages of a pass make. Every stage has its own sort of edits, and keeps whatever
holds of the edits it finds and of those it makes. -/

namespace OrmCodemod

open Syntax Text Pass

theorem SourceUnit.Nested.node {u : SourceUnit} (hu : u.Nested) {t : Tree} (ht : t.Within u.root) :
    t.start ≤ t.stop ∧ t.stop ≤ u.source.length := by
  have h := ht.range hu.ordered
  have := hu.fits
  omega

theorem SourceUnit.place_rooted (u : SourceUnit) : u.place.Rooted u.root := .root

namespace Edit

/-- The edit takes exactly the place of a node. -/
def IsOn (e : Edit) (t : Tree) : Prop := e.start = t.start ∧ e.stop = t.stop

/-- The insertion of a comment before the statement that holds a place. -/
def IsAdvisory (u : SourceUnit) (p : Place) (comment : String) (e : Edit) : Prop :=
  e.start = p.statement.start ∧ e.stop = p.statement.start ∧
    e.replacement = encode (Editor.commentText (lineIndent u.source p.statement.start) comment)

end Edit

namespace Editor

/-- A comment stands before the statement already, in the source or as an edit. -/
def noted (ed : Editor) (p : Place) (comment : String) : Bool :=
  (ed.leadingComments p.statement).contains (normalizeComment comment) ||
    ed.edits.any fun e => e.isInsertion && e.start == p.statement.start &&
      e.replacement == encode (commentText (lineIndent ed.source p.statement.start) comment)

theorem insertCommentBefore_eq (ed : Editor) (p : Place) (comment : String) :
    ed.insertCommentBefore p comment =
      if ed.noted p comment then .ok (false, ed)
      else (ed.insertAt p.statement.start
        (commentText (lineIndent ed.source p.statement.start) comment)).map fun ed => (true, ed) := by
  simp only [insertCommentBefore, noted, Bool.or_eq_true]
  by_cases h1 : (ed.leadingComments p.statement).contains (normalizeComment comment) = true
  · rw [if_pos h1, if_pos (.inl h1)]
  · rw [if_neg h1]
    simp only [h1, Bool.false_eq_true, false_or]

theorem insertCommentBefore_ok {ed ed' : Editor} {p : Place} {comment : String} {put : Bool}
    (h : ed.insertCommentBefore p comment = .ok (put, ed')) :
    ed' = ed ∨ ed.insertAt p.statement.start
      (commentText (lineIndent ed.source p.statement.start) comment) = .ok ed' := by
  rw [insertCommentBefore_eq] at h
  split at h
  · exact .inl (Prod.ext_iff.1 (Except.ok.inj h)).2.symm
  · cases hi : ed.insertAt p.statement.start
        (commentText (lineIndent ed.source p.statement.start) comment) with
    | error o => simp [hi, Except.map] at h
    | ok ed1 =>
      simp only [hi, Except.map, Except.ok.injEq, Prod.mk.injEq] at h
      exact .inr (by rw [h.2])

theorem insertCommentBefore_not_error {ed : Editor} {p : Place} {comment : String} {o : Overlap}
    (h : ed.Clear p.statement.start p.statement.start) :
    ed.insertCommentBefore p comment ≠ .error o := by
  intro he
  rw [insertCommentBefore_eq] at he
  split at he
  · simp at he
  · cases hi : ed.insertAt p.statement.start
        (commentText (lineIndent ed.source p.statement.start) comment) with
    | error o => exact h.insertAt_not_error hi
    | ok ed1 => simp [hi, Except.map] at he

end Editor

/-- Sound edits of the source of a unit, all of one sort, that put texts. -/
structure Recorded (u : SourceUnit) (L : Edit → Prop) (ed : Editor) : Prop where
  source : ed.source = u.source
  sound : ed.Sound
  texts : ∀ e ∈ ed.edits, ∃ text, e.replacement = encode text
  all : ∀ e ∈ ed.edits, L e

namespace Recorded

variable {u : SourceUnit} {L L' : Edit → Prop} {ed ed' : Editor}

theorem fresh (u : SourceUnit) (L : Edit → Prop) : Recorded u L { source := u.source } :=
  ⟨rfl, Editor.sound_fresh _, by simp, by simp⟩

theorem imp (h : Recorded u L ed) (hL : ∀ e, L e → L' e) : Recorded u L' ed :=
  ⟨h.source, h.sound, h.texts, fun e he => hL e (h.all e he)⟩

theorem replaceRange (h : Recorded u L ed) {a b : Nat} {text : String} (hab : a ≤ b)
    (hb : b ≤ u.source.length) (hL : ∀ k, L ⟨a, b, encode text, k⟩)
    (he : ed.replaceRange a b text = .ok ed') : Recorded u L ed' := by
  have hs := h.sound.replaced hab (h.source ▸ hb) he
  obtain ⟨-, rfl⟩ := Editor.replaceRange_eq_ok.1 he
  refine ⟨h.source, hs, fun e he => ?_, fun e he => ?_⟩
  · rcases List.mem_append.1 he with he | he
    · exact h.texts e (Editor.mem_outside.1 he).1
    · obtain rfl := List.mem_singleton.1 he
      exact ⟨text, rfl⟩
  · rcases List.mem_append.1 he with he | he
    · exact h.all e (Editor.mem_outside.1 he).1
    · obtain rfl := List.mem_singleton.1 he
      exact hL _

theorem insertAt (h : Recorded u L ed) {p : Nat} {text : String} (hp : p ≤ u.source.length)
    (hL : ∀ k, L ⟨p, p, encode text, k⟩) (he : ed.insertAt p text = .ok ed') : Recorded u L ed' :=
  h.replaceRange le_rfl hp hL ((Editor.insertAt_eq_replaceRange h.sound p text).1 he)

theorem insertCommentBefore (h : Recorded u L ed) {p : Place} {comment : String} {put : Bool}
    (hp : p.statement.start ≤ u.source.length) (hL : ∀ e, e.IsAdvisory u p comment → L e)
    (he : ed.insertCommentBefore p comment = .ok (put, ed')) : Recorded u L ed' := by
  rcases Editor.insertCommentBefore_ok he with rfl | he
  · exact h
  · exact h.insertAt hp (fun _ => hL _ ⟨rfl, rfl, by rw [h.source]⟩) he

theorem replace (h : Recorded u L ed) (hu : u.Nested) {t : Tree} {text : String}
    (ht : t.Within u.root) (hL : ∀ k, L ⟨t.start, t.stop, encode text, k⟩)
    (he : ed.replace t text = .ok ed') : Recorded u L ed' :=
  h.replaceRange (hu.node ht).1 (hu.node ht).2 hL he

end Recorded

theorem statement_fits {u : SourceUnit} (hu : u.Nested) {p : Place} (hp : p.Rooted u.root) :
    p.statement.start ≤ u.source.length := by
  have := hu.node hp.statement.1.within
  exact this.1.trans this.2

section Keeping

variable {u : SourceUnit} {L : Edit → Prop}

/-- A step that records edits of one sort, or fails with an overlap. -/
def KeepsRecorded {α : Type} (u : SourceUnit) (L : Edit → Prop) (x : Pass α) : Prop :=
  Keeps (fun s => Recorded u L s.editor) x

theorem keeps_edit {f : Editor → Except Overlap Editor}
    (h : ∀ ed ed', Recorded u L ed → f ed = .ok ed' → Recorded u L ed') :
    KeepsRecorded u L (edit f) :=
  Holds.edit (fun s editor hs he => h s.editor editor hs he) fun _ o hs _ => ⟨⟨o, rfl⟩, hs⟩

theorem keeps_advise (hu : u.Nested) {p : Place} {comment : String} (hp : p.Rooted u.root)
    (hL : ∀ e, e.IsAdvisory u p comment → L e) : KeepsRecorded u L (advise p comment) :=
  Holds.advise
    (fun _ _ _ _ hs he => hs.insertCommentBefore (statement_fits hu hp) hL he)
    fun _ o hs _ => ⟨⟨o, rfl⟩, hs⟩

theorem Pass.Quiet.keeps {α : Type} {x : Pass α} (h : Quiet x) : KeepsRecorded u L x :=
  h.holds

theorem keeps_setFlags {f : Flags → Flags} : KeepsRecorded u L (setFlags f) :=
  Keeps.modify fun _ hs => hs

theorem keeps_orOnOverlap {x : Pass Unit} {r : Overlap → Pass Unit} {E : Fault → Session → Prop}
    (hx : KeepsRecorded u L x) (hr : ∀ o, Quiet (r o)) :
    Holds (fun s => Recorded u L s.editor) (orOnOverlap x r)
      (fun _ s => Recorded u L s.editor) E := by
  refine Holds.orOnOverlap (F := fun _ s => Recorded u L s.editor) ?_ fun o => (hr o).holds
  refine Holds.mono hx (fun _ hs => hs) (fun _ _ hs => hs) ?_
  rintro e s ⟨⟨o, rfl⟩, hs⟩
  exact hs

end Keeping

namespace Entities

/-- A named class with the decorator of entities. -/
def IsEntity (u : SourceUnit) (class_ : Place) : Prop :=
  class_ ∈ u.place.find Place.classKinds ∧
    (∃ d ∈ class_.decorators, d.decoratorName u.source = some entityDecorator) ∧
    ∃ name, class_.tree.className u.source = some name ∧ name ≠ ""

theorem sortByStart_perm (ps : List Place) : (sortByStart ps).Perm ps := by
  have hins : ∀ p qs, insertByStart p qs =
      Sorting.insertBy (fun a b => decide (a.start < b.start)) p qs := by
    intro p qs
    induction qs with
    | nil => rfl
    | cons q qs ih => simp [insertByStart, Sorting.insertBy, ih]
  have : sortByStart ps = Sorting.sortBy (fun a b => decide (a.start < b.start)) ps := by
    simp only [sortByStart, Sorting.sortBy, hins]
  rw [this]
  exact Sorting.sortBy_perm _ ps

variable {u : SourceUnit}

/-- The extraction keeps what the editor, the flag of the repositories and the count tell, if that
admits its advisories. -/
theorem extract_keeps {P : Session → Prop} {E : Fault → Session → Prop}
    (hP : ∀ s s' : Session, s'.editor = s.editor → s'.flags.repositories = s.flags.repositories →
      s'.advisories = s.advisories → P s → P s')
    (h : ∀ class_, IsEntity u class_ → Holds P (advise class_ entityAdvisory) (fun _ => P) E) :
    Holds P (extract u) (fun _ => P) E := by
  have hquiet : ∀ {α : Type} {x : Pass α}, Quiet x → Holds P x (fun _ => P) E := fun hx =>
    hx.keeps_told fun s s' he hf hn hs => hP s s' he (congrArg Flags.repositories hf) hn hs
  have hclass : ∀ enums, ∀ class_ ∈ u.place.find Place.classKinds,
      Holds P (extractClass u enums class_) (fun _ => P) E := by
    intro enums class_ hc
    dsimp only [extractClass]
    split
    · rename_i entity name hentity hname
      split
      · exact Holds.pure fun _ hs => hs
      rename_i hne
      have hd := List.mem_of_find?_eq_some hentity
      have hdn : entity.decoratorName u.source = some entityDecorator := by
        simpa using List.find?_some hentity
      have his : IsEntity u class_ := ⟨hc, ⟨entity, hd, hdn⟩, name, hname, by simpa using hne⟩
      refine Holds.bind (hquiet (classFields_quiet _ _)) fun fields => ?_
      refine Holds.bind (Q := fun _ => P) (Holds.modify fun s hs => hP s _ rfl rfl rfl hs) fun _ => ?_
      refine Holds.bind (h class_ his) fun _ => ?_
      exact Holds.bind (Q := fun _ => P) (Holds.modify fun s hs => hP s _ rfl rfl rfl hs) fun _ =>
        hquiet (Quiet.say _ _)
    · exact Holds.pure fun _ hs => hs
  dsimp only [extract]
  refine Holds.bind (Holds.forM (I := fun _ => P) fun l class_ r hl => ?_) fun _ => ?_
  · exact hclass _ class_ ((sortByStart_perm _).mem_iff.1 (hl ▸ by simp))
  · refine Holds.get fun s hs => ?_
    split
    · rintro s rfl
      exact hP s _ rfl rfl rfl hs
    · rintro _ rfl
      exact hs

theorem extract_holds {P : Editor → Prop} {E : Fault → Session → Prop}
    (h : ∀ class_, IsEntity u class_ → Holds (fun s => P s.editor) (advise class_ entityAdvisory)
      (fun _ s => P s.editor) E) :
    Holds (fun s => P s.editor) (extract u) (fun _ s => P s.editor) E :=
  extract_keeps (fun _ _ he _ _ hs => (congrArg P he).mpr hs) h

theorem IsEntity.rooted {class_ : Place} (h : IsEntity u class_) : class_.Rooted u.root :=
  Place.find_rooted u.place_rooted h.1

end Entities

theorem Rules.mem_table {method : String} {rule : Rule} (h : rule? method = some rule) :
    (method, rule) ∈ table := by
  obtain ⟨l, r, h, -⟩ := List.lookup_eq_some_iff.1 h
  rw [h]
  simp

namespace Calls

def injected (u : SourceUnit) (method : Place) : List Place :=
  match method.tree.child? .name, method.child? .parameters with
  | some name, some params =>
    if name.text u.source != "constructor" then []
    else params.namedChildren.filter fun p =>
      p.tree.isAny [.requiredParameter, .optionalParameter] && isRepositoryParameter u p.tree
  | _, _ => []

/-- Put the client in the place of the first parameter, and take the other ones away. -/
def swap (u : SourceUnit) (first : Place) (others : List Place) : Pass Unit := do
  Pass.edit (·.replace first.tree (clientParameter u first.tree))
  others.forM fun p => Pass.edit (·.removeListItem p)
  Pass.setFlags fun f => { f with repositories := true }

def skipMessage (u : SourceUnit) (method : Place) (o : Overlap) : String :=
  s!"Skipping constructor at line {lineNumber u.source method.start}: {o.message}"

theorem convertConstructor_eq (u : SourceUnit) (method : Place) :
    convertConstructor u method =
      match injected u method with
      | [] => pure ()
      | first :: others =>
        Pass.orOnOverlap (swap u first others) fun o => Pass.say .warning (skipMessage u method o) := by
  unfold convertConstructor injected
  cases method.tree.child? .name with
  | none => rfl
  | some name =>
    cases method.child? .parameters with
    | none => rfl
    | some params =>
      dsimp only
      split
      · rfl
      · rfl

/-- A repository parameter of a constructor. -/
def IsInjected (u : SourceUnit) (p : Place) : Prop :=
  ∃ method ∈ u.place.find [.methodDefinition], ∃ name params,
    method.tree.child? .name = some name ∧ name.text u.source = "constructor" ∧
    method.child? .parameters = some params ∧ p ∈ params.namedChildren ∧
    p.tree.isAny [.requiredParameter, .optionalParameter] = true ∧
    isRepositoryParameter u p.tree = true

/-- A repository parameter is replaced by the client, or goes with its comma. -/
inductive IsInjectionEdit (u : SourceUnit) (e : Edit) : Prop where
  | client (p : Place) (injected : IsInjected u p) (on : e.IsOn p.tree)
      (text : e.replacement = encode (clientParameter u p.tree))
  | removal (p : Place) (injected : IsInjected u p) (start : e.start = (Editor.itemRange p).1)
      (stop : e.stop = (Editor.itemRange p).2) (text : e.replacement = [])

/-- The callee or the arguments of a call with a supported row are replaced, or a row's advisory is
put before the statement of a call. -/
inductive IsCallEdit (u : SourceUnit) (members : Pattern.Regex) (e : Edit) : Prop where
  | callee (site : Place.RepositoryCall) (rule : Rules.Rule) (mem : site ∈ callSites u members)
      (row : Rules.rule? (site.method.text u.source) = some rule) (supported : rule.supported = true)
      (on : e.IsOn site.callee)
  | arguments (site : Place.RepositoryCall) (rule : Rules.Rule) (mem : site ∈ callSites u members)
      (row : Rules.rule? (site.method.text u.source) = some rule) (supported : rule.supported = true)
      (on : e.IsOn site.arguments)
  | advisory (site : Place.RepositoryCall) (rule : Rules.Rule) (comment : String)
      (mem : site ∈ callSites u members)
      (row : Rules.rule? (site.method.text u.source) = some rule)
      (listed : comment ∈ rule.advisories) (at_ : e.IsAdvisory u site.call comment)

variable {u : SourceUnit} {L : Edit → Prop}

theorem IsInjected.places {p : Place} (h : IsInjected u p) :
    ∃ method params : Place, method.Rooted u.root ∧ method.tree.is .methodDefinition = true ∧
      params ∈ method.children ∧ p ∈ params.children := by
  obtain ⟨method, hm, _, params, -, -, hparams, hp, -⟩ := h
  refine ⟨method, params, Place.find_rooted u.place_rooted hm, ?_,
    List.mem_of_find?_eq_some hparams, List.mem_of_mem_filter hp⟩
  simpa [Tree.isAny] using (List.mem_filter.1 hm).2

theorem IsInjected.rooted {p : Place} (h : IsInjected u p) :
    ∃ params : Place, params.Rooted u.root ∧ p ∈ params.children := by
  obtain ⟨method, params, hm, -, hparams, hp⟩ := h.places
  exact ⟨params, hm.child hparams, hp⟩

theorem IsInjected.parameters {p : Place} (h : IsInjected u p) :
    ∃ method ∈ u.place.find [.methodDefinition], ∃ params,
      method.child? .parameters = some params ∧ params.Rooted u.root ∧ p ∈ params.children := by
  obtain ⟨method, hm, _, params, -, -, hparams, hp, -⟩ := h
  exact ⟨method, hm, params, hparams,
    (Place.find_rooted u.place_rooted hm).child (List.mem_of_find?_eq_some hparams),
    List.mem_of_mem_filter hp⟩

theorem IsInjectionEdit.within_parameters (ho : u.root.everyNode Tree.ordered = true) {e : Edit}
    (h : IsInjectionEdit u e) : ∃ method ∈ u.place.find [.methodDefinition], ∃ params,
      method.child? .parameters = some params ∧ params.start ≤ e.start ∧ e.stop ≤ params.stop := by
  cases h with
  | client p hp on _ =>
    obtain ⟨method, hm, params, hparams, hroot, hmem⟩ := hp.parameters
    have hrange := Tree.child_range (Tree.everyNode_within ho hroot.within)
      (Place.tree_mem_children hmem)
    exact ⟨method, hm, params, hparams, on.1 ▸ hrange.1, on.2 ▸ hrange.2.2⟩
  | removal p hp hstart hstop _ =>
    obtain ⟨method, hm, params, hparams, hroot, hmem⟩ := hp.parameters
    have hbounds := Editor.itemRange_bounds hroot hmem ho
    exact ⟨method, hm, params, hparams, by omega, by omega⟩

theorem mem_callSites {members : Pattern.Regex} {site : Place.RepositoryCall}
    (h : site ∈ callSites u members) : site.call.Rooted u.root ∧ site.Parts :=
  Place.mem_repositoryCalls u.place_rooted (List.mem_of_mem_filter h)

theorem mem_injected {method p : Place} (hm : method ∈ u.place.find [.methodDefinition])
    (hp : p ∈ injected u method) : IsInjected u p := by
  unfold injected at hp
  split at hp
  · rename_i name params hname hparams
    split at hp
    · simp at hp
    rename_i hctor
    simp only [List.mem_filter, Bool.and_eq_true] at hp
    exact ⟨method, hm, name, params, hname, by simpa using hctor, hparams, hp.1, hp.2⟩
  · simp at hp

/-- What holds of the edits of the parameters of a constructor is kept by its conversion. -/
theorem convertConstructor_records (hu : u.Nested) {method : Place}
    (hm : method ∈ u.place.find [.methodDefinition])
    (hclient : ∀ p ∈ injected u method, ∀ k,
      L ⟨p.start, p.stop, encode (clientParameter u p.tree), k⟩)
    (hremoval : ∀ p ∈ injected u method, ∀ k,
      L ⟨(Editor.itemRange p).1, (Editor.itemRange p).2, encode "", k⟩)
    {E : Fault → Session → Prop} :
    Holds (fun s => Recorded u L s.editor) (convertConstructor u method)
      (fun _ s => Recorded u L s.editor) E := by
  rw [convertConstructor_eq]
  have hinj : ∀ p ∈ injected u method, IsInjected u p := fun p hp => mem_injected hm hp
  split
  · exact Holds.pure fun _ hs => hs
  · rename_i first others hlist
    rw [hlist] at hclient hremoval hinj
    refine keeps_orOnOverlap ?_ fun _ => Quiet.say _ _
    refine Keeps.bind (keeps_edit fun ed ed' hed he => ?_) fun _ => ?_
    · obtain ⟨params, hroot, hmem⟩ := (hinj first (by simp)).rooted
      exact hed.replace hu (hroot.child hmem).within (hclient first (by simp)) he
    refine Keeps.bind (Keeps.forM fun p hp => keeps_edit fun ed ed' hed he => ?_) fun _ =>
      keeps_setFlags
    obtain ⟨params, hroot, hmem⟩ := (hinj p (by simp [hp])).rooted
    have hb := Editor.itemRange_bounds hroot hmem hu.ordered
    have hn := hu.node (hroot.child hmem).within
    have hf := hu.node hroot.within
    rw [Editor.removeListItem_eq] at he
    simp only [Place.start, Place.stop] at hb
    exact hed.replaceRange (by omega) (by omega) (hremoval p (by simp [hp])) he

theorem convertConstructor_holds (hu : u.Nested) (hL : ∀ e, IsInjectionEdit u e → L e)
    {method : Place} (hm : method ∈ u.place.find [.methodDefinition]) {E : Fault → Session → Prop} :
    Holds (fun s => Recorded u L s.editor) (convertConstructor u method)
      (fun _ s => Recorded u L s.editor) E :=
  convertConstructor_records hu hm
    (fun p hp _ => hL _ (.client p (mem_injected hm hp) ⟨rfl, rfl⟩ rfl))
    fun p hp _ => hL _ (.removal p (mem_injected hm hp) rfl rfl rfl)

/-- The constructors are done with, whatever overlaps. -/
theorem convertConstructors_holds (hu : u.Nested) (hL : ∀ e, IsInjectionEdit u e → L e)
    {E : Fault → Session → Prop} :
    Holds (fun s => Recorded u L s.editor) (convertConstructors u)
      (fun _ s => Recorded u L s.editor) E :=
  Holds.forM (I := fun _ s => Recorded u L s.editor) fun l x r hl =>
    convertConstructor_holds hu hL (hl ▸ by simp)

theorem convertCall_keeps (hu : u.Nested) {members : Pattern.Regex}
    (hL : ∀ e, IsCallEdit u members e → L e) {site : Place.RepositoryCall}
    (hs : site ∈ callSites u members) : KeepsRecorded u L (convertCall u site) := by
  obtain ⟨hroot, hparts⟩ := mem_callSites hs
  have hadvise : ∀ rule comment, Rules.rule? (site.method.text u.source) = some rule →
      comment ∈ rule.advisories → KeepsRecorded u L (Pass.advise site.call comment) :=
    fun rule comment hr hc => keeps_advise hu hroot fun e he =>
      hL e (.advisory site rule comment hs hr hc he)
  have hcallee : site.callee.Within u.root :=
    (Tree.within_of_mem (Tree.child?_mem hparts.callee)).trans hroot.within
  have hargs : site.arguments.Within u.root :=
    (Tree.within_of_mem (Tree.child?_mem hparts.arguments)).trans hroot.within
  dsimp only [convertCall]
  split
  · exact Keeps.pure
  · rename_i rule hrule
    split
    · refine Keeps.bind (Keeps.mapM fun comment hc => hadvise rule comment hrule hc) fun put => ?_
      split
      · exact keeps_setFlags
      · exact Keeps.pure
    · rename_i hsup
      split
      · exact Keeps.pure
      · rename_i owner _
        refine Keeps.bind ?_ fun _ => Keeps.bind (Keeps.forM fun comment hc =>
          Keeps.bind (hadvise rule comment hrule hc) fun _ => Keeps.pure) fun _ => keeps_setFlags
        dsimp only [apply]
        refine Keeps.bind (modelOf_quiet u site.call).keeps fun model => ?_
        refine Holds.get fun s hs' => ?_
        refine Holds.mono (P := fun s => Recorded u L s.editor) ?_ (fun _ h => h ▸ hs')
          (fun _ _ h => h) fun _ _ h => h
        refine Keeps.bind (keeps_edit fun ed ed' hed he => ?_) fun _ => ?_
        · exact hed.replace hu hcallee
            (fun _ => hL _ (.callee site rule hs hrule (by simpa using hsup) ⟨rfl, rfl⟩)) he
        · split
          · refine keeps_edit fun ed ed' hed he => ?_
            exact hed.replace hu hargs
              (fun _ => hL _ (.arguments site rule hs hrule (by simpa using hsup) ⟨rfl, rfl⟩)) he
          · exact Keeps.pure

theorem insertSite_eq (s : Place.RepositoryCall) (sites : List Place.RepositoryCall) :
    insertSite s sites = Sorting.insertBy runsBefore s sites := by
  induction sites with
  | nil => rfl
  | cons x xs ih => simp [insertSite, Sorting.insertBy, ih]

theorem sortSites_eq (sites : List Place.RepositoryCall) :
    sortSites sites = Sorting.sortBy runsBefore sites := by
  simp only [sortSites, Sorting.sortBy, insertSite_eq]

theorem mem_sortSites {sites : List Place.RepositoryCall} {s : Place.RepositoryCall} :
    s ∈ sortSites sites ↔ s ∈ sites := by
  rw [sortSites_eq]
  exact (Sorting.sortBy_perm _ _).mem_iff

theorem convertCalls_holds (hu : u.Nested) {members : Pattern.Regex}
    (hL : ∀ e, IsCallEdit u members e → L e) {E : Fault → Session → Prop} :
    Holds (fun s => Recorded u L s.editor) (convertCalls u (callSites u members))
      (fun _ s => Recorded u L s.editor) E :=
  Holds.forM (I := fun _ s => Recorded u L s.editor) fun l x r hl =>
    keeps_orOnOverlap (convertCall_keeps hu hL (mem_sortSites.1 (hl ▸ by simp))) fun _ =>
      Quiet.say _ _

end Calls

section Statements

variable {u : SourceUnit}

theorem Imports.statement_rooted {p : Place} (hp : p ∈ importStatements u) :
    p.Rooted u.root ∧ p.tree ∈ u.root.children := by
  have hmem := List.mem_of_mem_filter (List.mem_of_mem_filter hp)
  exact ⟨u.place_rooted.child hmem, Place.tree_mem_children hmem⟩

theorem Imports.registration_within {site : Place × String} (hs : site ∈ registrationSites u) :
    site.1.Rooted u.root ∧ site.1.tree.is .callExpression = true ∧ site.1.tree.children ≠ [] := by
  obtain ⟨r, hr, hsite⟩ := List.mem_filterMap.1 hs
  dsimp only at hsite
  split at hsite
  · obtain rfl := Option.some.inj hsite
    exact Place.mem_registrations u.place_rooted hr
  · simp at hsite

theorem Imports.clause_mem {statement clause : Tree} (h : clause? statement = some clause) :
    clause ∈ statement.children :=
  List.mem_of_mem_filter (List.mem_of_find?_eq_some h)

theorem Editor.TakesLine.head_blank {source : Bytes} {t : Tree} {a b p : Nat}
    (h : TakesLine source t a b) (ha : a ≤ p) (hp : p < t.start) (hlen : p < source.length) :
    isBlankByte source[p] = true ∧ source[p] ≠ 10 := by
  have h1 := h.head
  simp only [inlineBlanks, List.all_eq_true, Bool.and_eq_true, bne_iff_ne] at h1
  exact h1 _ (mem_slice ha hp hlen)

theorem Editor.TakesLine.tail_blank {source : Bytes} {t : Tree} {a b p : Nat}
    (h : TakesLine source t a b) (ha : t.stop ≤ p) (hp : p < b) (hlen : p < source.length) :
    isBlankByte source[p] = true := by
  rcases h.tail with rfl | ⟨blanks, hb, hs⟩
  · omega
  · have hmem : source[p] ∈ blanks ++ [10] := hs ▸ mem_slice ha hp hlen
    simp only [inlineBlanks, List.all_eq_true, Bool.and_eq_true] at hb
    rcases List.mem_append.1 hmem with h1 | h1
    · exact (hb _ h1).1
    · rw [List.mem_singleton.1 h1]
      decide

/-- Where a statement that starts its line goes with what stands before it, nothing but blanks of that
line does. -/
theorem Editor.TakesLine.blank_head {source : Bytes} {t : Tree} {a b p : Nat}
    (h : TakesLine source t a b) (ht : t.start ≤ source.length) (hap : a < p) (hp : p ≤ t.start) :
    (lineHead source p).all isBlankByte = true := by
  have ha : a + (lineHead source t.start).length = t.start := h.whole.resolve_left (by omega)
  have hhead := slice_lineHead ht
  rw [show t.start - (lineHead source t.start).length = a by omega] at hhead
  have hblank := h.head
  rw [hhead, inlineBlanks, List.all_eq_true] at hblank
  simp only [Bool.and_eq_true, bne_iff_ne] at hblank
  -- the line starts at `a`, so that what stands before `p` in it stands before the statement too
  obtain ⟨l, hl, hline⟩ := lineHead_suffix source t.start
  have hlen := congrArg List.length hl
  simp only [List.length_take, List.length_append] at hlen
  have htake : source.take p = l ++ (lineHead source t.start).take (p - a) := by
    have hcut : source.take p = (source.take t.start).take p := by
      rw [List.take_take, Nat.min_eq_left hp]
    rw [hcut, hl, List.take_append, List.take_of_length_le (by omega),
      show p - l.length = p - a by omega]
  rw [lineHead, htake, takeWhile_line hline fun b hb => (hblank b (List.mem_of_mem_take hb)).2,
    List.all_eq_true]
  exact fun b hb => (hblank b (List.mem_of_mem_take hb)).1

theorem removal_apart (hu : u.TopLevel) {x y : Tree} {a b : Nat} (hx : x ∈ u.root.children)
    (hy : y ∈ u.root.children) (hc : y.children ≠ []) (h : Editor.TakesLine u.source x a b) :
    y = x ∨ y.stop ≤ a ∨ b ≤ y.start := by
  have htrim := List.all_eq_true.1 hu.trimmed y hy
  have hfit := (hu.node (Tree.within_of_mem hy)).2
  have hfits := hu.node (Tree.within_of_mem hx)
  rw [Tree.trimmed, Tree.edged, Bool.or_eq_true, List.isEmpty_iff, or_iff_right hc] at htrim
  simp only [Bool.and_eq_true, decide_eq_true_eq, Bool.not_eq_true'] at htrim
  obtain ⟨⟨hne, hfirst⟩, hlast⟩ := htrim
  rw [List.getElem?_eq_getElem (by omega)] at hfirst
  simp only [Option.any_some] at hfirst
  rcases Tree.inOrder_apart (Tree.everyNode_iff.1 hu.ordered).1 hy hx with h1 | h1 | h1
  · exact .inl h1
  · -- `y` has more than blanks in its last line, and before `x` there are only blanks
    refine .inr (.inl ?_)
    by_contra hlt
    have := h.blank_head (p := y.stop) (by omega) (by omega) (by omega)
    simp [hlast] at this
  · refine .inr (.inr ?_)
    by_contra hlt
    have := h.tail_blank (p := y.start) h1 (by omega) (by omega)
    simp [hfirst] at this

/-- An edit on a node and another node: one lies in the other, or they do not overlap. -/
theorem onNode_or_apart (hu : u.Nested) {e : Edit} {y t : Tree} (hon : e.IsOn y)
    (hy : y.Within u.root) (ht : t.Within u.root) :
    e.inside t.start t.stop = true ∨ (e.start ≤ t.start ∧ t.stop ≤ e.stop) ∨
      e.stop ≤ t.start ∨ t.stop ≤ e.start := by
  obtain ⟨h1, h2⟩ := hon
  have hty := hu.node hy
  have htt := hu.node ht
  rw [Edit.inside_iff]
  rcases Tree.within_or_apart hu.ordered hy ht with h | h | h | h
  · have := h.range (Tree.everyNode_within hu.ordered ht)
    omega
  · have := h.range (Tree.everyNode_within hu.ordered hy)
    omega
  · omega
  · omega

theorem onItem_or_apart (hu : u.Nested) {e : Edit} {f p : Place} {t : Tree} (hf : f.Rooted u.root)
    (hp : p ∈ f.children) (hstart : e.start = (Editor.itemRange p).1)
    (hstop : e.stop = (Editor.itemRange p).2) (ht : t.Within u.root) :
    e.inside t.start t.stop = true ∨ (e.start ≤ t.start ∧ t.stop ≤ e.stop) ∨
      e.stop ≤ t.start ∨ t.stop ≤ e.start := by
  have hb := Editor.itemRange_bounds hf hp hu.ordered
  have hn := hu.node ht
  rw [Edit.inside_iff]
  rcases Editor.itemRange_within hf hp hu.ordered ht with ⟨y, hy, -, h1, h2, h3⟩ | h1 | h1 | h1
  · have hyr := (Tree.within_of_mem hy).trans hf.within
    have := h3.range (Tree.everyNode_within hu.ordered hyr)
    omega
  · have := h1.range (Tree.everyNode_within hu.ordered ht)
    simp only [Place.start, Place.stop] at hb
    omega
  · omega
  · omega

/-- A node other than the root lies in a top-level statement, which has children if the node has. -/
theorem exists_top {r t : Tree} (h : t.Within r) (hne : t ≠ r) (hc : t.children ≠ []) :
    ∃ top ∈ r.children, top.children ≠ [] ∧ t.Within top := by
  cases h with
  | self => exact absurd rfl hne
  | @child top _ hmem h =>
    refine ⟨top, hmem, ?_, h⟩
    cases h with
    | self => exact hc
    | child hd _ => exact List.ne_nil_of_mem hd

end Statements

end OrmCodemod
