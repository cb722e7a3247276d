import OrmCodemod.Pass.Outcome
import OrmCodemod.Proofs.Between
import OrmCodemod.Proofs.CallText
import OrmCodemod.Proofs.Grammar.Parsed

/-! What a source prints after its calls are converted: the text that the recursion over its tree
composes. -/

namespace OrmCodemod.Calls

open Syntax Text Pass

variable {u : SourceUnit} {K : List Place.RepositoryCall} {x : Place.RepositoryCall}
  {base ed : Editor} {members : Pattern.Regex} {v w : View}

/-- The text of a whole source: the text of the root, and what stands around it. -/
def Scene.print (σ : Scene) : Bytes :=
  (σ.around.fill [σ.unit.root] σ.text).span 0 σ.unit.source.length ++
    σ.around.inserted σ.unit.source.length

theorem root_uncovered (hu : u.Closed) (hK : ∀ x ∈ K, Convertible u x) :
    ¬Covered u K u.root.start u.root.stop := by
  rintro ⟨n, hn, hcov⟩
  obtain ⟨d, hd, hnd⟩ := mem_taken.1 hn
  have hdc := hK d hd
  have hrange := hdc.rooted.within.range hu.ordered
  refine (hdc.splits hu).child_smaller (Tree.everyNode_within hu.ordered hdc.rooted.within)
    (hdc.part hu hnd).1 ?_
  omega

theorem Shows.print (hu : u.Closed) (hK : ∀ x ∈ K, Convertible u x) (h : Shows u K v w) :
    w.span 0 u.source.length ++ w.inserted u.source.length = (scene u v K).print := by
  have hroot := hu.node .self
  have htaken : ∀ n ∈ taken u K, u.root.start ≤ n.start ∧ n.stop ≤ u.root.stop := by
    intro n hn
    obtain ⟨d, hd, hnd⟩ := mem_taken.1 hn
    have := ((hK d hd).part hu hnd).2.2.1.range hu.ordered
    exact ⟨this.1, this.2.2⟩
  have hin : Tree.inOrder 0 u.source.length [u.root] = true := by
    simp only [Tree.inOrder, Bool.and_eq_true, decide_eq_true_eq]
    omega
  have hinserted : ∀ p, ¬(u.root.start < p ∧ p < u.root.stop) → w.inserted p = v.inserted p := by
    intro p hp
    refine h.inserted p fun n hn hh => ?_
    have := htaken n hn
    omega
  have hspan : w.span 0 u.source.length =
      (v.fill [u.root] (scene u v K).text).span 0 u.source.length := by
    refine View.span_eq_of_pieces hin (fun p _ _ hf => ?_) fun c hc hne => ?_
    · have hout := hf u.root (by simp)
      have hshown : w.shown p = v.shown p := by
        refine h.shown p fun n hn hh => ?_
        have := htaken n hn
        omega
      rw [View.cell, View.cell, View.fill_shown_of_free hf, hshown, hinserted p (by omega),
        View.fill_inserted_of_free fun c hc hh => hf c hc ⟨hh.1.le, hh.2⟩]
    · obtain rfl := List.mem_singleton.1 hc
      rw [View.span_hide w hne, View.span_hide (v.fill _ _) hne, View.fill_span hin hc hne,
        h.text hu hK .self fun _ => root_uncovered hu hK, hinserted _ (by omega),
        View.fill_inserted_of_free (by simp)]
  rw [hspan, hinserted _ (by omega)]
  rfl

theorem Shows.text_infix (hu : u.Closed) (hK : ∀ x ∈ K, Convertible u x) (h : Shows u K v w)
    {t : Tree} (ht : t.Within u.root) (hne : t.start < t.stop)
    (hfree : ¬Covered u K t.start t.stop) :
    (scene u v K).text t <:+: w.span 0 u.source.length ++ w.inserted u.source.length := by
  have hn := hu.node ht
  rw [← h.text hu hK ht fun _ => hfree, ← View.span_append w (Nat.zero_le _) (hn.1.trans hn.2),
    ← View.span_append w hn.1 hn.2, View.span_hide w hne]
  refine ⟨w.span 0 t.start ++ w.inserted t.start,
    w.span t.stop u.source.length ++ w.inserted u.source.length, ?_⟩
  simp only [List.append_assoc]

/-- A node that is no converted call is what stands around with the texts of its children. -/
theorem text_node (hu : u.Closed) (hK : ∀ x ∈ K, Convertible u x) {t : Tree}
    (ht : t.Within u.root) (hnot : ∀ x ∈ K, x.call.tree ≠ t) :
    (scene u v K).text t = (scene u v K).stretch t t.start t.stop := by
  have ho := Tree.test_within hu.ordered ht
  have hnone : (scene u v K).conversion? t = none := by
    refine Option.eq_none_iff_forall_ne_some.2 fun k hk => ?_
    obtain ⟨x, hx, hxt, -⟩ := conversion_mem hu hK ht hk
    exact hnot x hx hxt
  have hall : t.nodesIn t.start t.stop = t.children := by
    refine List.filter_eq_self.2 fun c hc => ?_
    have := Tree.inOrder_mem ho hc
    simp only [Bool.and_eq_true, decide_eq_true_eq]
    omega
  have hpiece : (scene u v K).piece (scene u v K).text t = (scene u v K).text := by
    funext c
    rw [Scene.piece, hnone]
  rw [Scene.text_eq ho, Scene.compose, hpiece, Scene.stretch, hall]

section Shadow

theorem Annotated.advised (h : Annotated u x ed) {q : Place} (hq : q.Rooted u.root)
    (hne : q.start < q.stop) (hleaf : q.tree.children ≠ []) (comment : String) :
    Annotated u x (ed.advised q comment) := by
  obtain ⟨hsource, hedits⟩ := ed.advised_cases q comment
  refine ⟨hsource.trans h.source, fun e he => ?_⟩
  rcases hedits e he with he | ⟨h1, h2⟩
  · exact h.edits e he
  · exact .inl ⟨h1.trans h2.symm, q, hq, hne, hleaf, h1⟩

theorem Annotated.withAdvisories (hu : u.Closed) (h : Annotated u x ed) {y : Place.RepositoryCall}
    (hy : y ∈ callSites u members) : Annotated u x (withAdvisories u base ed y) := by
  unfold Calls.withAdvisories advisories
  split
  · exact h
  · rename_i rule hrule
    obtain ⟨hroot, hparts⟩ := mem_callSites hy
    have hsplits := splits_of_parts hu hparts hroot.within hrule
    have hmem := Tree.child?_mem hparts.callee
    have hrange := Tree.child_range (Tree.everyNode_within hu.ordered hroot.within) hmem
    have hne : y.call.start < y.call.stop := by
      simp only [Place.start, Place.stop]
      omega
    generalize (if rule.supported && !converts u base y then [] else rule.advisories) = comments
    induction comments generalizing ed with
    | nil => exact h
    | cons c cs ih => exact ih (h.advised hroot hne (List.ne_nil_of_mem hmem) c)

theorem Annotated.shadow (hu : u.Closed) (h : Annotated u x base) {sites : List Place.RepositoryCall}
    (hsites : ∀ y ∈ sites, y ∈ callSites u members) : Annotated u x (shadow u base sites) := by
  unfold Calls.shadow
  suffices ∀ ed, Annotated u x ed → Annotated u x (sites.foldl (Calls.withAdvisories u base) ed) from
    this base h
  induction sites with
  | nil => exact fun ed hed => hed
  | cons y ys ih =>
    intro ed hed
    exact ih (fun z hz => hsites z (by simp [hz])) _ (hed.withAdvisories hu (hsites y (by simp)))

end Shadow

def convertedSites (u : SourceUnit) (base : Editor) (members : Pattern.Regex) :
    List Place.RepositoryCall :=
  (sortSites (callSites u members)).filter (converts u base)

/-- The scene of a source with its calls converted: around them stand the edits of the constructors
and the advisories. -/
def converted (u : SourceUnit) (base : Editor) (members : Pattern.Regex) : Scene :=
  scene u (shadow u base (sortSites (callSites u members))).view (convertedSites u base members)

/-- The editor `ed` prints what the recursion over the tree composes: the text of a converted call from
the texts of its owner and of its arguments, that of any other node from those of its children. -/
structure Composed (u : SourceUnit) (base : Editor) (members : Pattern.Regex) (ed : Editor) :
    Prop where
  printed : ed.printBytes = (converted u base members).print
  node : ∀ t, t.Within u.root → (∀ x ∈ convertedSites u base members, x.call.tree ≠ t) →
    (converted u base members).text t = (converted u base members).stretch t t.start t.stop
  call : ∀ x ∈ callSites u members, converts u base x = true → ∃ rule owner,
    Rules.rule? (x.method.text u.source) = some rule ∧ rule.supported = true ∧
    x.receiver.child? .object = some owner ∧
    let text := (converted u base members).text
    let keyOf : Rules.KeyOf := fun m => m.memberKey u.source
    let method := rule.method x.arguments.significant keyOf
    text x.call.tree =
      (converted u base members).stretch x.call.tree x.call.start x.callee.start ++
      encode (Scene.render text owner ++
        s!".{u.settings.clientMember}.{modelText u x.call}.{method}") ++
      (converted u base members).stretch x.call.tree x.callee.stop x.arguments.start ++
      match rule.reshape x.arguments.significant (Scene.render text) keyOf with
      | some texts => encode ("(" ++ joinWith ", " texts ++ ")")
      | none => text x.arguments
  source : ∀ x ∈ callSites u members, converts u base x = true → (between x).all plain = true →
    (∀ y ∈ convertedSites u base members,
      ¬(x.callee.stop ≤ y.call.start ∧ y.call.stop ≤ x.arguments.start)) →
    (converted u base members).stretch x.call.tree x.callee.stop x.arguments.start =
      slice u.source x.callee.stop x.arguments.start
  shown : ∀ x ∈ callSites u members, converts u base x = true →
    ¬Covered u (convertedSites u base members) x.call.start x.call.stop →
    (converted u base members).text x.call.tree <:+: ed.printBytes

theorem mem_convertedSites :
    x ∈ convertedSites u base members ↔ x ∈ callSites u members ∧ converts u base x = true := by
  rw [convertedSites, List.mem_filter, mem_sortSites]

theorem scene_model (hu : u.Closed) (hK : ∀ d ∈ K, Convertible u d) (hx : x ∈ K) :
    (scene u v K).model? x.call.tree = some (modelText u x.call) := by
  cases hfind : K.find? fun d => Scene.sameRange d.call.tree x.call.tree with
  | none =>
    have := List.find?_eq_none.1 hfind x hx
    rw [Scene.sameRange_iff] at this
    exact absurd ⟨rfl, rfl⟩ this
  | some d =>
    have hd := List.mem_of_find?_eq_some hfind
    have hrange := Scene.sameRange_iff.1 (by simpa using List.find?_some hfind)
    rw [(hK d hd).eq_of_range hu (hK x hx) hrange.1 hrange.2] at hfind
    simp [scene, hfind]

/-- The text of a converted call: `owner.client.model.method`, then what stands between callee and
arguments, and the arguments of its row. -/
def Scene.callText (σ : Scene) (x : Place.RepositoryCall) (rule : Rules.Rule) (owner : Tree) : Bytes :=
  let keyOf : Rules.KeyOf := fun m => m.memberKey σ.unit.source
  let method := rule.method x.arguments.significant keyOf
  σ.stretch x.call.tree x.call.start x.callee.start ++
    encode (Scene.render σ.text owner ++
      s!".{σ.unit.settings.clientMember}.{modelText σ.unit x.call}.{method}") ++
    σ.stretch x.call.tree x.callee.stop x.arguments.start ++
    match rule.reshape x.arguments.significant (Scene.render σ.text) keyOf with
    | some texts => encode ("(" ++ joinWith ", " texts ++ ")")
    | none => σ.text x.arguments

theorem scene_text_call (hu : u.Closed) (hK : ∀ d ∈ K, Convertible u d) (hx : x ∈ K)
    {rule : Rules.Rule} {owner : Tree} (hrule : Rules.rule? (x.method.text u.source) = some rule)
    (howner : x.receiver.child? .object = some owner)
    (hcallee : x.callee.start ≠ x.call.start → v.inserted x.callee.start = [])
    (hargs : v.inserted x.arguments.start = []) :
    (scene u v K).text x.call.tree = (scene u v K).callText x rule owner := by
  have hxc := hK x hx
  have hconv := conversion_eq (σ := scene u v K) rfl hxc hrule howner (scene_model hu hK hx)
  refine (Scene.text_call (u := u) rfl hu hxc hconv hcallee hargs).trans ?_
  simp only [Conversion.calleeText, Conversion.argumentsText, conversion, Scene.callText, scene,
    Scene.callArguments_eq hxc.parts]
  congr 1
  · congr 3
    simp [toString, String.append_assoc]
  · cases rule.reshape x.arguments.significant _ fun m => m.memberKey u.source <;> rfl

theorem composed_of_tracks (hu : u.Shaped)
    (hbase : Recorded u (fun e => IsNote u e ∨ IsInjectionEdit u e) base)
    (h : Tracks u base (convertedSites u base members)
      (shadow u base (sortSites (callSites u members))) ed) :
    Composed u base members ed := by
  have hprint : ed.printBytes = ed.view.span 0 u.source.length ++
      ed.view.inserted u.source.length := by
    rw [Editor.printBytes_eq h.follows.recorded.sound, h.follows.recorded.source]
  -- around a converted call stand only notes, and edits of parameters that it is not in
  have hannotated : ∀ x ∈ callSites u members, converts u base x = true →
      Annotated u x (shadow u base (sortSites (callSites u members))) := by
    intro x _ hc
    refine Annotated.shadow hu.toClosed ⟨hbase.source, fun e he => ?_⟩ fun y hy => mem_sortSites.1 hy
    rcases hbase.all e he with hnote | hinj
    · exact .inl hnote
    · exact .inr ⟨hinj, free_of_converts hc e he (hinj.nonempty hu.toNested).ne⟩
  refine ⟨hprint.trans (h.shows.print hu.toClosed h.calls), fun t ht hnot =>
    text_node hu.toClosed h.calls ht hnot, fun x hx hc => ?_, fun x hx hc hplain hnone => ?_,
    fun x hx hc hfree => ?_⟩
  · have hxc := convertible_of_converts hx hc
    have ho := hxc.order hu.toClosed
    have hmem := Tree.child?_mem hxc.parts.callee
    have hrange := Tree.child_range (Tree.everyNode_within hu.ordered hxc.rooted.within) hmem
    obtain ⟨rule, hrule⟩ := hxc.row
    obtain ⟨owner, howner⟩ := hxc.owned
    have hsupported : rule.supported = true := by
      simp only [converts, hrule, Bool.and_eq_true] at hc
      exact hc.1.1
    exact ⟨rule, owner, hrule, hsupported, howner, scene_text_call hu.toClosed h.calls
      (mem_convertedSites.2 ⟨hx, hc⟩) hrule howner
      (fun hlater => (hannotated x hx hc).inserted_child hu hxc hmem ho.1 hlater)
      ((hannotated x hx hc).inserted_child hu hxc (Tree.child?_mem hxc.parts.arguments) ho.2.2.1
        (by simp only [Place.start]; omega))⟩
  · exact stretch_source hu (hannotated x hx hc) (convertible_of_converts hx hc) hplain hnone
  · have hxc := convertible_of_converts hx hc
    rw [hprint]
    exact h.shows.text_infix hu.toClosed h.calls hxc.rooted.within
      ((hxc.splits hu.toClosed).nonempty
        (Tree.everyNode_within hu.ordered hxc.rooted.within)) hfree

/-- An entity has a name, so that it is neither empty nor a token. -/
theorem entity_nonempty (hu : u.Nested) {class_ : Place} (h : Entities.IsEntity u class_) :
    class_.start < class_.stop ∧ class_.tree.children ≠ [] := by
  have hroot := h.rooted
  obtain ⟨-, -, name, hname, hne⟩ := h
  obtain ⟨n, hn, rfl⟩ := Option.map_eq_some_iff.1 hname
  have hmem := Tree.child?_mem hn
  have hrange := Tree.child_range (Tree.everyNode_within hu.ordered hroot.within) hmem
  have hlt := Tree.nonempty_of_text hne
  refine ⟨?_, List.ne_nil_of_mem hmem⟩
  simp only [Place.start, Place.stop]
  omega

def afterConstructors (u : SourceUnit) (s : Session) : Editor :=
  ((convertConstructors u).result s).2.editor

/-- Converting the constructors and then the calls of a source, edit by edit, prints what the recursion
over its tree composes. -/
theorem convert_composed (u : SourceUnit) (hu : u.Shaped) (members : Pattern.Regex)
    (hmembers : Pattern.parse u.settings.memberPattern = .ok members) (s : Session)
    (hs : Recorded u (IsNote u) s.editor) :
    ∃ s', (convert u).result s = (.ok (), s') ∧
      Composed u (afterConstructors u s) members s'.editor := by
  obtain ⟨_, s1, hs1, hbase⟩ := (convertConstructors_holds
    (L := fun e => IsNote u e ∨ IsInjectionEdit u e) (E := fun _ _ => False) hu.toNested
    fun _ he => .inr he).exists_ok (hs.imp fun _ he => .inl he)
  have heq : s1.editor = afterConstructors u s := by rw [afterConstructors, hs1]
  have hedits : ∀ e ∈ s1.editor.edits, e.start = e.stop ∨ IsInjectionEdit u e := by
    intro e he
    rcases hbase.all e he with hnote | hinj
    · exact .inl hnote.1
    · exact .inr hinj
  obtain ⟨_, s2, hs2, hattends⟩ := (convertCalls_attends (E := fun _ _ => False)
    hu.toClosed hedits members).exists_ok (.refl hbase)
  refine ⟨s2, ?_, heq ▸ composed_of_tracks hu hbase hattends.toTracks⟩
  unfold convert
  rw [hmembers]
  dsimp only
  rw [result_bind_ok hs1, hs2]

/-- A call in a function body among the arguments of a call among the arguments of a call. -/
def nestedSample : String :=
  "a.repository.save(b.repository.find<T>(() => \x7b c.repository.delete(1) \x7d));"

def nestedSampleUnit : SourceUnit := ⟨encode nestedSample, (parse .typescript nestedSample).root, {}⟩

def nestedSampleStart : Session := { editor := { source := nestedSampleUnit.source } }

def nestedSampleOutput : String :=
  "// NOTE: `save` may insert or update; verify that the chosen Prisma call matches the intent.\n" ++
    "a.prisma.model.create(\x7bdata: b.prisma.model.findMany<T>(() => \x7b " ++
    "c.prisma.model.delete(\x7bwhere: \x7bid: 1\x7d\x7d) \x7d)\x7d);"

theorem nestedSample_printed :
    ((convert nestedSampleUnit).result nestedSampleStart).2.editor.printBytes =
      encode nestedSampleOutput := by
  decide +kernel

theorem convert_composed_sample : ∃ members s',
    (convert nestedSampleUnit).result nestedSampleStart = (.ok (), s') ∧
    Composed nestedSampleUnit (afterConstructors nestedSampleUnit nestedSampleStart) members
      s'.editor ∧
    s'.editor.printBytes = encode nestedSampleOutput := by
  obtain ⟨s', hrun, hcomposed⟩ := convert_composed nestedSampleUnit
    (parse_sheltered .typescript nestedSample {}).toShaped
    _ Settings.exists_members.choose_spec nestedSampleStart (Recorded.fresh _ _)
  have hprinted := nestedSample_printed
  rw [hrun] at hprinted
  exact ⟨_, s', hrun, hcomposed, hprinted⟩

end OrmCodemod.Calls
