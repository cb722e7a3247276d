import OrmCodemod.Proofs.History

/-! Converting the calls of a source. Before a call is converted, every node it is composed from shows
its text and can be rendered, because no other edit cuts into it; what is recorded then is what the
recursion composes. -/

namespace OrmCodemod.Calls

open Syntax Text Pass

variable {u : SourceUnit} {K : List Place.RepositoryCall} {x : Place.RepositoryCall}
  {base sh ed ed' : Editor}

theorem IsInjected.not_link {p : Place} (h : IsInjected u p) :
    p.tree.isAny Tree.linkKinds = false := by
  obtain ⟨-, -, -, -, -, -, -, -, hkind, -⟩ := h
  simp only [Tree.isAny, List.any_cons, List.any_nil, Bool.or_false, Bool.or_eq_true] at hkind
  rcases hkind with h | h
  · exact Tree.not_isAny_of_is h (by decide)
  · exact Tree.not_isAny_of_is h (by decide)

theorem not_link_of_token {t : Tree} {text : String} (h : t.isToken text = true) :
    t.isAny Tree.linkKinds = false := by
  rw [Tree.isToken, beq_iff_eq] at h
  simp [Tree.isAny, Tree.is, h]

/-- An item of a parameter list that holds what a call is composed from holds the call. -/
theorem call_within_item (hu : u.Closed) (hx : Convertible u x) {method params : Place}
    (hm : method.Rooted u.root) (hk : method.tree.is .methodDefinition = true)
    (hparams : params ∈ method.children) {y m : Tree} (hy : y ∈ params.tree.children)
    (hlink : y.isAny Tree.linkKinds = false) (hchain : Tree.Chain x.call.tree m)
    (hne : m.start < m.stop) (hmy : m.Within y) : x.call.tree.Within y := by
  have hr := hu.ordered
  have ht := hx.rooted.within
  have hf := Place.tree_mem_children hparams
  have hfr := (Tree.within_of_mem hf).trans hm.within
  rcases hchain.above hr ht hne ((Tree.within_of_mem hy).trans hfr) hmy with rfl | h | ⟨h, -⟩
  · -- the item is what the call is composed from: then the list would be on the chain
    rcases hchain.above hr ht hne hfr (Tree.within_of_mem hy) with h | h | ⟨-, hfc⟩
    · have := Tree.size_child hy
      rw [h] at this
      omega
    · rcases Tree.within_parent hr hfr hy hne ht hchain.within.1 with h1 | h1
      · exact h1 ▸ .self
      · -- the list is the call, of which the item would be a part
        have heq := h.antisymm h1
        cases hchain with
        | child _ hk => simp [hk] at hlink
        | @step c _ hc hkc hmc =>
          have := Tree.parent_unique hr ht (hc.within.1.trans ht) (heq ▸ hy) hmc hne
          have hsize := hc.within.2
          rw [← this] at hsize
          omega
    · have hfne : params.tree.start < params.tree.stop := by
        have := Tree.child_range (Tree.everyNode_within hr hfr) hy
        omega
      rcases hfc.above hr ht hfne hm.within (Tree.within_of_mem hf) with h | h | ⟨h, -⟩
      · have := Tree.size_child hf
        rw [h] at this
        omega
      · rcases Tree.within_parent hr hm.within hf hfne ht hfc.within.1 with h1 | h1
        · have := hfc.within.2
          rw [h1] at this
          omega
        · have hcall := hx.parts.isCall
          rw [h.antisymm h1, Tree.is_iff] at hcall
          rw [Tree.is_iff, hcall] at hk
          cases hk
      · rw [Tree.not_isAny_of_is hk (by decide)] at h
        cases h
  · exact h
  · simp [h] at hlink

/-- The call does not lie in a replacement. -/
def Free (ed : Editor) (x : Place.RepositoryCall) : Prop :=
  ∀ e ∈ ed.edits, e.start ≠ e.stop → ¬(e.start ≤ x.call.start ∧ x.call.stop ≤ e.stop)

/-- The edit of a repository parameter cuts into nothing that a call outside of it is composed
from. -/
theorem injection_clear (hu : u.Closed) (hx : Convertible u x) {e : Edit}
    (he : IsInjectionEdit u e)
    (hfree : e.start ≠ e.stop → ¬(e.start ≤ x.call.start ∧ x.call.stop ≤ e.stop)) {m : Tree}
    (hchain : Tree.Chain x.call.tree m) (hne : m.start < m.stop) :
    e.inside m.start m.stop = true ∨ e.stop ≤ m.start ∨ m.stop ≤ e.start := by
  have hr := hu.ordered
  have hmr := hchain.within.1.trans hx.rooted.within
  have hcall := hchain.within.1.range (Tree.everyNode_within hr hx.rooted.within)
  rw [Edit.inside_iff]
  cases he with
  | client p hp on _ =>
    obtain ⟨method, params, hm, hk, hparams, hmem⟩ := hp.places
    have hpc := Place.tree_mem_children hmem
    have hpr := ((hm.child hparams).child hmem).within
    obtain ⟨h1, h2⟩ := on
    rcases Tree.within_or_apart hr hmr hpr with h | h | h | h
    · have hin := (call_within_item hu hx hm hk hparams hpc hp.not_link hchain hne h).range
        (Tree.everyNode_within hr hpr)
      simp only [Place.start, Place.stop] at hfree
      omega
    · have := h.range (Tree.everyNode_within hr hmr)
      omega
    · omega
    · omega
  | removal p hp h1 h2 _ =>
    obtain ⟨method, params, hm, hk, hparams, hmem⟩ := hp.places
    have hf := hm.child hparams
    have hb := Editor.itemRange_bounds hf hmem hr
    simp only [Place.start, Place.stop] at hb hfree
    rcases Editor.itemRange_within hf hmem hr hmr with ⟨y, hy, hkind, h3, h4, hmy⟩ | h | h | h
    · have hlink : y.isAny Tree.linkKinds = false := by
        rcases hkind with rfl | hkind
        · exact hp.not_link
        · exact not_link_of_token hkind
      have hyr := (Tree.within_of_mem hy).trans hf.within
      have hin := (call_within_item hu hx hm hk hparams hy hlink hchain hne hmy).range
        (Tree.everyNode_within hr hyr)
      omega
    · have := h.range (Tree.everyNode_within hr hmr)
      omega
    · omega
    · omega

/-- The editor shows the calls `K` converted in what its shadow shows. -/
structure Tracks (u : SourceUnit) (base : Editor) (K : List Place.RepositoryCall)
    (sh ed : Editor) : Prop where
  follows : Follows u base (taken u K) sh ed
  shows : Shows u K sh.view ed.view
  calls : ∀ x ∈ K, Convertible u x

theorem Tracks.clear (hu : u.Closed) (h : Tracks u base K sh ed)
    (hbase : ∀ e ∈ base.edits, e.start = e.stop ∨ IsInjectionEdit u e) (hx : Convertible u x)
    (hout : ∀ d ∈ K, Outside x d) (hfree : Free base x) {m : Tree}
    (hchain : Tree.Chain x.call.tree m) (hne : m.start < m.stop) : ed.Clear m.start m.stop := by
  have hmr := hchain.within.1.trans hx.rooted.within
  intro e he
  rcases h.follows.recorded.all e he with hL | hL | ⟨n, hn, hon⟩
  · rw [Edit.inside_iff]
    omega
  · rcases hbase e hL with hins | hinj
    · rw [Edit.inside_iff]
      omega
    · exact injection_clear hu hx hinj (hfree e hL) hchain hne
  · obtain ⟨d, hd, hnd⟩ := mem_taken.1 hn
    have hdc := h.calls d hd
    obtain ⟨-, hlt, hnr, -⟩ := hdc.part hu hnd
    obtain ⟨h1, h2⟩ := hon
    rw [Edit.inside_iff]
    rcases Tree.within_or_apart hu.ordered hmr hnr with hw | hw | hw | hw
    · exact absurd hw (chain_outside hu hx hdc (hout d hd) hchain hne hnd)
    · have := hw.range (Tree.everyNode_within hu.ordered hmr)
      omega
    · omega
    · omega

theorem Tracks.render (hu : u.Closed) (h : Tracks u base K sh ed)
    (hbase : ∀ e ∈ base.edits, e.start = e.stop ∨ IsInjectionEdit u e) (hx : Convertible u x)
    (hout : ∀ d ∈ K, Outside x d) (hfree : Free base x) {m : Tree}
    (hchain : Tree.Chain x.call.tree m) :
    renderText ed m = Scene.render (scene u sh.view (K ++ [x])).text m := by
  have hmr := hchain.within.1.trans hx.rooted.within
  have hbytes : ed.renderBytes m.start m.stop = (ed.view.hide m.start).span m.start m.stop := by
    rcases Nat.eq_or_lt_of_le (hu.node hmr).1 with heq | hlt
    · rw [← heq, Editor.renderBytes_self h.follows.recorded.sound, View.span_self]
    · exact Editor.renderBytes_eq h.follows.recorded.sound hlt.le
        (h.clear hu hbase hx hout hfree hchain hlt)
  rw [renderText, Editor.render, hbytes, h.shows.text_chain hu h.calls hx hout hchain]
  rfl

theorem sayAll_result (entries : List LogEntry) (s : Session) :
    (entries.forM fun e => say e.level e.message).result s =
      (.ok (), { s with log := s.log ++ entries }) := by
  induction entries generalizing s with
  | nil => simp
  | cons e entries ih =>
    rw [result_forM_cons, result_bind_ok (result_say e.level e.message s), ih]
    simp

/-- Telling the model of a call gives the text of its accessor and may say something. -/
theorem modelOf_result (u : SourceUnit) (call : Place) (s : Session) :
    ∃ log, (modelOf u call).result s = (.ok (modelText u call), { s with log }) := by
  unfold modelOf modelText
  obtain ⟨model, said⟩ := Resolver.resolve u.settings.modelMapping call u.source
  dsimp only
  rw [result_bind_ok (sayAll_result said s)]
  cases model with
  | some model => exact ⟨_, rfl⟩
  | none => exact ⟨_, rfl⟩

section Pieces

variable {σ : Scene} {rule : Rules.Rule} {owner : Tree}

def conversion (u : SourceUnit) (x : Place.RepositoryCall) (rule : Rules.Rule) (owner : Tree) :
    Conversion :=
  ⟨{ x with call := ⟨x.call.tree, []⟩ }, rule, owner, modelText u x.call⟩

theorem apply_result {s s1 : Session}
    (h : (modelOf u x.call).result s = (.ok (modelText u x.call), s1)) :
    (apply u x owner rule).result s = (do
      edit (·.replace x.callee
        ((conversion u x rule owner).calleeText u (renderText s1.editor)))
      match rule.reshape x.call.tree.callArguments (renderText s1.editor)
        (fun m => m.memberKey u.source) with
      | some texts => edit (·.replace x.arguments ("(" ++ joinWith ", " texts ++ ")"))
      | none => return : Pass Unit).result s1 := by
  unfold apply
  rw [result_bind_ok h, result_bind_ok (result_get s1)]
  rfl

theorem conversion_eq (hunit : σ.unit = u) (hx : Convertible u x)
    (hrule : Rules.rule? (x.method.text u.source) = some rule)
    (howner : x.receiver.child? .object = some owner)
    (hmodel : σ.model? x.call.tree = some (modelText u x.call)) :
    σ.conversion? x.call.tree = some (conversion u x rule owner) := by
  have hsite := Place.repositoryCall?_path hx.whole []
  simp only [Scene.conversion?, hsite, hmodel, hunit, hrule, howner, Option.bind_eq_bind,
    Option.bind_some, conversion]

theorem piece_callee (hunit : σ.unit = u)
    (h : σ.conversion? x.call.tree = some (conversion u x rule owner)) (inner : Tree → Bytes) :
    σ.piece inner x.call.tree x.callee =
      encode ((conversion u x rule owner).calleeText u (Scene.render inner)) := by
  unfold Scene.piece
  rw [h, hunit]
  exact if_pos (Scene.sameRange_iff.2 ⟨rfl, rfl⟩)

theorem piece_arguments (hunit : σ.unit = u) (hu : u.Closed) (hx : Convertible u x)
    (h : σ.conversion? x.call.tree = some (conversion u x rule owner)) (inner : Tree → Bytes) :
    σ.piece inner x.call.tree x.arguments =
      (((conversion u x rule owner).argumentsText u (Scene.render inner)).map encode).getD
        (inner x.arguments) := by
  have ho := hx.order hu
  unfold Scene.piece
  rw [h, hunit]
  refine (if_neg ?_).trans (if_pos (Scene.sameRange_iff.2 ⟨rfl, rfl⟩))
  rw [Scene.sameRange_iff]
  simp only [conversion]
  omega

end Pieces

section Parts

variable {v w : View}

theorem Shows.callee (hu : u.Closed) (hK : ∀ x ∈ K, Convertible u x) (h : Shows u K v w)
    (hx : Convertible u x) (hout : ∀ d ∈ K, Outside x d) (hr : reshapes u x = false) {text : Bytes}
    (htext : text = (scene u v (K ++ [x])).piece (scene u v (K ++ [x])).text x.call.tree x.callee) :
    Shows u (K ++ [x]) v (w.replace x.callee.start x.callee.stop text) := by
  have ho := hx.order hu
  have hparts : ∀ n, n ∈ replacedParts u x ↔ n = x.callee := by simp [mem_replacedParts, hr]
  refine h.convert hu hK hx hout (fun p hp => ?_) (fun p hp => ?_) fun n hn => ?_
  · exact View.replace_inserted w (hp _ ((hparts _).2 rfl))
  · exact View.replace_shown w ho.1 (hp _ ((hparts _).2 rfl))
  · obtain rfl := (hparts n).1 hn
    rw [View.replace_span w ho.1, htext]

theorem Shows.both (hu : u.Closed) (hK : ∀ x ∈ K, Convertible u x) (h : Shows u K v w)
    (hx : Convertible u x) (hout : ∀ d ∈ K, Outside x d) (hr : reshapes u x = true)
    {text text' : Bytes}
    (htext : text = (scene u v (K ++ [x])).piece (scene u v (K ++ [x])).text x.call.tree x.callee)
    (htext' : text' =
      (scene u v (K ++ [x])).piece (scene u v (K ++ [x])).text x.call.tree x.arguments) :
    Shows u (K ++ [x]) v ((w.replace x.callee.start x.callee.stop text).replace x.arguments.start
      x.arguments.stop text') := by
  have ho := hx.order hu
  have hparts : ∀ n, n ∈ replacedParts u x ↔ n = x.callee ∨ n = x.arguments := by
    simp [mem_replacedParts, hr]
  refine h.convert hu hK hx hout (fun p hp => ?_) (fun p hp => ?_) fun n hn => ?_
  · rw [View.replace_inserted _ (hp _ ((hparts _).2 (.inr rfl))),
      View.replace_inserted _ (hp _ ((hparts _).2 (.inl rfl)))]
  · rw [View.replace_shown _ ho.2.2.1 (hp _ ((hparts _).2 (.inr rfl))),
      View.replace_shown _ ho.1 (hp _ ((hparts _).2 (.inl rfl)))]
  · rcases (hparts n).1 hn with rfl | rfl
    · refine Eq.trans (View.span_congr fun p h1 h2 => ?_) ((w.replace_span ho.1).trans htext)
      simp only [View.cell, View.hide]
      rw [View.replace_shown _ ho.2.2.1 (by omega), View.replace_inserted _ (by omega)]
    · rw [View.replace_span _ ho.2.2.1, htext']

end Parts

/-- The texts of a conversion are the same read from the editor as from the scene that it leaves. -/
theorem Tracks.conversion_texts (hu : u.Closed)
    (hbase : ∀ e ∈ base.edits, e.start = e.stop ∨ IsInjectionEdit u e) (hx : Convertible u x)
    (hout : ∀ d ∈ K, Outside x d) (hfree : Free base x) {rule : Rules.Rule} {owner : Tree}
    (hrule : Rules.rule? (x.method.text u.source) = some rule)
    (howner : x.receiver.child? .object = some owner) (h : Tracks u base K sh ed) :
    let inner := Scene.render (scene u sh.view (K ++ [x])).text
    (conversion u x rule owner).calleeText u (renderText ed) =
        (conversion u x rule owner).calleeText u inner ∧
      rule.reshape x.call.tree.callArguments (renderText ed) (fun m => m.memberKey u.source) =
        rule.reshape x.call.tree.callArguments inner fun m => m.memberKey u.source := by
  have hrender : ∀ {m}, Tree.Chain x.call.tree m → renderText ed m =
      Scene.render (scene u sh.view (K ++ [x])).text m := h.render hu hbase hx hout hfree
  constructor
  · simp only [Conversion.calleeText, conversion, hrender (hx.owner_chain howner)]
  · rw [Scene.callArguments_eq hx.parts]
    exact Rules.reshape_congr hrule fun m hm => hrender (hx.rendered_chain hm)

/-- The arguments of a call are as free as they were, once its callee is replaced. -/
theorem clear_arguments (hu : u.Closed) (hx : Convertible u x) {ed' : Editor} {text : String}
    (hed : ed.replace x.callee text = .ok ed') (h : ed.Clear x.arguments.start x.arguments.stop) :
    ed'.Clear x.arguments.start x.arguments.stop := by
  obtain ⟨-, rfl⟩ := Editor.replaceRange_eq_ok.1 hed
  intro e he
  rcases List.mem_append.1 he with he | he
  · exact h e (Editor.mem_outside.1 he).1
  · obtain rfl := List.mem_singleton.1 he
    exact .inr (.inl (hx.order hu).2.1)

theorem Tracks.applied (hu : u.Closed)
    (hbase : ∀ e ∈ base.edits, e.start = e.stop ∨ IsInjectionEdit u e) (hx : Convertible u x)
    (hout : ∀ d ∈ K, Outside x d) (hfree : Free base x) {rule : Rules.Rule} {owner : Tree}
    (hrule : Rules.rule? (x.method.text u.source) = some rule)
    (howner : x.receiver.child? .object = some owner) {s : Session}
    (h : Tracks u base K sh s.editor) :
    ∃ s', (apply u x owner rule).result s = (.ok (), s') ∧
      Tracks u base (K ++ [x]) sh s'.editor ∧
      s.editor.History (fun _ _ => True) [] s'.editor ∧ s'.advisories = s.advisories := by
  obtain ⟨log, hs1⟩ := modelOf_result u x.call s
  set s1 : Session := { s with log }
  replace h : Tracks u base K sh s1.editor := h
  obtain ⟨-, hlt, hroot, hchain⟩ := hx.part hu (mem_replacedParts.2 (.inl rfl))
  set σ := scene u sh.view (K ++ [x]) with hσ
  set k := conversion u x rule owner with hk
  have hconv : σ.conversion? x.call.tree = some k :=
    conversion_eq rfl hx hrule howner (scene_model_self hout)
  obtain ⟨hcallee, hreshape⟩ := h.conversion_texts hu hbase hx hout hfree hrule howner
  have hsome := Rules.reshape_isSome hrule x.call.tree.callArguments (Scene.render σ.text)
    (fun _ => "") fun m => m.memberKey u.source
  have htaken : taken u (K ++ [x]) = taken u K ++ replacedParts u x := by simp [taken]
  have hcalls : ∀ y ∈ K ++ [x], Convertible u y := by
    intro y hy
    rcases List.mem_append.1 hy with hy | hy
    · exact h.calls y hy
    · exact List.mem_singleton.1 hy ▸ hx
  -- the callee
  obtain ⟨ed1, hed1, hfollows1, hview1⟩ := h.follows.exists_replaced hu.toNested hroot hlt
    (h.clear hu hbase hx hout hfree hchain hlt) (k.calleeText u (Scene.render σ.text))
  have hedit1 : (edit (·.replace x.callee (k.calleeText u (Scene.render σ.text)))).result s1 =
      (.ok (), { s1 with editor := ed1 }) := by
    rw [result_edit, hed1]
  have htext := (piece_callee (u := u) rfl hconv σ.text).symm
  rw [apply_result hs1, hcallee, result_bind_ok hedit1, hreshape]
  cases hnew : rule.reshape x.call.tree.callArguments (Scene.render σ.text)
      fun m => m.memberKey u.source with
  | none =>
    have hno : reshapes u x = false := by
      rw [hnew, Option.isSome_none] at hsome
      simpa only [reshapes, hrule] using hsome.symm
    refine ⟨_, rfl, ⟨?_, hview1 ▸ h.shows.callee hu h.calls hx hout hno htext, hcalls⟩,
      .replaced .start trivial hed1, rfl⟩
    rw [htaken, show replacedParts u x = [x.callee] by simp [replacedParts, hno]]
    exact hfollows1
  | some texts =>
    have hyes : reshapes u x = true := by
      rw [hnew, Option.isSome_some] at hsome
      simpa only [reshapes, hrule] using hsome.symm
    -- the arguments
    obtain ⟨-, hlt', hroot', hchain'⟩ := hx.part hu (mem_replacedParts.2 (.inr ⟨hyes, rfl⟩))
    obtain ⟨ed2, hed2, hfollows2, hview2⟩ := hfollows1.exists_replaced hu.toNested hroot' hlt'
      (clear_arguments hu hx hed1 (h.clear hu hbase hx hout hfree hchain' hlt'))
      ("(" ++ joinWith ", " texts ++ ")")
    have hedit2 : (edit (·.replace x.arguments ("(" ++ joinWith ", " texts ++ ")"))).result
        { s1 with editor := ed1 } = (.ok (), { s1 with editor := ed2 }) := by
      rw [result_edit]
      dsimp only
      rw [hed2]
    have htext' : encode ("(" ++ joinWith ", " texts ++ ")") =
        σ.piece σ.text x.call.tree x.arguments := by
      have hargs : k.argumentsText u (Scene.render σ.text) =
          some ("(" ++ joinWith ", " texts ++ ")") := congrArg (Option.map _) hnew
      rw [piece_arguments (u := u) rfl hu hx hconv, hargs]
      rfl
    refine ⟨{ s1 with editor := ed2 }, hedit2, ⟨?_, ?_, hcalls⟩,
      .replaced (.replaced .start trivial hed1) trivial hed2, rfl⟩
    · rwa [htaken, show replacedParts u x = [x.callee, x.arguments] by simp [replacedParts, hyes],
        List.append_cons]
    · rw [hview2, hview1]
      exact h.shows.both hu h.calls hx hout hyes htext htext'

end OrmCodemod.Calls
