import OrmCodemod.Proofs.CallShape

/-! What is shown once some calls are converted. Their replaced parts show what the recursion composes,
and the rest is what stands around; then every node that lies in no replaced part shows its text. -/

namespace OrmCodemod.Calls

open Syntax Text

def modelText (u : SourceUnit) (call : Place) : String :=
  match (Resolver.resolve u.settings.modelMapping call u.source).1 with
  | some model => Settings.accessor u.settings.modelCase model
  | none => u.settings.placeholderModel

def scene (u : SourceUnit) (around : View) (K : List Place.RepositoryCall) : Scene where
  unit := u
  around
  model? t := (K.find? fun x => Scene.sameRange x.call.tree t).map fun x => modelText u x.call

def taken (u : SourceUnit) (K : List Place.RepositoryCall) : List Tree :=
  K.flatMap (replacedParts u)

variable {u : SourceUnit} {K : List Place.RepositoryCall} {x : Place.RepositoryCall} {v w : View}

theorem mem_taken {n : Tree} : n ∈ taken u K ↔ ∃ x ∈ K, n ∈ replacedParts u x := List.mem_flatMap

def Covered (u : SourceUnit) (K : List Place.RepositoryCall) (a b : Nat) : Prop :=
  ∃ n ∈ taken u K, n.start ≤ a ∧ b ≤ n.stop

/-- `w` shows the calls converted in `v`. -/
structure Shows (u : SourceUnit) (K : List Place.RepositoryCall) (v w : View) : Prop where
  inserted : ∀ p, (∀ n ∈ taken u K, ¬(n.start < p ∧ p < n.stop)) → w.inserted p = v.inserted p
  shown : ∀ p, (∀ n ∈ taken u K, ¬(n.start ≤ p ∧ p < n.stop)) → w.shown p = v.shown p
  part : ∀ x ∈ K, ¬Covered u K x.call.start x.call.stop → ∀ n ∈ replacedParts u x,
    (w.hide n.start).span n.start n.stop = (scene u v K).piece (scene u v K).text x.call.tree n

theorem Shows.refl (u : SourceUnit) (v : View) : Shows u [] v v :=
  ⟨fun _ _ => rfl, fun _ _ => rfl, by simp⟩

theorem conversion_mem (hu : u.Closed) (hK : ∀ x ∈ K, Convertible u x) {t : Tree}
    (ht : t.Within u.root) {k : Conversion} (hk : (scene u v K).conversion? t = some k) :
    ∃ x ∈ K, x.call.tree = t ∧ k.site = { x with call := ⟨t, []⟩ } := by
  obtain ⟨hcall, hparts, hrule, -, hmodel⟩ := Scene.conversion?_parts hk
  simp only [scene, Option.map_eq_some_iff] at hmodel hrule
  obtain ⟨x, hfind, -⟩ := hmodel
  have hx := hK x (List.mem_of_find?_eq_some hfind)
  have hsame : Scene.sameRange x.call.tree t = true := by simpa using List.find?_some hfind
  have hrange := Scene.sameRange_iff.1 hsame
  have htree : k.site.call.tree = t := by rw [hcall]
  have ho := splits_of_parts hu hparts (htree ▸ ht) hrule
  have hsplits : t.Splits := by
    have h1 := Tree.child?_mem hparts.callee
    have h2 := Tree.child?_mem hparts.arguments
    rw [htree] at h1 h2
    exact ⟨_, h1, _, h2, ho.1, ho.2.1, ho.2.2.1⟩
  have heq : x.call.tree = t := Tree.Splits.eq_of_range hu.ordered hx.rooted.within ht
    (hx.splits hu) hsplits hrange.1 hrange.2
  refine ⟨x, List.mem_of_find?_eq_some hfind, heq, ?_⟩
  have hsite : Place.repositoryCall? ⟨t, []⟩ = some k.site := by
    simp only [Scene.conversion?, Option.bind_eq_bind, Option.bind_eq_some_iff, Option.some.injEq]
      at hk
    obtain ⟨site, h1, _, -, _, -, _, -, rfl⟩ := hk
    exact h1
  have hsite' := Place.repositoryCall?_path hx.whole []
  rw [heq, hsite] at hsite'
  exact Option.some.inj hsite'

theorem argumentsText_eq_none {k : Conversion} {render : Rules.Render}
    (hrule : Rules.rule? (x.method.text u.source) = some k.rule)
    (hcall : k.site.call.tree = x.call.tree) (h : reshapes u x = false) :
    k.argumentsText u render = none := by
  rw [Conversion.argumentsText, hcall, Option.map_eq_none_iff, ← Option.not_isSome_iff_eq_none,
    Rules.reshape_isSome hrule _ _ fun _ => ""]
  simpa only [reshapes, hrule, Bool.not_eq_true] using h

theorem piece_eq_text (hu : u.Closed) (hK : ∀ x ∈ K, Convertible u x) {t c : Tree}
    (ht : t.Within u.root) (hc : ¬Covered u K c.start c.stop) :
    (scene u v K).piece (scene u v K).text t c = (scene u v K).text c := by
  unfold Scene.piece
  cases hk : (scene u v K).conversion? t with
  | none => rfl
  | some k =>
    obtain ⟨x, hxK, hxt, hsite⟩ := conversion_mem hu hK ht hk
    obtain ⟨-, -, hrule, -, -⟩ := Scene.conversion?_parts hk
    have hfree : ∀ n ∈ replacedParts u x, Scene.sameRange c n = false := by
      intro n hn
      rw [← Bool.not_eq_true, Scene.sameRange_iff]
      exact fun he => hc ⟨n, mem_taken.2 ⟨x, hxK, hn⟩, he.1.ge, he.2.le⟩
    have hmethod : k.site.method = x.method := by rw [hsite]
    have hcall : k.site.call.tree = x.call.tree := by rw [hsite, hxt]
    rw [hmethod] at hrule
    dsimp only
    rw [show k.site.callee = x.callee by rw [hsite],
      show k.site.arguments = x.arguments by rw [hsite]]
    rw [if_neg (by simpa using hfree x.callee (mem_replacedParts.2 (.inl rfl)))]
    cases hr : reshapes u x with
    | true =>
      rw [if_neg (by simpa using hfree x.arguments (mem_replacedParts.2 (.inr ⟨hr, rfl⟩)))]
    | false =>
      have hnone : k.argumentsText (scene u v K).unit (Scene.render (scene u v K).text) = none :=
        argumentsText_eq_none hrule hcall hr
      simp [hnone]

/-- A child in a replaced part, of a node that is in none, is a replaced part of that node. -/
theorem part_of_covered (hu : u.Closed) {d : Place.RepositoryCall} (hd : Convertible u d)
    {t c n : Tree} (ht : t.Within u.root) (hc : c ∈ t.children) (hne : c.start < c.stop)
    (hn : n ∈ replacedParts u d) (hcov : n.start ≤ c.start ∧ c.stop ≤ n.stop)
    (hfree : ¬(n.start ≤ t.start ∧ t.stop ≤ n.stop)) : n = c ∧ d.call.tree = t := by
  obtain ⟨hnd, hlt, hnr, -⟩ := hd.part hu hn
  have hcn := within_part hu hd hn ((Tree.within_of_mem hc).trans ht) hne hcov.1 hcov.2
  have hnc : n = c := by
    rcases Tree.within_parent hu.ordered ht hc hne hnr hcn with h | h
    · exact h
    · have := h.range (Tree.everyNode_within hu.ordered hnr)
      exact absurd ⟨this.1, this.2.2⟩ hfree
  subst hnc
  exact ⟨rfl, Tree.parent_unique hu.ordered hd.rooted.within ht hnd hc hlt⟩

/-- A replaced part that overlaps a node, but does not hold it, lies in one of its children. -/
theorem exists_child_of_taken (hu : u.Closed) {d : Place.RepositoryCall} (hd : Convertible u d)
    {t n : Tree} (ht : t.Within u.root) (hn : n ∈ replacedParts u d)
    (hfree : ¬(n.start ≤ t.start ∧ t.stop ≤ n.stop)) {p : Nat} (h1 : t.start ≤ p) (h2 : p < t.stop)
    (h3 : n.start ≤ p) (h4 : p < n.stop) :
    ∃ c ∈ t.children, c.start ≤ n.start ∧ n.stop ≤ c.stop := by
  obtain ⟨-, -, hnr, -⟩ := hd.part hu hn
  rcases Tree.within_or_apart hu.ordered hnr ht with h | h | h | h
  · cases h with
    | self => exact absurd ⟨le_rfl, le_rfl⟩ hfree
    | @child c _ hc h =>
      have := h.range (Tree.everyNode_within hu.ordered ((Tree.within_of_mem hc).trans ht))
      exact ⟨c, hc, this.1, this.2.2⟩
  · have := h.range (Tree.everyNode_within hu.ordered hnr)
    exact absurd ⟨this.1, this.2.2⟩ hfree
  · omega
  · omega

theorem Shows.text (hu : u.Closed) (hK : ∀ x ∈ K, Convertible u x) (h : Shows u K v w) :
    ∀ {t : Tree}, t.Within u.root → (t.start < t.stop → ¬Covered u K t.start t.stop) →
      (w.hide t.start).span t.start t.stop = (scene u v K).text t := by
  suffices ∀ n (t : Tree), t.size ≤ n → t.Within u.root →
      (t.start < t.stop → ¬Covered u K t.start t.stop) →
        (w.hide t.start).span t.start t.stop = (scene u v K).text t from
    fun {t} => this t.size t le_rfl
  intro n
  induction n with
  | zero =>
    intro t hn
    cases t
    simp only [Tree.size] at hn
    omega
  | succ n ih =>
    intro t hn ht hfree
    have ho := Tree.everyNode_within hu.ordered ht
    have hord := (Tree.everyNode_iff.1 ho).1
    rw [Scene.text_eq hord, Scene.compose]
    rcases Nat.eq_or_lt_of_le (Tree.start_le_stop ho) with he | hlt
    · rw [he, View.span_self, View.span_self]
    have hnot : ∀ m ∈ taken u K, ¬(m.start ≤ t.start ∧ t.stop ≤ m.stop) :=
      fun m hm hcov => hfree hlt ⟨m, hm, hcov⟩
    -- a replaced part around an offset of the node lies in the child at the offset
    have hchild : ∀ m ∈ taken u K, ∀ p, t.start ≤ p → p < t.stop → m.start ≤ p → p < m.stop →
        ∃ c ∈ t.children, c.start ≤ m.start ∧ m.stop ≤ c.stop := by
      intro m hm p h1 h2 h3 h4
      obtain ⟨d, hd, hmd⟩ := mem_taken.1 hm
      exact exists_child_of_taken hu (hK d hd) ht hmd (hnot m hm) h1 h2 h3 h4
    refine View.span_eq_fill hord (fun p h1 h2 hgap => ?_) (fun c hc hne hca => ?_)
      fun c hc hne => ?_
    · have hout : ∀ m ∈ taken u K, ¬(m.start ≤ p ∧ p < m.stop) := by
        rintro m hm ⟨h3, h4⟩
        obtain ⟨c, hc, h5, h6⟩ := hchild m hm p h1 h2 h3 h4
        exact hgap c hc ⟨by omega, by omega⟩
      exact ⟨h.shown p hout, fun _ => h.inserted p fun m hm hp => hout m hm ⟨hp.1.le, hp.2⟩⟩
    · refine h.inserted _ fun m hm hp => ?_
      have hrange := Tree.child_range ho hc
      obtain ⟨c', hc', h5, h6⟩ := hchild m hm c.start (by omega) (by omega) hp.1.le hp.2
      rcases Tree.inOrder_apart hord hc hc' with rfl | h7 | h7 <;> omega
    · by_cases hcov : Covered u K c.start c.stop
      · obtain ⟨m, hm, hcm⟩ := hcov
        obtain ⟨d, hd, hmd⟩ := mem_taken.1 hm
        obtain ⟨rfl, rfl⟩ := part_of_covered hu (hK d hd) ht hc hne hmd hcm (hnot m hm)
        exact h.part d hd (hfree hlt) m hmd
      · have hsize := Tree.size_child hc
        rw [piece_eq_text hu hK ht hcov]
        exact ih c (by omega) ((Tree.within_of_mem hc).trans ht) fun _ => hcov

section Steps

variable {d : Place.RepositoryCall}

theorem scene_unit (u : SourceUnit) (v w : View) (K J : List Place.RepositoryCall) :
    (scene u v K).unit = (scene u w J).unit := rfl

theorem Shows.put (hu : u.Closed) (hK : ∀ x ∈ K, Convertible u x) (h : Shows u K v w) {p : Nat}
    {text : Bytes} (hp : ∀ n ∈ taken u K, ¬(n.start < p ∧ p < n.stop)) :
    Shows u K (v.put p text) (w.put p text) where
  inserted q hq := by simp only [View.put, h.inserted q hq]
  shown q hq := h.shown q hq
  part x hx hcov n hn := by
    obtain ⟨hmem, hlt, hnr, -⟩ := (hK x hx).part hu hn
    have hnot := hp n (mem_taken.2 ⟨x, hx, hn⟩)
    have hspan : ((w.put p text).hide n.start).span n.start n.stop =
        (w.hide n.start).span n.start n.stop := by
      refine View.span_congr fun q h1 h2 => ?_
      by_cases hq : q = n.start
      · rw [hq, View.hide_cell_self, View.hide_cell_self]
        rfl
      · rw [View.hide_cell_of_ne _ hq, View.hide_cell_of_ne _ hq]
        simp only [View.cell, View.put, if_neg (show q ≠ p by omega)]
    rw [hspan, h.part x hx hcov n hn]
    have hcall := (hK x hx).rooted.within
    refine Scene.piece_congr (Tree.test_within hu.ordered hcall) hmem hlt rfl rfl fun m hm => ?_
    have hmr := hm.trans hnr
    have hrange := hm.range (Tree.everyNode_within hu.ordered hnr)
    refine Scene.text_congr (scene_unit u v (v.put p text) K K)
      (Tree.everyNode_within hu.ordered hmr) (fun _ _ _ => rfl) (fun q h1 h2 => ?_) fun _ _ => rfl
    simp only [scene, View.put, if_neg (show q ≠ p by omega)]

theorem scene_model_append {t : Tree} (h : Scene.sameRange x.call.tree t = false) :
    (scene u v (K ++ [x])).model? t = (scene u v K).model? t := by
  simp [scene, List.find?_append, h]

theorem scene_model_self (hout : ∀ d ∈ K, Outside x d) :
    (scene u v (K ++ [x])).model? x.call.tree = some (modelText u x.call) := by
  have hnone : K.find? (fun d => Scene.sameRange d.call.tree x.call.tree) = none := by
    refine List.find?_eq_none.2 fun d hd => ?_
    rw [Scene.sameRange_iff]
    exact fun h => hout d hd ⟨h.1.le, h.2.ge⟩
  have hself : Scene.sameRange x.call.tree x.call.tree = true := Scene.sameRange_iff.2 ⟨rfl, rfl⟩
  simp [scene, List.find?_append, hnone, hself]

/-- What a call is composed from shows its text before the call is converted. -/
theorem Shows.text_chain (hu : u.Closed) (hK : ∀ x ∈ K, Convertible u x) (h : Shows u K v w)
    (hx : Convertible u x) (hout : ∀ d ∈ K, Outside x d) {m : Tree}
    (hm : Tree.Chain x.call.tree m) :
    (w.hide m.start).span m.start m.stop = (scene u v (K ++ [x])).text m := by
  have hcall := hx.rooted.within
  have hmr := hm.within.1.trans hcall
  have hord := Tree.everyNode_within hu.ordered hmr
  rw [h.text hu hK hmr]
  · refine Scene.text_congr (scene_unit u v v K (K ++ [x])) hord (fun _ _ _ => rfl) (fun _ _ _ => rfl) fun s hs => ?_
    refine (scene_model_append ?_).symm
    rw [← Bool.not_eq_true, Scene.sameRange_iff]
    intro he
    have hne : s ≠ x.call.tree := by
      rintro rfl
      have h1 := hs.size_le
      have h2 := hm.within.2
      omega
    exact (hx.splits hu).below_smaller (Tree.everyNode_within hu.ordered hcall)
      (hs.trans hm.within.1) hne ⟨he.1.ge, he.2.le⟩
  · rintro hlt ⟨n, hn, hcov⟩
    obtain ⟨d, hd, hnd⟩ := mem_taken.1 hn
    exact chain_outside hu hx (hK d hd) (hout d hd) hm hlt hnd
      (within_part hu (hK d hd) hnd hmr hlt hcov.1 hcov.2)

/-- Parts of two calls, none of which lies in a replaced part of the other, are apart. -/
theorem parts_apart (hu : u.Closed) (hx : Convertible u x) (hd : Convertible u d)
    (hout : Outside x d) {n n' : Tree} (hn : n ∈ replacedParts u d) (hn' : n' ∈ replacedParts u x)
    (hfree : ¬(n'.start ≤ d.call.start ∧ d.call.stop ≤ n'.stop)) :
    n.stop ≤ n'.start ∨ n'.stop ≤ n.start := by
  obtain ⟨hmem, hlt, hnr, -⟩ := hd.part hu hn
  obtain ⟨hmem', hlt', hnr', hchain⟩ := hx.part hu hn'
  rcases Tree.within_or_apart hu.ordered hnr hnr' with h | h | h | h
  · rcases Tree.within_parent hu.ordered hd.rooted.within hmem hlt hnr' h with rfl | h1
    · exact absurd .self (chain_outside hu hx hd hout hchain hlt' hn)
    · have := h1.range (Tree.everyNode_within hu.ordered hnr')
      exact absurd ⟨this.1, this.2.2⟩ hfree
  · exact absurd h (chain_outside hu hx hd hout hchain hlt' hn)
  · exact .inl h
  · exact .inr h

theorem Shows.convert (hu : u.Closed) (hK : ∀ x ∈ K, Convertible u x) (h : Shows u K v w)
    (hx : Convertible u x) (hout : ∀ d ∈ K, Outside x d) {w' : View}
    (hinserted : ∀ p, (∀ n ∈ replacedParts u x, ¬(n.start < p ∧ p < n.stop)) →
      w'.inserted p = w.inserted p)
    (hshown : ∀ p, (∀ n ∈ replacedParts u x, ¬(n.start ≤ p ∧ p < n.stop)) → w'.shown p = w.shown p)
    (hparts : ∀ n ∈ replacedParts u x, (w'.hide n.start).span n.start n.stop =
      (scene u v (K ++ [x])).piece (scene u v (K ++ [x])).text x.call.tree n) :
    Shows u (K ++ [x]) v w' := by
  have htaken : ∀ n, n ∈ taken u (K ++ [x]) ↔ n ∈ taken u K ∨ n ∈ replacedParts u x := by
    intro n
    simp [taken]
  refine ⟨fun p hp => ?_, fun p hp => ?_, fun d hd hcov n hn => ?_⟩
  · rw [hinserted p fun n hn => hp n ((htaken n).2 (.inr hn)),
      h.inserted p fun n hn => hp n ((htaken n).2 (.inl hn))]
  · rw [hshown p fun n hn => hp n ((htaken n).2 (.inr hn)),
      h.shown p fun n hn => hp n ((htaken n).2 (.inl hn))]
  rcases List.mem_append.1 hd with hd | hd
  swap
  · obtain rfl := List.mem_singleton.1 hd
    exact hparts n hn
  have hdc := hK d hd
  obtain ⟨hmem, hlt, hnr, -⟩ := hdc.part hu hn
  have hdr := hdc.rooted.within
  have hapart : ∀ n' ∈ replacedParts u x, n.stop ≤ n'.start ∨ n'.stop ≤ n.start := fun n' hn' =>
    parts_apart hu hx hdc (hout d hd) hn hn' fun hf => hcov ⟨n', (htaken n').2 (.inr hn'), hf⟩
  have hspan : (w'.hide n.start).span n.start n.stop = (w.hide n.start).span n.start n.stop := by
    refine View.span_congr fun q h1 h2 => ?_
    have hs := hshown q fun n' hn' => by have := hapart n' hn'; omega
    by_cases hq : q = n.start
    · rw [hq, View.hide_cell_self, View.hide_cell_self, ← hq, hs]
    · rw [View.hide_cell_of_ne _ hq, View.hide_cell_of_ne _ hq, View.cell, View.cell, hs,
        hinserted q fun n' hn' => by have := hapart n' hn'; omega]
  have hold : ¬Covered u K d.call.start d.call.stop := by
    rintro ⟨n', hn', hf⟩
    exact hcov ⟨n', (htaken n').2 (.inl hn'), hf⟩
  -- the new call is not inside the old one, so that nothing changes there
  have hmodel : ∀ s, s.Within d.call.tree →
      (scene u v K).model? s = (scene u v (K ++ [x])).model? s := by
    intro s hs
    refine (scene_model_append ?_).symm
    rw [← Bool.not_eq_true, Scene.sameRange_iff]
    intro he
    have := hs.range (Tree.everyNode_within hu.ordered hdr)
    refine hout d hd ?_
    simp only [Place.start, Place.stop]
    omega
  rw [hspan, h.part d hd hold n hn]
  refine Scene.piece_congr (Tree.test_within hu.ordered hdr) hmem hlt rfl (hmodel _ .self)
    fun m hm => ?_
  exact Scene.text_congr (scene_unit u v v K (K ++ [x]))
    (Tree.everyNode_within hu.ordered (hm.trans hnr)) (fun _ _ _ => rfl) (fun _ _ _ => rfl)
    fun s hs => hmodel s ((hs.trans hm).trans (Tree.within_of_mem hmem))

end Steps

end OrmCodemod.Calls
