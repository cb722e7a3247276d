import OrmCodemod.Proofs.Licence

/-! The text of a node by recursion over the tree. A converted call is composed from the text of its
owner and those of its arguments; every other node is what stands around it with the texts of its
children in their places. -/

namespace OrmCodemod

open Syntax Text

namespace View

def fill (v : View) (cs : List Tree) (piece : Tree → Bytes) : View where
  inserted p := if cs.any (fun c => c.start < p && p < c.stop) then [] else v.inserted p
  shown p :=
    match cs.find? fun c => c.start ≤ p && p < c.stop with
    | some c => if c.start = p then piece c else []
    | none => v.shown p

variable {v w : View} {cs : List Tree} {piece : Tree → Bytes} {a b p : Nat}

theorem fill_shown_of_mem (h : Tree.inOrder a b cs = true) {c : Tree} (hc : c ∈ cs)
    (h1 : c.start ≤ p) (h2 : p < c.stop) :
    (v.fill cs piece).shown p = if c.start = p then piece c else [] := by
  cases hf : cs.find? fun c => c.start ≤ p && p < c.stop with
  | none =>
    have := List.find?_eq_none.1 hf c hc
    simp [h1, h2] at this
  | some d =>
    have hd := List.find?_some hf
    simp only [Bool.and_eq_true, decide_eq_true_eq] at hd
    have : d = c := by
      rcases Tree.inOrder_apart h (List.mem_of_find?_eq_some hf) hc with h3 | h3 | h3
      · exact h3
      · omega
      · omega
    simp [fill, hf, this]

theorem fill_shown_of_free (h : ∀ c ∈ cs, ¬(c.start ≤ p ∧ p < c.stop)) :
    (v.fill cs piece).shown p = v.shown p := by
  have : cs.find? (fun c => c.start ≤ p && p < c.stop) = none := by simpa using h
  simp [fill, this]

theorem fill_inserted_of_free (h : ∀ c ∈ cs, ¬(c.start < p ∧ p < c.stop)) :
    (v.fill cs piece).inserted p = v.inserted p := by
  have : cs.any (fun c => c.start < p && p < c.stop) = false := by simpa using h
  simp only [fill, this, Bool.false_eq_true, if_false]

theorem fill_inserted_of_mem {c : Tree} (hc : c ∈ cs) (h1 : c.start < p) (h2 : p < c.stop) :
    (v.fill cs piece).inserted p = [] := by
  have : cs.any (fun c => c.start < p && p < c.stop) = true :=
    List.any_eq_true.2 ⟨c, hc, by simp [h1, h2]⟩
  simp only [fill, this, if_true]

theorem fill_shown_congr {f g : Tree → Bytes} (hs : v.shown p = w.shown p)
    (h : ∀ c ∈ cs, c.start < c.stop → f c = g c) : (v.fill cs f).shown p = (w.fill cs g).shown p := by
  simp only [fill]
  cases hf : cs.find? fun c => c.start ≤ p && p < c.stop with
  | none => exact hs
  | some c =>
    have hc := List.find?_some hf
    simp only [Bool.and_eq_true, decide_eq_true_eq] at hc
    dsimp only
    rw [h c (List.mem_of_find?_eq_some hf) (by omega)]

theorem fill_inserted_congr {f g : Tree → Bytes} (h : v.inserted p = w.inserted p) :
    (v.fill cs f).inserted p = (w.fill cs g).inserted p := by
  simp only [fill, h]

theorem fill_span (h : Tree.inOrder a b cs = true) {c : Tree} (hc : c ∈ cs)
    (hne : c.start < c.stop) :
    ((v.fill cs piece).hide c.start).span c.start c.stop = piece c := by
  have hrest : ((v.fill cs piece).hide c.start).span (c.start + 1) c.stop = [] := by
    refine List.flatMap_eq_nil_iff.2 fun q hq => ?_
    rw [List.mem_range'_1] at hq
    rw [hide_cell_of_ne _ (by omega), cell, fill_inserted_of_mem hc (by omega) (by omega),
      fill_shown_of_mem h hc (by omega) (by omega), if_neg (by omega), List.nil_append]
  rw [span_cons _ hne, hrest, hide_cell_self, fill_shown_of_mem h hc le_rfl hne, if_pos rfl,
    List.append_nil]

theorem span_eq_of_pieces {a b : Nat} (h : Tree.inOrder a b cs = true)
    (hgap : ∀ p, a ≤ p → p < b → (∀ c ∈ cs, ¬(c.start ≤ p ∧ p < c.stop)) → v.cell p = w.cell p)
    (hpiece : ∀ c ∈ cs, c.start < c.stop → v.span c.start c.stop = w.span c.start c.stop) :
    v.span a b = w.span a b := by
  refine Tree.inOrder_chain (R := fun p q => v.span p q = w.span p q) h (by simp)
    (fun p q r hpq hqr h1 h2 => ?_) (fun p q hap hpq hqb _ _ hfree => ?_) hpiece
  · rw [← v.span_append hpq hqr, ← w.span_append hpq hqr, h1, h2]
  · refine span_congr fun i h1 h2 => hgap i (by omega) (by omega) fun c hc => ?_
    have := hfree c hc
    omega

/-- A view that shows the pieces of nodes, and what stands around between them, shows the whole. -/
theorem span_eq_fill {a b : Nat} (h : Tree.inOrder a b cs = true)
    (hgap : ∀ p, a ≤ p → p < b → (∀ c ∈ cs, ¬(c.start ≤ p ∧ p < c.stop)) →
      w.shown p = v.shown p ∧ (p ≠ a → w.inserted p = v.inserted p))
    (hstart : ∀ c ∈ cs, c.start < c.stop → c.start ≠ a → w.inserted c.start = v.inserted c.start)
    (hpiece : ∀ c ∈ cs, c.start < c.stop → (w.hide c.start).span c.start c.stop = piece c) :
    (w.hide a).span a b = ((v.fill cs piece).hide a).span a b := by
  refine span_eq_of_pieces h (fun p h1 h2 hf => ?_) fun c hc hne => ?_
  · obtain ⟨hs, hi⟩ := hgap p h1 h2 hf
    have hin : (v.fill cs piece).inserted p = v.inserted p :=
      fill_inserted_of_free fun c hc hh => hf c hc ⟨hh.1.le, hh.2⟩
    by_cases hpa : p = a
    · rw [hpa, hide_cell_self, hide_cell_self, ← hpa, hs, fill_shown_of_free hf]
    · rw [hide_cell_of_ne _ hpa, hide_cell_of_ne _ hpa, cell, cell, hs, hi hpa, hin,
        fill_shown_of_free hf]
  · have hac := (Tree.inOrder_mem h hc).1
    have hin : (v.fill cs piece).inserted c.start = v.inserted c.start := by
      refine fill_inserted_of_free fun d hd hh => ?_
      rcases Tree.inOrder_apart h hc hd with rfl | h3 | h3 <;> omega
    rw [hide_span _ hac hne, hide_span _ hac hne, fill_span h hc hne, hpiece c hc hne, hin]
    by_cases hca : c.start = a
    · simp [hca]
    · rw [if_neg hca, if_neg hca, hstart c hc hne hca]

end View

namespace Rules

/-- The nodes whose texts a row may use: arguments, and of objects the members and their values. -/
inductive Rendered (args : List Tree) : Tree → Prop where
  | argument {a : Tree} (ha : a ∈ args) : Rendered args a
  | member {a m : Tree} (ha : a ∈ args) (ho : a.is .object = true) (hm : m ∈ a.significant) :
      Rendered args m
  | value {a m v : Tree} (ha : a ∈ args) (ho : a.is .object = true) (hm : m ∈ a.significant)
      (hp : m.is .pair = true) (hv : m.child? .value = some v) : Rendered args v

theorem reshape_cases {method : String} {rule : Rule} (h : rule? method = some rule) :
    rule.reshape = (fun _ _ _ => none) ∨ rule.reshape = findOne ∨ rule.reshape = wrapInWhere ∨
      rule.reshape = save ∨ rule.reshape = update ∨ rule.reshape = delete ∨ rule.reshape = count := by
  have hmem := mem_table h
  simp only [table, List.mem_cons, Prod.mk.injEq, List.not_mem_nil, or_false] at hmem
  rcases hmem with ⟨-, rfl⟩ | ⟨-, rfl⟩ | ⟨-, rfl⟩ | ⟨-, rfl⟩ | ⟨-, rfl⟩ | ⟨-, rfl⟩ | ⟨-, rfl⟩ |
    ⟨-, rfl⟩ | ⟨-, rfl⟩ | ⟨-, rfl⟩ <;> simp [renamed]

section Locality

variable {args : List Tree} {r r' : Render} {keyOf : KeyOf}

theorem map_rest_congr {first : Tree} {rest : List Tree}
    (h : ∀ m, Rendered (first :: rest) m → r m = r' m) : rest.map r = rest.map r' :=
  List.map_congr_left fun m hm => h m (.argument (by simp [hm]))

theorem wrapInWhere_congr (h : ∀ m, Rendered args m → r m = r' m) :
    wrapInWhere args r keyOf = wrapInWhere args r' keyOf := by
  cases args with
  | nil => rfl
  | cons first rest =>
    simp only [wrapInWhere, h first (.argument (by simp)), map_rest_congr h]

theorem renameRelations_congr {m : Tree} (hm : r m = r' m)
    (hv : ∀ v, m.is .pair = true → m.child? .value = some v → r v = r' v) :
    renameRelations r keyOf m = renameRelations r' keyOf m := by
  unfold renameRelations
  rw [hm]
  split
  · rfl
  · cases hval : m.memberValue with
    | none => rfl
    | some v =>
      have : r v = r' v := by
        unfold Tree.memberValue at hval
        split at hval
        · exact hv v ‹_› hval
        · split at hval
          · rw [← Option.some.inj hval, hm]
          · simp at hval
      simp only [this]

theorem findOne_congr (h : ∀ m, Rendered args m → r m = r' m) :
    findOne args r keyOf = findOne args r' keyOf := by
  cases args with
  | nil => rfl
  | cons first rest =>
    simp only [findOne]
    by_cases ho : first.is .object = true
    · have hmember : ∀ m ∈ first.significant, r m = r' m :=
        fun m hm => h m (.member (by simp) ho hm)
      have hrename : ∀ m ∈ first.significant,
          renameRelations r keyOf m = renameRelations r' keyOf m := fun m hm =>
        renameRelations_congr (hmember m hm) fun v hp hv => h v (.value (by simp) ho hm hp hv)
      have hentries : findOneEntries first.significant r keyOf =
          findOneEntries first.significant r' keyOf := by
        simp only [findOneEntries]
        rw [List.map_congr_left hrename,
          List.map_congr_left fun m hm => hrename m (List.mem_of_mem_filter hm),
          List.map_congr_left fun m hm => hmember m (List.mem_of_mem_filter hm)]
      rw [if_pos ho, if_pos ho, hentries, map_rest_congr h]
    · rw [if_neg ho, if_neg ho]

theorem savedId_mem {m : Tree} (h : savedId args keyOf = some m) :
    ∃ only, args = [only] ∧ only.is .object = true ∧ m ∈ only.significant := by
  unfold savedId at h
  split at h
  · rename_i only
    split at h
    · exact ⟨only, rfl, ‹_›, List.mem_of_find?_eq_some h⟩
    · simp at h
  · simp at h

theorem save_congr (h : ∀ m, Rendered args m → r m = r' m) :
    save args r keyOf = save args r' keyOf := by
  match args with
  | [] => rfl
  | _ :: _ :: _ => rfl
  | [only] =>
    simp only [save]
    cases hid : savedId [only] keyOf with
    | none => simp only [h only (.argument (by simp))]
    | some m =>
      obtain ⟨_, he, ho, hm⟩ := savedId_mem hid
      obtain rfl := List.singleton_inj.1 he
      have hdata := List.map_congr_left (f := r) (g := r')
        (l := only.significant.filter fun x => !(x.start == m.start && x.stop == m.stop))
        fun x hx => h x (.member (by simp) ho (List.mem_of_mem_filter hx))
      simp only [hdata]
      cases hval : m.memberValue with
      | none => rfl
      | some v =>
        dsimp only
        split
        · rfl
        · rename_i hshort
          have : r v = r' v := by
            unfold Tree.memberValue at hval
            split at hval
            · exact h v (.value (by simp) ho hm ‹_› hval)
            · simp at hval
          rw [this]

theorem update_congr (h : ∀ m, Rendered args m → r m = r' m) :
    update args r keyOf = update args r' keyOf := by
  match args with
  | [] => rfl
  | [_] => rfl
  | criteria :: data :: rest =>
    have hrest : rest.map r = rest.map r' :=
      List.map_congr_left fun m hm => h m (.argument (by simp [hm]))
    simp only [update, h criteria (.argument (by simp)), h data (.argument (by simp)), hrest]

theorem delete_congr (h : ∀ m, Rendered args m → r m = r' m) :
    delete args r keyOf = delete args r' keyOf := by
  cases args with
  | nil => rfl
  | cons first rest =>
    simp only [delete, h first (.argument (by simp)), map_rest_congr h]

theorem count_congr (h : ∀ m, Rendered args m → r m = r' m) :
    count args r keyOf = count args r' keyOf := by
  cases args with
  | nil => rfl
  | cons first rest =>
    simp only [count, h first (.argument (by simp)), map_rest_congr h]

theorem reshape_congr {method : String} {rule : Rule} (hr : rule? method = some rule)
    (h : ∀ m, Rendered args m → r m = r' m) :
    rule.reshape args r keyOf = rule.reshape args r' keyOf := by
  rcases reshape_cases hr with e | e | e | e | e | e | e <;> rw [e]
  · exact findOne_congr h
  · exact wrapInWhere_congr h
  · exact save_congr h
  · exact update_congr h
  · exact delete_congr h
  · exact count_congr h

theorem reshape_isSome {method : String} {rule : Rule} (hr : rule? method = some rule)
    (args : List Tree) (r r' : Render) (keyOf : KeyOf) :
    (rule.reshape args r keyOf).isSome = (rule.reshape args r' keyOf).isSome := by
  rcases reshape_cases hr with e | e | e | e | e | e | e <;> rw [e]
  · unfold findOne findOneEntries
    dsimp only
    split
    · rfl
    · split
      · rw [Option.isSome_map, Option.isSome_map]
        split
        · split <;> rfl
        · split <;> rfl
      · rfl
  · unfold wrapInWhere
    split <;> rfl
  · unfold save
    split
    · split <;> rfl
    · rfl
  · unfold update
    split <;> rfl
  · unfold delete
    split
    · rfl
    · split
      · rfl
      · split <;> rfl
  · unfold count
    split
    · rfl
    · split <;> rfl

end Locality

end Rules

namespace Calls

/-- The parts of a converted call that its text is made of. -/
structure Conversion where
  site : Place.RepositoryCall
  rule : Rules.Rule
  owner : Tree
  model : String

namespace Conversion

def calleeText (u : SourceUnit) (render : Rules.Render) (k : Conversion) : String :=
  let client := render k.owner ++ s!".{u.settings.clientMember}.{k.model}"
  let method := k.rule.method k.site.call.tree.callArguments fun m => m.memberKey u.source
  s!"{client}.{method}"

def argumentsText (u : SourceUnit) (render : Rules.Render) (k : Conversion) : Option String :=
  (k.rule.reshape k.site.call.tree.callArguments render fun m => m.memberKey u.source).map fun texts =>
    "(" ++ joinWith ", " texts ++ ")"

end Conversion

/-- What texts are made of: what stands around the converted calls, and the model of each of these. -/
structure Scene where
  unit : SourceUnit
  around : View
  model? : Tree → Option String

namespace Scene

def conversion? (σ : Scene) (t : Tree) : Option Conversion := do
  let site ← Place.repositoryCall? ⟨t, []⟩
  let rule ← Rules.rule? (site.method.text σ.unit.source)
  let owner ← site.receiver.child? .object
  let model ← σ.model? t
  some ⟨site, rule, owner, model⟩

def render (inner : Tree → Bytes) : Rules.Render := fun m => (decode (inner m)).toOption.getD ""

def sameRange (s t : Tree) : Bool := s.start == t.start && s.stop == t.stop

/-- What stands in the place of a child: of a converted call, the callee is composed anew, and so are
the arguments if its row says so. -/
def piece (σ : Scene) (inner : Tree → Bytes) (t c : Tree) : Bytes :=
  match σ.conversion? t with
  | none => inner c
  | some k =>
    if sameRange c k.site.callee then encode (k.calleeText σ.unit (render inner))
    else if sameRange c k.site.arguments then
      ((k.argumentsText σ.unit (render inner)).map encode).getD (inner c)
    else inner c

/-- What stands around a node with the pieces of its children in their places. -/
def compose (σ : Scene) (inner : Tree → Bytes) (t : Tree) : Bytes :=
  ((σ.around.fill t.children (σ.piece inner t)).hide t.start).span t.start t.stop

def text (σ : Scene) (t : Tree) : Bytes :=
  σ.compose (fun m => if _ : m.size < t.size then σ.text m else []) t
termination_by t.size

variable {σ σ' : Scene} {t c : Tree}

theorem conversion?_parts {k : Conversion} (h : σ.conversion? t = some k) :
    k.site.call = ⟨t, []⟩ ∧ k.site.Parts ∧
      Rules.rule? (k.site.method.text σ.unit.source) = some k.rule ∧
      k.site.receiver.child? .object = some k.owner ∧ σ.model? t = some k.model := by
  simp only [conversion?, Option.bind_eq_bind, Option.bind_eq_some_iff, Option.some.injEq] at h
  obtain ⟨site, h1, rule, h2, owner, h3, model, h4, rfl⟩ := h
  obtain ⟨h5, h6⟩ := Place.repositoryCall?_parts h1
  exact ⟨h5, h6, h2, h3, h4⟩

theorem conversion?_congr (hu : σ.unit = σ'.unit) (hm : σ.model? t = σ'.model? t) :
    σ.conversion? t = σ'.conversion? t := by
  simp only [conversion?, hu, hm]

theorem sameRange_iff {s t : Tree} : sameRange s t = true ↔ s.start = t.start ∧ s.stop = t.stop := by
  simp [sameRange]

/-- Of two children of a node with one range that is not empty, there is but one. -/
theorem eq_of_sameRange (ho : t.ordered = true) {c d : Tree} (hc : c ∈ t.children)
    (hd : d ∈ t.children) (hne : c.start < c.stop) (h : sameRange c d = true) : c = d := by
  rw [sameRange_iff] at h
  rcases Tree.inOrder_apart ho hc hd with h1 | h1 | h1
  · exact h1
  · omega
  · omega

theorem Rendered.within {args m : Tree} (h : Rules.Rendered args.significant m) : m.Within args := by
  cases h with
  | argument ha => exact Tree.within_of_mem (Tree.significant_mem ha)
  | member ha _ hm =>
    exact (Tree.within_of_mem (Tree.significant_mem hm)).trans
      (Tree.within_of_mem (Tree.significant_mem ha))
  | value ha _ hm _ hv =>
    exact (Tree.within_of_mem (Tree.child?_mem hv)).trans
      ((Tree.within_of_mem (Tree.significant_mem hm)).trans
        (Tree.within_of_mem (Tree.significant_mem ha)))

theorem callArguments_eq {site : Place.RepositoryCall} (h : site.Parts) :
    site.call.tree.callArguments = site.arguments.significant := by
  simp [Tree.callArguments, h.arguments, h.argumentsKind]

theorem owner_within {site : Place.RepositoryCall} (h : site.Parts) {owner : Tree}
    (ho : site.receiver.child? .object = some owner) : owner.Within site.callee :=
  (Tree.within_of_mem (Tree.child?_mem ho)).trans (Tree.within_of_mem (Tree.child?_mem h.receiver))

/-- A piece hangs on the texts inside the child only. -/
theorem piece_congr {inner inner' : Tree → Bytes} (ho : t.ordered = true) (hc : c ∈ t.children)
    (hne : c.start < c.stop) (hu : σ.unit = σ'.unit) (hm : σ.model? t = σ'.model? t)
    (hi : ∀ m, m.Within c → inner m = inner' m) : σ.piece inner t c = σ'.piece inner' t c := by
  unfold piece
  rw [← conversion?_congr hu hm, ← hu]
  cases hk : σ.conversion? t with
  | none => exact hi c .self
  | some k =>
    obtain ⟨hcall, hparts, hrule, howner, -⟩ := conversion?_parts hk
    have hcallee := Tree.child?_mem hparts.callee
    have hargs := Tree.child?_mem hparts.arguments
    rw [hcall] at hcallee hargs
    dsimp only
    by_cases h1 : sameRange c k.site.callee = true
    · obtain rfl := eq_of_sameRange ho hc hcallee hne h1
      rw [if_pos h1, if_pos h1]
      simp only [Conversion.calleeText, render, hi k.owner (owner_within hparts howner)]
    rw [if_neg h1, if_neg h1]
    by_cases h2 : sameRange c k.site.arguments = true
    · obtain rfl := eq_of_sameRange ho hc hargs hne h2
      rw [if_pos h2, if_pos h2, hi _ .self]
      unfold Conversion.argumentsText
      rw [callArguments_eq hparts, Rules.reshape_congr hrule fun m hm => ?_]
      simp only [render, hi m (Rendered.within hm)]
    · rw [if_neg h2, if_neg h2]
      exact hi c .self

theorem text_eq (ho : t.ordered = true) : σ.text t = σ.compose σ.text t := by
  rw [text]
  unfold compose
  have hpiece : ∀ c ∈ t.children, c.start < c.stop →
      σ.piece (fun m => if _ : m.size < t.size then σ.text m else []) t c =
        σ.piece σ.text t c := by
    refine fun c hc hne => piece_congr ho hc hne rfl rfl fun m hm => ?_
    have h1 := hm.size_le
    have h2 := Tree.size_child hc
    rw [dif_pos (by omega)]
  refine View.span_congr fun p _ _ => ?_
  simp only [View.cell, View.hide]
  rw [View.fill_shown_congr rfl hpiece]
  rfl

/-- A text hangs on what stands around strictly inside the node, and on the models below it. -/
theorem text_congr (hu : σ.unit = σ'.unit) : ∀ {t : Tree}, t.everyNode Tree.ordered = true →
    (∀ p, t.start ≤ p → p < t.stop → σ.around.shown p = σ'.around.shown p) →
    (∀ p, t.start < p → p < t.stop → σ.around.inserted p = σ'.around.inserted p) →
    (∀ s, s.Within t → σ.model? s = σ'.model? s) → σ.text t = σ'.text t := by
  suffices ∀ n (t : Tree), t.size ≤ n → t.everyNode Tree.ordered = true →
      (∀ p, t.start ≤ p → p < t.stop → σ.around.shown p = σ'.around.shown p) →
      (∀ p, t.start < p → p < t.stop → σ.around.inserted p = σ'.around.inserted p) →
      (∀ s, s.Within t → σ.model? s = σ'.model? s) → σ.text t = σ'.text t from
    fun {t} => this t.size t le_rfl
  intro n
  induction n with
  | zero =>
    intro t hn
    cases t
    simp only [Tree.size] at hn
    omega
  | succ n ih =>
    intro t hn ho hs hi hm
    have hord := (Tree.everyNode_iff.1 ho).1
    rw [text_eq hord, text_eq hord]
    have hpiece : ∀ c ∈ t.children, c.start < c.stop →
        σ.piece σ.text t c = σ'.piece σ'.text t c := by
      refine fun c hc hne => piece_congr hord hc hne hu (hm t .self) fun m hmc => ?_
      have hmt := hmc.trans (Tree.within_of_mem hc)
      have h1 := hmc.size_le
      have h2 := Tree.size_child hc
      have h3 := hmt.range ho
      exact ih m (by omega) (Tree.everyNode_within ho hmt)
        (fun p hp1 hp2 => hs p (by omega) (by omega)) (fun p hp1 hp2 => hi p (by omega) (by omega))
        fun s hs => hm s (hs.trans hmt)
    unfold compose
    refine View.span_congr fun p h1 h2 => ?_
    have hshown := View.fill_shown_congr (hs p h1 h2) hpiece
    by_cases hp : p = t.start
    · rw [hp, View.hide_cell_self, View.hide_cell_self, ← hp, hshown]
    · rw [View.hide_cell_of_ne _ hp, View.hide_cell_of_ne _ hp, View.cell, View.cell, hshown,
        View.fill_inserted_congr (hi p (by omega) h2)]

end Scene

end Calls

end OrmCodemod
