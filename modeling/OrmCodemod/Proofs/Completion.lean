import OrmCodemod.Pass.Outcome
import OrmCodemod.Proofs.Alignment
import OrmCodemod.Proofs.Grammar.Parsed

/-! No node aborts a source. The first two stages only edit inside statements, and report the overlaps
they run into. The import stage reports none, and needs to report none: what it edits is a whole line,
or a part of an import that nothing else edits. -/

namespace OrmCodemod

open Syntax Text Pass

def importKinds : List NodeKind := [.program, .importStatement, .importClause]

/-- The edit inserts, or lies in a statement: on a node that is no part of an import, or on an item
of a list. -/
inductive Inner (u : SourceUnit) (e : Edit) : Prop where
  | insertion (empty : e.start = e.stop)
  | node (top y : Tree) (mem : top ∈ u.root.children) (inner : top.children ≠ [])
      (within : y.Within top) (kind : y.isAny importKinds = false) (on : e.IsOn y)
  | item (top : Tree) (f p : Place) (mem : top ∈ u.root.children) (inner : top.children ≠ [])
      (rooted : f.Rooted u.root) (within : f.tree.Within top) (child : p ∈ f.children)
      (kind : p.tree.isAny importKinds = false) (start : e.start = (Editor.itemRange p).1)
      (stop : e.stop = (Editor.itemRange p).2)

/-- The edit was there before the import stage, or lies in the line of an import seen by it. -/
def Seen (u : SourceUnit) (l : List Place) (e : Edit) : Prop :=
  Inner u e ∨ ∃ p ∈ l, p.tree.children ≠ [] ∧
    ∃ a b, Editor.TakesLine u.source p.tree a b ∧ a ≤ e.start ∧ e.stop ≤ b

variable {u : SourceUnit} {e : Edit}

theorem not_importKinds {t : Tree} {k : NodeKind} (h : t.is k = true)
    (hk : importKinds.contains k = false) : t.isAny importKinds = false := by
  rw [Tree.is_iff] at h
  simp only [Tree.isAny, Tree.is, h, List.any_eq_false, beq_iff_eq, Kind.named.injEq]
  rintro k' hk' rfl
  simp [hk'] at hk

theorem exists_statement (hu : u.TopLevel) {t : Tree} {k : NodeKind} (ht : t.Within u.root)
    (hk : t.is k = true) (hne : k ≠ .program) (hc : t.children ≠ []) :
    ∃ top ∈ u.root.children, top.children ≠ [] ∧ t.Within top := by
  refine exists_top ht ?_ hc
  rintro rfl
  have h1 := Tree.is_iff.1 hu.program
  have h2 := Tree.is_iff.1 hk
  rw [h1] at h2
  exact hne (Kind.named.inj h2).symm

theorem inner_of_injection (hu : u.TopLevel) (h : Calls.IsInjectionEdit u e) : Inner u e := by
  have hplaces : ∀ {p}, Calls.IsInjected u p → ∃ (top : Tree) (f : Place), top ∈ u.root.children ∧
      top.children ≠ [] ∧ f.Rooted u.root ∧ f.tree.Within top ∧ p ∈ f.children ∧
      p.tree.isAny importKinds = false := by
    intro p hp
    obtain ⟨method, params, hm, hk, hparams, hmem⟩ := hp.places
    have hchild := Place.tree_mem_children hparams
    obtain ⟨top, htop, hc, hin⟩ := exists_statement hu hm.within hk (by decide)
      (List.ne_nil_of_mem hchild)
    refine ⟨top, params, htop, hc, hm.child hparams, (Tree.within_of_mem hchild).trans hin, hmem, ?_⟩
    obtain ⟨-, -, -, -, -, -, -, -, hkind, -⟩ := hp
    simp only [Tree.isAny, List.any_cons, List.any_nil, Bool.or_false, Bool.or_eq_true] at hkind
    rcases hkind with hkind | hkind <;> exact not_importKinds hkind (by decide)
  cases h with
  | client p hp on _ =>
    obtain ⟨top, f, htop, hc, -, hin, hmem, hkind⟩ := hplaces hp
    exact .node top p.tree htop hc ((Tree.within_of_mem (Place.tree_mem_children hmem)).trans hin)
      hkind on
  | removal p hp start stop _ =>
    obtain ⟨top, f, htop, hc, hf, hin, hmem, hkind⟩ := hplaces hp
    exact .item top f p htop hc hf hin hmem hkind start stop

theorem inner_of_call (hu : u.TopLevel) {members : Pattern.Regex}
    (h : Calls.IsCallEdit u members e) : Inner u e := by
  have htop : ∀ {site}, site ∈ Calls.callSites u members → site.Parts ∧
      ∃ top ∈ u.root.children, top.children ≠ [] ∧ site.call.tree.Within top := by
    intro site hs
    obtain ⟨hr, hp⟩ := Calls.mem_callSites hs
    exact ⟨hp, exists_statement hu hr.within hp.isCall (by decide)
      (List.ne_nil_of_mem (Tree.child?_mem hp.callee))⟩
  cases h with
  | callee site _ mem _ _ on =>
    obtain ⟨hp, top, hmem, hc, hin⟩ := htop mem
    exact .node top site.callee hmem hc ((Tree.within_of_mem (Tree.child?_mem hp.callee)).trans hin)
      (not_importKinds hp.calleeKind (by decide)) on
  | arguments site _ mem _ _ on =>
    obtain ⟨hp, top, hmem, hc, hin⟩ := htop mem
    exact .node top site.arguments hmem hc
      ((Tree.within_of_mem (Tree.child?_mem hp.arguments)).trans hin)
      (not_importKinds hp.argumentsKind (by decide)) on
  | advisory _ _ _ _ _ _ before => exact .insertion (before.1.trans before.2.1.symm)

theorem Inner.range (hu : u.TopLevel) (h : Inner u e) : e.start = e.stop ∨
    ∃ top ∈ u.root.children, top.children ≠ [] ∧ top.start ≤ e.start ∧ e.start ≤ e.stop ∧
      e.stop ≤ top.stop := by
  cases h with
  | insertion h => exact .inl h
  | node top y mem inner within _ on =>
    have hr := within.range (Tree.everyNode_within hu.ordered (Tree.within_of_mem mem))
    exact .inr ⟨top, mem, inner, by rw [on.1, on.2]; exact hr⟩
  | item top f p mem inner rooted within child _ start stop =>
    have hr := within.range (Tree.everyNode_within hu.ordered (Tree.within_of_mem mem))
    have hb := Editor.itemRange_bounds rooted child hu.ordered
    simp only [Place.start, Place.stop] at hb
    exact .inr ⟨top, mem, inner, by omega, by omega, by omega⟩

/-- An edit of the first stages and a node: one lies in the other, or they do not overlap. -/
theorem Inner.node_or_apart (hu : u.TopLevel) (h : Inner u e) {t : Tree} (ht : t.Within u.root) :
    e.inside t.start t.stop = true ∨ (e.start ≤ t.start ∧ t.stop ≤ e.stop) ∨
      e.stop ≤ t.start ∨ t.stop ≤ e.start := by
  cases h with
  | insertion h =>
    rw [Edit.inside_iff]
    omega
  | node top y mem _ within _ on =>
    exact onNode_or_apart hu.toNested on (within.trans (Tree.within_of_mem mem)) ht
  | item top f p _ _ rooted _ child _ start stop =>
    exact onItem_or_apart hu.toNested rooted child start stop ht

theorem Inner.apart_line (hu : u.TopLevel) (h : Inner u e) {t : Tree} {a b : Nat}
    (ht : t ∈ u.root.children) (hl : Editor.TakesLine u.source t a b) :
    e.inside a b = true ∨ e.stop ≤ a ∨ b ≤ e.start := by
  have h1 := hl.start_le
  have h2 := hl.le_stop
  rw [Edit.inside_iff]
  rcases h.range hu with heq | ⟨top, mem, inner, hr⟩
  · omega
  · rcases removal_apart hu ht mem inner hl with rfl | h3 | h3 <;> omega

theorem Inner.apart_start (hu : u.TopLevel) (h : Inner u e) {t : Tree} (ht : t ∈ u.root.children)
    (hne : t.start < t.stop) : e.inside t.start t.start = true ∨ e.stop ≤ t.start ∨
      t.start ≤ e.start := by
  rcases h.range hu with heq | ⟨top, mem, -, hr⟩
  · omega
  · rcases Tree.inOrder_apart (Tree.everyNode_iff.1 hu.ordered).1 mem ht with rfl | h3 | h3 <;> omega

theorem is_of_mem_importKinds {t : Tree} {k : NodeKind} (h : t.is k = true) (hk : k ∈ importKinds) :
    t.isAny importKinds = true :=
  List.any_eq_true.2 ⟨k, hk, h⟩

/-- Around the clause of an import there are only the import and the root. -/
theorem not_around_clause (hu : u.TopLevel) {t c y : Tree} (ht : t ∈ u.root.children)
    (hk : t.is .importStatement = true) (hc : c ∈ t.children) (hck : c.is .importClause = true)
    (hne : c.start < c.stop) (hy : y.Within u.root) (hkind : y.isAny importKinds = false) :
    ¬c.Within y := by
  intro h
  have hroot : ∀ {k}, y.is k = true → k ∈ importKinds → False := by
    intro k h1 h2
    rw [is_of_mem_importKinds h1 h2] at hkind
    exact Bool.noConfusion hkind
  have htr := Tree.child_range (Tree.everyNode_within hu.ordered (Tree.within_of_mem ht)) hc
  rcases Tree.within_parent hu.ordered (Tree.within_of_mem ht) hc hne hy h with rfl | h
  · exact hroot hck (by decide)
  rcases Tree.within_parent hu.ordered .self ht (by omega) hy h with rfl | h
  · exact hroot hk (by decide)
  · obtain rfl := h.antisymm hy
    exact hroot hu.program (by decide)

theorem Inner.apart_clause (hu : u.TopLevel) (h : Inner u e) {t c : Tree}
    (ht : t ∈ u.root.children) (hk : t.is .importStatement = true) (hc : c ∈ t.children)
    (hck : c.is .importClause = true) (hne : c.start < c.stop) :
    e.inside c.start c.stop = true ∨ e.stop ≤ c.start ∨ c.stop ≤ e.start := by
  have hcr : c.Within u.root := (Tree.within_of_mem hc).trans (Tree.within_of_mem ht)
  rw [Edit.inside_iff]
  cases h with
  | insertion h => omega
  | node top y mem inner within kind on =>
    have hy : y.Within u.root := within.trans (Tree.within_of_mem mem)
    obtain ⟨h1, h2⟩ := on
    have hyn := hu.node hy
    rcases Tree.within_or_apart hu.ordered hy hcr with h | h | h | h
    · have := h.range (Tree.everyNode_within hu.ordered hcr)
      omega
    · exact absurd h (not_around_clause hu ht hk hc hck hne hy kind)
    · omega
    · omega
  | item top f p mem inner rooted within child kind start stop =>
    have hb := Editor.itemRange_bounds rooted child hu.ordered
    rcases Editor.itemRange_within rooted child hu.ordered hcr with ⟨y, hy, hyk, -, -, h⟩ | h | h | h
    · refine absurd h (not_around_clause hu ht hk hc hck hne
        ((Tree.within_of_mem hy).trans rooted.within) ?_)
      rcases hyk with rfl | hyk
      · exact kind
      · simp only [Tree.isToken, beq_iff_eq] at hyk
        simp [Tree.isAny, Tree.is, hyk, importKinds]
    · have := h.range (Tree.everyNode_within hu.ordered hcr)
      simp only [Place.start, Place.stop] at hb
      omega
    · omega
    · omega

theorem top_nonempty (hu : u.TopLevel) {t : Tree} (ht : t ∈ u.root.children) (hc : t.children ≠ []) :
    t.start < t.stop := by
  have h := List.all_eq_true.1 hu.trimmed t ht
  rw [Tree.trimmed, Tree.edged, Bool.or_eq_true, List.isEmpty_iff, or_iff_right hc] at h
  simp only [Bool.and_eq_true, decide_eq_true_eq] at h
  exact h.1.1

theorem lines_apart (hu : u.TopLevel) {x y : Tree} {a b a' b' : Nat} (hx : x ∈ u.root.children)
    (hy : y ∈ u.root.children) (hcx : x.children ≠ []) (hcy : y.children ≠ [])
    (h : Editor.TakesLine u.source x a b) (h' : Editor.TakesLine u.source y a' b')
    (hxy : x.stop ≤ y.start) : b ≤ a' := by
  have hnx := top_nonempty hu hx hcx
  have hny := top_nonempty hu hy hcy
  have h1 := h.start_le
  have h2 := h'.le_stop
  have h3 := h'.fits
  have hby : b ≤ y.start := by
    rcases removal_apart hu hx hy hcy h with rfl | h4 | h4 <;> omega
  have hxa : x.stop ≤ a' := by
    rcases removal_apart hu hy hx hcx h' with rfl | h4 | h4 <;> omega
  rcases h.tail with rfl | ⟨blanks, -, hs⟩
  · exact hxa
  · -- the line of `x` ends with a line feed, and none stands before `y` in its line
    by_contra hlt
    have hlen := congrArg List.length hs
    rw [length_slice h.fits, List.length_append, List.length_singleton] at hlen
    have hp : b - 1 < u.source.length := by omega
    have hlast : u.source[b - 1] = 10 := by
      have hget := getElem?_slice u.source (a := x.stop) (b := b) (p := b - 1) (by omega) (by omega)
      rw [hs, show b - 1 - x.stop = blanks.length by omega, List.getElem?_concat_length,
        List.getElem?_eq_getElem hp, Option.some.injEq] at hget
      exact hget.symm
    exact (h'.head_blank (p := b - 1) (by omega) (by omega) hp).2 hlast

namespace Imports

theorem statements_ordered (hu : u.TopLevel) {l r : List Place} {p : Place}
    (hl : importStatements u = l ++ p :: r) : ∀ q ∈ l, q.tree.stop ≤ p.tree.start := by
  have hsub : ((importStatements u).map Place.tree).Sublist u.root.children := by
    rw [show u.root.children = u.place.children.map Place.tree from
      (Place.map_tree_children u.place).symm]
    exact (List.filter_sublist.trans List.filter_sublist).map _
  have hpw := (Tree.inOrder_pairwise (Tree.everyNode_iff.1 hu.ordered).1).sublist hsub
  rw [hl, List.map_append, List.map_cons, List.pairwise_append] at hpw
  exact fun q hq => hpw.2.2 _ (List.mem_map_of_mem hq) _ (by simp)

theorem statement_facts (hu : u.TopLevel) {p : Place} {path : String}
    (hp : p ∈ importStatements u) (hpath : modulePath? u p.tree = some path) :
    p.tree ∈ u.root.children ∧ p.tree.is .importStatement = true ∧ p.tree.children ≠ [] ∧
      p.statement = p := by
  have hmem := (statement_rooted hp).2
  refine ⟨hmem, (List.mem_filter.1 hp).2, ?_, ?_⟩
  · cases hc : p.tree.child? .source with
    | none => simp [modulePath?, hc] at hpath
    | some c => exact List.ne_nil_of_mem (Tree.child?_mem hc)
  · obtain ⟨l, r, -, hp⟩ := Place.mem_children
      (List.mem_of_mem_filter (List.mem_of_mem_filter hp))
    have hprogram : u.place.tree.isAny
        [.program, .statementBlock, .classBody, .switchCase, .switchDefault] = true :=
      List.any_eq_true.2 ⟨.program, by simp, hu.program⟩
    obtain ⟨t, path⟩ := p
    dsimp only at hp
    subst hp
    simp only [Place.statement, Place.climb, hprogram, if_true]

variable {l r : List Place} {p : Place}

/-- What was edited before an import is reached leaves its line, its clause and its start alone. -/
theorem seen_apart (hu : u.TopLevel) {path : String} (hl : importStatements u = l ++ p :: r)
    (hpath : modulePath? u p.tree = some path) (h : Seen u l e) {a b : Nat}
    (hline : Editor.TakesLine u.source p.tree a b) : Inner u e ∨ e.stop ≤ a := by
  rcases h with h | ⟨q, hq, hqc, a', b', hql, h1, h2⟩
  · exact .inl h
  · obtain ⟨hpm, -, hpc, -⟩ := statement_facts hu (hl ▸ by simp) hpath
    have hqm := (statement_rooted (u := u) (p := q) (hl ▸ by simp [hq])).2
    have := lines_apart hu hqm hpm hqc hpc hql hline (statements_ordered hu hl q hq)
    exact .inr (by omega)

theorem seen_more (h : Seen u l e) : Seen u (l ++ [p]) e := by
  rcases h with h | ⟨q, hq, h⟩
  · exact .inl h
  · exact .inr ⟨q, by simp [hq], h⟩

end Imports

theorem Syntax.Tree.start_lt_of_text {t : Tree} {source : Bytes} (h : t.text source ≠ "") :
    t.start < t.stop := by
  by_contra hle
  have : t.bytes source = [] := by
    simp only [Tree.bytes, slice, List.take_eq_nil_iff]
    omega
  rw [Tree.text, this] at h
  exact h rfl

theorem Imports.clause_nonempty (hu : u.TopLevel) {t c : Tree} (ht : t.Within u.root)
    (hc : clause? t = some c) (hs : ∃ s ∈ specifiers t, importedName u s ≠ "") :
    c.start < c.stop := by
  obtain ⟨s, hmem, hname⟩ := hs
  have hcr : c.Within u.root := (Tree.within_of_mem (clause_mem hc)).trans ht
  unfold specifiers at hmem
  rw [hc, Option.bind_some] at hmem
  cases hn : c.namedChildren.find? (·.is .namedImports) with
  | none => simp [hn] at hmem
  | some named =>
    rw [hn] at hmem
    have h1 : named ∈ c.children := List.mem_of_mem_filter (List.mem_of_find?_eq_some hn)
    have h2 : s ∈ named.children := Tree.significant_mem (List.mem_of_mem_filter hmem)
    have hnr := (Tree.within_of_mem h1).trans hcr
    have hsr := (Tree.within_of_mem h2).trans hnr
    have hr1 := Tree.child_range (Tree.everyNode_within hu.ordered hcr) h1
    have hr2 := Tree.child_range (Tree.everyNode_within hu.ordered hnr) h2
    have hlt : s.start < s.stop := by
      unfold importedName at hname
      cases hsn : s.child? .name with
      | none =>
        rw [hsn] at hname
        exact Tree.start_lt_of_text hname
      | some name =>
        rw [hsn] at hname
        have hr3 := Tree.child_range (Tree.everyNode_within hu.ordered hsr) (Tree.child?_mem hsn)
        have : name.start < name.stop := by
          refine Tree.start_lt_of_text fun hempty : name.text u.source = "" => hname ?_
          dsimp only
          split
          · rename_i hlit
            rw [Tree.stringValue, if_pos hlit, hempty]
            rfl
          · exact hempty
        omega
    omega

def Tidy (u : SourceUnit) (l : List Place) (ed : Editor) : Prop :=
  Recorded u (fun e => Seen u l e ∧ e.Aligned u.source) ed

theorem statement_takesLine (hu : u.TopLevel) {p : Place} (hp : p ∈ Imports.importStatements u) :
    Editor.TakesLine u.source p.tree (Editor.removalStart u.source p.tree)
      (Editor.removalStop u.source p.tree) :=
  have hn := hu.node (Imports.statement_rooted hp).1.within
  Editor.removal_takesLine hn.1 hn.2

theorem Tidy.more {l : List Place} {ed : Editor} (h : Tidy u l ed) (p : Place) : Tidy u (l ++ [p]) ed :=
  h.imp fun _ he => ⟨Imports.seen_more he.1, he.2⟩

section Statements

variable {l r : List Place} {p : Place} {path : String} (hu : u.TopLevel)
  (ha : u.root.everyNode (Tree.aligned u.source) = true)
  (hl : Imports.importStatements u = l ++ p :: r) (hp : Imports.modulePath? u p.tree = some path)

include hu ha hl hp

theorem tidy_clause {clause : Tree} {text : String} (hclause : Imports.clause? p.tree = some clause)
    (hspec : ∃ s ∈ Imports.specifiers p.tree, Imports.importedName u s ≠ "") :
    Holds (fun s => Tidy u l s.editor) (Pass.edit (·.replace clause text))
      (fun _ s => Tidy u (l ++ [p]) s.editor) fun _ _ => False := by
  have hmem : p ∈ Imports.importStatements u := hl ▸ by simp
  obtain ⟨hpm, hpk, hpc, -⟩ := Imports.statement_facts hu hmem hp
  have hcm := Imports.clause_mem hclause
  have hck : clause.is .importClause = true := by simpa using List.find?_some hclause
  have hne := Imports.clause_nonempty hu (Tree.within_of_mem hpm) hclause hspec
  have hcr := (Tree.within_of_mem hcm).trans (Tree.within_of_mem hpm)
  have hrange := Tree.child_range (Tree.everyNode_within hu.ordered (Tree.within_of_mem hpm)) hcm
  have htakes := statement_takesLine hu hmem
  have h1 := htakes.start_le
  have h2 := htakes.le_stop
  refine Holds.edit (fun s ed hI he => ?_) fun s o hI he => ?_
  · refine Recorded.replace (hI.more p) hu.toNested hcr (fun k => ⟨.inr ?_, ?_⟩) he
    · exact ⟨p, by simp, hpc, _, _, htakes, h1.trans hrange.1, hrange.2.2.trans h2⟩
    · exact aligned_on ha hcr ⟨rfl, rfl⟩
  · refine Editor.Clear.not_error (fun e hmem' => ?_) he
    rcases Imports.seen_apart hu hl hp (hI.all e hmem').1 htakes with h | h
    · exact h.apart_clause hu hpm hpk hcm hck hne
    · exact .inr (.inl (h.trans (h1.trans hrange.1)))

theorem tidy_line {source : String} (hs : u.source = encode source) :
    Holds (fun s => Tidy u l s.editor) (Pass.edit (·.removeStatement p.tree))
      (fun _ s => Tidy u (l ++ [p]) s.editor) fun _ _ => False := by
  have hmem : p ∈ Imports.importStatements u := hl ▸ by simp
  obtain ⟨hpm, -, hpc, -⟩ := Imports.statement_facts hu hmem hp
  have hn := hu.node (Tree.within_of_mem hpm)
  have htakes := statement_takesLine hu hmem
  have hle := htakes.start_le.trans (hn.1.trans htakes.le_stop)
  refine Holds.edit (fun s ed hI he => ?_) fun s o hI he => ?_
  · rw [Editor.removeStatement_eq, Recorded.source hI] at he
    refine Recorded.replaceRange (hI.more p) hle htakes.fits (fun k => ⟨.inr ?_, ?_⟩) he
    · exact ⟨p, by simp, hpc, _, _, htakes, le_rfl, le_rfl⟩
    · exact aligned_line hs (Tree.test_within ha (Tree.within_of_mem hpm)) hn.1 htakes
  · rw [Editor.removeStatement_eq, Recorded.source hI] at he
    refine Editor.Clear.not_error (fun e hmem' => ?_) he
    rcases Imports.seen_apart hu hl hp (hI.all e hmem').1 htakes with h | h
    · exact h.apart_line hu hpm htakes
    · exact .inr (.inl h)

theorem tidy_advisory {comment : String} :
    Holds (fun s => Tidy u l s.editor) (Pass.advise p comment)
      (fun _ s => Tidy u (l ++ [p]) s.editor) fun _ _ => False := by
  have hmem : p ∈ Imports.importStatements u := hl ▸ by simp
  obtain ⟨hpm, -, hpc, hst⟩ := Imports.statement_facts hu hmem hp
  have htakes := statement_takesLine hu hmem
  have hroot := (Imports.statement_rooted hmem).1
  refine Holds.advise (fun s put ed n hI he => ?_) fun s o hI he => ?_
  · refine Recorded.insertCommentBefore (hI.more p) (statement_fits hu.toNested hroot)
      (fun e he => ⟨.inl (.insertion (he.1.trans he.2.1.symm)), ?_⟩) he
    exact aligned_advisory ha hroot he
  · refine Editor.insertCommentBefore_not_error (fun e hmem' => ?_) he
    rw [hst]
    rcases Imports.seen_apart hu hl hp (hI.all e hmem').1 htakes with h | h
    · exact h.apart_start hu hpm (top_nonempty hu hpm hpc)
    · exact .inr (.inl (h.trans htakes.start_le))

end Statements

theorem imports_complete (hu : u.TopLevel) {source : String} (hs : u.source = encode source)
    (ha : u.root.everyNode (Tree.aligned u.source) = true) :
    Imports.Admits u (fun l s => Tidy u l s.editor) fun _ _ => False := by
  constructor
  case told => exact fun l s s' he _ hI => he ▸ hI
  case line =>
    intro l symbol path _
    refine Holds.edit (fun s ed hI he => ?_) fun s o hI he => ?_
    · refine Recorded.insertAt hI (Nat.zero_le _) (fun k => ⟨.inl (.insertion rfl), ?_⟩) he
      have h0 : isBoundary u.source 0 = true := by rw [hs, encode_eq]; exact isBoundary_zero _
      exact ⟨h0, h0⟩
    · exact Editor.Clear.insertAt_not_error (fun e _ => .inr (.inr (Nat.zero_le _))) he
  case registration =>
    intro site hsite s ed' hI he
    obtain ⟨hr, hk, hc⟩ := Imports.registration_within hsite
    obtain ⟨top, htop, htc, hin⟩ := exists_statement hu hr.within hk (by decide) hc
    refine Recorded.replace hI hu.toNested hr.within (fun k => ⟨.inl ?_, ?_⟩) he
    · exact .node top site.1.tree htop htc hin (not_importKinds hk (by decide)) ⟨rfl, rfl⟩
    · exact aligned_on ha hr.within ⟨rfl, rfl⟩
  case pass => exact fun l p r _ s hI => hI.more p
  case clause =>
    exact fun l p r path clause text hl hp _ hclause hspec => tidy_clause hu ha hl hp hclause hspec
  case removal => exact fun l p r path hl hp _ => tidy_line hu ha hl hp hs
  case advisory => exact fun l p r path hl hp _ => tidy_advisory hu ha hl hp

/-- As long as there are insertions only, an insertion goes everywhere. -/
theorem extract_complete (hu : u.TopLevel) (ha : u.root.everyNode (Tree.aligned u.source) = true) :
    Holds (fun s => Recorded u (fun e => e.start = e.stop ∧ e.Aligned u.source) s.editor)
      (Entities.extract u)
      (fun _ s => Recorded u (fun e => e.start = e.stop ∧ e.Aligned u.source) s.editor)
      fun _ _ => False := by
  refine Entities.extract_holds fun class_ hc => ?_
  refine Holds.advise (fun s put ed n hI he => ?_) fun s o hI he => ?_
  · refine Recorded.insertCommentBefore hI (statement_fits hu.toNested hc.rooted)
      (fun e he => ⟨he.1.trans he.2.1.symm, ?_⟩) he
    exact aligned_advisory ha hc.rooted he
  · refine Editor.insertCommentBefore_not_error (fun e hmem => ?_) he
    have := (hI.all e hmem).1
    omega

/-- The call stage reports its overlaps, and leaves what the import stage relies on. -/
theorem callStage_complete (hu : u.TopLevel) (ha : u.root.everyNode (Tree.aligned u.source) = true)
    {members : Pattern.Regex} (hm : Pattern.parse u.settings.memberPattern = .ok members) :
    Holds (fun s => Recorded u (fun e => e.start = e.stop ∧ e.Aligned u.source) s.editor)
      (Calls.convert u) (fun _ s => Tidy u [] s.editor) fun _ _ => False := by
  have hrun : Holds (fun s => Recorded u (fun e => Inner u e ∧ e.Aligned u.source) s.editor)
      (Calls.convert u) (fun _ s => Recorded u (fun e => Inner u e ∧ e.Aligned u.source) s.editor)
      fun _ _ => False := by
    unfold Calls.convert
    rw [hm]
    refine Holds.bind (Calls.convertConstructors_holds hu.toNested fun e he => ?_) fun _ =>
      Calls.convertCalls_holds hu.toNested fun e he => ?_
    · exact ⟨inner_of_injection hu he, aligned_injection ha he⟩
    · exact ⟨inner_of_call hu he, aligned_call ha he⟩
  exact hrun.mono (fun s h => h.imp fun e he => ⟨.insertion he.1, he.2⟩)
    (fun _ s h => h.imp fun e he => ⟨.inl he.1, he.2⟩) fun _ _ h => h

theorem stages_complete (hu : u.TopLevel) {source : String} (hs : u.source = encode source)
    (ha : u.root.everyNode (Tree.aligned u.source) = true) {members : Pattern.Regex}
    (hm : Pattern.parse u.settings.memberPattern = .ok members) {s : Session}
    (hfresh : s.editor = { source := u.source }) :
    ∃ s', (Outcome.stages u).result s = (.ok (), s') ∧
      Recorded u (fun e => e.Aligned u.source) s'.editor := by
  have hholds : Holds
      (fun s => Recorded u (fun e => e.start = e.stop ∧ e.Aligned u.source) s.editor)
      (Outcome.stages u) (fun _ s => Tidy u (Imports.importStatements u) s.editor)
      fun _ _ => False :=
    (extract_complete hu ha).bind fun _ => (callStage_complete hu ha hm).bind fun _ =>
      Imports.convert_holds (imports_complete hu hs ha)
  have h := hholds s (by dsimp only; rw [hfresh]; exact Recorded.fresh u _)
  rcases hr : (Outcome.stages u).result s with ⟨_ | _, s'⟩ <;> rw [hr] at h
  · exact h.elim
  · exact ⟨s', rfl, h.imp fun e he => he.2⟩

namespace Outcome

theorem ofParsed_eq (parsed : Parsed) (settings : Settings) (source : String) (path : Option String) :
    (ofParsed parsed settings source path).1 =
      match (stages ⟨encode source, parsed.root, settings⟩).result (start (encode source) parsed path) with
      | (.error fault, _) => .error fault
      | (.ok (), s) => ofSession settings source s := by
  unfold ofParsed Pass.result
  dsimp only
  split
  · rename_i hrun
    simp only [hrun]
  · rename_i hrun
    simp only [hrun]

theorem ofSource_eq (dialect : Dialect) (settings : Settings) (source : String) (path : Option String) :
    (ofSource dialect settings source path).1 =
      match (stages ⟨encode source, (parse dialect source).root, settings⟩).result
        (start (encode source) (parse dialect source) path) with
      | (.error fault, _) => .error fault
      | (.ok (), s) => ofSession settings source s :=
  ofParsed_eq (parse dialect source) settings source path

/-- A pass over a parsed source has an outcome, if statements have no white space at their ends. -/
theorem ofParsed_completes {parsed : Parsed} {settings : Settings} {source : String}
    (hu : SourceUnit.Sited ⟨encode source, parsed.root, settings⟩) (path : Option String)
    {members : Pattern.Regex} (hm : Pattern.parse settings.memberPattern = .ok members) :
    (∃ s, (stages ⟨encode source, parsed.root, settings⟩).result (start (encode source) parsed path) =
        (.ok (), s) ∧ ∀ e ∈ s.editor.edits, e.Aligned (encode source)) ∧
    ∃ o, (ofParsed parsed settings source path).1 = .ok o := by
  have hsource : encode source = encode source := rfl
  obtain ⟨s, hrun, hrec⟩ := stages_complete hu.toTopLevel hsource hu.aligned hm
    (s := start (encode source) parsed path) rfl
  refine ⟨⟨s, hrun, hrec.all⟩, ?_⟩
  obtain ⟨text, htext⟩ := Editor.print_ok hsource hrec hrec.all
  rw [ofParsed_eq, hrun]
  dsimp only
  unfold ofSession
  cases s.flags.any with
  | false => exact ⟨_, rfl⟩
  | true =>
    rw [htext]
    exact ⟨_, rfl⟩

theorem ofSource_completes (dialect : Dialect) (settings : Settings) (source : String)
    (path : Option String) (hm : ∃ members, Pattern.parse settings.memberPattern = .ok members) :
    ∃ o, (ofSource dialect settings source path).1 = .ok o := by
  obtain ⟨members, hm⟩ := hm
  exact (ofParsed_completes (parse_sheltered dialect source settings).toSited path hm).2

end Outcome

end OrmCodemod
