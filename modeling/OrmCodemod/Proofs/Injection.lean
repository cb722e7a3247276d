import OrmCodemod.Proofs.Between
import OrmCodemod.Proofs.Grammar.Parsed
import OrmCodemod.Proofs.Requests
import OrmCodemod.Syntax.Parse

/-! The repository parameters of a constructor are swapped one after the other, and what is done when
an overlap stops the swap is not undone. Two removals overlap exactly if both take the same comma: the
first parameter goes with the comma after it, and the second one, which has none after it, with the
same comma before it. So a swap is made as a whole, or not at all, exactly if no two of the parameters
to remove share a comma. -/

namespace OrmCodemod

open Syntax Text Pass

namespace Calls

open Editor (sharesComma itemRange)

variable {u : SourceUnit} {method params first : Place} {others : List Place}

def arrival (u : SourceUnit) (p : Place) : Editor.Change := ⟨p.start, p.stop, clientParameter u p.tree⟩

def departure (p : Place) : Editor.Change := ⟨(itemRange p).1, (itemRange p).2, ""⟩

/-- The session once the client stands for the first parameter and others are gone. -/
def swapped (u : SourceUnit) (first : Place) (gone : List Place) (s : Session) : Session :=
  { s with editor := s.editor.changedBy (arrival u first :: gone.map departure) }

/-- What is reported where the second parameter is to go with a comma that goes with the first. -/
def clash (p q : Place) : Overlap :=
  ⟨(itemRange q).1, (itemRange q).2, (itemRange p).1, (itemRange p).2⟩

/-- No two parameters go with the same comma. -/
def Untangled (ps : List Place) : Prop := ps.Pairwise fun p q => sharesComma p q = false

instance (ps : List Place) : Decidable (Untangled ps) :=
  inferInstanceAs (Decidable (ps.Pairwise _))

/-- Repository parameters of one list, in their order. -/
structure Listed (u : SourceUnit) (params : Place) (ps : List Place) : Prop where
  rooted : params.Rooted u.root
  children : ps.Sublist params.children
  injected : ∀ p ∈ ps, IsInjected u p

theorem injected_listed (hm : method ∈ u.place.find [.methodDefinition])
    (hne : injected u method ≠ []) :
    ∃ params ∈ method.children, Listed u params (injected u method) := by
  obtain ⟨params, hmem, hsub⟩ : ∃ params ∈ method.children,
      (injected u method).Sublist params.children := by
    unfold injected at hne ⊢
    split at hne
    · rename_i name params hname hparams
      refine ⟨params, List.mem_of_find?_eq_some hparams, ?_⟩
      rw [if_neg fun h => hne (if_pos h)]
      exact List.filter_sublist.trans List.filter_sublist
    · exact absurd rfl hne
  exact ⟨params, hmem, (Place.find_rooted u.place_rooted hm).child hmem, hsub,
    fun p hp => mem_injected hm hp⟩

theorem IsInjected.not_comma {p : Place} (h : IsInjected u p) : p.tree.isToken "," = false := by
  obtain ⟨-, -, -, -, -, -, -, -, hkind, -⟩ := h
  simp only [Tree.isAny, List.any_cons, List.any_nil, Bool.or_false, Bool.or_eq_true,
    Tree.is_iff] at hkind
  rcases hkind with hkind | hkind <;> simp [Tree.isToken, hkind]

namespace Listed

variable {ps : List Place}

theorem mem (h : Listed u params ps) {p : Place} (hp : p ∈ ps) : p ∈ params.children :=
  h.children.subset hp

/-- A removal spares the parameters before it, and overlaps their removals where it takes a comma
that goes already. -/
theorem pairwise (h : Listed u params ps) (hu : u.Nested) :
    ps.Pairwise fun p q => p.stop ≤ (itemRange q).1 ∧
      (sharesComma p q = true ↔ (itemRange q).1 < (itemRange p).2) := by
  refine ((Place.children_between params).sublist h.children).imp_of_mem fun {p q} hp hq hmid => ?_
  obtain ⟨mid, hmid⟩ := hmid
  have hpc := (h.injected p hp).not_comma
  have hqc := (h.injected q hq).not_comma
  exact ⟨Editor.stop_le_itemRange h.rooted (h.mem hp) hu.ordered hmid hpc,
    Editor.sharesComma_iff h.rooted (h.mem hp) hu.ordered hmid hpc hqc⟩

theorem bounds (h : Listed u params ps) (hu : u.Nested) {p : Place} (hp : p ∈ ps) :
    params.start ≤ (itemRange p).1 ∧ (itemRange p).1 ≤ p.start ∧ p.start < p.stop ∧
      p.stop ≤ (itemRange p).2 ∧ (itemRange p).2 ≤ params.stop := by
  have hne := (h.injected p hp).nonempty hu
  have := Editor.itemRange_bounds h.rooted (h.mem hp) hu.ordered
  omega

theorem before {l r : List Place} {q : Place} (h : Listed u params (first :: (l ++ q :: r)))
    (hu : u.Nested) {p : Place} (hp : p ∈ first :: l) : p.stop ≤ (itemRange q).1 ∧
      (sharesComma p q = true ↔ (itemRange q).1 < (itemRange p).2) := by
  have hpair := h.pairwise hu
  rw [← List.cons_append] at hpair
  exact (List.pairwise_append.1 hpair).2.2 p hp q (by simp)

end Listed

/-- No edit cuts into what a swap replaces. -/
structure Spared (ed : Editor) (first : Place) (others : List Place) : Prop where
  first : ed.Clear first.start first.stop
  others : ∀ p ∈ others, ed.Clear (itemRange p).1 (itemRange p).2

section Removing

variable {s : Session} {l r : List Place} {q : Place}

theorem swapped_concat : arrival u first :: (l ++ [q]).map departure =
    (arrival u first :: l.map departure) ++ [departure q] := by
  simp

/-- The changes of a swap are apart from a removal that shares no comma with them. -/
theorem changes_apart (hu : u.Nested) (hlist : Listed u params (first :: (l ++ q :: r)))
    {c : Editor.Change} (hc : c ∈ arrival u first :: l.map departure) :
    c.start < c.stop ∧ (c.stop ≤ (itemRange q).1 ∨
      ∃ p ∈ l, sharesComma p q = true ∧ c = departure p) := by
  rcases List.mem_cons.1 hc with rfl | hc
  · have hb := hlist.bounds hu (p := first) (by simp)
    exact ⟨hb.2.2.1, .inl (hlist.before hu (by simp)).1⟩
  · obtain ⟨p, hp, rfl⟩ := List.mem_map.1 hc
    have hb := hlist.bounds hu (p := p) (by simp [hp])
    have hiff := (hlist.before hu (p := p) (by simp [hp])).2
    refine ⟨by simp only [departure]; omega, ?_⟩
    cases hshare : sharesComma p q with
    | true => exact .inr ⟨p, hp, hshare, rfl⟩
    | false =>
      rw [hshare] at hiff
      exact .inl (by simp only [departure]; simpa using hiff)

theorem removal_made (hu : u.Nested) (hlist : Listed u params (first :: (l ++ q :: r)))
    (hspared : Spared s.editor first (l ++ q :: r)) (h : ∀ p ∈ l, sharesComma p q = false) :
    (Pass.edit (·.removeListItem q)).result (swapped u first l s) =
      (.ok (), swapped u first (l ++ [q]) s) := by
  have hok : (swapped u first l s).editor.removeListItem q =
      .ok (swapped u first (l ++ [q]) s).editor := by
    rw [Editor.removeListItem_eq]
    dsimp only [swapped]
    rw [swapped_concat]
    refine Editor.changedBy_concat (c := departure q) (hspared.others q (by simp)) fun c hc => ?_
    obtain ⟨hne, hle | ⟨p, hp, hshare, -⟩⟩ := changes_apart hu hlist hc
    · exact ⟨hne, .inl hle⟩
    · rw [h p hp] at hshare
      cases hshare
  rw [result_edit, hok]
  rfl

theorem removal_refused (hu : u.Nested) (hlist : Listed u params (first :: (l ++ q :: r)))
    (hspared : Spared s.editor first (l ++ q :: r)) (h : ∃ p ∈ l, sharesComma p q = true) :
    ∃ p ∈ l, sharesComma p q = true ∧
      (Pass.edit (·.removeListItem q)).result (swapped u first l s) =
        (.error (.overlap (clash p q)), swapped u first l s) := by
  have hq := hlist.bounds hu (p := q) (by simp)
  cases hres : (swapped u first l s).editor.removeListItem q with
  | ok ed =>
    -- the removal of a parameter that shares its comma is in the way
    obtain ⟨p, hp, hshare⟩ := h
    rw [Editor.removeListItem_eq] at hres
    have hmem : departure p ∈ arrival u first :: l.map departure :=
      List.mem_cons_of_mem _ (List.mem_map_of_mem hp)
    obtain ⟨e, he, h1, h2, -⟩ := Editor.change_recorded s.editor hmem
    have hclear := (Editor.replaceRange_eq_ok.1 hres).1 e he
    have hp' := hlist.bounds hu (p := p) (by simp [hp])
    obtain ⟨h3, hiff⟩ := hlist.before hu (p := p) (by simp [hp])
    have h4 := hiff.1 hshare
    simp only [departure] at h1 h2
    rw [Edit.inside_iff] at hclear
    omega
  | error o =>
    rw [Editor.removeListItem_eq] at hres
    obtain ⟨e, he, rfl, hcut⟩ := Editor.replaceRange_eq_error hres
    rcases Editor.mem_changedBy he with he | ⟨c, hc, h1, h2⟩
    · exact absurd (hspared.others q (by simp) e he) hcut
    · obtain ⟨hne, hle | ⟨p, hp, hshare, rfl⟩⟩ := changes_apart hu hlist hc
      · exact absurd (.inr (.inl (by omega))) hcut
      · refine ⟨p, hp, hshare, ?_⟩
        rw [result_edit, Editor.removeListItem_eq, hres, h1, h2]
        rfl

/-- Parameters are removed one after the other, up to the first one that shares a comma with one
that is gone. -/
theorem removals_result (hu : u.Nested) (hspared : Spared s.editor first others) :
    ∀ (r l : List Place), others = l ++ r → Listed u params (first :: (l ++ r)) → Untangled l →
      (Untangled others ∧ (r.forM fun p => Pass.edit (·.removeListItem p)).result
        (swapped u first l s) = (.ok (), swapped u first others s)) ∨
      ∃ l' p q r', others = l' ++ q :: r' ∧ p ∈ l' ∧ sharesComma p q = true ∧
        (r.forM fun p => Pass.edit (·.removeListItem p)).result (swapped u first l s) =
          (.error (.overlap (clash p q)), swapped u first l' s) := by
  intro r
  induction r with
  | nil =>
    intro l hl _ hun
    rw [List.append_nil] at hl
    subst hl
    exact .inl ⟨hun, rfl⟩
  | cons q r ih =>
    intro l hl hlist hun
    rw [hl] at hspared
    rw [result_forM_cons]
    by_cases h : ∃ p ∈ l, sharesComma p q = true
    · obtain ⟨p, hp, hshare, hres⟩ := removal_refused hu hlist hspared h
      refine .inr ⟨l, p, q, r, hl, hp, hshare, ?_⟩
      rw [result_bind, hres]
    · have hno : ∀ p ∈ l, sharesComma p q = false := by simpa using h
      have hmade := removal_made hu hlist hspared hno
      have hun' : Untangled (l ++ [q]) :=
        List.pairwise_append.2 ⟨hun, List.pairwise_singleton _ _, by simpa using hno⟩
      rw [result_bind_ok hmade]
      exact ih (l ++ [q]) (by simp [hl]) (by simpa using hlist) hun'

theorem swap_result (hu : u.Nested) (hlist : Listed u params (first :: others))
    (hspared : Spared s.editor first others) :
    (Untangled others ∧ (swap u first others).result s =
      (.ok (), { swapped u first others s with flags := { s.flags with repositories := true } })) ∨
    ∃ l p q r, others = l ++ q :: r ∧ p ∈ l ∧ sharesComma p q = true ∧
      (swap u first others).result s = (.error (.overlap (clash p q)), swapped u first l s) := by
  have harrival : (Pass.edit (·.replace first.tree (clientParameter u first.tree))).result s =
      (.ok (), swapped u first [] s) := by
    have hnone : ∀ d ∈ ([] : List Editor.Change), d.start < d.stop ∧
        (d.stop ≤ (arrival u first).start ∨ (arrival u first).stop ≤ d.start) := by simp
    have hok : s.editor.replace first.tree (clientParameter u first.tree) =
        .ok (swapped u first [] s).editor := by
      have := Editor.changedBy_concat (c := arrival u first) hspared.first hnone
      rwa [Editor.changedBy_nil] at this
    rw [result_edit, hok]
    rfl
  unfold swap
  rw [result_bind_ok harrival, result_bind]
  rcases removals_result hu hspared others [] rfl hlist List.Pairwise.nil with
    ⟨hun, hres⟩ | ⟨l, p, q, r, hl, hp, hshare, hres⟩
  · exact .inl ⟨hun, by rw [hres]; rfl⟩
  · exact .inr ⟨l, p, q, r, hl, hp, hshare, by rw [hres]⟩

end Removing

/-- An insertion, or an edit in the parameters of one of some methods. -/
def Confined (done : List Place) (e : Edit) : Prop :=
  e.start = e.stop ∨ ∃ m ∈ done, ∃ f ∈ m.children, f.start ≤ e.start ∧ e.stop ≤ f.stop

section Confinement

variable {done rest : List Place} {ed : Editor}

theorem Confined.mono {l l' : List Place} {e : Edit} (h : Confined l e) (hl : l ⊆ l') :
    Confined l' e := by
  rcases h with h | ⟨m, hm, h⟩
  · exact .inl h
  · exact .inr ⟨m, hl hm, h⟩

theorem convertConstructor_confined (hu : u.Nested)
    (hm : method ∈ u.place.find [.methodDefinition]) {E : Fault → Session → Prop} :
    Holds (fun s => Recorded u (Confined done) s.editor) (convertConstructor u method)
      (fun _ s => Recorded u (Confined (done ++ [method])) s.editor) E := by
  refine Holds.mono (P := fun s => Recorded u (Confined (done ++ [method])) s.editor) ?_
    (fun s hs => hs.imp fun e he => he.mono (List.subset_append_left _ _)) (fun _ _ h => h)
    fun _ _ h => h
  have hin : ∀ p ∈ injected u method, ∃ f ∈ method.children, f.start ≤ p.start ∧ p.stop ≤ f.stop ∧
      f.start ≤ (itemRange p).1 ∧ (itemRange p).2 ≤ f.stop := by
    intro p hp
    obtain ⟨f, hf, hlist⟩ := injected_listed hm (List.ne_nil_of_mem hp)
    have := hlist.bounds hu hp
    exact ⟨f, hf, by omega, by omega, by omega, by omega⟩
  refine convertConstructor_records hu hm (fun p hp k => ?_) fun p hp k => ?_
  · obtain ⟨f, hf, h1, h2, -, -⟩ := hin p hp
    exact .inr ⟨method, by simp, f, hf, h1, h2⟩
  · obtain ⟨f, hf, -, -, h1, h2⟩ := hin p hp
    exact .inr ⟨method, by simp, f, hf, h1, h2⟩

/-- The methods done edit in their own parameters only. -/
theorem convertConstructors_confined (hu : u.Nested)
    (hdone : ∀ m ∈ done, m ∈ u.place.find [.methodDefinition]) {E : Fault → Session → Prop} :
    Holds (fun s => Recorded u (fun e => e.start = e.stop) s.editor)
      (done.forM (convertConstructor u)) (fun _ s => Recorded u (Confined done) s.editor) E := by
  have hrun : Holds (fun s => Recorded u (Confined []) s.editor) (done.forM (convertConstructor u))
      (fun _ s => Recorded u (Confined done) s.editor) E :=
    Holds.forM (I := fun l s => Recorded u (Confined l) s.editor) fun l m r hl =>
      convertConstructor_confined hu (hdone m (by simp [hl]))
  exact hrun.mono (fun s hs => hs.imp fun e he => .inl he) (fun _ _ h => h) fun _ _ h => h

/-- What lies in the parameters of a method is a part of one parameter, if none of the methods done
is around it. -/
theorem clear_of_confined (hu : u.Nested) (hm : method.Rooted u.root)
    (hparams : params ∈ method.children) (hne : params.start < params.stop)
    (hdone : ∀ m ∈ done, m.Rooted u.root ∧ m.Later method)
    (hed : ∀ e ∈ ed.edits, Confined done e) {a b : Nat} (ha : params.start ≤ a)
    (hb : b ≤ params.stop)
    (hparts : ∀ y ∈ params.tree.children,
      y.stop ≤ a ∨ b ≤ y.start ∨ (a ≤ y.start ∧ y.stop ≤ b)) : ed.Clear a b := by
  have hr := hu.ordered
  have hf := Place.tree_mem_children hparams
  have hfr := (hm.child hparams).within
  have hmr := Tree.child_range (Tree.everyNode_within hr hm.within) hf
  simp only [Place.start, Place.stop] at hne ha hb
  intro e he
  rw [Edit.inside_iff]
  rcases hed e he with h | ⟨m, hmem, g, hg, h1, h2⟩
  · omega
  obtain ⟨hmroot, hlater⟩ := hdone m hmem
  have hg' := Place.tree_mem_children hg
  have hgr := (hmroot.child hg).within
  have hnot : ¬method.tree.Within m.tree := by
    intro hw
    have := hlater hw
    simp only [Place.start, Place.stop] at this
    omega
  have hother : g.tree ≠ params.tree := by
    intro heq
    rw [heq] at hg'
    exact hnot (Tree.parent_unique hr hm.within hmroot.within hf hg' hne ▸ .self)
  simp only [Place.start, Place.stop] at h1 h2
  rcases Tree.within_or_apart hr hgr hfr with h | h | h | h
  · rcases h.eq_or_below with heq | ⟨y, hy, hw⟩
    · exact absurd heq hother
    · have := hw.range (Tree.everyNode_within hr ((Tree.within_of_mem hy).trans hfr))
      have := hparts y hy
      omega
  · rcases Tree.within_parent hr hm.within hf hne hgr h with heq | hw
    · exact absurd heq hother
    · exact absurd (hw.trans (Tree.within_of_mem hg')) hnot
  · omega
  · omega

theorem spared_of_confined (hu : u.Nested) (hm : method.Rooted u.root)
    (hparams : params ∈ method.children) (hlist : Listed u params (first :: others))
    (hdone : ∀ m ∈ done, m.Rooted u.root ∧ m.Later method)
    (hed : ∀ e ∈ ed.edits, Confined done e) : Spared ed first others := by
  have hr := hu.ordered
  have hfirst := hlist.bounds hu (p := first) (by simp)
  have hclear : ∀ {a b : Nat}, params.start ≤ a → b ≤ params.stop →
      (∀ y ∈ params.tree.children, y.stop ≤ a ∨ b ≤ y.start ∨ (a ≤ y.start ∧ y.stop ≤ b)) →
      ed.Clear a b :=
    clear_of_confined hu hm hparams (by omega) hdone hed
  constructor
  · refine hclear (by omega) (by omega) fun y hy => ?_
    have hmem := Place.tree_mem_children (hlist.mem (p := first) (by simp))
    rcases Tree.inOrder_apart (Tree.test_within hr hlist.rooted.within) hy hmem with rfl | h | h
    · exact .inr (.inr ⟨le_rfl, le_rfl⟩)
    · exact .inl h
    · exact .inr (.inl h)
  · intro p hp
    have hp' := List.mem_cons_of_mem first hp
    have hb := hlist.bounds hu hp'
    refine hclear (by omega) (by omega) fun y hy => ?_
    rcases Editor.itemRange_siblings hlist.rooted (hlist.mem hp') hr hy with h | h | ⟨-, h⟩
    · exact .inl h
    · exact .inr (.inl h)
    · exact .inr (.inr h)

theorem methods_later (hu : u.Nested)
    (hfind : u.place.find [.methodDefinition] = done ++ method :: rest) :
    ∀ m ∈ done, m.Rooted u.root ∧ m.Later method := by
  intro m hmem
  have hlater : (u.place.find [.methodDefinition]).Pairwise Place.Later :=
    (Place.all_later hu.ordered).sublist List.filter_sublist
  rw [hfind] at hlater
  refine ⟨Place.find_rooted u.place_rooted (hfind ▸ List.mem_append_left _ hmem), ?_⟩
  exact (List.pairwise_append.1 hlater).2.2 m hmem method (by simp)

end Confinement

/-- The client stands for the first parameter, the other ones are gone with their commas, and the flag
is set; nothing else is different. -/
def IsSwapped (u : SourceUnit) (first : Place) (others : List Place) (s s' : Session) : Prop :=
  s' = { swapped u first others s with flags := { s.flags with repositories := true } }

/-- The constructor is reported, and the edits are as they were. -/
def IsSkipped (u : SourceUnit) (method : Place) (s s' : Session) : Prop :=
  (∃ o, s'.log = s.log ++ [⟨.warning, skipMessage u method o⟩]) ∧ s'.editor.edits = s.editor.edits

/-- The client stands for the first parameter and some others are gone, up to one that shares a comma
with one of them; that is reported. -/
def IsHalfSwapped (u : SourceUnit) (method first : Place) (others : List Place) (s s' : Session) :
    Prop :=
  ∃ l p q r, others = l ++ q :: r ∧ p ∈ l ∧ sharesComma p q = true ∧
    s' = { swapped u first l s with
      log := s.log ++ [⟨.warning, skipMessage u method (clash p q)⟩] }

/-- Half a swap is neither a swap nor none: there are too few edits for the one, and an edit too many
for the other. -/
theorem IsHalfSwapped.not_whole {s s' : Session} (h : IsHalfSwapped u method first others s s')
    (hs : s.editor.Sound) : ¬Untangled others ∧ ¬IsSwapped u first others s s' ∧
      ¬IsSkipped u method s s' := by
  obtain ⟨l, p, q, r, rfl, hp, hshare, rfl⟩ := h
  refine ⟨fun hun => ?_, fun hsw => ?_, fun hsk => ?_⟩
  · have := (List.pairwise_append.1 hun).2.2 p hp q (by simp)
    rw [hshare] at this
    cases this
  · have := congrArg (fun s => s.editor.next) hsw
    simp only [swapped, Editor.changedBy, List.length_cons, List.length_map, List.length_append] at this
    omega
  · have hmem : arrival u first ∈ arrival u first :: l.map departure := by simp
    obtain ⟨e, he, -, -, -, hlate⟩ := Editor.change_recorded s.editor hmem
    have := hs.fresh e (hsk.2 ▸ he)
    omega

theorem convertConstructor_result {s : Session} (hu : u.Nested)
    (hinj : injected u method = first :: others) (hlist : Listed u params (first :: others))
    (hspared : Spared s.editor first others) :
    ∃ s', (convertConstructor u method).result s = (.ok (), s') ∧
      ((Untangled others ∧ IsSwapped u first others s s') ∨
        IsHalfSwapped u method first others s s') := by
  rw [convertConstructor_eq, hinj]
  dsimp only
  rw [result_orOnOverlap]
  rcases swap_result hu hlist hspared with ⟨hun, hres⟩ | ⟨l, p, q, r, hl, hp, hshare, hres⟩
  · rw [hres]
    exact ⟨_, rfl, .inl ⟨hun, rfl⟩⟩
  · rw [hres]
    exact ⟨_, rfl, .inr ⟨l, p, q, r, hl, hp, hshare, rfl⟩⟩

/-- The repository parameters of a constructor are swapped as a whole, or left alone, exactly if no two
of those to remove share a comma, and then they are swapped. Else the swap stops half way, and what is
done stays done. -/
theorem injection_whole_iff (u : SourceUnit) (hu : u.Nested) (s : Session)
    (hs : Recorded u (fun e => e.start = e.stop) s.editor) (done rest : List Place) (method : Place)
    (hfind : u.place.find [.methodDefinition] = done ++ method :: rest) (first : Place)
    (others : List Place) (hinj : injected u method = first :: others) :
    ∃ before after, (done.forM (convertConstructor u)).result s = (.ok (), before) ∧
      (convertConstructor u method).result before = (.ok (), after) ∧
      (IsSwapped u first others before after ∨ IsSkipped u method before after ↔
        Untangled others) ∧
      (Untangled others → IsSwapped u first others before after) ∧
      (¬Untangled others → IsHalfSwapped u method first others before after) := by
  have hdone : ∀ m ∈ done, m ∈ u.place.find [.methodDefinition] := fun m hm =>
    hfind ▸ List.mem_append_left _ hm
  have hm : method ∈ u.place.find [.methodDefinition] := by simp [hfind]
  obtain ⟨_, before, hrun, hbefore⟩ :=
    (convertConstructors_confined (E := fun _ _ => False) hu hdone).exists_ok hs
  obtain ⟨params, hparams, hlist⟩ := injected_listed hm (by simp [hinj])
  rw [hinj] at hlist
  have hspared := spared_of_confined hu (Place.find_rooted u.place_rooted hm) hparams hlist
    (methods_later hu hfind) hbefore.all
  obtain ⟨after, hres, ⟨hun, hsw⟩ | hhalf⟩ := convertConstructor_result hu hinj hlist hspared
  · exact ⟨before, after, hrun, hres, iff_of_true (.inl hsw) hun, fun _ => hsw,
      fun hno => absurd hun hno⟩
  · obtain ⟨hun, hsw, hsk⟩ := hhalf.not_whole hbefore.sound
    exact ⟨before, after, hrun, hres, iff_of_false (by simp [hsw, hsk]) hun,
      fun h => absurd h hun, fun _ => hhalf⟩

/-- A constructor among the parameters of a constructor, which end with a comma. -/
def innerSample : String :=
  "class A\x7bconstructor(a: Repository<X>=class\x7bconstructor(b: Repository<Y>)\x7b\x7d\x7d, " ++
    "c: Repository<Z>,d: Repository<W>,)\x7b\x7d\x7d"

def innerUnit : SourceUnit := ⟨encode innerSample, (parse .typescript innerSample).root, {}⟩

theorem innerUnit_methods :
    (innerUnit.place.find [.methodDefinition]).map (fun m =>
      ((injected innerUnit m).length, decide (Untangled (injected innerUnit m).tail))) =
        [(1, true), (3, true)] := by
  decide +kernel

theorem injection_whole_iff_sample :
    ∃ inner outer first others before after,
      innerUnit.place.find [.methodDefinition] = [inner, outer] ∧
      injected innerUnit outer = first :: others ∧ others.length = 2 ∧
      ([inner].forM (convertConstructor innerUnit)).result
        { editor := { source := innerUnit.source } } = (.ok (), before) ∧
      (convertConstructor innerUnit outer).result before = (.ok (), after) ∧
      IsSwapped innerUnit first others before after := by
  have hmethods := innerUnit_methods
  obtain ⟨inner, outer, hfind⟩ : ∃ inner outer,
      innerUnit.place.find [.methodDefinition] = [inner, outer] :=
    List.length_eq_two.1 (by simpa using congrArg List.length hmethods)
  rw [hfind] at hmethods
  simp only [List.map_cons, List.map_nil, List.cons.injEq, Prod.mk.injEq, decide_eq_true_eq,
    and_true] at hmethods
  obtain ⟨-, hlen, hun⟩ := hmethods
  cases hinj : injected innerUnit outer with
  | nil => simp [hinj] at hlen
  | cons first others =>
    rw [hinj] at hlen hun
    obtain ⟨before, after, hbefore, hafter, -, hsw, -⟩ := injection_whole_iff innerUnit
      (parse_wellFormed .typescript innerSample {}).toNested { editor := { source := innerUnit.source } }
      (Recorded.fresh _ _) [inner] [] outer hfind first others hinj
    exact ⟨inner, outer, first, others, before, after, hfind, hinj, by simpa using hlen, hbefore,
      hafter, hsw hun⟩

/-- Three repository parameters and no comma after the last one: the second one goes with the comma
before the third, which is then to go with the same comma. -/
def crowdedSample : String :=
  "class A \x7b constructor(a: Repository<X>, b: Repository<Y>, c: Repository<Z>) \x7b\x7d \x7d"

def crowdedUnit : SourceUnit := ⟨encode crowdedSample, (parse .typescript crowdedSample).root, {}⟩

def crowdedStart : Session := { editor := { source := crowdedUnit.source } }

theorem crowdedUnit_methods :
    (crowdedUnit.place.find [.methodDefinition]).map (fun m =>
      let run := (convertConstructor crowdedUnit m).result crowdedStart
      ((injected crowdedUnit m).length, run.1.isOk, run.2.editor.next, run.2.editor.edits.length)) =
        [(3, true, 2, 2)] := by
  decide +kernel

theorem injection_halved_sample :
    (parse .typescript crowdedSample).broken = false ∧
    ∃ method first others s', crowdedUnit.place.find [.methodDefinition] = [method] ∧
      injected crowdedUnit method = first :: others ∧
      (convertConstructor crowdedUnit method).result crowdedStart = (.ok (), s') ∧
      ¬(IsSwapped crowdedUnit first others crowdedStart s' ∨
        IsSkipped crowdedUnit method crowdedStart s') := by
  refine ⟨by decide +kernel, ?_⟩
  have hmethods := crowdedUnit_methods
  obtain ⟨method, hfind⟩ : ∃ method, crowdedUnit.place.find [.methodDefinition] = [method] :=
    List.length_eq_one_iff.1 (by simpa using congrArg List.length hmethods)
  rw [hfind] at hmethods
  simp only [List.map_cons, List.map_nil, List.cons.injEq, Prod.mk.injEq, and_true] at hmethods
  obtain ⟨hlen, hok, hnext, hedits⟩ := hmethods
  rcases hrun : (convertConstructor crowdedUnit method).result crowdedStart with ⟨_ | _, s'⟩
  · simp [hrun, Except.isOk, Except.toBool] at hok
  rw [hrun] at hnext hedits
  cases hinj : injected crowdedUnit method with
  | nil => simp [hinj] at hlen
  | cons first others =>
    rw [hinj, List.length_cons] at hlen
    refine ⟨method, first, others, s', hfind, hinj, hrun, ?_⟩
    rintro (hsw | ⟨-, hsk⟩)
    · rw [hsw] at hnext
      simp only [swapped, Editor.changedBy, crowdedStart, List.length_cons, List.length_map] at hnext
      omega
    · rw [hsk] at hedits
      simp [crowdedStart] at hedits

end Calls

end OrmCodemod
