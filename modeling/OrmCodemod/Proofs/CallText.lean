import OrmCodemod.Proofs.Converting

/-! The calls of a source, converted edit by edit, come out as the recursion over the tree composes
them: inner calls are rendered into the text of the calls around them, whatever the nesting. -/

namespace OrmCodemod.Calls

open Syntax Text Pass

/-- The call is converted: it has a supported row and an owner, and lies in no replacement. -/
def converts (u : SourceUnit) (base : Editor) (x : Place.RepositoryCall) : Bool :=
  match Rules.rule? (x.method.text u.source) with
  | none => false
  | some rule =>
    rule.supported && (x.receiver.child? .object).isSome && !base.edits.any fun e =>
      !e.isInsertion && e.start ≤ x.call.start && x.call.stop ≤ e.stop

/-- The advisories of a call: those of its row, if it is converted or never can be. -/
def advisories (u : SourceUnit) (base : Editor) (x : Place.RepositoryCall) : List String :=
  match Rules.rule? (x.method.text u.source) with
  | none => []
  | some rule => if rule.supported && !converts u base x then [] else rule.advisories

def withAdvisories (u : SourceUnit) (base ed : Editor) (x : Place.RepositoryCall) : Editor :=
  (advisories u base x).foldl (·.advised x.call ·) ed

/-- The editor `base` with the advisories of some calls, none of them converted. -/
def shadow (u : SourceUnit) (base : Editor) (sites : List Place.RepositoryCall) : Editor :=
  sites.foldl (withAdvisories u base) base

variable {u : SourceUnit} {K : List Place.RepositoryCall} {x : Place.RepositoryCall}
  {base sh ed start : Editor} {n : Nat} {members : Pattern.Regex}

theorem mem_callSites_whole (h : x ∈ callSites u members) : x.call.repositoryCall? = some x := by
  obtain ⟨p, -, hp⟩ := List.mem_filterMap.1 (List.mem_of_mem_filter h)
  rw [(Place.repositoryCall?_parts hp).1]
  exact hp

theorem free_of_converts (h : converts u base x = true) : Free base x := by
  intro e he hne hcov
  unfold converts at h
  split at h
  · cases h
  · rw [Bool.and_eq_true, Bool.not_eq_true', List.any_eq_false] at h
    refine h.2 e he ?_
    simp [Edit.isInsertion, hne, hcov]

theorem row_of_converts (h : converts u base x = true) :
    ∃ rule owner, Rules.rule? (x.method.text u.source) = some rule ∧ rule.supported = true ∧
      x.receiver.child? .object = some owner := by
  unfold converts at h
  split at h
  · cases h
  · rename_i rule hrule
    rw [Bool.and_eq_true, Bool.and_eq_true] at h
    obtain ⟨owner, howner⟩ := Option.isSome_iff_exists.1 h.1.2
    exact ⟨rule, owner, hrule, h.1.1, howner⟩

theorem convertible_of_converts (hx : x ∈ callSites u members) (h : converts u base x = true) :
    Convertible u x := by
  obtain ⟨rule, owner, hrule, -, howner⟩ := row_of_converts h
  exact ⟨(mem_callSites hx).1, mem_callSites_whole hx, ⟨rule, hrule⟩, ⟨owner, howner⟩⟩

/-- A statement that holds a place starts strictly inside no node that does not hold the place. -/
theorem statement_outside (hu : u.Nested) {q : Place} (hq : q.Rooted u.root) {n : Tree}
    (hn : n.Within u.root) (hout : ¬q.tree.Within n) :
    ¬(n.start < q.statement.start ∧ q.statement.start < n.stop) := by
  obtain ⟨hs, hqs⟩ := hq.statement
  have hrange := hu.node hs.within
  simp only [Place.start]
  rcases Tree.within_or_apart hu.ordered hs.within hn with h | h | h | h
  · exact absurd (hqs.trans h) hout
  · have := h.range (Tree.everyNode_within hu.ordered hs.within)
    omega
  · omega
  · omega

/-- The editor of a session tracks its shadow, and the comments put since `start` are counted. -/
structure Attends (u : SourceUnit) (base : Editor) (start : Editor) (n : Nat)
    (K : List Place.RepositoryCall) (sh : Editor) (s : Session) : Prop
    extends Tracks u base K sh s.editor where
  tallied : Tallied start n sh s

theorem Attends.refl {L : Edit → Prop} {s : Session} (h : Recorded u L s.editor) :
    Attends u s.editor s.editor s.advisories [] s.editor s :=
  ⟨⟨Follows.refl h, Shows.refl u s.editor.view, by simp⟩, .refl s⟩

theorem Attends.told {s s' : Session} (h : Attends u base start n K sh s)
    (he : s'.editor = s.editor) (hn : s'.advisories = s.advisories) :
    Attends u base start n K sh s' :=
  ⟨he ▸ h.toTracks, h.tallied.told he hn⟩

theorem Attends.advise (hu : u.Closed) (hx : x.call.Rooted u.root)
    (hout : ∀ n ∈ taken u K, ¬x.call.tree.Within n) {comment : String}
    (hlisted : comment ∈ advisoryTexts) :
    Holds (Attends u base start n K sh) (Pass.advise x.call comment)
      (fun _ => Attends u base start n K (sh.advised x.call comment))
      fun e s => (∃ o, e = .overlap o) ∧ Attends u base start n K sh s ∧
        ¬sh.Clear x.call.statement.start x.call.statement.start := by
  intro s h
  have hp : ∀ n ∈ taken u K,
      ¬(n.start < x.call.statement.start ∧ x.call.statement.start < n.stop) := by
    intro n hn
    obtain ⟨d, hd, hnd⟩ := mem_taken.1 hn
    exact statement_outside hu.toNested hx ((h.calls d hd).part hu hnd).2.2.1 (hout n hn)
  rw [result_advise]
  rcases h.follows.advise hu.toNested hx hp comment with
    ⟨hblocked, o, ho⟩ | ⟨put, ed', hok, hoksh, hfollows, hviews⟩
  · rw [ho]
    exact ⟨⟨o, rfl⟩, h, hblocked⟩
  · rw [hok]
    refine ⟨⟨hfollows, ?_, h.calls⟩, h.tallied.advised hlisted hok hoksh⟩
    rcases hviews with ⟨rfl, hsh⟩ | ⟨text, hed, hsh⟩
    · rw [hsh]
      exact h.shows
    · rw [hsh]
      exact hed ▸ h.shows.put hu h.calls hp

theorem foldl_advised_of_blocked {q : Place}
    (h : ¬sh.Clear q.statement.start q.statement.start) (comments : List String) :
    comments.foldl (·.advised q ·) sh = sh := by
  induction comments with
  | nil => rfl
  | cons c cs ih => rw [List.foldl_cons, Editor.advised_of_blocked h, ih]

/-- So are several; after one that there is no room for, there is none for the others. -/
theorem Attends.advises (hu : u.Closed) (hx : x.call.Rooted u.root)
    (hout : ∀ n ∈ taken u K, ¬x.call.tree.Within n) {comments : List String}
    (hlisted : comments ⊆ advisoryTexts) : ∀ {sh : Editor},
    Holds (Attends u base start n K sh) (comments.mapM (Pass.advise x.call))
      (fun _ => Attends u base start n K (comments.foldl (·.advised x.call ·) sh))
      fun e s => (∃ o, e = .overlap o) ∧
        Attends u base start n K (comments.foldl (·.advised x.call ·) sh) s := by
  induction comments with
  | nil =>
    intro sh
    rw [List.mapM_nil]
    exact Holds.pure fun _ h => h
  | cons c cs ih =>
    intro sh
    rw [List.mapM_cons, List.foldl_cons]
    have hc : c ∈ advisoryTexts := hlisted (by simp)
    have hcs : cs ⊆ advisoryTexts := fun d hd => hlisted (by simp [hd])
    refine Holds.bind ((Attends.advise hu hx hout hc).mono (fun _ h => h) (fun _ _ h => h) ?_)
      fun _ => Holds.bind (ih hcs) fun _ => Holds.pure fun _ h => h
    rintro e s ⟨ho, h, hblocked⟩
    refine ⟨ho, ?_⟩
    rwa [Editor.advised_of_blocked hblocked, foldl_advised_of_blocked hblocked]

theorem forM_eq_mapM {α β : Type} (f : α → Pass β) (xs : List α) :
    (xs.forM fun a => do let _ ← f a) = (do let _ ← xs.mapM f) := by
  induction xs with
  | nil => simp
  | cons a xs ih =>
    have hcons : ((a :: xs).forM fun a => do let _ ← f a) =
        (do let _ ← f a; xs.forM fun a => do let _ ← f a) := by
      simp only [List.forM, bind_assoc, pure_bind]
    rw [hcons, ih, List.mapM_cons]
    simp only [bind_assoc, pure_bind]

/-- A call in a replacement is refused and leaves all but the log as it is. -/
theorem Tracks.blocked (hu : u.Closed) (hx : Convertible u x) (hout : ∀ d ∈ K, Outside x d)
    {e : Edit} (he : e ∈ base.edits) (hne : e.start ≠ e.stop)
    (hcov : e.start ≤ x.call.start ∧ x.call.stop ≤ e.stop) (owner : Tree) (rule : Rules.Rule)
    {s : Session} (h : Tracks u base K sh s.editor) :
    ∃ o log, (apply u x owner rule).result s = (.error (.overlap o), { s with log }) := by
  have ho := hx.order hu
  have hin := Tree.child_range (Tree.everyNode_within hu.ordered hx.rooted.within)
    (Tree.child?_mem hx.parts.callee)
  have hmem : e ∈ s.editor.edits := by
    rcases h.follows.held e he hne with hmem | ⟨n, hn, hsub⟩
    · exact hmem
    · obtain ⟨d, hd, hnd⟩ := mem_taken.1 hn
      have hdc := h.calls d hd
      have hrange := Tree.child_range (Tree.everyNode_within hu.ordered hdc.rooted.within)
        (hdc.part hu hnd).1
      refine absurd ?_ (hout d hd)
      simp only [Place.start, Place.stop] at hcov ⊢
      omega
  have hclear : ¬s.editor.Clear x.callee.start x.callee.stop := by
    intro hc
    have hcut := hc e hmem
    simp only [Place.start, Place.stop] at hcov ho
    rw [Edit.inside_iff] at hcut
    omega
  obtain ⟨log, hs1⟩ := modelOf_result u x.call s
  rw [apply_result hs1, result_bind, result_edit]
  cases hr : s.editor.replace x.callee _ with
  | ok ed' => exact absurd (Editor.replaceRange_eq_ok.1 hr).1 hclear
  | error o => exact ⟨o, log, rfl⟩

theorem not_within_taken (hu : u.Closed) (hK : ∀ d ∈ K, Convertible u d)
    (hout : ∀ d ∈ K, Outside x d ∨ d = x) : ∀ n ∈ taken u K, ¬x.call.tree.Within n := by
  intro n hn hw
  obtain ⟨d, hd, hnd⟩ := mem_taken.1 hn
  have hmem := ((hK d hd).part hu hnd).1
  rcases hout d hd with ho | rfl
  · have h1 := (hw.trans (Tree.within_of_mem hmem)).range
      (Tree.everyNode_within hu.ordered (hK d hd).rooted.within)
    exact ho ⟨h1.1, h1.2.2⟩
  · have h1 := hw.size_le
    have h2 := Tree.size_child hmem
    omega

theorem exists_around {rule : Rules.Rule} {owner : Tree}
    (hrule : Rules.rule? (x.method.text u.source) = some rule) (hs : rule.supported = true)
    (howner : x.receiver.child? .object = some owner) (h : converts u base x = false) :
    ∃ e ∈ base.edits, e.start ≠ e.stop ∧ e.start ≤ x.call.start ∧ x.call.stop ≤ e.stop := by
  simpa [converts, hrule, hs, howner, Edit.isInsertion, and_assoc] using h

/-- A supported call with an owner is converted and its advisories are put, or it is refused. -/
theorem Attends.supported (hu : u.Closed)
    (hbase : ∀ e ∈ base.edits, e.start = e.stop ∨ IsInjectionEdit u e) (hx : Convertible u x)
    (hK : ∀ d ∈ K, Convertible u d) (hout : ∀ d ∈ K, Outside x d) {rule : Rules.Rule} {owner : Tree}
    (hrule : Rules.rule? (x.method.text u.source) = some rule) (hs : rule.supported = true)
    (howner : x.receiver.child? .object = some owner) :
    Holds (Attends u base start n K sh) (do
        apply u x owner rule
        rule.advisories.forM fun advisory => do let _ ← Pass.advise x.call advisory
        Pass.setFlags fun f => { f with services := true })
      (fun _ => Attends u base start n (K ++ [x].filter (converts u base))
        (withAdvisories u base sh x))
      fun e s => (∃ o, e = .overlap o) ∧ Attends u base start n
        (K ++ [x].filter (converts u base)) (withAdvisories u base sh x) s := by
  have hlisted : rule.advisories ⊆ advisoryTexts := fun _ => advisory_listed hrule
  cases hc : converts u base x with
  | false =>
    obtain ⟨e, he, hne, hcov⟩ := exists_around hrule hs howner hc
    have hnone : withAdvisories u base sh x = sh := by
      simp [withAdvisories, advisories, hrule, hs, hc]
    simp only [hnone, List.filter_singleton, hc, Bool.cond_false, List.append_nil]
    intro s h
    obtain ⟨o, log, hr⟩ := h.blocked hu hx hout he hne hcov owner rule
    rw [result_bind, hr]
    exact ⟨⟨o, rfl⟩, h.told rfl rfl⟩
  | true =>
    have hall : withAdvisories u base sh x = rule.advisories.foldl (·.advised x.call ·) sh := by
      simp [withAdvisories, advisories, hrule, hc]
    simp only [hall, List.filter_singleton, hc, Bool.cond_true]
    have hsafe : ∀ n ∈ taken u (K ++ [x]), ¬x.call.tree.Within n := by
      refine not_within_taken hu (fun d hd => ?_) fun d hd => ?_
      · rcases List.mem_append.1 hd with hd | hd
        · exact hK d hd
        · exact List.mem_singleton.1 hd ▸ hx
      · rcases List.mem_append.1 hd with hd | hd
        · exact .inl (hout d hd)
        · exact .inr (List.mem_singleton.1 hd)
    refine Holds.bind (Q := fun _ => Attends u base start n (K ++ [x]) sh) ?_ fun _ => ?_
    · intro s h
      obtain ⟨s', hr, h', hedits, hcount⟩ :=
        h.applied hu hbase hx hout (free_of_converts hc) hrule howner
      rw [hr]
      exact ⟨h', h.tallied.edited hedits hcount⟩
    · rw [forM_eq_mapM]
      refine Holds.bind (Q := fun _ => Attends u base start n (K ++ [x])
        (rule.advisories.foldl (·.advised x.call ·) sh)) ?_ fun _ => Holds.modify fun _ h =>
          h.told rfl rfl
      exact Holds.bind (Attends.advises hu hx.rooted hsafe hlisted) fun _ => Holds.pure fun _ h => h

theorem convertCall_attends (hu : u.Closed)
    (hbase : ∀ e ∈ base.edits, e.start = e.stop ∨ IsInjectionEdit u e)
    (hx : x ∈ callSites u members) (hK : ∀ d ∈ K, Convertible u d)
    (hout : ∀ rule, Rules.rule? (x.method.text u.source) = some rule → ∀ d ∈ K, Outside x d) :
    Holds (Attends u base start n K sh) (convertCall u x)
      (fun _ => Attends u base start n (K ++ [x].filter (converts u base))
        (withAdvisories u base sh x))
      fun e s => (∃ o, e = .overlap o) ∧ Attends u base start n
        (K ++ [x].filter (converts u base)) (withAdvisories u base sh x) s := by
  unfold convertCall
  cases hrule : Rules.rule? (x.method.text u.source) with
  | none =>
    have hno : converts u base x = false := by simp [converts, hrule]
    have hnone : withAdvisories u base sh x = sh := by simp [withAdvisories, advisories, hrule]
    simp only [hnone, List.filter_singleton, hno, Bool.cond_false, List.append_nil]
    exact Holds.pure fun _ h => h
  | some rule =>
    cases hs : rule.supported with
    | false =>
      have hno : converts u base x = false := by simp [converts, hrule, hs]
      have hall : withAdvisories u base sh x = rule.advisories.foldl (·.advised x.call ·) sh := by
        simp [withAdvisories, advisories, hrule, hs]
      have hsafe := not_within_taken hu hK fun d hd => .inl (hout rule hrule d hd)
      simp only [hall, List.filter_singleton, hno, hs, Bool.cond_false, List.append_nil,
        Bool.not_false, if_true]
      refine Holds.bind (Attends.advises hu (mem_callSites hx).1 hsafe fun _ =>
        advisory_listed hrule) fun put => ?_
      split
      · exact Holds.modify fun _ h => h.told rfl rfl
      · exact Holds.pure fun _ h => h
    | true =>
      simp only [hs, Bool.not_true, Bool.false_eq_true, if_false]
      cases howner : x.receiver.child? .object with
      | none =>
        have hno : converts u base x = false := by simp [converts, hrule, howner]
        have hnone : withAdvisories u base sh x = sh := by
          simp [withAdvisories, advisories, hrule, hs, hno]
        simp only [hnone, List.filter_singleton, hno, Bool.cond_false, List.append_nil]
        exact Holds.pure fun _ h => h
      | some owner =>
        have hxc : Convertible u x :=
          ⟨(mem_callSites hx).1, mem_callSites_whole hx, ⟨rule, hrule⟩, ⟨owner, howner⟩⟩
        exact Attends.supported hu hbase hxc hK (hout rule hrule) hrule hs howner

theorem runsBefore_weak : Sorting.Weak runsBefore where
  trans a b c := by
    simp only [runsBefore]
    grind
  asymm a b := by
    simp only [runsBefore]
    grind

theorem callSites_differ (hu : u.Nested) (members : Pattern.Regex) :
    (callSites u members).Pairwise fun a b => Place.Differ a.call b.call := by
  refine List.Pairwise.filter _ (List.pairwise_filterMap.2 ?_)
  refine (Place.all_differ (p := u.place) hu.ordered).imp fun {a b} hab x hx y hy => ?_
  rw [(Place.repositoryCall?_parts hx).1, (Place.repositoryCall?_parts hy).1]
  exact hab

theorem outside_of_sorted (hu : u.Closed) {l r : List Place.RepositoryCall}
    (hl : sortSites (callSites u members) = l ++ x :: r) {rule : Rules.Rule}
    (hrule : Rules.rule? (x.method.text u.source) = some rule) {d : Place.RepositoryCall}
    (hd : d ∈ l) (hdc : Convertible u d) : Outside x d := by
  have hsorted := Sorting.sortBy_sorted runsBefore_weak (callSites u members)
  have hdiffer : (sortSites (callSites u members)).Pairwise fun a b =>
      Place.Differ a.call b.call := by
    rw [sortSites_eq]
    refine ((Sorting.sortBy_perm _ _).pairwise_iff fun {a b} hab he => ?_).2
      (callSites_differ hu.toNested members)
    have := hab he.symm
    simpa only [Place.start, Place.stop, he] using this
  rw [← sortSites_eq] at hsorted
  have hbefore := (List.pairwise_append.1 (hl ▸ hsorted)).2.2 d hd x (by simp)
  have hdiff := (List.pairwise_append.1 (hl ▸ hdiffer)).2.2 d hd x (by simp)
  have hx := mem_callSites (mem_sortSites.1 (hl ▸ List.mem_append_right l List.mem_cons_self))
  have ho := splits_of_parts hu hx.2 hx.1.within hrule
  have hsplits : x.call.tree.Splits := ⟨_, Tree.child?_mem hx.2.callee, _,
    Tree.child?_mem hx.2.arguments, ho.1, ho.2.1, ho.2.2.1⟩
  rintro ⟨h1, h2⟩
  -- a call that comes before another and is around it has its range, and is met twice
  have hrange : d.call.start = x.call.start ∧ d.call.stop = x.call.stop := by
    simp only [runsBefore] at hbefore
    split at hbefore <;> simp_all <;> omega
  have htree := Tree.Splits.eq_of_range hu.ordered hdc.rooted.within hx.1.within (hdc.splits hu)
    hsplits hrange.1 hrange.2
  have hne := (hdc.splits hu).nonempty (Tree.everyNode_within hu.ordered hdc.rooted.within)
  have := hdiff htree
  simp only [Place.start, Place.stop] at this
  omega

def attempt (u : SourceUnit) (x : Place.RepositoryCall) : Pass Unit :=
  Pass.orOnOverlap (convertCall u x) fun o =>
    Pass.say .warning s!"Skipping call at line {lineNumber u.source x.call.start}: {o.message}"

theorem convertCalls_eq (u : SourceUnit) (sites : List Place.RepositoryCall) :
    convertCalls u sites = (sortSites sites).forM (attempt u) := rfl

theorem attempts_attend (hu : u.Closed)
    (hbase : ∀ e ∈ base.edits, e.start = e.stop ∨ IsInjectionEdit u e)
    {done rest : List Place.RepositoryCall}
    (hsites : sortSites (callSites u members) = done ++ rest) {E : Fault → Session → Prop} :
    Holds (Attends u base start n [] base) (done.forM (attempt u))
      (fun _ => Attends u base start n (done.filter (converts u base)) (shadow u base done)) E := by
  refine Holds.forM (I := fun l => Attends u base start n (l.filter (converts u base))
    (shadow u base l)) fun l x r hl => ?_
  rw [hl, List.append_assoc, List.cons_append] at hsites
  have hmem : ∀ y ∈ l ++ x :: (r ++ rest), y ∈ callSites u members := fun y hy =>
    mem_sortSites.1 (hsites ▸ hy)
  have hK : ∀ d ∈ l.filter (converts u base), Convertible u d := by
    intro d hd
    obtain ⟨hdl, hdc⟩ := List.mem_filter.1 hd
    exact convertible_of_converts (hmem d (by simp [hdl])) hdc
  have hshadow : shadow u base (l ++ [x]) = withAdvisories u base (shadow u base l) x := by
    simp [shadow]
  rw [List.filter_append, hshadow]
  refine Holds.orOnOverlap (F := fun _ => Attends u base start n
    (l.filter (converts u base) ++ [x].filter (converts u base))
    (withAdvisories u base (shadow u base l) x)) ?_ fun o => Holds.modify fun _ h => h.told rfl rfl
  refine (convertCall_attends hu hbase (hmem x (by simp)) hK fun rule hrule d hd =>
    outside_of_sorted hu hsites hrule (List.mem_of_mem_filter hd) (hK d hd)).mono (fun _ h => h)
      (fun _ _ h => h) ?_
  rintro e s ⟨⟨o, rfl⟩, h⟩
  exact h

theorem convertCalls_attends (hu : u.Closed)
    (hbase : ∀ e ∈ base.edits, e.start = e.stop ∨ IsInjectionEdit u e) (members : Pattern.Regex)
    {E : Fault → Session → Prop} :
    Holds (Attends u base start n [] base) (convertCalls u (callSites u members))
      (fun _ => Attends u base start n ((sortSites (callSites u members)).filter (converts u base))
        (shadow u base (sortSites (callSites u members)))) E := by
  rw [convertCalls_eq]
  exact attempts_attend hu hbase (List.append_nil _).symm

end OrmCodemod.Calls
