import OrmCodemod.Proofs.Composition
import OrmCodemod.Proofs.Grammar.Parsed
import OrmCodemod.Proofs.Requests

/-! A call is converted as a whole or not at all. A conversion replaces the callee, then perhaps the
arguments, and then puts advisories, with nothing that takes a step back. That the later steps find
room once the first one did follows from how the ranges are nested: whatever was replaced before and is
not inside the call either holds the whole call, and then the callee is refused, or is apart from it. -/

namespace OrmCodemod

open Syntax Text Pass

namespace Editor

variable {ed : Editor} {q : Place} {p : Nat}

theorem advised_grows (ed : Editor) (q : Place) (comment : String) :
    ed.edits ⊆ (ed.advised q comment).edits := by
  unfold advised
  split
  · rename_i hok
    rcases insertCommentBefore_ok hok with rfl | hins
    · exact List.Subset.refl _
    · obtain ⟨-, rfl⟩ := insertAt_eq_ok.1 hins
      exact List.subset_append_left _ _
  · exact List.Subset.refl _

theorem foldl_advised_grows (q : Place) (comments : List String) (ed : Editor) :
    ed.edits ⊆ (comments.foldl (·.advised q ·) ed).edits := by
  induction comments generalizing ed with
  | nil => exact List.Subset.refl _
  | cons c cs ih => exact List.Subset.trans (advised_grows ed q c) (ih (ed.advised q c))

theorem Clear.advised (h : ed.Clear p p) (q : Place) (comment : String) :
    (ed.advised q comment).Clear p p := by
  intro e he
  rcases (advised_cases ed q comment).2 e he with hmem | ⟨h1, h2⟩
  · exact h e hmem
  · omega

theorem noted_of_grows {ed' : Editor} (hsource : ed'.source = ed.source)
    (hedits : ed.edits ⊆ ed'.edits) {comment : String} (h : ed.noted q comment = true) :
    ed'.noted q comment = true := by
  unfold noted leadingComments at h ⊢
  rw [hsource]
  rw [Bool.or_eq_true] at h ⊢
  refine h.imp_right fun hany => ?_
  obtain ⟨e, he, h⟩ := List.any_eq_true.1 hany
  exact List.any_eq_true.2 ⟨e, hedits he, h⟩

/-- Where there is room, a comment is put unless it stands there already. -/
theorem insertCommentBefore_of_clear (h : ed.Clear q.statement.start q.statement.start)
    (comment : String) :
    ed.insertCommentBefore q comment = .ok (!ed.noted q comment, ed.advised q comment) ∧
      (ed.advised q comment).noted q comment = true := by
  have hok : ed.insertAt q.statement.start
      (commentText (lineIndent ed.source q.statement.start) comment) = .ok _ :=
    insertAt_eq_ok.2 ⟨h, rfl⟩
  unfold advised
  rw [insertCommentBefore_eq, hok]
  cases hn : ed.noted q comment with
  | true => exact ⟨rfl, hn⟩
  | false =>
    refine ⟨rfl, ?_⟩
    simp [noted, record, Except.map, Edit.isInsertion]

theorem foldl_advised_noted (h : ed.Clear q.statement.start q.statement.start)
    {comments : List String} {comment : String} (hc : comment ∈ comments) :
    (comments.foldl (·.advised q ·) ed).noted q comment = true := by
  induction comments generalizing ed with
  | nil => simp at hc
  | cons c cs ih =>
    rcases List.mem_cons.1 hc with rfl | hc
    · have hsource : ∀ (cs : List String) (ed : Editor),
          (cs.foldl (·.advised q ·) ed).source = ed.source := by
        intro cs
        induction cs with
        | nil => exact fun _ => rfl
        | cons c cs ih => exact fun ed => (ih (ed.advised q c)).trans (advised_cases ed q c).1
      exact noted_of_grows (hsource cs _) (foldl_advised_grows q cs _)
        (insertCommentBefore_of_clear h comment).2
    · exact ih (h.advised q c) hc

end Editor

namespace Pass

variable {q : Place}

theorem advises_made (comments : List String) :
    ∀ {s : Session}, s.editor.Clear q.statement.start q.statement.start →
      ∃ put n, (comments.mapM (advise q)).result s =
        (.ok put, { s with editor := comments.foldl (·.advised q ·) s.editor, advisories := n }) := by
  induction comments with
  | nil => exact fun {s} _ => ⟨[], s.advisories, rfl⟩
  | cons c cs ih =>
    intro s h
    have hfirst := result_advise q c s
    rw [(Editor.insertCommentBefore_of_clear h c).1] at hfirst
    set s1 : Session := { s with
      editor := s.editor.advised q c
      advisories := if !s.editor.noted q c then s.advisories + 1 else s.advisories }
    obtain ⟨put, n, hrest⟩ := ih (s := s1) (h.advised q c)
    refine ⟨(!s.editor.noted q c) :: put, n, ?_⟩
    rw [List.mapM_cons, result_bind_ok hfirst, result_bind_ok hrest]
    rfl

/-- Where there is no room, comments that stand there already are passed over, and the first other one
is refused: in no case does anything change. -/
theorem advises_refused (comments : List String) {s : Session}
    (h : ¬s.editor.Clear q.statement.start q.statement.start) :
    (∃ put, (comments.mapM (advise q)).result s = (.ok put, s) ∧
      ∀ comment ∈ comments, s.editor.noted q comment = true) ∨
    ∃ o, (comments.mapM (advise q)).result s = (.error (.overlap o), s) := by
  induction comments with
  | nil => exact .inl ⟨[], rfl, by simp⟩
  | cons c cs ih =>
    have hfirst := result_advise q c s
    rw [Editor.insertCommentBefore_eq] at hfirst
    rw [List.mapM_cons]
    by_cases hn : s.editor.noted q c = true
    · have hsame : (advise q c).result s = (.ok false, s) := by rw [hfirst, if_pos hn]; rfl
      rw [result_bind_ok hsame]
      rcases ih with ⟨put, hrest, hall⟩ | ⟨o, hrest⟩
      · exact .inl ⟨false :: put, by rw [result_bind_ok hrest]; rfl, by simpa [hn] using hall⟩
      · exact .inr ⟨o, by rw [result_bind, hrest]⟩
    · rw [if_neg hn] at hfirst
      cases hi : s.editor.insertAt q.statement.start
          (Editor.commentText (lineIndent s.editor.source q.statement.start) c) with
      | ok ed => exact absurd (Editor.insertAt_eq_ok.1 hi).1 h
      | error o =>
        rw [hi] at hfirst
        refine .inr ⟨o, ?_⟩
        rw [result_bind, hfirst]
        rfl

end Pass

namespace Calls

variable {u : SourceUnit} {K : List Place.RepositoryCall} {x : Place.RepositoryCall}
  {base sh ed : Editor} {members : Pattern.Regex} {rule : Rules.Rule} {owner : Tree}

theorem forM_of_mapM {α β : Type} {f : α → Pass β} {as : List α} {bs : List β} {s s' : Session}
    (h : (as.mapM f).result s = (.ok bs, s')) :
    (as.forM fun a => do let _ ← f a).result s = (.ok (), s') := by
  rw [forM_eq_mapM, result_bind_ok h]
  rfl

def changes (u : SourceUnit) (x : Place.RepositoryCall) (rule : Rules.Rule) (owner : Tree)
    (render : Rules.Render) : List Editor.Change :=
  ⟨x.callee.start, x.callee.stop, (conversion u x rule owner).calleeText u render⟩ ::
    match (conversion u x rule owner).argumentsText u render with
    | some text => [⟨x.arguments.start, x.arguments.stop, text⟩]
    | none => []

theorem apply_made (hu : u.Closed) (hx : Convertible u x) (rule : Rules.Rule) (owner : Tree)
    {s : Session} (hcallee : s.editor.Clear x.callee.start x.callee.stop)
    (hargs : s.editor.Clear x.arguments.start x.arguments.stop) :
    ∃ log, (apply u x owner rule).result s = (.ok (), { s with
      editor := s.editor.changedBy (changes u x rule owner (renderText s.editor)), log }) := by
  obtain ⟨log, hs⟩ := modelOf_result u x.call s
  have ho := hx.order hu
  set k := conversion u x rule owner with hk
  set c : Editor.Change := ⟨x.callee.start, x.callee.stop, k.calleeText u (renderText s.editor)⟩
    with hc
  have hfirst : (s.editor.changedBy []).replaceRange c.start c.stop c.text =
      .ok (s.editor.changedBy ([] ++ [c])) := Editor.changedBy_concat hcallee (by simp)
  rw [Editor.changedBy_nil, List.nil_append] at hfirst
  have hedit : (edit (·.replace x.callee (k.calleeText u (renderText s.editor)))).result
      { s with log } = (.ok (), { s with editor := s.editor.changedBy [c], log }) := by
    rw [result_edit]
    dsimp only [Editor.replace]
    rw [hfirst]
  refine ⟨log, ?_⟩
  rw [apply_result hs, ← hk, result_bind_ok hedit, changes, ← hk, ← hc]
  dsimp only
  cases hnew : rule.reshape x.call.tree.callArguments (renderText s.editor)
      fun m => m.memberKey u.source with
  | none =>
    have hnone : k.argumentsText u (renderText s.editor) = none := congrArg (Option.map _) hnew
    rw [hnone]
    rfl
  | some texts =>
    have hsome : k.argumentsText u (renderText s.editor) =
        some ("(" ++ joinWith ", " texts ++ ")") := congrArg (Option.map _) hnew
    have hapart : ∀ d ∈ [c], d.start < d.stop ∧
        (d.stop ≤ x.arguments.start ∨ x.arguments.stop ≤ d.start) := by
      simpa using ⟨ho.1, .inl ho.2.1⟩
    have hsecond := Editor.changedBy_concat
      (c := ⟨x.arguments.start, x.arguments.stop, "(" ++ joinWith ", " texts ++ ")"⟩) hargs hapart
    rw [hsome]
    dsimp only
    rw [result_edit]
    dsimp only [Editor.replace]
    rw [hsecond]
    rfl

/-- The statement of a call outside of a replaced parameter does not start inside that. -/
theorem statement_free (hu : u.Closed) (hx : x.call.Rooted u.root) {e : Edit}
    (he : IsInjectionEdit u e) (hfree : ¬(e.start ≤ x.call.start ∧ x.call.stop ≤ e.stop)) :
    ¬(e.start < x.call.statement.start ∧ x.call.statement.start < e.stop) := by
  have hr := hu.ordered
  cases he with
  | client p hp on _ =>
    obtain ⟨params, hf, hmem⟩ := hp.rooted
    have hpr := (hf.child hmem).within
    obtain ⟨h1, h2⟩ := on
    rw [h1, h2]
    refine statement_outside hu.toNested hx hpr fun hw => hfree ?_
    have := hw.range (Tree.everyNode_within hr hpr)
    simp only [Place.start, Place.stop]
    omega
  | removal p hp h1 h2 _ =>
    obtain ⟨params, hf, hmem⟩ := hp.rooted
    obtain ⟨hs, hxs⟩ := hx.statement
    have hb := Editor.itemRange_bounds hf hmem hr
    have hrange := hu.node hs.within
    simp only [Place.start, Place.stop] at hb hfree ⊢
    rcases Editor.itemRange_within hf hmem hr hs.within with ⟨y, hy, -, h3, h4, hsy⟩ | h | h | h
    · have := (hxs.trans hsy).range
        (Tree.everyNode_within hr ((Tree.within_of_mem hy).trans hf.within))
      omega
    · have := h.range (Tree.everyNode_within hr hs.within)
      omega
    · omega
    · omega

/-- Before the statement of a call that lies in no replacement there is room. -/
theorem Tracks.room (hu : u.Closed) (h : Tracks u base K sh ed)
    (hbase : ∀ e ∈ base.edits, e.start = e.stop ∨ IsInjectionEdit u e) (hx : x.call.Rooted u.root)
    (hfree : Free base x) (hout : ∀ n ∈ taken u K, ¬x.call.tree.Within n) :
    ed.Clear x.call.statement.start x.call.statement.start := by
  intro e he
  rcases h.follows.recorded.all e he with hL | hL | ⟨n, hn, h1, h2⟩
  · omega
  · rcases hbase e hL with hins | hinj
    · omega
    · have := statement_free hu hx hinj (hfree e hL (hinj.nonempty hu.toNested).ne)
      omega
  · obtain ⟨d, hd, hnd⟩ := mem_taken.1 hn
    have := statement_outside hu.toNested hx ((h.calls d hd).part hu hnd).2.2.1 (hout n hn)
    omega

/-- The call is converted as its row says: its changes are recorded, every advisory of the row stands
before its statement, and the flag is set. -/
structure IsConverted (u : SourceUnit) (x : Place.RepositoryCall) (rule : Rules.Rule) (owner : Tree)
    (s s' : Session) : Prop where
  made : ∀ c ∈ changes u x rule owner (renderText s.editor), ∃ e ∈ s'.editor.edits,
    e.start = c.start ∧ e.stop = c.stop ∧ e.replacement = encode c.text
  advised : ∀ comment ∈ rule.advisories, s'.editor.noted x.call comment = true
  edits : s'.editor = rule.advisories.foldl (·.advised x.call ·)
    (s.editor.changedBy (changes u x rule owner (renderText s.editor)))
  rest : s' = { s with
    editor := s'.editor
    flags := { s.flags with services := true }
    advisories := s'.advisories
    log := s'.log }

theorem Tracks.converted (hu : u.Closed)
    (hbase : ∀ e ∈ base.edits, e.start = e.stop ∨ IsInjectionEdit u e) (hx : Convertible u x)
    (hout : ∀ d ∈ K, Outside x d) (hfree : Free base x)
    (hrule : Rules.rule? (x.method.text u.source) = some rule)
    (howner : x.receiver.child? .object = some owner) {s : Session}
    (h : Tracks u base K sh s.editor) :
    ∃ s', (do
        apply u x owner rule
        rule.advisories.forM fun advisory => do let _ ← Pass.advise x.call advisory
        Pass.setFlags fun f => { f with services := true } : Pass Unit).result s = (.ok (), s') ∧
      IsConverted u x rule owner s s' := by
  have ho := hx.order hu
  have hp := hx.parts
  have hcallee := h.clear hu hbase hx hout hfree
    (.child (Tree.child?_mem hp.callee) (by simp [Tree.isAny, Tree.linkKinds, hp.calleeKind])) ho.1
  have hargs := h.clear hu hbase hx hout hfree
    (.child (Tree.child?_mem hp.arguments) (by simp [Tree.isAny, Tree.linkKinds, hp.argumentsKind]))
    ho.2.2.1
  obtain ⟨log, hmade⟩ := apply_made hu hx rule owner hcallee hargs
  obtain ⟨s1, hs1, htracks, -⟩ := h.applied hu hbase hx hout hfree hrule howner
  obtain rfl : s1 = { s with
      editor := s.editor.changedBy (changes u x rule owner (renderText s.editor)), log } :=
    congrArg Prod.snd (hs1.symm.trans hmade)
  have hsafe : ∀ n ∈ taken u (K ++ [x]), ¬x.call.tree.Within n := by
    refine not_within_taken hu htracks.calls fun d hd => ?_
    rcases List.mem_append.1 hd with hd | hd
    · exact .inl (hout d hd)
    · exact .inr (List.mem_singleton.1 hd)
  have hroom := htracks.room hu hbase hx.rooted hfree hsafe
  obtain ⟨put, n, hput⟩ := Pass.advises_made rule.advisories hroom
  refine ⟨_, (result_bind_ok hmade _).trans
    ((result_bind_ok (forM_of_mapM hput) _).trans (result_setFlags _ _)), fun c hc => ?_,
    fun comment hc => Editor.foldl_advised_noted hroom hc, rfl, rfl⟩
  obtain ⟨e, he, h1, h2, h3, -⟩ := Editor.change_recorded s.editor hc
  exact ⟨e, Editor.foldl_advised_grows x.call rule.advisories _ he, h1, h2, h3⟩

/-- A call that is never converted gets its advisories, or is refused and leaves all as it is. -/
theorem advise_whole (rule : Rules.Rule) (s : Session) :
    (∃ o, (do
        let put ← rule.advisories.mapM (Pass.advise x.call)
        if put.any id then Pass.setFlags fun f => { f with services := true }
        : Pass Unit).result s = (.error (.overlap o), s)) ∨
    ∃ s', (do
        let put ← rule.advisories.mapM (Pass.advise x.call)
        if put.any id then Pass.setFlags fun f => { f with services := true }
        : Pass Unit).result s = (.ok (), s') ∧
      ∀ comment ∈ rule.advisories, s'.editor.noted x.call comment = true := by
  have hflag : ∀ (put : List Bool) (s : Session), ∃ s', (if put.any id = true then
      Pass.setFlags fun f => { f with services := true } else pure () : Pass Unit).result s =
        (.ok (), s') ∧ s'.editor = s.editor := by
    intro put s
    split <;> exact ⟨_, rfl, rfl⟩
  by_cases hroom : s.editor.Clear x.call.statement.start x.call.statement.start
  · obtain ⟨put, n, hput⟩ := Pass.advises_made rule.advisories hroom
    obtain ⟨s', hs', hed⟩ := hflag put _
    refine .inr ⟨s', (result_bind_ok hput _).trans hs', fun comment hc => ?_⟩
    rw [hed]
    exact Editor.foldl_advised_noted hroom hc
  · rcases Pass.advises_refused rule.advisories hroom with ⟨put, hput, hall⟩ | ⟨o, hput⟩
    · obtain ⟨s', hs', hed⟩ := hflag put s
      exact .inr ⟨s', (result_bind_ok hput _).trans hs', by rwa [hed]⟩
    · exact .inl ⟨o, by rw [result_bind, hput]⟩

/-- What a call leaves that is done with: it is converted if its row is supported and it has an owner,
and it is noted if its row is not. -/
structure IsDone (u : SourceUnit) (x : Place.RepositoryCall) (s s' : Session) : Prop where
  converted : ∀ rule owner, Rules.rule? (x.method.text u.source) = some rule →
    rule.supported = true → x.receiver.child? .object = some owner → IsConverted u x rule owner s s'
  noted : ∀ rule, Rules.rule? (x.method.text u.source) = some rule → rule.supported = false →
    ∀ comment ∈ rule.advisories, s'.editor.noted x.call comment = true

/-- A call is refused and leaves all but the log as it is, or it is done with. -/
theorem Tracks.whole (hu : u.Closed)
    (hbase : ∀ e ∈ base.edits, e.start = e.stop ∨ IsInjectionEdit u e)
    (hx : x ∈ callSites u members)
    (hout : ∀ rule, Rules.rule? (x.method.text u.source) = some rule → ∀ d ∈ K, Outside x d)
    {s : Session} (h : Tracks u base K sh s.editor) :
    (∃ o log, (convertCall u x).result s = (.error (.overlap o), { s with log }) ∧
      ∀ rule, Rules.rule? (x.method.text u.source) = some rule → rule.supported = true →
        ¬Free base x) ∨
    ∃ s', (convertCall u x).result s = (.ok (), s') ∧ IsDone u x s s' ∧
      ∀ rule, Rules.rule? (x.method.text u.source) = some rule → rule.supported = true →
        (x.receiver.child? .object).isSome → Free base x := by
  unfold convertCall
  cases hrule : Rules.rule? (x.method.text u.source) with
  | none => exact .inr ⟨s, rfl, ⟨by simp [hrule], by simp [hrule]⟩, by simp⟩
  | some rule =>
    cases hs : rule.supported with
    | false =>
      have hno : ∀ rule' : Rules.Rule, some rule = some rule' → rule'.supported ≠ true := by
        rintro _ ⟨⟩
        simp [hs]
      simp only [hs, Bool.not_false, if_true]
      rcases advise_whole rule s with ⟨o, hres⟩ | ⟨s', hres, hall⟩
      · exact .inl ⟨o, s.log, hres, fun rule' h1 h2 => absurd h2 (hno rule' h1)⟩
      · refine .inr ⟨s', hres, ⟨fun rule' _ h1 h2 => ?_, fun rule' h1 _ => ?_⟩,
          fun rule' h1 h2 => absurd h2 (hno rule' h1)⟩
        · exact absurd h2 (hno rule' (hrule ▸ h1))
        · rw [hrule] at h1
          exact Option.some.inj h1 ▸ hall
    | true =>
      simp only [hs, Bool.not_true, Bool.false_eq_true, if_false]
      cases howner : x.receiver.child? .object with
      | none =>
        refine .inr ⟨s, rfl, ⟨by simp [howner], fun rule' h1 h2 => ?_⟩, by simp⟩
        rw [hrule] at h1
        rw [← Option.some.inj h1, hs] at h2
        cases h2
      | some owner =>
        have hxc : Convertible u x :=
          ⟨(mem_callSites hx).1, mem_callSites_whole hx, ⟨rule, hrule⟩, ⟨owner, howner⟩⟩
        by_cases hfree : Free base x
        · obtain ⟨s', hres, hconv⟩ := h.converted hu hbase hxc (hout rule hrule) hfree hrule howner
          refine .inr ⟨s', hres, ⟨fun rule' owner' h1 _ h3 => ?_, fun rule' h1 h2 => ?_⟩,
            fun _ _ _ _ => hfree⟩
          · rw [hrule] at h1
            rw [howner] at h3
            exact Option.some.inj h1 ▸ Option.some.inj h3 ▸ hconv
          · rw [hrule] at h1
            rw [← Option.some.inj h1, hs] at h2
            cases h2
        · unfold Free at hfree
          push Not at hfree
          obtain ⟨e, he, hne, hcov⟩ := hfree
          obtain ⟨o, log, hres⟩ := h.blocked hu hxc (hout rule hrule) he hne hcov owner rule
          refine .inl ⟨o, log, by rw [result_bind, hres], fun _ _ _ hfree => ?_⟩
          exact hfree e he hne hcov

/-- A call is converted as a whole or not at all, whichever calls came before it. Where its conversion
fails, edits, flags, advisories and the schema are what they were, and the loop says that the call is
skipped; where it ends well, its changes are recorded and its advisories stand before its statement.
A call with a supported row fails exactly if it lies in a parameter that was replaced before. -/
theorem call_whole_or_none (u : SourceUnit) (hu : u.Closed) (members : Pattern.Regex) (s : Session)
    (hs : Recorded u (fun e => e.start = e.stop) s.editor)
    (done rest : List Place.RepositoryCall) (x : Place.RepositoryCall)
    (hsites : sortSites (callSites u members) = done ++ x :: rest) :
    ∃ before, (do convertConstructors u; done.forM (attempt u) : Pass Unit).result s =
        (.ok (), before) ∧
      (match (convertCall u x).result before with
      | (.error fault, after) => after = { before with log := after.log } ∧
          ∃ o : Overlap, fault = .overlap o ∧ (attempt u x).result before = (.ok (), { after with
            log := after.log ++ [⟨.warning,
              s!"Skipping call at line {lineNumber u.source x.call.start}: {o.message}"⟩] })
      | (.ok (), after) => IsDone u x before after ∧
          (attempt u x).result before = (.ok (), after)) ∧
      ∀ rule, Rules.rule? (x.method.text u.source) = some rule → rule.supported = true →
        (x.receiver.child? .object).isSome →
        (((convertCall u x).result before).1 = .ok () ↔
          ∀ e ∈ (afterConstructors u s).edits, e.start ≠ e.stop →
            ¬(e.start ≤ x.call.start ∧ x.call.stop ≤ e.stop)) := by
  obtain ⟨_, s1, hs1, hrec⟩ := (convertConstructors_holds
    (L := fun e => e.start = e.stop ∨ IsInjectionEdit u e) (E := fun _ _ => False) hu.toNested
    fun _ he => .inr he).exists_ok (hs.imp fun _ he => .inl he)
  have heq : s1.editor = afterConstructors u s := by rw [afterConstructors, hs1]
  obtain ⟨_, before, hrun, hattends⟩ :=
    (attempts_attend (E := fun _ _ => False) hu hrec.all hsites).exists_ok (.refl hrec)
  have htracks := hattends.toTracks
  have hx : x ∈ callSites u members := mem_sortSites.1 (hsites ▸ by simp)
  have hout : ∀ rule, Rules.rule? (x.method.text u.source) = some rule →
      ∀ d ∈ done.filter (converts u s1.editor), Outside x d := fun rule hrule d hd =>
    outside_of_sorted hu hsites hrule (List.mem_of_mem_filter hd) (htracks.calls d hd)
  refine ⟨before, (result_bind_ok hs1 _).trans hrun, ?_⟩
  have hattempt := result_orOnOverlap (convertCall u x) (fun o => Pass.say .warning
    s!"Skipping call at line {lineNumber u.source x.call.start}: {o.message}") before
  rcases htracks.whole hu hrec.all hx hout with ⟨o, log, hres, hnot⟩ | ⟨after, hres, hdone, hfree⟩
  · rw [hres] at hattempt ⊢
    refine ⟨⟨rfl, o, rfl, hattempt⟩, fun rule h1 h2 _ => iff_of_false (by simp) ?_⟩
    rw [← heq]
    exact hnot rule h1 h2
  · rw [hres] at hattempt ⊢
    refine ⟨⟨hdone, hattempt⟩, fun rule h1 h2 h3 => iff_of_true rfl ?_⟩
    rw [← heq]
    exact hfree rule h1 h2 h3

/-- A call in a parameter that is replaced, and one in the body, with an advisory. -/
def skippedSample : String :=
  "class A\x7bconstructor(a: Repository<X> = b.repository.find())\x7bc.repository.save(d)\x7d\x7d"

def skippedUnit : SourceUnit := ⟨encode skippedSample, (parse .typescript skippedSample).root, {}⟩

def skippedStart : Session := { editor := { source := skippedUnit.source } }

theorem skippedUnit_sites :
    (Pattern.parse skippedUnit.settings.memberPattern).toOption.map (fun members =>
      (sortSites (callSites skippedUnit members)).map fun x =>
        ((Rules.rule? (x.method.text skippedUnit.source)).map (·.supported),
          (x.receiver.child? .object).isSome,
          decide (∀ e ∈ (afterConstructors skippedUnit skippedStart).edits, e.start ≠ e.stop →
            ¬(e.start ≤ x.call.start ∧ x.call.stop ≤ e.stop)))) =
      some [(some true, true, false), (some true, true, true)] := by
  decide +kernel

theorem call_whole_or_none_sample : ∃ members first second middle after,
    sortSites (callSites skippedUnit members) = [first, second] ∧
    (do convertConstructors skippedUnit; [first].forM (attempt skippedUnit) : Pass Unit).result
      skippedStart = (.ok (), middle) ∧
    (convertCall skippedUnit second).result middle = (.ok (), after) ∧
    IsDone skippedUnit second middle after := by
  have hsites := skippedUnit_sites
  obtain ⟨members, -, hlist⟩ := Option.map_eq_some_iff.1 hsites
  obtain ⟨first, second, hsorted⟩ : ∃ first second,
      sortSites (callSites skippedUnit members) = [first, second] :=
    List.length_eq_two.1 (by simpa using congrArg List.length hlist)
  rw [hsorted] at hlist
  simp only [List.map_cons, List.map_nil, List.cons.injEq, Prod.mk.injEq, decide_eq_true_eq,
    and_true] at hlist
  obtain ⟨-, hrow, howner, hfree⟩ := hlist
  obtain ⟨rule, hrule, hsupported⟩ := Option.map_eq_some_iff.1 hrow
  obtain ⟨middle, hmiddle, hwhole, hiff⟩ := call_whole_or_none skippedUnit
    (parse_sheltered .typescript skippedSample {}).toClosed members skippedStart (Recorded.fresh _ _) [first] [] second hsorted
  have hok := (hiff rule hrule hsupported howner).2 hfree
  rcases hres : (convertCall skippedUnit second).result middle with ⟨_ | _, after⟩
  · rw [hres] at hok
    cases hok
  · rw [hres] at hwhole
    exact ⟨members, first, second, middle, after, hsorted, hmiddle, hres, hwhole.1⟩

end Calls

end OrmCodemod
