import OrmCodemod.Proofs.Completion
import OrmCodemod.Proofs.Composition
import OrmCodemod.Proofs.Frame
import OrmCodemod.Proofs.Lasting

/-! What a whole pass prints. Beside the editor of a pass runs one that gets every edit but those of the
calls. Once all stages are done, the editor shows the calls converted in what the other one shows, less
the calls that lie in a range which the import stage replaced. -/

namespace OrmCodemod

open Syntax Text Pass

/-- A text is part of another exactly if its characters are. -/
theorem Text.infix_iff {s t : String} {a b : List Char} (hs : s = String.ofList a)
    (ht : t = String.ofList b) : s.toList <:+: t.toList ↔ a <:+: b := by
  rw [hs, ht, String.toList_ofList, String.toList_ofList]

theorem Syntax.Place.repositoryCall?_names {p : Place} {x : Place.RepositoryCall}
    (h : p.repositoryCall? = some x) :
    x.method.is .propertyIdentifier = true ∧ x.receiver.child? .property = some x.member ∧
      x.member.is .propertyIdentifier = true := by
  unfold repositoryCall? at h
  split at h
  · cases h
  simp only [Option.bind_eq_bind, Option.bind_eq_some_iff, Option.ite_none_right_eq_some,
    Bool.and_eq_true, Option.some.injEq] at h
  obtain ⟨callee, -, _, -, method, -, receiver, -, member, h1, ⟨⟨⟨-, -⟩, h2⟩, h3⟩, heq⟩ := h
  rw [← heq]
  exact ⟨h2, h1, h3⟩

namespace Imports

variable {u : SourceUnit} {site : Place × String}

theorem registration_parts (hs : site ∈ registrationSites u) :
    ∃ callee registrar : Tree, site.1.tree.child? .callee = some callee ∧
      callee.child? .object = some registrar ∧ registrar.is .identifier = true ∧
      registrar.text u.source = Imports.registrar := by
  obtain ⟨r, hr, hsite⟩ := List.mem_filterMap.1 hs
  obtain ⟨p, -, hp⟩ := List.mem_filterMap.1 hr
  dsimp only at hsite
  split at hsite
  · rename_i htext
    rw [Bool.and_eq_true, beq_iff_eq] at htext
    obtain rfl := Option.some.inj hsite
    unfold Place.registration? at hp
    split at hp
    · cases hp
    simp only [Option.bind_eq_bind, Option.bind_eq_some_iff, Option.ite_none_right_eq_some,
      Bool.and_eq_true, Option.some.injEq] at hp
    obtain ⟨callee, h1, _, -, _, -, registrar, h2, ⟨⟨⟨-, h3⟩, -⟩, -⟩, rfl⟩ := hp
    exact ⟨callee, registrar, h1, h2, h3, htext.1⟩
  · cases hsite

theorem registration_nonempty (hu : u.Nested) (hs : site ∈ registrationSites u) :
    site.1.start < site.1.stop := by
  obtain ⟨callee, registrar, h1, h2, -, htext⟩ := registration_parts hs
  have hne : registrar.text u.source ≠ "" := by
    rw [htext]
    decide
  have hlt := Tree.nonempty_of_text hne
  have hw := (Tree.within_of_mem (Tree.child?_mem h2)).trans (Tree.within_of_mem (Tree.child?_mem h1))
  have := hw.range (Tree.everyNode_within hu.ordered (registration_within hs).1.within)
  simp only [Place.start, Place.stop]
  omega

theorem registration_ne (hs : site ∈ registrationSites u) {x : Place.RepositoryCall} (hx : x.Parts) :
    site.1.tree ≠ x.call.tree := by
  intro heq
  obtain ⟨callee, registrar, h1, h2, h3, -⟩ := registration_parts hs
  rw [heq, hx.callee] at h1
  rw [← Option.some.inj h1, hx.receiver] at h2
  have hk := hx.receiverKind
  rw [Option.some.inj h2, Tree.is_iff] at hk
  rw [Tree.is_iff, hk] at h3
  cases h3

end Imports

namespace Calls

variable {u : SourceUnit} {K all : List Place.RepositoryCall} {x : Place.RepositoryCall}
  {v w : View} {sh ed ed' : Editor} {a b p : Nat} {text : String}

def leaving (K : List Place.RepositoryCall) (a b : Nat) : List Place.RepositoryCall :=
  K.filter fun x => decide ¬(a ≤ x.call.start ∧ x.call.stop ≤ b)

theorem mem_leaving : x ∈ leaving K a b ↔ x ∈ K ∧ ¬(a ≤ x.call.start ∧ x.call.stop ≤ b) := by
  rw [leaving, List.mem_filter, decide_eq_true_iff]

/-- `[a, b)` holds a call or is apart from what is replaced of it. -/
def Beside (u : SourceUnit) (x : Place.RepositoryCall) (a b : Nat) : Prop :=
  (a ≤ x.call.start ∧ x.call.stop ≤ b) ∨ ∀ n ∈ replacedParts u x, n.stop ≤ a ∨ b ≤ n.start

theorem Convertible.part_range (hu : u.Closed) (h : Convertible u x) {n : Tree}
    (hn : n ∈ replacedParts u x) : x.call.start ≤ n.start ∧ n.start < n.stop ∧ n.stop ≤ x.call.stop := by
  obtain ⟨hmem, hlt, -, -⟩ := h.part hu hn
  have := Tree.child_range (Tree.everyNode_within hu.ordered h.rooted.within) hmem
  exact ⟨this.1, hlt, this.2.2⟩

theorem scene_model_leaving (hu : u.Closed) (hK : ∀ x ∈ K, Convertible u x) {t : Tree}
    (hapart : ¬(a ≤ t.start ∧ t.stop ≤ b) ∨ t.stop ≤ a ∨ b ≤ t.start) :
    (scene u v K).model? t = (scene u w (leaving K a b)).model? t := by
  have hfind : (leaving K a b).find? (fun x => Scene.sameRange x.call.tree t) =
      K.find? fun x => Scene.sameRange x.call.tree t := by
    rw [leaving, List.find?_filter]
    refine List.find?_congr fun y hy => ?_
    by_cases hsame : Scene.sameRange y.call.tree t = true
    · have hrange := Scene.sameRange_iff.1 hsame
      have hne := ((hK y hy).splits hu).nonempty
        (Tree.everyNode_within hu.ordered (hK y hy).rooted.within)
      have hout : ¬(a ≤ y.call.start ∧ y.call.stop ≤ b) := by
        simp only [Place.start, Place.stop]
        omega
      simp [hsame, hout]
    · simp [hsame]
  simp only [scene, hfind]

theorem taken_leaving (hu : u.Closed) (hK : ∀ x ∈ K, Convertible u x) (a b : Nat) {n : Tree}
    (hn : n ∈ taken u K) : n ∈ taken u (leaving K a b) ∨ (a ≤ n.start ∧ n.stop ≤ b) := by
  obtain ⟨x, hx, hnx⟩ := mem_taken.1 hn
  by_cases hin : a ≤ x.call.start ∧ x.call.stop ≤ b
  · have := (hK x hx).part_range hu hnx
    exact .inr (by omega)
  · exact .inl (mem_taken.2 ⟨x, mem_leaving.2 ⟨hx, hin⟩, hnx⟩)

theorem mem_taken_of_leaving {n : Tree} (hn : n ∈ taken u (leaving K a b)) : n ∈ taken u K := by
  obtain ⟨x, hx, hnx⟩ := mem_taken.1 hn
  exact mem_taken.2 ⟨x, (mem_leaving.1 hx).1, hnx⟩

theorem piece_leaving (hu : u.Closed) (hK : ∀ x ∈ K, Convertible u x) (hab : a < b) (text : Bytes)
    (hx : x ∈ leaving K a b) {n : Tree} (hn : n ∈ replacedParts u x)
    (hapart : n.stop ≤ a ∨ b ≤ n.start) :
    (scene u v K).piece (scene u v K).text x.call.tree n =
      (scene u (v.replace a b text) (leaving K a b)).piece
        (scene u (v.replace a b text) (leaving K a b)).text x.call.tree n := by
  obtain ⟨hxK, hout⟩ := mem_leaving.1 hx
  obtain ⟨hmem, hlt, hnr, -⟩ := (hK x hxK).part hu hn
  have hcall := (hK x hxK).rooted.within
  refine Scene.piece_congr (Tree.test_within hu.ordered hcall) hmem hlt rfl
    (scene_model_leaving hu hK (.inl hout)) fun m hm => ?_
  have hmr := hm.trans hnr
  have hrange := hm.range (Tree.everyNode_within hu.ordered hnr)
  refine Scene.text_congr (scene_unit u _ _ _ _) (Tree.everyNode_within hu.ordered hmr)
    (fun q h1 h2 => ?_) (fun q h1 h2 => ?_) fun s hs => ?_
  · exact (View.replace_shown v hab (by omega)).symm
  · exact (View.replace_inserted v (by omega)).symm
  · have hsr := hs.range (Tree.everyNode_within hu.ordered hmr)
    exact scene_model_leaving hu hK (.inr (by omega))

theorem Shows.replaceRange (hu : u.Closed) (hK : ∀ x ∈ K, Convertible u x) (h : Shows u K v w)
    (hab : a < b) (hbeside : ∀ x ∈ K, Beside u x a b) (text : Bytes) :
    Shows u (leaving K a b) (v.replace a b text) (w.replace a b text) := by
  refine ⟨fun p hp => ?_, fun p hp => ?_, fun x hx hcov n hn => ?_⟩
  · by_cases hin : a < p ∧ p < b
    · simp [View.replace, hin]
    · rw [View.replace_inserted _ hin, View.replace_inserted _ hin]
      refine h.inserted p fun n hn hnp => ?_
      rcases taken_leaving hu hK a b hn with h1 | h1
      · exact hp n h1 hnp
      · omega
  · by_cases hin : a ≤ p ∧ p < b
    · simp only [View.replace]
      by_cases hpa : p = a
      · simp [hpa]
      · rw [if_neg hpa, if_neg hpa, if_pos (by omega), if_pos (by omega)]
    · rw [View.replace_shown _ hab hin, View.replace_shown _ hab hin]
      refine h.shown p fun n hn hnp => ?_
      rcases taken_leaving hu hK a b hn with h1 | h1
      · exact hp n h1 hnp
      · omega
  · obtain ⟨hxK, hout⟩ := mem_leaving.1 hx
    have hapart : n.stop ≤ a ∨ b ≤ n.start := by
      rcases hbeside x hxK with h1 | h1
      · exact absurd h1 hout
      · exact h1 n hn
    have hfree : ¬Covered u K x.call.start x.call.stop := by
      rintro ⟨m, hm, hcm⟩
      rcases taken_leaving hu hK a b hm with h1 | h1
      · exact hcov ⟨m, h1, hcm⟩
      · exact hout (by omega)
    rw [View.replace_span_apart w hab hapart, h.part x hxK hfree n hn]
    exact piece_leaving hu hK hab text hx hn hapart

/-- What a pass edits but its calls. -/
inductive Around (u : SourceUnit) (e : Edit) : Prop where
  | advisory (q : Place) (comment : String) (rooted : q.Rooted u.root) (nonempty : q.start < q.stop)
      (inner : q.tree.children ≠ []) (below : q.tree.isAny [.program] = false)
      (listed : comment ∈ advisoryTexts) (before : e.IsAdvisory u q comment)
  | line (symbol path : String) (wanted : Imports.isWanted u symbol path) (start : e.start = 0)
      (stop : e.stop = 0) (text : e.replacement = encode (Imports.importLine u symbol path))
  | injection (edit : IsInjectionEdit u e)
  | registration (site : Place × String) (mem : site ∈ Imports.registrationSites u)
      (on : e.IsOn site.1.tree)
      (text : e.replacement = encode (Imports.registrationText u site.2))
  | clause (p : Place) (path : String) (clause : Tree) (mem : p ∈ Imports.importStatements u)
      (module : Imports.modulePath? u p.tree = some path) (library : Imports.isLibrary path)
      (found : Imports.clause? p.tree = some clause) (on : e.IsOn clause)
      (nonempty : clause.start < clause.stop)
  | statement (p : Place) (path : String) (mem : p ∈ Imports.importStatements u)
      (module : Imports.modulePath? u p.tree = some path)
      (given : Imports.isLibrary path ∨ Imports.isRepositoryPath path = true)
      (nonempty : p.start < p.stop)
      (takes : Editor.TakesLine u.source p.tree e.start e.stop) (text : e.replacement = [])

/-- The editor shows the calls `K` converted in what its mirror `sh` shows, which has all other edits.
The calls of `all` that are not among them lie in a replacement of the mirror. -/
structure Mirrors (u : SourceUnit) (all K : List Place.RepositoryCall) (sh ed : Editor) : Prop where
  shows : Shows u K sh.view ed.view
  calls : ∀ x ∈ K, Convertible u x
  edits : Recorded u (fun _ => True) ed
  around : Recorded u (Around u) sh
  covered : ∀ n ∈ taken u K, ∃ e ∈ ed.edits, e.start ≤ n.start ∧ n.stop ≤ e.stop
  held : ∀ e ∈ sh.edits, e.start ≠ e.stop →
    ∃ e' ∈ ed.edits, e'.start ≤ e.start ∧ e.stop ≤ e'.stop
  known : ∀ e ∈ ed.edits, e.start ≠ e.stop →
    (∃ e' ∈ sh.edits, e'.start = e.start ∧ e'.stop = e.stop) ∨ ∃ n ∈ taken u K, e.IsOn n
  notes : ∀ p, (∀ n ∈ taken u K, ¬(n.start < p ∧ p < n.stop)) → ed.notesAt p = sh.notesAt p
  gone : ∀ x ∈ all, x ∈ K ∨
    ∃ e ∈ sh.edits, e.start ≠ e.stop ∧ e.start ≤ x.call.start ∧ x.call.stop ≤ e.stop

theorem Mirrors.clear (h : Mirrors u all K sh ed) (hc : ed.Clear a b) : sh.Clear a b := by
  intro e he
  have hrange := h.around.sound.range e he
  by_cases hins : e.start = e.stop
  · rw [Edit.inside_iff]
    omega
  · obtain ⟨e', he', h1, h2⟩ := h.held e he hins
    have hcut := hc e' he'
    rw [Edit.inside_iff] at hcut ⊢
    omega

theorem Mirrors.insertAt (hu : u.Closed) (h : Mirrors u all K sh ed)
    (hp : ∀ n ∈ taken u K, ¬(n.start < p ∧ p < n.stop)) (hlen : p ≤ u.source.length)
    (hL : ∀ k, Around u ⟨p, p, encode text, k⟩) (he : ed.insertAt p text = .ok ed') :
    ∃ sh', sh.insertAt p text = .ok sh' ∧ Mirrors u all K sh' ed' := by
  have hsh : sh.insertAt p text = .ok (sh.record p p text) :=
    Editor.insertAt_eq_ok.2 ⟨h.clear (Editor.insertAt_eq_ok.1 he).1, rfl⟩
  have hmem : ed.edits ⊆ ed'.edits := by
    obtain ⟨-, rfl⟩ := Editor.insertAt_eq_ok.1 he
    exact List.subset_append_left _ _
  refine ⟨sh.record p p text, hsh, ?_, h.calls, h.edits.insertAt hlen (fun _ => trivial) he,
    h.around.insertAt hlen hL hsh, fun n hn => ?_, fun e hsh' hne => ?_, fun e hed hne => ?_,
    fun q hq => ?_, fun x hx => ?_⟩
  · rw [Editor.view_insertedAt he, Editor.view_insertedAt hsh]
    exact h.shows.put hu h.calls hp
  · obtain ⟨e, he, hin⟩ := h.covered n hn
    exact ⟨e, hmem he, hin⟩
  · rcases List.mem_append.1 hsh' with hsh' | hsh'
    · obtain ⟨e', he', hin⟩ := h.held e hsh' hne
      exact ⟨e', hmem he', hin⟩
    · obtain rfl := List.mem_singleton.1 hsh'
      exact absurd rfl hne
  · obtain ⟨-, rfl⟩ := Editor.insertAt_eq_ok.1 he
    rcases List.mem_append.1 hed with hed | hed
    · exact (h.known e hed hne).imp_left fun ⟨e', he', hr⟩ => ⟨e', List.mem_append_left _ he', hr⟩
    · obtain rfl := List.mem_singleton.1 hed
      exact absurd rfl hne
  · rw [Editor.notesAt_insertedAt he, Editor.notesAt_insertedAt hsh, h.notes q hq]
  · rcases h.gone x hx with hK | ⟨e, he, hin⟩
    · exact .inl hK
    · exact .inr ⟨e, List.mem_append_left _ he, hin⟩

theorem Mirrors.replaceRange (hu : u.Closed) (h : Mirrors u all K sh ed) (hab : a < b)
    (hlen : b ≤ u.source.length) (hbeside : ∀ x ∈ K, Beside u x a b)
    (hL : ∀ k, Around u ⟨a, b, encode text, k⟩) (he : ed.replaceRange a b text = .ok ed') :
    ∃ sh', sh.replaceRange a b text = .ok sh' ∧ Mirrors u all (leaving K a b) sh' ed' := by
  obtain ⟨sh', hsh⟩ : ∃ sh', sh.replaceRange a b text = .ok sh' :=
    ⟨_, Editor.replaceRange_eq_ok.2 ⟨h.clear (Editor.replaceRange_eq_ok.1 he).1, rfl⟩⟩
  refine ⟨sh', hsh, ?_, fun x hx => h.calls x (mem_leaving.1 hx).1,
    h.edits.replaceRange hab.le hlen (fun _ => trivial) he, h.around.replaceRange hab.le hlen hL hsh,
    fun n hn => ?_, fun e hsh' hne => ?_, fun e hed hne => ?_, fun q hq => ?_, fun x hx => ?_⟩
  · rw [Editor.view_replaced h.edits.sound hab (h.edits.source ▸ hlen) he,
      Editor.view_replaced h.around.sound hab (h.around.source ▸ hlen) hsh]
    exact h.shows.replaceRange hu h.calls hab hbeside _
  · obtain ⟨e, hmem, hin⟩ := h.covered n (mem_taken_of_leaving hn)
    exact Editor.covered_replaced he hmem hin
  · obtain ⟨-, rfl⟩ := Editor.replaceRange_eq_ok.1 hsh
    rcases List.mem_append.1 hsh' with hsh' | hsh'
    · obtain ⟨e', hmem, hin⟩ := h.held e (Editor.mem_outside.1 hsh').1 hne
      exact Editor.covered_replaced he hmem hin
    · obtain rfl := List.mem_singleton.1 hsh'
      exact Editor.covered_self he
  · obtain ⟨-, rfl⟩ := Editor.replaceRange_eq_ok.1 he
    obtain ⟨-, rfl⟩ := Editor.replaceRange_eq_ok.1 hsh
    rcases List.mem_append.1 hed with hed | hed
    · obtain ⟨hmem, hout⟩ := Editor.mem_outside.1 hed
      rcases h.known e hmem hne with ⟨e', he', h1, h2⟩ | ⟨n, hn, hon⟩
      · have hsame : e'.inside a b = e.inside a b := by
          rw [Bool.eq_iff_iff, Edit.inside_iff, Edit.inside_iff, h1, h2]
        exact .inl ⟨e', List.mem_append_left _ (Editor.mem_outside.2 ⟨he', hsame.trans hout⟩), h1, h2⟩
      · -- the call of the part stays, or the edit would be in the range
        obtain ⟨x, hx, hnx⟩ := mem_taken.1 hn
        refine .inr ⟨n, mem_taken.2 ⟨x, mem_leaving.2 ⟨hx, fun hin => ?_⟩, hnx⟩, hon⟩
        have hpart := (h.calls x hx).part_range hu hnx
        rw [← Bool.not_eq_true, Edit.inside_iff, hon.1, hon.2] at hout
        omega
    · obtain rfl := List.mem_singleton.1 hed
      exact .inl ⟨_, List.mem_append_right _ (List.mem_singleton_self _), rfl, rfl⟩
  · by_cases hin : a < q ∧ q < b
    · rw [Editor.notesAt_inside he hin, Editor.notesAt_inside hsh hin]
    · rw [Editor.notesAt_replaced hab he hin, Editor.notesAt_replaced hab hsh hin]
      refine h.notes q fun n hn hqn => ?_
      rcases taken_leaving hu h.calls a b hn with h1 | h1
      · exact hq n h1 hqn
      · omega
  · rcases h.gone x hx with hK | ⟨e, hmem, hne, hin⟩
    · by_cases hxin : a ≤ x.call.start ∧ x.call.stop ≤ b
      · obtain ⟨e, hmem, h1, h2⟩ := Editor.covered_self hsh
        exact .inr ⟨e, hmem, by omega, by omega, by omega⟩
      · exact .inl (mem_leaving.2 ⟨hK, hxin⟩)
    · have hrange := h.around.sound.range e hmem
      obtain ⟨e', hmem', h1, h2⟩ := Editor.covered_replaced hsh hmem ⟨le_rfl, le_rfl⟩
      exact .inr ⟨e', hmem', by omega, by omega, by omega⟩

theorem Mirrors.insertCommentBefore (hu : u.Closed) (h : Mirrors u all K sh ed) {q : Place}
    {comment : String} {put : Bool} (hq : q.Rooted u.root)
    (hp : ∀ n ∈ taken u K, ¬(n.start < q.statement.start ∧ q.statement.start < n.stop))
    (hL : ∀ e, e.IsAdvisory u q comment → Around u e)
    (he : ed.insertCommentBefore q comment = .ok (put, ed')) :
    ∃ sh', sh.insertCommentBefore q comment = .ok (put, sh') ∧ Mirrors u all K sh' ed' := by
  have hsource : ed.source = sh.source := h.edits.source.trans h.around.source.symm
  have hnoted := Editor.noted_eq hsource (h.notes _ hp) comment
  cases put with
  | false =>
    obtain ⟨hn, rfl⟩ := Editor.insertCommentBefore_kept.1 he
    exact ⟨sh, Editor.insertCommentBefore_kept.2 ⟨hnoted ▸ hn, rfl⟩, h⟩
  | true =>
    obtain ⟨hn, hins⟩ := Editor.insertCommentBefore_put.1 he
    obtain ⟨sh', hsh, h'⟩ := h.insertAt hu hp (statement_fits hu.toNested hq)
      (fun _ => hL _ ⟨rfl, rfl, by rw [h.edits.source]⟩) hins
    exact ⟨sh', Editor.insertCommentBefore_put.2 ⟨hnoted ▸ hn, hsource ▸ hsh⟩, h'⟩

theorem part_larger (hu : u.Regular) (hx : Convertible u x) {n r : Tree}
    (hn : n ∈ replacedParts u x) (hr : r.Within n) (hk : r.is .callExpression = true)
    (hc : r.children ≠ []) : n.start < r.start ∨ r.stop < n.stop := by
  have hp := hx.parts
  obtain ⟨-, -, hnr, -⟩ := hx.part hu.toClosed hn
  have ho := Tree.everyNode_within hu.ordered hnr
  obtain ⟨rule, hrule⟩ := hx.row
  -- the call lies in a child, beside another one that is not empty
  have hchild : ∀ k, k ≠ .callExpression → n.is k = true → ∃ c ∈ n.children, r.Within c := by
    intro k hne hkn
    rcases hr.eq_or_below with rfl | h
    · rw [Tree.is_iff] at hk hkn
      exact absurd (Kind.named.inj (hkn.symm.trans hk)) hne
    · exact h
  have hbeside : ∀ f ∈ n.children, f.start < f.stop → f.children = [] → ∀ c ∈ n.children,
      r.Within c → n.start < r.start ∨ r.stop < n.stop := by
    intro f hf hlt hleaf c hcn hrc
    have h1 := hrc.range (Tree.everyNode_within ho (Tree.within_of_mem hcn))
    have h2 := Tree.child_range ho hf
    rcases Tree.inOrder_apart (Tree.everyNode_iff.1 ho).1 hcn hf with rfl | h3 | h3
    · exact absurd hleaf (hrc.not_leaf hc)
    · exact .inr (by omega)
    · exact .inl (by omega)
  rcases mem_replacedParts.1 hn with rfl | ⟨-, rfl⟩
  · obtain ⟨c, hcn, hrc⟩ := hchild _ (by decide) hp.calleeKind
    have hmethod := Tree.child?_mem hp.method
    have htoken := Tree.test_within hu.tokens ((Tree.within_of_mem hmethod).trans hnr)
    rw [Tree.tokened, (Place.repositoryCall?_names hx.whole).1] at htoken
    simp only [Bool.not_true, Bool.false_or, Bool.and_eq_true, List.isEmpty_iff] at htoken
    exact hbeside _ hmethod (nonempty_of_rule hrule) htoken.2 c hcn hrc
  · obtain ⟨c, hcn, hrc⟩ := hchild _ (by decide) hp.argumentsKind
    have htoken := Tree.test_within hu.tokens hnr
    rw [Tree.tokened, hp.argumentsKind] at htoken
    cases hcs : x.arguments.children with
    | nil => simp [hcs] at hcn
    | cons f rest =>
      simp only [hcs, Bool.not_true, Bool.false_or, List.head?_cons, Option.all_some,
        Bool.and_eq_true, List.isEmpty_iff, decide_eq_true_eq] at htoken
      exact hbeside f (by simp [hcs]) htoken.1.2 htoken.1.1 c hcn hrc

/-- A registration that can be replaced holds a call or is apart from what is replaced of it. -/
theorem Mirrors.beside_registration (hu : u.Regular) (h : Mirrors u all K sh ed)
    {site : Place × String} (hs : site ∈ Imports.registrationSites u)
    (hc : ed.Clear site.1.start site.1.stop) (hx : x ∈ K) : Beside u x site.1.start site.1.stop := by
  obtain ⟨hr, hk, hcs⟩ := Imports.registration_within hs
  have hne := Imports.registration_nonempty hu.toNested hs
  have hxc := h.calls x hx
  have hxr := hxc.rooted.within
  have ho := Tree.everyNode_within hu.ordered hxr
  simp only [Place.start, Place.stop] at hc hne ⊢
  rcases Tree.within_or_apart hu.ordered hxr hr.within with hw | hw | hw | hw
  · have := hw.range (Tree.everyNode_within hu.ordered hr.within)
    exact .inl ⟨this.1, this.2.2⟩
  · refine .inr fun n hn => ?_
    rcases hw.eq_or_below with heq | ⟨c, hcx, hrc⟩
    · exact absurd heq (Imports.registration_ne hs hxc.parts)
    obtain ⟨hmem, -, hnr, -⟩ := hxc.part hu.toClosed hn
    have hcr := hrc.range (Tree.everyNode_within ho (Tree.within_of_mem hcx))
    rcases Tree.inOrder_apart (Tree.everyNode_iff.1 ho).1 hcx hmem with rfl | h1 | h1
    · -- the part is replaced already, and is more than the registration
      obtain ⟨e, he, h1, h2⟩ := h.covered c (mem_taken.2 ⟨x, hx, hn⟩)
      have h3 := part_larger hu hxc hn hrc hk hcs
      have h4 := hc e he
      rw [Edit.inside_iff] at h4
      omega
    · exact .inr (by omega)
    · exact .inl (by omega)
  · refine .inr fun n hn => ?_
    have := hxc.part_range hu.toClosed hn
    simp only [Place.start, Place.stop] at this
    exact .inl (by omega)
  · refine .inr fun n hn => ?_
    have := hxc.part_range hu.toClosed hn
    simp only [Place.start, Place.stop] at this
    exact .inr (by omega)

theorem beside_clause (hu : u.Regular) (hx : Convertible u x) {t c : Tree}
    (ht : t ∈ u.root.children) (hk : t.is .importStatement = true) (hc : c ∈ t.children)
    (hck : c.is .importClause = true) (hne : c.start < c.stop) : Beside u x c.start c.stop := by
  have hcr := (Tree.within_of_mem hc).trans (Tree.within_of_mem ht)
  have hpart : ∀ n ∈ replacedParts u x,
      x.call.tree.start ≤ n.start ∧ n.start < n.stop ∧ n.stop ≤ x.call.tree.stop :=
    fun n hn => hx.part_range hu.toClosed hn
  simp only [Beside, Place.start, Place.stop]
  rcases Tree.within_or_apart hu.ordered hx.rooted.within hcr with h | h | h | h
  · have := h.range (Tree.everyNode_within hu.ordered hcr)
    exact .inl ⟨this.1, this.2.2⟩
  · exact absurd h (not_around_clause hu.toTopLevel ht hk hc hck hne hx.rooted.within
      (not_importKinds hx.parts.isCall (by decide)))
  · exact .inr fun n hn => .inl (by have := hpart n hn; omega)
  · exact .inr fun n hn => .inr (by have := hpart n hn; omega)

theorem beside_line (hu : u.Regular) (hx : Convertible u x) {t : Tree} (ht : t ∈ u.root.children)
    (hl : Editor.TakesLine u.source t a b) : Beside u x a b := by
  have hpart : ∀ n ∈ replacedParts u x,
      x.call.tree.start ≤ n.start ∧ n.start < n.stop ∧ n.stop ≤ x.call.tree.stop :=
    fun n hn => hx.part_range hu.toClosed hn
  obtain ⟨top, htop, hcs, hin⟩ := exists_statement hu.toTopLevel hx.rooted.within hx.parts.isCall
    (by decide) (List.ne_nil_of_mem (Tree.child?_mem hx.parts.callee))
  have hrange := hin.range (Tree.everyNode_within hu.ordered (Tree.within_of_mem htop))
  have h1 := hl.start_le
  have h2 := hl.le_stop
  simp only [Beside, Place.start, Place.stop]
  rcases removal_apart hu.toTopLevel ht htop hcs hl with rfl | h | h
  · exact .inl ⟨by omega, by omega⟩
  · exact .inr fun n hn => .inl (by have := hpart n hn; omega)
  · exact .inr fun n hn => .inr (by have := hpart n hn; omega)

/-- The start of an import is strictly inside nothing that is replaced of a call. -/
theorem import_outside (hu : u.Regular) (hK : ∀ x ∈ K, Convertible u x) {q : Place}
    (hq : q ∈ Imports.importStatements u) (hne : q.start < q.stop) {n : Tree} (hn : n ∈ taken u K) :
    ¬(n.start < q.statement.start ∧ q.statement.start < n.stop) := by
  obtain ⟨x, hx, hnx⟩ := mem_taken.1 hn
  obtain ⟨hmem, hlt, hnr, -⟩ := (hK x hx).part hu.toClosed hnx
  obtain ⟨hroot, hqr⟩ := Imports.statement_rooted hq
  refine statement_outside hu.toNested hroot hnr fun hw => ?_
  have hcall := (hK x hx).parts.isCall
  -- around an import there is only the root
  rcases Tree.within_parent hu.ordered .self hqr hne (hK x hx).rooted.within
    (hw.trans (Tree.within_of_mem hmem)) with heq | h
  · have h1 := hw.size_le
    have h2 := Tree.size_child hmem
    rw [heq] at h2
    omega
  · have := h.antisymm (hK x hx).rooted.within
    rw [← this, Tree.is_iff, Tree.is_iff.1 hu.program] at hcall
    cases hcall

/-- The session has a mirror, in which the calls of `calls` may be converted and `base` replaces no
more, and the comments put since `start` are counted. -/
def Mirrored (u : SourceUnit) (all calls : List Place.RepositoryCall) (base start : Editor) (n : Nat)
    (s : Session) : Prop :=
  ∃ K sh, Mirrors u all K sh s.editor ∧ K ⊆ calls ∧ base.ReplacesMore sh ∧ Tallied start n sh s

theorem Mirrored.replaceRange (hu : u.Closed) {calls : List Place.RepositoryCall} {base start : Editor}
    {n : Nat} {s : Session} (h : Mirrored u all calls base start n s) (hab : a < b)
    (hlen : b ≤ u.source.length)
    (hbeside : ∀ K sh, Mirrors u all K sh s.editor → ∀ x ∈ K, Beside u x a b)
    (hL : ∀ k, Around u ⟨a, b, encode text, k⟩) (he : s.editor.replaceRange a b text = .ok ed') :
    Mirrored u all calls base start n { s with editor := ed' } := by
  obtain ⟨K, sh, h, hK, hmore, htallied⟩ := h
  obtain ⟨sh', hsh, h'⟩ := h.replaceRange hu hab hlen (hbeside K sh h) hL he
  exact ⟨_, sh', h', fun x hx => hK (mem_leaving.1 hx).1,
    fun c d hr => (Editor.Records.replaced _ _ _ hsh).replacesMore c d (hmore c d hr),
    htallied.replaced hab he hsh⟩

/-- The import stage keeps an editor and its mirror together. It converts no more calls, and what the
mirror `base` replaces stays replaced. -/
theorem mirrors_admitted (hu : u.Regular) (all calls : List Place.RepositoryCall) (base start : Editor)
    (n : Nat) :
    Imports.Admits u (fun _ => Mirrored u all calls base start n) fun _ _ => True := by
  have hmem : ∀ {l p r}, Imports.importStatements u = l ++ p :: r →
      p ∈ Imports.importStatements u := fun h => h ▸ by simp
  constructor
  case told =>
    rintro _ s s' he hn ⟨K, sh, h, hK, hmore, htallied⟩
    exact ⟨K, sh, he ▸ h, hK, hmore, htallied.told he hn⟩
  case line =>
    intro l symbol path hw
    refine Holds.edit (fun s ed hI he => ?_) fun _ _ _ _ => trivial
    obtain ⟨K, sh, h, hK, hmore, htallied⟩ := hI
    obtain ⟨sh', hsh, h'⟩ := h.insertAt hu.toClosed (fun n _ => by omega) (Nat.zero_le _)
      (fun k => .line symbol path hw rfl rfl rfl) he
    exact ⟨K, sh', h', hK,
      fun c d hr => (Editor.Records.inserted _ _ hsh).replacesMore c d (hmore c d hr),
      htallied.lined he hsh⟩
  case registration =>
    intro site hs s ed' hI he
    have hn := hu.node (Imports.registration_within hs).1.within
    have hne := Imports.registration_nonempty hu.toNested hs
    exact hI.replaceRange hu.toClosed hne hn.2
      (fun K sh h x hx => h.beside_registration hu hs (Editor.replaceRange_eq_ok.1 he).1 hx)
      (fun k => .registration site hs ⟨rfl, rfl⟩ rfl) he
  case pass => exact fun _ _ _ _ _ h => h
  case clause =>
    intro l p r path clause text hl hp hlib hclause hspec
    obtain ⟨hpm, hpk, -, -⟩ := Imports.statement_facts hu.toTopLevel (hmem hl) hp
    have hcm := Imports.clause_mem hclause
    have hck : clause.is .importClause = true := by simpa using List.find?_some hclause
    have hne := Imports.clause_nonempty hu.toTopLevel (Tree.within_of_mem hpm) hclause hspec
    have hn := hu.node ((Tree.within_of_mem hcm).trans (Tree.within_of_mem hpm))
    refine Holds.edit (fun s ed hI he => ?_) fun _ _ _ _ => trivial
    exact hI.replaceRange hu.toClosed hne hn.2
      (fun K sh h x hx => beside_clause hu (h.calls x hx) hpm hpk hcm hck hne)
      (fun k => .clause p path clause (hmem hl) hp hlib hclause ⟨rfl, rfl⟩ hne) he
  case removal =>
    intro l p r path hl hp hgiven
    obtain ⟨hpm, -, hpc, -⟩ := Imports.statement_facts hu.toTopLevel (hmem hl) hp
    have hn := hu.node (Tree.within_of_mem hpm)
    have ht := Editor.removal_takesLine hn.1 hn.2
    have hlt := top_nonempty hu.toTopLevel hpm hpc
    have h1 := ht.start_le
    have h2 := ht.le_stop
    refine Holds.edit (fun s ed hI he => ?_) fun _ _ _ _ => trivial
    have hsource : s.editor.source = u.source := by
      obtain ⟨K, sh, h, -⟩ := hI
      exact h.edits.source
    rw [Editor.removeStatement_eq, hsource] at he
    exact hI.replaceRange hu.toClosed (by omega) ht.fits
      (fun K sh h x hx => beside_line hu (h.calls x hx) hpm ht)
      (fun k => .statement p path (hmem hl) hp hgiven hlt ht rfl) he
  case advisory =>
    intro l p r path hl hp _ s hI
    obtain ⟨hpm, hpk, hpc, -⟩ := Imports.statement_facts hu.toTopLevel (hmem hl) hp
    have hne := top_nonempty hu.toTopLevel hpm hpc
    have hroot := (Imports.statement_rooted (hmem hl)).1
    have hlisted : Imports.entityImportAdvisory ∈ advisoryTexts := by simp [advisoryTexts]
    rw [result_advise]
    cases he : s.editor.insertCommentBefore p Imports.entityImportAdvisory with
    | error o => trivial
    | ok r =>
      obtain ⟨K, sh, h, hK, hmore, htallied⟩ := hI
      obtain ⟨sh', hsh, h'⟩ := h.insertCommentBefore hu.toClosed hroot
        (fun n hn => import_outside hu h.calls (hmem hl) hne hn)
        (fun e he => .advisory p _ hroot hne hpc (Tree.not_isAny_of_is hpk (by decide)) hlisted he)
        he
      refine ⟨K, sh', h', hK, fun c d hr => ?_, htallied.advised hlisted he hsh⟩
      rcases Editor.insertCommentBefore_ok hsh with rfl | hins
      · exact hmore c d hr
      · exact (Editor.Records.inserted _ _ hins).replacesMore c d (hmore c d hr)

/-- The calls that a pass can convert: those with a supported row and an owner. -/
def supportedSites (u : SourceUnit) (members : Pattern.Regex) : List Place.RepositoryCall :=
  (callSites u members).filter fun x =>
    (Rules.rule? (x.method.text u.source)).any (·.supported) && (x.receiver.child? .object).isSome

variable {base : Editor} {members : Pattern.Regex}

theorem Around.advised (h : Recorded u (Around u) ed) (hu : u.Nested) {q : Place} {comment : String}
    (hq : q.Rooted u.root) (hL : ∀ e, e.IsAdvisory u q comment → Around u e) :
    Recorded u (Around u) (ed.advised q comment) := by
  unfold Editor.advised
  split
  · rename_i hok
    exact h.insertCommentBefore (statement_fits hu hq) hL hok
  · exact h

/-- Before the import stage a mirror holds what the first stages edit but the calls. -/
theorem Around.shadow (hu : u.Closed) (h : Recorded u (Around u) base)
    {sites : List Place.RepositoryCall} (hsites : ∀ y ∈ sites, y ∈ callSites u members) :
    Recorded u (Around u) (shadow u base sites) := by
  have hstep : ∀ y ∈ sites, ∀ ed, Recorded u (Around u) ed →
      Recorded u (Around u) (withAdvisories u base ed y) := by
    intro y hy ed hed
    unfold withAdvisories advisories
    split
    · exact hed
    · rename_i rule hrule
      obtain ⟨hroot, hparts⟩ := mem_callSites (hsites y hy)
      have ho := splits_of_parts hu hparts hroot.within hrule
      have hmem := Tree.child?_mem hparts.callee
      have hrange := Tree.child_range (Tree.everyNode_within hu.ordered hroot.within) hmem
      have hne : y.call.start < y.call.stop := by
        simp only [Place.start, Place.stop]
        omega
      have hlisted : ∀ c ∈ (if rule.supported && !converts u base y then [] else rule.advisories),
          c ∈ advisoryTexts := by
        intro c hc
        split at hc
        · simp at hc
        · exact advisory_listed hrule hc
      generalize (if rule.supported && !converts u base y then [] else rule.advisories) = cs at *
      induction cs generalizing ed with
      | nil => exact hed
      | cons c cs ih =>
        refine ih (ed.advised y.call c) (Around.advised hed hu.toNested hroot fun e he => ?_)
          fun d hd => hlisted d (by simp [hd])
        exact .advisory y.call c hroot hne (List.ne_nil_of_mem hmem)
          (Tree.not_isAny_of_is hparts.isCall (by decide)) (hlisted c (by simp)) he
  unfold Calls.shadow
  suffices ∀ ed, Recorded u (Around u) ed →
      Recorded u (Around u) (sites.foldl (Calls.withAdvisories u base) ed) from this base h
  induction sites with
  | nil => exact fun ed hed => hed
  | cons y ys ih =>
    intro ed hed
    exact ih (fun z hz => hsites z (by simp [hz])) (fun z hz => hstep z (by simp [hz])) _
      (hstep y (by simp) ed hed)

theorem mirrors_of_tracks (hu : u.Closed) (hbase : Recorded u (Around u) base)
    (h : Tracks u base (convertedSites u base members)
      (shadow u base (sortSites (callSites u members))) ed) :
    Mirrors u (supportedSites u members) (convertedSites u base members)
      (shadow u base (sortSites (callSites u members))) ed := by
  refine ⟨h.shows, h.calls, h.follows.recorded.imp fun _ _ => trivial,
    Around.shadow hu hbase fun y hy => mem_sortSites.1 hy, h.follows.covered, fun e he hne => ?_,
    fun e he hne => ?_, h.follows.notes, fun x hx => ?_⟩
  · rcases h.follows.held e ((h.follows.replaced e hne).1 he) hne with hmem | ⟨n, hn, h1, h2⟩
    · exact ⟨e, hmem, le_rfl, le_rfl⟩
    · obtain ⟨e', hmem, h3, h4⟩ := h.follows.covered n hn
      exact ⟨e', hmem, by omega, by omega⟩
  · rcases h.follows.recorded.all e he with hins | hbase | hon
    · exact absurd hins hne
    · exact .inl ⟨e, (h.follows.replaced e hne).2 hbase, rfl, rfl⟩
    · exact .inr hon
  · obtain ⟨hsite, hsup⟩ := List.mem_filter.1 hx
    rw [Bool.and_eq_true] at hsup
    cases hc : converts u base x with
    | true => exact .inl (mem_convertedSites.2 ⟨hsite, hc⟩)
    | false =>
      obtain ⟨rule, hrule, hsupported⟩ := Option.any_eq_true .. |>.1 hsup.1
      obtain ⟨owner, howner⟩ := Option.isSome_iff_exists.1 hsup.2
      obtain ⟨e, he, hne, hin⟩ := exists_around hrule hsupported howner hc
      exact .inr ⟨e, (h.follows.replaced e hne).2 he, hne, hin⟩

theorem extract_around (hu : u.Nested) :
    KeepsRecorded u (fun e => Around u e ∧ e.start = e.stop) (Entities.extract u) := by
  refine Entities.extract_holds fun class_ hclass => ?_
  obtain ⟨hne, hinner⟩ := entity_nonempty hu hclass
  refine keeps_advise hu hclass.rooted fun e he => ⟨?_, he.1.trans he.2.1.symm⟩
  obtain ⟨k, hk, his⟩ := List.any_eq_true.1 (List.mem_filter.1 hclass.1).2
  have hkinds : ∀ k ∈ Place.classKinds, k ∉ [NodeKind.program] := by decide
  exact .advisory class_ _ hclass.rooted hne hinner (Tree.not_isAny_of_is his (hkinds k hk))
    (by simp [advisoryTexts]) he

/-- An editor before the calls is its own mirror. Converting the constructors puts no comments into it,
and replaces no empty range. -/
theorem convertConstructors_tallied (hu : u.Nested) {start : Editor} {n : Nat}
    {E : Fault → Session → Prop} :
    Holds (fun s => Tallied start n s.editor s) (convertConstructors u)
      (fun _ s => Tallied start n s.editor s) E := by
  refine Holds.forM (I := fun _ s => Tallied start n s.editor s) fun l method r hl => ?_
  have hinj : ∀ p ∈ injected u method, IsInjected u p := fun p hp => mem_injected (hl ▸ by simp) hp
  have hedit : ∀ {a b : Nat} {text : String}, a < b →
      Keeps (fun s => Tallied start n s.editor s) (Pass.edit (·.replaceRange a b text)) :=
    fun hab => Holds.edit (fun s ed' h he => h.replaced hab he he) fun _ o h _ => ⟨⟨o, rfl⟩, h⟩
  rw [convertConstructor_eq]
  split
  · exact Holds.pure fun _ hs => hs
  rename_i first others hlist
  rw [hlist] at hinj
  refine Holds.orOnOverlap (F := fun _ s => Tallied start n s.editor s) (Holds.mono
    (E := fun e s => (∃ o, e = .overlap o) ∧ Tallied start n s.editor s) ?_ (fun _ h => h)
    (fun _ _ h => h) ?_) fun _ => Holds.modify fun _ h => h.told rfl rfl
  · refine Keeps.bind (hedit ((hinj first (by simp)).nonempty hu)) fun _ =>
      Keeps.bind (Keeps.forM fun p hp => ?_) fun _ => Holds.modify fun _ h => h.told rfl rfl
    have hp := hinj p (by simp [hp])
    have hlt := hp.nonempty hu
    obtain ⟨params, hroot, hmem⟩ := hp.rooted
    have hb := Editor.itemRange_bounds hroot hmem hu.ordered
    simp only [Editor.removeListItem_eq]
    exact hedit (by omega)
  · rintro e s ⟨⟨o, rfl⟩, h⟩
    exact h

/-- Converting constructors and calls leaves an editor with a mirror, and a flag where a call was
converted. What the constructors replace, the mirror replaces. The comments stay counted. -/
theorem convertCalls_mirrored (hu : u.Closed) {start : Editor} {n : Nat} {s s' : Session}
    (hs : Recorded u (fun e => Around u e ∧ e.start = e.stop) s.editor)
    (htallied : Tallied start n s.editor s)
    (hrun : (convertConstructors u >>= fun _ => convertCalls u (callSites u members)).result s =
      (.ok (), s')) :
    ∃ K sh, Mirrors u (supportedSites u members) K sh s'.editor ∧ (K ≠ [] → s'.flags.any = true) ∧
      (afterConstructors u s).ReplacesMore sh ∧ Tallied start n sh s' := by
  obtain ⟨_, s1, hs1, hbase⟩ := (convertConstructors_holds
    (L := fun e => (Around u e ∧ e.start = e.stop) ∨ IsInjectionEdit u e) (E := fun _ _ => False)
    hu.toNested fun _ he => .inr he).exists_ok (hs.imp fun _ he => .inl he)
  have hedits : ∀ e ∈ s1.editor.edits, e.start = e.stop ∨ IsInjectionEdit u e :=
    fun e he => (hbase.all e he).imp_left And.right
  have hstart : Attends u s1.editor start n [] s1.editor s1 :=
    ⟨(Attends.refl hbase).toTracks,
      (convertConstructors_tallied (E := fun _ _ => False) hu.toNested).ok htallied hs1⟩
  rw [result_bind_ok hs1] at hrun
  have hattends := (convertCalls_attends (E := fun _ _ => False) hu hedits members).ok hstart hrun
  refine ⟨_, _, mirrors_of_tracks hu (hbase.imp fun e he => ?_) hattends.toTracks, fun hne => ?_,
    fun a b hr => ?_, hattends.tallied⟩
  · rcases he with he | he
    · exact he.1
    · exact .injection he
  · obtain ⟨x, hx⟩ := List.exists_mem_of_ne_nil _ hne
    exact convertCalls_fired hu hedits hx hstart hrun
  · rw [afterConstructors, hs1] at hr
    obtain ⟨e, he, hlt, hin⟩ := hr
    exact ⟨e, (hattends.follows.replaced e hlt.ne).2 he, hlt, hin⟩

/-- The extraction puts its comments into the editor, which is its own mirror. -/
theorem extract_tallied {start : Editor} {n : Nat} {E : Fault → Session → Prop}
    (hE : ∀ o s, E (.overlap o) s) :
    Holds (fun s => Tallied start n s.editor s) (Entities.extract u)
      (fun _ s => Tallied start n s.editor s) E := by
  refine Entities.extract_keeps (fun s s' he _ hn h => ?_) fun class_ _ => ?_
  · rw [he]
    exact h.told he hn
  · intro s h
    rw [result_advise]
    cases he : s.editor.insertCommentBefore class_ Entities.entityAdvisory with
    | error o => exact hE o s
    | ok r => exact h.advised (by simp [advisoryTexts]) he he

/-- The stages end well, with a mirror of the editor, which replaces what the constructors replace. The
comments put are counted. -/
theorem stages_mirrored (hu : u.Regular) {source : String} (hs : u.source = encode source)
    (hm : Pattern.parse u.settings.memberPattern = .ok members) {s : Session}
    (hfresh : s.editor = { source := u.source }) :
    ∃ s' K sh, (Outcome.stages u).result s = (.ok (), s') ∧
      Mirrors u (supportedSites u members) K sh s'.editor ∧
      Recorded u (fun e => e.Aligned u.source) s'.editor ∧ (K ≠ [] → s'.flags.any = true) ∧
      Tallied s.editor s.advisories sh s' ∧
      ∀ s1, (Entities.extract u).result s = (.ok (), s1) →
        (afterConstructors u s1).ReplacesMore sh := by
  obtain ⟨s', hrun, haligned⟩ := stages_complete hu.toTopLevel hs hu.aligned hm hfresh
  have hparts := hrun
  obtain ⟨_, s1, hextract, hparts⟩ := result_bind_eq_ok hparts
  obtain ⟨_, s2, hcalls, himports⟩ := result_bind_eq_ok hparts
  have h1 := (extract_around hu.toNested).ok (hfresh ▸ Recorded.fresh u _) hextract
  have ht1 := (extract_tallied (E := fun _ _ => True) fun _ _ => trivial).ok (.refl s) hextract
  unfold Calls.convert at hcalls
  rw [hm] at hcalls
  obtain ⟨K, sh, h2, hfired, hswaps, ht2⟩ := convertCalls_mirrored hu.toClosed h1 ht1 hcalls
  obtain ⟨K', sh', h3, hsub, hmore, ht3⟩ :=
    (Imports.convert_holds (mirrors_admitted hu _ K sh s.editor s.advisories)).ok
      ⟨K, sh, h2, List.Subset.refl K, fun _ _ hr => hr, ht2⟩ himports
  refine ⟨s', K', sh', hrun, h3, haligned, fun hne => ?_, ht3, fun s1' hs1' a b hr => ?_⟩
  · obtain ⟨x, hx⟩ := List.exists_mem_of_ne_nil _ hne
    have hlast := (Imports.convert_along lasts_permits u).after lasts_permits s2
    rw [himports] at hlast
    exact hlast.fired (hfired (List.ne_nil_of_mem (hsub hx)))
  · rw [hextract, Prod.mk.injEq] at hs1'
    exact hmore a b (hswaps a b (hs1'.2 ▸ hr))

/-- A pass that is over has an outcome, which prints the mirror with the calls converted unless no flag
is set; then no call is converted. -/
structure Ended (u : SourceUnit) (source : String) (members : Pattern.Regex) (s : Session)
    (o : Outcome) (K : List Place.RepositoryCall) (sh : Editor) : Prop where
  outcome : Outcome.ofSession u.settings source s = .ok o
  mirrors : Mirrors u (supportedSites u members) K sh s.editor
  printed : s.flags.any = true → encode o.output = (scene u sh.view K).print
  idle : s.flags.any = false → o.output = source
  fired : K ≠ [] → s.flags.any = true

/-- A pass ends well, and replaces what its constructors replace. The comments it put are counted. -/
theorem pass_ended (hu : u.Regular) {source : String} (hs : u.source = encode source)
    (hm : Pattern.parse u.settings.memberPattern = .ok members) {s : Session}
    (hfresh : s.editor = { source := u.source }) :
    ∃ s' o K sh, (Outcome.stages u).result s = (.ok (), s') ∧ Ended u source members s' o K sh ∧
      (∀ s1, (Entities.extract u).result s = (.ok (), s1) →
        (afterConstructors u s1).ReplacesMore sh) ∧ Tallied s.editor s.advisories sh s' := by
  obtain ⟨s', K, sh, hrun, hmirrors, haligned, hfired, htallied, hswaps⟩ :=
    stages_mirrored hu hs hm hfresh
  obtain ⟨text, htext⟩ := Editor.print_ok hs haligned haligned.all
  obtain ⟨o, ho⟩ : ∃ o, Outcome.ofSession u.settings source s' = .ok o := by
    unfold Outcome.ofSession
    rw [htext]
    cases s'.flags.any <;> exact ⟨_, rfl⟩
  have hprint : s'.editor.printBytes = (scene u sh.view K).print := by
    rw [Editor.printBytes_eq hmirrors.edits.sound, hmirrors.edits.source]
    exact hmirrors.shows.print hu.toClosed hmirrors.calls
  refine ⟨s', o, K, sh, hrun, ⟨ho, hmirrors, fun hf => ?_, fun hf => ?_, hfired⟩, hswaps, htallied⟩
  · rcases Outcome.output_eq ho with ⟨-, h⟩ | ⟨h, -⟩
    · exact h.trans hprint
    · simp [hf] at h
  · rcases Outcome.output_eq ho with ⟨h, -⟩ | ⟨-, h⟩
    · simp [hf] at h
    · exact h

theorem Ended.text_infix {source : String} {s : Session} {o : Outcome} (hu : u.Regular)
    (h : Ended u source members s o K sh) (hfired : s.flags.any = true) {t : Tree}
    (ht : t.Within u.root) (hne : t.start < t.stop) (hfree : ¬Covered u K t.start t.stop) :
    (scene u sh.view K).text t <:+: encode o.output := by
  rcases Outcome.output_eq h.outcome with ⟨-, hout⟩ | ⟨hidle, -⟩
  · rw [hout, Editor.printBytes_eq h.mirrors.edits.sound, h.mirrors.edits.source]
    exact h.mirrors.shows.text_infix hu.toClosed h.mirrors.calls ht hne hfree
  · rw [hfired] at hidle
    cases hidle

end Calls

end OrmCodemod
