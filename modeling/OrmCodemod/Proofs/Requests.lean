import OrmCodemod.Proofs.Steps
import OrmCodemod.Proofs.View

/-! Editors that are reached by calls. Whatever calls are made, and whichever of them are refused, the
edits of an editor stay apart and in recording order. A call is refused for the first edit that its
range cuts into, and then it changes nothing. Changes whose ranges are apart are all recorded, and
rendered as their texts. -/

namespace OrmCodemod

open Text

/-- A call on the editor of a source of `n` bytes: a range to replace, or an offset to insert at. -/
inductive Request (n : Nat) where
  | replace (start stop : Nat) (text : String) (ordered : start ≤ stop) (fits : stop ≤ n)
  | insert (offset : Nat) (text : String) (fits : offset ≤ n)

namespace Request

variable {n : Nat}

def start : Request n → Nat
  | replace a _ _ _ _ => a
  | insert p _ _ => p

def stop : Request n → Nat
  | replace _ b _ _ _ => b
  | insert p _ _ => p

def text : Request n → String
  | replace _ _ t _ _ => t
  | insert _ t _ => t

def apply (r : Request n) (ed : Editor) : Except Overlap Editor :=
  match r with
  | replace a b text _ _ => ed.replaceRange a b text
  | insert p text _ => ed.insertAt p text

/-- The call cuts into a replacement: its range overlaps it, or its offset lies strictly inside it, and
the replacement is not wholly in the range. -/
def Cuts (r : Request n) (e : Edit) : Prop :=
  e.start ≠ e.stop ∧ (e.start < r.stop ∧ r.start < e.stop) ∧
    ¬(r.start ≤ e.start ∧ e.stop ≤ r.stop)

instance (r : Request n) (e : Edit) : Decidable (r.Cuts e) :=
  inferInstanceAs (Decidable (_ ∧ _))

/-- The editor after a call that was granted: the edits in the range go, the new one comes last. -/
def granted (r : Request n) (ed : Editor) : Editor :=
  { ed with
    edits := Editor.outside ed.edits r.start r.stop ++ [⟨r.start, r.stop, encode r.text, ed.next⟩]
    next := ed.next + 1 }

theorem range (r : Request n) : r.start ≤ r.stop ∧ r.stop ≤ n := by
  cases r with
  | replace a b text ordered fits => exact ⟨ordered, fits⟩
  | insert p text fits => exact ⟨le_rfl, fits⟩

/-- A call is refused for the first edit that it cuts into, and else granted. -/
theorem apply_eq (r : Request n) {ed : Editor} (h : ed.Sound) :
    r.apply ed =
      match ed.edits.find? fun e => decide (r.Cuts e) with
      | some e => .error ⟨r.start, r.stop, e.start, e.stop⟩
      | none => .ok (r.granted ed) := by
  cases r with
  | replace a b text ordered fits =>
    have hcuts : (fun e : Edit => !e.inside a b && !e.isInsertion && e.start < b && a < e.stop) =
        fun e => decide ((replace a b text ordered fits).Cuts e) := by
      funext e
      rw [Bool.eq_iff_iff, decide_eq_true_iff]
      simp only [Bool.and_eq_true, Bool.not_eq_true', ← Bool.not_eq_true, Edit.inside_iff,
        Edit.isInsertion_iff, decide_eq_true_eq, Cuts, start, stop]
      omega
    simp only [apply, Editor.replaceRange, hcuts]
    rfl
  | insert p text fits =>
    have hcuts : (fun e : Edit => !e.isInsertion && e.start < p && p < e.stop) =
        fun e => decide ((insert p text fits).Cuts e) := by
      funext e
      rw [Bool.eq_iff_iff, decide_eq_true_iff]
      simp only [Bool.and_eq_true, Bool.not_eq_true', ← Bool.not_eq_true, Edit.isInsertion_iff,
        decide_eq_true_eq, Cuts, start, stop]
      omega
    simp only [apply, Editor.insertAt, hcuts, granted, start, stop, h.outside_self]
    rfl

def step (s : Session) (r : Request n) : Session := ((Pass.edit r.apply).result s).2

theorem step_cases (r : Request n) {s : Session} (h : s.editor.Sound) :
    (step s r).editor = s.editor ∨
      (r.apply s.editor = .ok (r.granted s.editor) ∧ (step s r).editor = r.granted s.editor) := by
  rw [step, Pass.result_edit]
  cases hr : r.apply s.editor with
  | error o => exact .inl rfl
  | ok ed =>
    rw [apply_eq r h] at hr
    split at hr
    · cases hr
    · obtain rfl := Except.ok.inj hr
      exact .inr ⟨rfl, rfl⟩

theorem granted_sound (r : Request n) {ed : Editor} (h : ed.Sound) (hn : ed.source.length = n)
    (hr : r.apply ed = .ok (r.granted ed)) : (r.granted ed).Sound := by
  cases r with
  | replace a b text ordered fits => exact h.replaced ordered (hn ▸ fits) hr
  | insert p text fits => exact h.insertedAt (hn ▸ fits) hr

def reached (source : Bytes) (rs : List (Request source.length)) : Editor :=
  (rs.foldl step { editor := { source } }).editor

variable {source : Bytes}

theorem reached_concat (rs : List (Request source.length)) (r : Request source.length) :
    ∃ s : Session, s.editor = reached source rs ∧ reached source (rs ++ [r]) = (step s r).editor :=
  ⟨rs.foldl step { editor := { source } }, rfl, by simp [reached]⟩

/-- Whatever calls are made, the edits stay apart and numbered. -/
theorem reached_sound (rs : List (Request source.length)) :
    (reached source rs).Sound ∧ (reached source rs).source = source := by
  induction rs using List.reverseRecOn with
  | nil => exact ⟨Editor.sound_fresh source, rfl⟩
  | append_singleton rs r ih =>
    obtain ⟨hsound, hsource⟩ := ih
    obtain ⟨s, hs, hlast⟩ := reached_concat rs r
    rw [← hs] at hsound hsource
    rw [hlast]
    rcases step_cases r hsound with heq | ⟨hok, heq⟩ <;> rw [heq]
    · exact ⟨hsound, hsource⟩
    · exact ⟨granted_sound r hsound (congrArg List.length hsource) hok, hsource⟩

theorem reached_edits (rs : List (Request source.length)) :
    ∀ e ∈ (reached source rs).edits,
      ∃ r ∈ rs, e.start = r.start ∧ e.stop = r.stop ∧ e.replacement = encode r.text := by
  induction rs using List.reverseRecOn with
  | nil => intro e he; simp [reached] at he
  | append_singleton rs r ih =>
    intro e he
    obtain ⟨s, hs, hlast⟩ := reached_concat rs r
    have hmore : e ∈ s.editor.edits →
        ∃ r' ∈ rs ++ [r], e.start = r'.start ∧ e.stop = r'.stop ∧ e.replacement = encode r'.text := by
      intro he
      obtain ⟨r', hr', h⟩ := ih e (hs ▸ he)
      exact ⟨r', List.mem_append_left _ hr', h⟩
    rw [hlast] at he
    rcases step_cases r (hs ▸ (reached_sound rs).1) with heq | ⟨-, heq⟩ <;> rw [heq] at he
    · exact hmore he
    · rcases List.mem_append.1 he with he | he
      · exact hmore (Editor.mem_outside.1 he).1
      · obtain rfl := List.mem_singleton.1 he
        exact ⟨r, by simp, rfl, rfl, rfl⟩

end Request

namespace Editor

/-- A text for a range. -/
structure Change where
  start : Nat
  stop : Nat
  text : String

/-- The editor after changes, one after the other: the edits in their ranges are gone, and each change
is recorded. -/
def changedBy (ed : Editor) (cs : List Change) : Editor :=
  { ed with
    edits := ed.edits.filter (fun e => cs.all fun c => !e.inside c.start c.stop) ++
      cs.mapIdx fun i c => ⟨c.start, c.stop, encode c.text, ed.next + i⟩
    next := ed.next + cs.length }

variable {ed : Editor} {cs : List Change} {c : Change}

theorem changedBy_nil (ed : Editor) : ed.changedBy [] = ed := by
  simp [changedBy]

theorem mem_changedBy {e : Edit} (he : e ∈ (ed.changedBy cs).edits) :
    e ∈ ed.edits ∨ ∃ c ∈ cs, e.start = c.start ∧ e.stop = c.stop := by
  rcases List.mem_append.1 he with he | he
  · exact .inl (List.mem_of_mem_filter he)
  · obtain ⟨i, hi, rfl⟩ := List.mem_mapIdx.1 he
    exact .inr ⟨cs[i], List.getElem_mem hi, rfl, rfl⟩

theorem change_recorded (ed : Editor) (hc : c ∈ cs) :
    ∃ e ∈ (ed.changedBy cs).edits, e.start = c.start ∧ e.stop = c.stop ∧
      e.replacement = encode c.text ∧ ed.next ≤ e.order := by
  obtain ⟨i, hi, rfl⟩ := List.mem_iff_getElem.1 hc
  refine ⟨⟨cs[i].start, cs[i].stop, encode cs[i].text, ed.next + i⟩, ?_, rfl, rfl, rfl,
    Nat.le_add_right _ _⟩
  exact List.mem_append_right _ (List.mem_mapIdx.2 ⟨i, hi, rfl⟩)

theorem changedBy_concat (hclear : ed.Clear c.start c.stop)
    (hapart : ∀ d ∈ cs, d.start < d.stop ∧ (d.stop ≤ c.start ∨ c.stop ≤ d.start)) :
    (ed.changedBy cs).replaceRange c.start c.stop c.text = .ok (ed.changedBy (cs ++ [c])) := by
  refine replaceRange_eq_ok.2 ⟨fun e he => ?_, ?_⟩
  · rcases mem_changedBy he with he | ⟨d, hd, h1, h2⟩
    · exact hclear e he
    · have := (hapart d hd).2
      exact .inr (by omega)
  · have hkept : outside (cs.mapIdx fun i d => (⟨d.start, d.stop, encode d.text, ed.next + i⟩ : Edit))
        c.start c.stop = cs.mapIdx fun i d => ⟨d.start, d.stop, encode d.text, ed.next + i⟩ := by
      refine List.filter_eq_self.2 fun e he => ?_
      obtain ⟨i, hi, rfl⟩ := List.mem_mapIdx.1 he
      have := hapart cs[i] (List.getElem_mem hi)
      rw [Bool.not_eq_true', ← Bool.not_eq_true, Edit.inside_iff]
      dsimp only
      omega
    have hgone : outside (ed.edits.filter fun e => cs.all fun d => !e.inside d.start d.stop)
        c.start c.stop =
          ed.edits.filter fun e => (cs ++ [c]).all fun d => !e.inside d.start d.stop := by
      rw [outside, List.filter_filter]
      refine List.filter_congr fun e _ => ?_
      rw [List.all_append, Bool.and_comm]
      simp
    simp only [changedBy, outside, List.filter_append] at hkept hgone ⊢
    rw [hkept, hgone, List.mapIdx_concat, List.length_append, List.append_assoc]
    rfl

theorem replaceRange_eq_error {a b : Nat} {text : String} {o : Overlap}
    (h : ed.replaceRange a b text = .error o) :
    ∃ e ∈ ed.edits, o = ⟨a, b, e.start, e.stop⟩ ∧ ¬(e.inside a b = true ∨ e.stop ≤ a ∨ b ≤ e.start) := by
  unfold replaceRange at h
  split at h
  · rename_i e he
    refine ⟨e, List.mem_of_find?_eq_some he, (Except.error.inj h).symm, ?_⟩
    have hcut := List.find?_some he
    simp only [Bool.and_eq_true, Bool.not_eq_true', decide_eq_true_eq] at hcut
    rw [hcut.1.1.1]
    simp only [Bool.false_eq_true, false_or]
    omega
  · cases h

section Renderings

variable {ed' : Editor} {a b : Nat} {text : String}

theorem renderBytes_replaced (hab : a < b) (h : ed.replaceRange a b text = .ok ed') :
    ed'.renderBytes a b = encode text := by
  obtain ⟨-, rfl⟩ := replaceRange_eq_ok.1 h
  have hself : (⟨a, b, encode text, ed.next⟩ : Edit).inside a b = true := by
    rw [Edit.inside_iff]
    dsimp only
    omega
  have honly : (outside ed.edits a b ++ [(⟨a, b, encode text, ed.next⟩ : Edit)]).filter (·.inside a b) =
      [⟨a, b, encode text, ed.next⟩] := by
    rw [List.filter_append, List.filter_eq_nil_iff.2 fun e he => by simp [(mem_outside.1 he).2],
      List.nil_append, List.filter_eq_self.2 (by simpa using hself)]
  unfold renderBytes
  dsimp only
  rw [honly]
  simp [Edit.sorted, Edit.insertSorted, splice, Syntax.slice, hab.le]

theorem renderBytes_apart (hs : ed.Sound) {c d : Nat} (hab : a < b) (hapart : b ≤ c ∨ d ≤ a)
    (h : ed.replaceRange a b text = .ok ed') : ed'.renderBytes c d = ed.renderBytes c d := by
  obtain ⟨-, rfl⟩ := replaceRange_eq_ok.1 h
  have hnew : (⟨a, b, encode text, ed.next⟩ : Edit).inside c d = false := by
    rw [← Bool.not_eq_true, Edit.inside_iff]
    dsimp only
    omega
  have hsame : (outside ed.edits a b ++ [(⟨a, b, encode text, ed.next⟩ : Edit)]).filter (·.inside c d) =
      ed.edits.filter (·.inside c d) := by
    rw [List.filter_append, List.filter_cons_of_neg (by simp [hnew]), List.filter_nil,
      List.append_nil, outside, List.filter_filter]
    refine List.filter_congr fun e he => ?_
    have := hs.range e he
    rw [Bool.eq_iff_iff]
    simp only [Bool.and_eq_true, Bool.not_eq_true', ← Bool.not_eq_true, Edit.inside_iff]
    omega
  unfold renderBytes
  dsimp only
  rw [hsame]

theorem changedBy_clear (hclear : ed.Clear a b)
    (hcut : ∀ c ∈ cs, c.start < c.stop ∧ ((a ≤ c.start ∧ c.stop ≤ b) ∨ c.stop ≤ a ∨ b ≤ c.start)) :
    (ed.changedBy cs).Clear a b := by
  intro e he
  rcases mem_changedBy he with he | ⟨c, hc, h1, h2⟩
  · exact hclear e he
  · rw [Edit.inside_iff]
    have := hcut c hc
    omega

/-- Changes one after the other, none of which an edit cuts into. -/
structure Fits (ed : Editor) (cs : List Change) : Prop where
  clear : ∀ c ∈ cs, ed.Clear c.start c.stop
  range : ∀ c ∈ cs, c.start < c.stop ∧ c.stop ≤ ed.source.length
  inOrder : cs.Pairwise fun c d => c.stop ≤ d.start

/-- Such changes are rendered as their texts, and what is apart from them as before. -/
structure ShowsChanges (ed : Editor) (cs : List Change) : Prop where
  sound : (ed.changedBy cs).Sound
  apart : ∀ a b, (∀ c ∈ cs, c.stop ≤ a ∨ b ≤ c.start) →
    (ed.changedBy cs).renderBytes a b = ed.renderBytes a b
  texts : ∀ c ∈ cs, (ed.changedBy cs).renderBytes c.start c.stop = encode c.text

theorem Fits.clear_change (h : ed.Fits cs) (hc : c ∈ cs) : (ed.changedBy cs).Clear c.start c.stop := by
  let Apart (c d : Change) : Prop := c.stop ≤ d.start ∨ d.stop ≤ c.start
  have : Std.Symm Apart := ⟨fun _ _ h => h.symm⟩
  have hapart : cs.Pairwise Apart := h.inOrder.imp fun hle => .inl hle
  refine changedBy_clear (h.clear c hc) fun d hd => ⟨(h.range d hd).1, ?_⟩
  by_cases heq : d = c
  · exact .inl (by rw [heq]; exact ⟨le_rfl, le_rfl⟩)
  · exact .inr (hapart.forall hd hc heq)

theorem Fits.shows (h : ed.Fits cs) (hs : ed.Sound) : ed.ShowsChanges cs := by
  induction cs using List.reverseRecOn with
  | nil =>
    rw [← changedBy_nil ed] at hs
    exact ⟨hs, fun _ _ _ => by rw [changedBy_nil], by simp⟩
  | append_singleton cs c ih =>
    obtain ⟨horder, -, hlast⟩ := List.pairwise_append.1 h.inOrder
    obtain ⟨hsound, hkept, htexts⟩ := ih ⟨fun d hd => h.clear d (by simp [hd]),
      fun d hd => h.range d (by simp [hd]), horder⟩
    have hc := h.range c (by simp)
    have hbefore : ∀ d ∈ cs, d.stop ≤ c.start := fun d hd => hlast d hd c (by simp)
    have hres := changedBy_concat (h.clear c (by simp)) fun d hd =>
      ⟨(h.range d (by simp [hd])).1, .inl (hbefore d hd)⟩
    refine ⟨hsound.replaced hc.1.le hc.2 hres, fun a b hab => ?_, fun d hd => ?_⟩
    · rw [renderBytes_apart hsound hc.1 (hab c (by simp)) hres]
      exact hkept a b fun d hd => hab d (by simp [hd])
    · rcases List.mem_append.1 hd with hd | hd
      · rw [renderBytes_apart hsound hc.1 (.inr (hbefore d hd)) hres]
        exact htexts d hd
      · rw [List.mem_singleton.1 hd]
        exact renderBytes_replaced hc.1 hres

end Renderings

end Editor

/-- Edits lie in the source, replacements do not overlap, no insertion stands strictly inside one, and
the numbers of the edits grow along the list. -/
structure Editor.Arranged (ed : Editor) : Prop where
  fits : ∀ e ∈ ed.edits, e.start ≤ e.stop ∧ e.stop ≤ ed.source.length
  disjoint : ed.edits.Pairwise fun a b =>
    a.start ≠ a.stop → b.start ≠ b.stop → a.stop ≤ b.start ∨ b.stop ≤ a.start
  beside : ∀ a ∈ ed.edits, ∀ b ∈ ed.edits, a.start = a.stop → ¬(b.start < a.start ∧ a.start < b.stop)
  numbered : ed.edits.Pairwise fun a b => a.order < b.order

theorem Editor.Sound.arranged {ed : Editor} (h : ed.Sound) : ed.Arranged where
  fits := h.range
  disjoint := h.apart.imp fun hab _ _ => hab
  beside a ha b hb heq hin := by
    have hne : a ≠ b := by
      rintro rfl
      omega
    have hab := h.apart.forall ha hb hne
    unfold Edit.Apart at hab
    omega
  numbered := h.orders

/-- The edits of an editor stay arranged whatever calls are made on it and whichever are refused. The
next call is refused exactly if it cuts into an edit; it reports the first such edit and leaves the
session, and so the list and the next number, as they were. -/
theorem Editor.edits_arranged (source : Bytes) (rs : List (Request source.length)) :
    (Request.reached source rs).Arranged ∧
    ∀ (r : Request source.length) (session : Session),
      let s : Session := { session with editor := Request.reached source rs }
      match (Pass.edit r.apply).result s with
      | (.ok (), s') => (∀ e ∈ s.editor.edits, ¬r.Cuts e) ∧
          s' = { s with editor := r.granted s.editor }
      | (.error fault, s') => s' = s ∧
          ∃ l e rest, s.editor.edits = l ++ e :: rest ∧ r.Cuts e ∧ (∀ x ∈ l, ¬r.Cuts x) ∧
            fault = .overlap ⟨r.start, r.stop, e.start, e.stop⟩ := by
  obtain ⟨hsound, -⟩ := Request.reached_sound rs
  refine ⟨hsound.arranged, fun r session => ?_⟩
  dsimp only
  rw [Pass.result_edit]
  dsimp only
  rw [r.apply_eq hsound]
  cases hfind : (Request.reached source rs).edits.find? fun e => decide (r.Cuts e) with
  | none =>
    refine ⟨fun e he => ?_, rfl⟩
    simpa using List.find?_eq_none.1 hfind e he
  | some e =>
    obtain ⟨hcut, l, rest, hsplit, hl⟩ := List.find?_eq_some_iff_append.1 hfind
    refine ⟨rfl, l, e, rest, hsplit, by simpa using hcut, fun x hx => ?_, rfl⟩
    simpa using hl x hx

end OrmCodemod
