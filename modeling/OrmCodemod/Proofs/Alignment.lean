import OrmCodemod.Proofs.ImportEdits
import OrmCodemod.Proofs.Utf8

/-! Edits between characters. Where every node starts and ends between two characters, so does every
edit of a pass, and what an editor renders and prints is a text. -/

namespace OrmCodemod

open Syntax Text

/-- The edit starts and ends between characters. -/
def Edit.Aligned (source : Bytes) (e : Edit) : Prop :=
  isBoundary source e.start = true ∧ isBoundary source e.stop = true

namespace Editor

theorem splice_encoded {cs : List Char} {stop : Nat} (hstop : isBoundary (encodeChars cs) stop = true) :
    ∀ (es : List Edit) (cursor : Nat), isBoundary (encodeChars cs) cursor = true →
      (∀ e ∈ es, e.Aligned (encodeChars cs) ∧ ∃ text, e.replacement = encode text) →
      ∃ ds, splice (encodeChars cs) cursor stop es = encodeChars ds := by
  intro es
  induction es with
  | nil => exact fun cursor hc _ => exists_chars_between hc hstop
  | cons e es ih =>
    intro cursor hc he
    obtain ⟨⟨h1, h2⟩, text, htext⟩ := he e (by simp)
    have hmax : isBoundary (encodeChars cs) (max cursor e.stop) = true := by
      rcases max_choice cursor e.stop with h | h <;> rw [h]
      · exact hc
      · exact h2
    obtain ⟨l, hl⟩ := exists_chars_between hc h1
    obtain ⟨r, hr⟩ := ih _ hmax fun x hx => he x (by simp [hx])
    refine ⟨l ++ text.toList ++ r, ?_⟩
    rw [splice, hr, htext, slice, hl, encode_eq, encodeChars_append, encodeChars_append]

variable {u : SourceUnit} {L : Edit → Prop} {ed : Editor} {source : String}

theorem sorted_subset {es : List Edit} {e : Edit} (h : e ∈ Edit.sorted es) : e ∈ es := by
  rw [Edit.sorted_eq] at h
  exact (Sorting.sortBy_perm _ _).mem_iff.1 h

theorem print_ok (hs : u.source = encode source) (h : Recorded u L ed)
    (ha : ∀ e ∈ ed.edits, e.Aligned u.source) : ∃ text, ed.print = .ok text := by
  rw [encode_eq] at hs
  obtain ⟨ds, hds⟩ : ∃ ds, ed.printBytes = encodeChars ds := by
    dsimp only [printBytes]
    rw [h.source, hs]
    refine splice_encoded (isBoundary_length _) _ 0 (isBoundary_zero _) fun e he => ?_
    have hmem := List.mem_of_mem_filter (sorted_subset he)
    exact ⟨hs ▸ ha e hmem, h.texts e hmem⟩
  exact ⟨String.ofList ds, by rw [print, hds, ← encode_ofList, decode_encode]⟩

end Editor

section Sorts

variable {u : SourceUnit} {e : Edit}

theorem aligned_on (ha : u.root.everyNode (Tree.aligned u.source) = true) {t : Tree}
    (ht : t.Within u.root) (he : e.IsOn t) : e.Aligned u.source := by
  have h := Tree.test_within ha ht
  simp only [Tree.aligned, Bool.and_eq_true] at h
  exact ⟨he.1 ▸ h.1, he.2 ▸ h.2⟩

theorem aligned_advisory (ha : u.root.everyNode (Tree.aligned u.source) = true) {p : Place}
    {comment : String} (hp : p.Rooted u.root) (he : e.IsAdvisory u p comment) :
    e.Aligned u.source := by
  have h := Tree.test_within ha hp.statement.1.within
  simp only [Tree.aligned, Bool.and_eq_true] at h
  exact ⟨he.1 ▸ h.1, he.2.1 ▸ h.1⟩

theorem aligned_item (ha : u.root.everyNode (Tree.aligned u.source) = true) {f p : Place}
    (hf : f.Rooted u.root) (hp : p ∈ f.children) (hstart : e.start = (Editor.itemRange p).1)
    (hstop : e.stop = (Editor.itemRange p).2) : e.Aligned u.source := by
  obtain ⟨l, q, hsib, -, hcases⟩ := Editor.itemRange_cases hp
  have hnode : ∀ t ∈ l ++ p.tree :: q,
      isBoundary u.source t.start = true ∧ isBoundary u.source t.stop = true := by
    intro t ht
    have h := Tree.test_within ha ((Tree.within_of_mem (hsib ▸ ht)).trans hf.within)
    simpa only [Tree.aligned, Bool.and_eq_true] using h
  have hself := hnode p.tree (by simp)
  rw [Edit.Aligned, hstart, hstop]
  rcases hcases with ⟨comma, rest, rfl, -, h⟩ | ⟨comma, l', rfl, -, h⟩ | h <;> rw [h]
  · refine ⟨hself.1, ?_⟩
    cases rest with
    | nil => exact (hnode comma (by simp)).2
    | cons next rest => exact (hnode next (by simp)).1
  · exact ⟨(hnode comma (by simp)).1, hself.2⟩
  · exact hself

theorem aligned_injection (ha : u.root.everyNode (Tree.aligned u.source) = true)
    (h : Calls.IsInjectionEdit u e) : e.Aligned u.source := by
  cases h with
  | client p hp on _ =>
    obtain ⟨f, hf, hmem⟩ := hp.rooted
    exact aligned_on ha (hf.child hmem).within on
  | removal p hp start stop _ =>
    obtain ⟨f, hf, hmem⟩ := hp.rooted
    exact aligned_item ha hf hmem start stop

theorem aligned_call (ha : u.root.everyNode (Tree.aligned u.source) = true)
    {members : Pattern.Regex} (h : Calls.IsCallEdit u members e) : e.Aligned u.source := by
  cases h with
  | callee site _ mem _ _ on =>
    obtain ⟨hr, hp⟩ := Calls.mem_callSites mem
    exact aligned_on ha ((Tree.within_of_mem (Tree.child?_mem hp.callee)).trans hr.within) on
  | arguments site _ mem _ _ on =>
    obtain ⟨hr, hp⟩ := Calls.mem_callSites mem
    exact aligned_on ha ((Tree.within_of_mem (Tree.child?_mem hp.arguments)).trans hr.within) on
  | advisory site _ _ mem _ _ before =>
    exact aligned_advisory ha (Calls.mem_callSites mem).1 before

theorem toNat_lt_of_blank {b : UInt8} (h : isBlankByte b = true) : b.toNat < 0x80 := by
  simp only [isBlankByte, Bool.or_eq_true, Bool.and_eq_true, decide_eq_true_eq, beq_iff_eq,
    UInt8.le_iff_toNat_le] at h
  rcases h with ⟨-, h⟩ | rfl
  · exact lt_of_le_of_lt h (by decide)
  · decide

/-- A line goes from character to character, since blanks are characters of their own. -/
theorem aligned_line {source : String} (hs : u.source = encode source) {t : Tree} {a b : Nat}
    (ht : t.aligned u.source = true) (hfit : t.start ≤ t.stop) (h : Editor.TakesLine u.source t a b) :
    isBoundary u.source a = true ∧ isBoundary u.source b = true := by
  simp only [Tree.aligned, Bool.and_eq_true] at ht
  have hlen := h.fits
  have hle := h.le_stop
  constructor
  · rcases Nat.eq_or_lt_of_le h.start_le with rfl | hlt
    · exact ht.1
    · have hblank := (h.head_blank le_rfl hlt (by omega)).1
      have hb := toNat_lt_of_blank hblank
      have htail : isTail u.source[a] = false := by
        rw [Bool.eq_false_iff, ne_eq, isTail_iff]
        omega
      simp only [isBoundary, Bool.and_eq_true, decide_eq_true_eq, Bool.not_eq_true']
      refine ⟨by omega, ?_⟩
      rw [List.getElem?_eq_getElem (by omega)]
      exact htail
  · rw [hs, encode_eq] at ht hlen ⊢
    rw [hs, encode_eq] at h
    refine isBoundary_run hle ht.2 fun p h1 h2 => ?_
    have hp : p < (encodeChars source.toList).length := by omega
    exact ⟨_, List.getElem?_eq_getElem hp, toNat_lt_of_blank (h.tail_blank h1 h2 hp)⟩

end Sorts

end OrmCodemod
