import OrmCodemod.Proofs.Requests
import OrmCodemod.Proofs.Utf8

/-! What a printed source is put together from. Offset by offset come the insertions there, the
replacement that starts there, and the byte if nothing covers it; so every edit is printed once, and
so is every byte that no replacement covers. -/

namespace OrmCodemod

open Syntax Text

/-- A piece of a printed source: the text of an edit, or a byte that was left alone. -/
inductive Piece where
  | edit (e : Edit)
  | byte (offset : Nat)

namespace Piece

def bytes (source : Bytes) : Piece → Bytes
  | edit e => e.replacement
  | byte p => slice source p (p + 1)

def edit? : Piece → Option Edit
  | edit e => some e
  | byte _ => none

def offset? : Piece → Option Nat
  | edit _ => none
  | byte p => some p

end Piece

namespace Editor

def insertionsAt (ed : Editor) (p : Nat) : List Edit :=
  ed.edits.filter fun e => e.isInsertion && e.start == p

def replacementAt (ed : Editor) (p : Nat) : Option Edit :=
  ed.edits.find? fun e => !e.isInsertion && e.start == p

def leaves (ed : Editor) (p : Nat) : Bool :=
  p < ed.source.length && !ed.edits.any (·.covers p)

def piecesAt (ed : Editor) (p : Nat) : List Piece :=
  (ed.insertionsAt p ++ (ed.replacementAt p).toList).map .edit ++
    if ed.leaves p then [.byte p] else []

/-- The pieces of a source, from its first offset to the one behind its last byte. -/
def pieces (ed : Editor) : List Piece := (List.range (ed.source.length + 1)).flatMap ed.piecesAt

variable {ed : Editor} {p : Nat}

theorem mem_replacementAt {e : Edit} (h : ed.replacementAt p = some e) :
    e ∈ ed.edits ∧ e.start ≠ e.stop ∧ e.start = p := by
  have htest := List.find?_some h
  simp only [Bool.and_eq_true, Bool.not_eq_true', ← Bool.not_eq_true, Edit.isInsertion_iff,
    beq_iff_eq] at htest
  exact ⟨List.mem_of_find?_eq_some h, htest⟩

theorem replacementAt_eq_some (h : ed.Sound) {e : Edit} :
    ed.replacementAt p = some e ↔ e ∈ ed.edits ∧ e.start ≠ e.stop ∧ e.start = p := by
  refine ⟨mem_replacementAt, fun ⟨hmem, hne, hp⟩ => ?_⟩
  cases hf : ed.replacementAt p with
  | none =>
    have := List.find?_eq_none.1 hf e hmem
    rw [Bool.and_eq_true, Bool.not_eq_true', ← Bool.not_eq_true, Edit.isInsertion_iff,
      beq_iff_eq] at this
    exact absurd ⟨hne, hp⟩ this
  | some x =>
    obtain ⟨hx, hxne, hxp⟩ := mem_replacementAt hf
    by_contra hex
    have hap := h.apart.forall hx hmem fun he => hex (congrArg some he)
    have h1 := h.range x hx
    have h2 := h.range e hmem
    unfold Edit.Apart at hap
    omega

theorem piecesAt_bytes (h : ed.Sound) :
    (ed.piecesAt p).flatMap (Piece.bytes ed.source) = ed.view.cell p := by
  have hins : (ed.insertionsAt p).flatMap (·.replacement) = ed.view.inserted p := rfl
  have hshown : (ed.replacementAt p).toList.flatMap (·.replacement) ++
      (if ed.leaves p then slice ed.source p (p + 1) else []) = ed.view.shown p := by
    cases hf : ed.replacementAt p with
    | some e =>
      obtain ⟨he, hne, hp⟩ := mem_replacementAt hf
      have hrange := h.range e he
      have hcov : e.covers p = true := Edit.covers_iff.2 (by omega)
      have hgone : ed.leaves p = false := by
        have : ed.edits.any (·.covers p) = true := List.any_eq_true.2 ⟨e, he, hcov⟩
        simp [leaves, this]
      rw [view, Edit.shown_of_covers h.apart he hcov, hgone, if_pos hp]
      simp
    | none =>
      by_cases hcov : ∃ e ∈ ed.edits, e.covers p = true
      · obtain ⟨e, he, hep⟩ := hcov
        have hgone : ed.leaves p = false := by
          have : ed.edits.any (·.covers p) = true := List.any_eq_true.2 ⟨e, he, hep⟩
          simp [leaves, this]
        have hstart : e.start ≠ p := by
          intro hp
          have hne : e.start ≠ e.stop := by
            have := Edit.covers_iff.1 hep
            omega
          rw [(replacementAt_eq_some h).2 ⟨he, hne, hp⟩] at hf
          cases hf
        rw [view, Edit.shown_of_covers h.apart he hep, hgone, if_neg hstart]
        simp
      · have hfree : ∀ e ∈ ed.edits, e.covers p = false := by simpa using hcov
        rw [view, Edit.shown_of_free hfree]
        by_cases hp : p < ed.source.length
        · have : ed.leaves p = true := by simpa [leaves, hp] using hfree
          simp [this]
        · have : ed.leaves p = false := by simp [leaves, hp]
          simp [this, slice, List.drop_eq_nil_of_le (Nat.not_lt.1 hp)]
  rw [View.cell, ← hins, ← hshown, piecesAt, List.flatMap_append, List.flatMap_map,
    List.flatMap_append, List.append_assoc]
  congr 2
  split <;> simp [Piece.bytes]

theorem printBytes_pieces (h : ed.Sound) :
    ed.printBytes = ed.pieces.flatMap (Piece.bytes ed.source) := by
  rw [printBytes_eq_span h, View.span, Nat.sub_zero, ← List.range_eq_range', pieces,
    List.flatMap_assoc]
  exact List.flatMap_congr fun p _ => (piecesAt_bytes h).symm

theorem edits_nodup (h : ed.Sound) : ed.edits.Nodup :=
  h.orders.imp fun hlt heq => absurd (heq ▸ hlt) (Nat.lt_irrefl _)

theorem piecesAt_edits : (ed.piecesAt p).filterMap Piece.edit? =
    ed.insertionsAt p ++ (ed.replacementAt p).toList := by
  rw [piecesAt, List.filterMap_append, List.filterMap_map]
  have hsome : Piece.edit? ∘ Piece.edit = some := rfl
  rw [hsome, List.filterMap_some]
  split <;> simp [Piece.edit?]

theorem mem_editsAt (h : ed.Sound) {e : Edit} :
    e ∈ ed.insertionsAt p ++ (ed.replacementAt p).toList ↔ e ∈ ed.edits ∧ e.start = p := by
  rw [List.mem_append, Option.mem_toList, replacementAt_eq_some h, insertionsAt, List.mem_filter, Bool.and_eq_true, Edit.isInsertion_iff, beq_iff_eq]
  tauto

theorem pieces_edits_perm (h : ed.Sound) : (ed.pieces.filterMap Piece.edit?).Perm ed.edits := by
  have hpieces : ed.pieces.filterMap Piece.edit? = (List.range (ed.source.length + 1)).flatMap
      fun p => ed.insertionsAt p ++ (ed.replacementAt p).toList := by
    rw [pieces, List.filterMap_flatMap]
    exact List.flatMap_congr fun p _ => piecesAt_edits
  have hnodup := edits_nodup h
  rw [hpieces]
  refine (List.perm_ext_iff_of_nodup (List.nodup_flatMap.2 ⟨fun p _ => ?_, ?_⟩) hnodup).2 fun e => ?_
  · refine List.nodup_append.2 ⟨hnodup.filter _, ?_, fun e he x hx => ?_⟩
    · cases ed.replacementAt p <;> simp
    · -- an insertion is no replacement
      rintro rfl
      have h1 := (List.mem_filter.1 he).2
      have h2 := (mem_replacementAt (Option.mem_toList.1 hx)).2.1
      simp only [Bool.and_eq_true, Edit.isInsertion_iff] at h1
      exact h2 h1.1
  · refine List.nodup_range.imp fun {p q} hpq => ?_
    intro e hp hq
    exact hpq (((mem_editsAt h).1 hp).2.symm.trans ((mem_editsAt h).1 hq).2)
  · rw [List.mem_flatMap]
    constructor
    · rintro ⟨p, -, he⟩
      exact ((mem_editsAt h).1 he).1
    · intro he
      have := h.range e he
      exact ⟨e.start, List.mem_range.2 (by omega), (mem_editsAt h).2 ⟨he, rfl⟩⟩

theorem pieces_offsets (ed : Editor) :
    ed.pieces.filterMap Piece.offset? = (List.range ed.source.length).filter ed.leaves := by
  have hat : ∀ p, (ed.piecesAt p).filterMap Piece.offset? =
      (Option.guard ed.leaves p).toList := by
    intro p
    have hnone : Piece.offset? ∘ Piece.edit = fun _ => none := rfl
    rw [piecesAt, List.filterMap_append, List.filterMap_map, hnone]
    cases hp : ed.leaves p <;> simp [Option.guard, hp, Piece.offset?]
  have hend : ed.leaves ed.source.length = false := by simp [leaves]
  rw [pieces, List.filterMap_flatMap, List.flatMap_congr fun p _ => hat p,
    ← List.filterMap_eq_flatMap_toList, List.filterMap_eq_filter, List.range_succ,
    List.filter_append, List.filter_singleton, hend]
  simp

/-- What an editor prints after any calls: the pieces of its source, offset by offset. They are a text
exactly if printing gives one, every edit is one of them and so is every byte that is left alone. -/
theorem print_eq_pieces (source : Bytes) (rs : List (Request source.length)) :
    let ed := Request.reached source rs
    ed.printBytes = ed.pieces.flatMap (Piece.bytes source) ∧
    (∀ text, ed.print = .ok text ↔ encode text = ed.pieces.flatMap (Piece.bytes source)) ∧
    (ed.pieces.filterMap Piece.edit?).Perm ed.edits ∧ ed.edits.Nodup ∧
    ed.pieces.filterMap Piece.offset? = (List.range source.length).filter ed.leaves := by
  obtain ⟨hsound, hsource⟩ := Request.reached_sound rs
  have hprint := printBytes_pieces hsound
  have hoffsets := pieces_offsets (Request.reached source rs)
  simp only [hsource] at hprint hoffsets
  refine ⟨hprint, fun text => ?_, pieces_edits_perm hsound, edits_nodup hsound, hoffsets⟩
  rw [print, ← hprint]
  constructor
  · exact encode_of_decode
  · intro htext
    rw [← htext, decode_encode]

end Editor
end OrmCodemod
