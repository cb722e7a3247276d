import OrmCodemod.Proofs.TreeShape
import OrmCodemod.Syntax.Grammar.Basic

/-! Nodes that tile a text: one after the other, with nothing but white space between them, each sound
in itself. A node over such pieces is sound too, if it has a token or a comment at both its ends and
what is asked of its kind. -/

namespace OrmCodemod.Syntax

open Text

namespace Tree

/-- Tokens and comments have no children, and comments have no role. -/
def bare (t : Tree) : Bool :=
  ((t.kind.isNamed && !t.is .comment) || t.children.isEmpty) && (!t.is .comment || t.role.isNone)

def formed (t : Tree) : Bool :=
  !t.is .program && t.closedCall && t.ownToken && t.tokened && t.composed && t.shelters &&
    t.imports

def placed (source : Bytes) (t : Tree) : Bool :=
  t.ordered && t.aligned source && Editor.spaced source t.children && t.trimmed source

def sound (source : Bytes) (t : Tree) : Bool := t.bare && t.formed && t.placed source

end Tree

namespace Grammar

def width (cs : List Char) : Nat := (encodeChars cs).length

theorem width_nil : width [] = 0 := rfl

theorem width_append (l r : List Char) : width (l ++ r) = width l + width r := by
  simp [width]

theorem width_cons (c : Char) (cs : List Char) : width (c :: cs) = c.utf8Size + width cs := by
  simp [width, length_encodeChar]

theorem width_eq_zero {cs : List Char} (h : width cs = 0) : cs = [] := by
  cases cs with
  | nil => rfl
  | cons c cs =>
    have := c.utf8Size_pos
    rw [width_cons] at h
    omega

theorem solid_byte {c : Char} (h : isSpace c = false) :
    ∃ b bs, encodeChar c = b :: bs ∧ isBlankByte b = false := by
  obtain ⟨b, bs, he, -, hs, -, -⟩ := encodeChar_spec c []
  refine ⟨b, bs, he, ?_⟩
  rw [← Bool.not_eq_true]
  intro hb
  have hsmall : (9 ≤ b.toNat ∧ b.toNat ≤ 13) ∨ b.toNat = 32 := by
    simpa [isBlankByte, UInt8.le_iff_toNat_le, ← UInt8.toNat_inj] using hb
  obtain rfl := encodeChar_ascii he (by omega)
  have hc : c.toNat = b.toNat := by
    rw [← hs, show scalarOf b [] = b.toNat from rfl, toNat_charOfNat (by omega)]
  rw [isSpace, hc] at h
  simp at h
  omega

theorem feed_of_byte {cs : List Char} (h : (10 : UInt8) ∈ encodeChars cs) : '\n' ∈ cs := by
  obtain ⟨c, hc, hmem⟩ := List.mem_flatMap.1 h
  obtain ⟨b, bs, he, -, hs, -, htail⟩ := encodeChar_spec c []
  rw [he] at hmem
  rcases List.mem_cons.1 hmem with rfl | hmem
  · obtain rfl := encodeChar_ascii he (by decide)
    rwa [show '\n' = c from hs]
  · exact absurd (htail _ hmem) (by decide)

section Offsets

variable {src : List Char} {a b c : Nat} {rest rest' x : List Char}

/-- The source goes on with `rest` at an offset. -/
def Stands (src : List Char) (a : Nat) (rest : List Char) : Prop :=
  ∃ done, src = done ++ rest ∧ a = width done

theorem Stands.after (h : Stands src a (x ++ rest)) : Stands src (a + width x) rest := by
  obtain ⟨done, rfl, rfl⟩ := h
  exact ⟨done ++ x, by simp, (width_append _ _).symm⟩

theorem Stands.unique (h : Stands src a rest) (h' : Stands src a rest') : rest = rest' := by
  obtain ⟨done, rfl, rfl⟩ := h
  obtain ⟨done', he, hw⟩ := h'
  rcases List.append_eq_append_iff.1 he with ⟨m, rfl, rfl⟩ | ⟨m, rfl, rfl⟩ <;>
    rw [width_append] at hw <;> obtain rfl : m = [] := width_eq_zero (by omega) <;> rfl

theorem Stands.boundary (h : Stands src a rest) : isBoundary (encodeChars src) a = true := by
  obtain ⟨done, rfl, rfl⟩ := h
  exact isBoundary_of_cut done rest

/-- Only white space stands between two offsets of a source. -/
def Blank (src : List Char) (a b : Nat) : Prop :=
  ∃ gap rest, gap.all isSpace = true ∧ Stands src a (gap ++ rest) ∧ b = a + width gap

theorem Blank.refl (h : Stands src a rest) : Blank src a a := ⟨[], rest, rfl, h, rfl⟩

theorem Blank.le (h : Blank src a b) : a ≤ b := by
  obtain ⟨gap, rest, -, -, rfl⟩ := h
  omega

theorem Blank.left (h : Blank src a b) : ∃ rest, Stands src a rest := by
  obtain ⟨gap, rest, -, h, -⟩ := h
  exact ⟨_, h⟩

theorem Blank.right (h : Blank src a b) : ∃ rest, Stands src b rest := by
  obtain ⟨gap, rest, -, h, rfl⟩ := h
  exact ⟨_, h.after⟩

theorem Blank.trans (h : Blank src a b) (h' : Blank src b c) : Blank src a c := by
  obtain ⟨gap, rest, hgap, hat, rfl⟩ := h
  obtain ⟨gap', rest', hgap', hat', rfl⟩ := h'
  obtain rfl := hat.after.unique hat'
  refine ⟨gap ++ gap', rest', by rw [List.all_append, hgap, hgap', Bool.and_self], ?_, ?_⟩
  · rwa [List.append_assoc]
  · rw [width_append, Nat.add_assoc]

theorem Blank.between (h : Blank src a b) : Editor.blankBetween (encodeChars src) a b = true := by
  obtain ⟨gap, rest, hgap, ⟨done, rfl, rfl⟩, rfl⟩ := h
  have hslice : slice (encodeChars (done ++ (gap ++ rest))) (width done) (width done + width gap) =
      encode (String.ofList gap) := by
    simp [slice, width, encode_ofList]
  rw [Editor.blankBetween, hslice, decode_encode]
  simpa using hgap

/-- Characters that do not start with a blank, and are not all blank in their last line. -/
structure Inked (x : List Char) : Prop where
  first : ∃ c y, x = c :: y ∧ isSpace c = false
  last : ∃ l c m, x = l ++ c :: m ∧ isSpace c = false ∧ '\n' ∉ m

theorem Inked.of_line {c : Char} {cs : List Char} (hc : isSpace c = false) (h : '\n' ∉ cs) :
    Inked (c :: cs) := ⟨⟨c, cs, rfl, hc⟩, [], c, cs, rfl, hc, h⟩

theorem Inked.edged (hx : Inked x) (h : Stands src a (x ++ rest)) {t : Tree} (hstart : t.start = a)
    (hstop : t.stop = a + width x) : t.edged (encodeChars src) = true := by
  obtain ⟨⟨c, y, hxc, hc⟩, l, d, m, hxd, hd, hm⟩ := hx
  obtain ⟨done, rfl, rfl⟩ := h
  obtain ⟨b, bs, hb, hblank⟩ := solid_byte hc
  obtain ⟨b', bs', hb', hblank'⟩ := solid_byte hd
  have hpos := c.utf8Size_pos
  have hfirst : (encodeChars (done ++ (x ++ rest)))[width done]? = some b := by
    rw [encodeChars_append, width, List.getElem?_append_right le_rfl, Nat.sub_self, hxc]
    simp [hb]
  have hhead : lineHead (encodeChars (done ++ (x ++ rest))) (width done + width x) =
      ((encodeChars (done ++ x)).reverse.takeWhile (· != 10)).reverse := by
    rw [lineHead, ← List.append_assoc, encodeChars_append (done ++ x), ← width_append, width,
      List.take_left]
  have hline : ∀ byte ∈ encodeChars (d :: m), (byte != 10) = true := by
    intro byte hbyte
    rw [bne_iff_ne]
    rintro rfl
    rcases List.mem_cons.1 (feed_of_byte hbyte) with rfl | hmem
    · exact absurd hd (by decide)
    · exact hm hmem
  have hmem : b' ∈ lineHead (encodeChars (done ++ (x ++ rest))) (width done + width x) := by
    rw [hhead, hxd, ← List.append_assoc, encodeChars_append (done ++ l), List.reverse_append,
      List.takeWhile_append_of_pos fun byte h => hline byte (List.mem_reverse.1 h),
      List.reverse_append, List.reverse_reverse]
    simp [hb']
  simp only [Tree.edged, hstart, hstop, hfirst, Option.any_some, hblank, Bool.not_false,
    Bool.and_true, Bool.and_eq_true, decide_eq_true_eq, Bool.not_eq_true', List.all_eq_false]
  refine ⟨?_, b', hmem, by simp [hblank']⟩
  rw [hxc, width_cons]
  omega

end Offsets

/-- Sound nodes one after the other between two offsets, and only white space beside them. -/
def Tiled (src : List Char) (a b : Nat) : Pieces → Prop
  | [] => Blank src a b
  | t :: ts => Blank src a t.start ∧ t.start ≤ t.stop ∧ t.everyNode (Tree.sound (encodeChars src)) = true ∧
      Tiled src t.stop b ts

section Pieces

variable {src : List Char} {a b c : Nat} {ps qs : Pieces} {t : Tree}

theorem Tiled.le (h : Tiled src a b ps) : a ≤ b := by
  induction ps generalizing a with
  | nil => exact Blank.le h
  | cons t ts ih =>
    have := h.1.le
    have := ih h.2.2.2
    have := h.2.1
    omega

theorem Tiled.left (h : Tiled src a b ps) : ∃ rest, Stands src a rest := by
  cases ps with
  | nil => exact Blank.left h
  | cons t ts => exact h.1.left

theorem Tiled.right (h : Tiled src a b ps) : ∃ rest, Stands src b rest := by
  induction ps generalizing a with
  | nil => exact Blank.right h
  | cons t ts ih => exact ih h.2.2.2

theorem Tiled.sound (h : Tiled src a b ps) (ht : t ∈ ps) :
    t.everyNode (Tree.sound (encodeChars src)) = true := by
  induction ps generalizing a with
  | nil => simp at ht
  | cons s ts ih =>
    rcases List.mem_cons.1 ht with rfl | ht
    · exact h.2.2.1
    · exact ih h.2.2.2 ht

theorem Tiled.blank_left (h : Blank src a b) (h' : Tiled src b c ps) : Tiled src a c ps := by
  cases ps with
  | nil => exact h.trans h'
  | cons t ts => exact ⟨h.trans h'.1, h'.2⟩

theorem Tiled.append (h : Tiled src a b ps) (h' : Tiled src b c qs) : Tiled src a c (ps ++ qs) := by
  induction ps generalizing a with
  | nil => exact h'.blank_left h
  | cons t ts ih => exact ⟨h.1, h.2.1, h.2.2.1, ih h.2.2.2⟩

theorem Tiled.split (h : Tiled src a c (ps ++ qs)) : ∃ b, Tiled src a b ps ∧ Tiled src b c qs := by
  induction ps generalizing a with
  | nil =>
    obtain ⟨rest, hat⟩ := Tiled.left h
    exact ⟨a, .refl hat, h⟩
  | cons t ts ih =>
    obtain ⟨b, h1, h2⟩ := ih h.2.2.2
    exact ⟨b, ⟨h.1, h.2.1, h.2.2.1, h1⟩, h2⟩

theorem Tiled.inOrder (h : Tiled src a b ps) : Tree.inOrder a b ps = true := by
  induction ps generalizing a with
  | nil => simpa [Tree.inOrder] using Blank.le h
  | cons t ts ih => simp [Tree.inOrder, h.1.le, h.2.1, ih h.2.2.2]

theorem Tiled.spaced (h : Tiled src a b ps) : Editor.spaced (encodeChars src) ps = true := by
  induction ps generalizing a with
  | nil => rfl
  | cons t ts ih =>
    cases ts with
    | nil => rfl
    | cons s ts =>
      rw [Editor.spaced, h.2.2.2.1.between, Bool.true_and]
      exact ih h.2.2.2

theorem Tiled.narrow (h : Tiled src a b ps) {first last : Tree} (hfirst : ps.head? = some first)
    (hlast : ps.getLast? = some last) : Tiled src first.start last.stop ps := by
  obtain ⟨ts, rfl⟩ := List.head?_eq_some_iff.1 hfirst
  obtain ⟨rest, hat⟩ := h.1.right
  have hright : Tiled src a last.stop (first :: ts) := by
    clear hat
    generalize first :: ts = ps at h hlast
    induction ps generalizing a with
    | nil => simp at hlast
    | cons t ts ih =>
      refine ⟨h.1, h.2.1, h.2.2.1, ?_⟩
      cases ts with
      | nil =>
        obtain rfl : t = last := by simpa using hlast
        obtain ⟨rest, hat⟩ := Tiled.left h.2.2.2
        exact .refl hat
      | cons s ts => exact ih h.2.2.2 (by simpa using hlast)
  exact ⟨.refl hat, hright.2⟩

theorem Tiled.replace {l r : Pieces} {t' : Tree} (h : Tiled src a b (l ++ t :: r))
    (hstart : t'.start = t.start) (hstop : t'.stop = t.stop)
    (hsound : t'.everyNode (Tree.sound (encodeChars src)) = true) : Tiled src a b (l ++ t' :: r) := by
  obtain ⟨m, hl, hr⟩ := h.split
  refine hl.append ⟨hstart ▸ hr.1, by rw [hstart, hstop]; exact hr.2.1, hsound, ?_⟩
  rw [hstop]
  exact hr.2.2.2

theorem formed_leaf {k : Kind} {role : Option Role} (hk : k ≠ .named .program) :
    (Tree.node k role a b []).formed = true := by
  have hprogram : (Tree.node k role a b []).is .program = false := by simpa [Tree.is, Tree.kind] using hk
  have hshort : (!(Tree.node k role a b []).is .shorthandPropertyIdentifier ||
      (Tree.node k role a b []).blockless) = true := by
    rw [Bool.or_eq_true, Bool.not_eq_true', or_iff_not_imp_left, Bool.not_eq_false]
    intro h
    obtain rfl : k = .named .shorthandPropertyIdentifier := by simpa [Tree.is, Tree.kind] using h
    rfl
  rw [Tree.formed, hprogram, Tree.shelters, hshort]
  simp [Tree.closedCall, Tree.ownToken, Tree.tokened, Tree.composed, Tree.child?, Tree.children,
    Tree.significant, Tree.namedChildren, Tree.blocklessBut, Tree.imports]

theorem sound_leaf {k : Kind} {role : Option Role} {x rest : List Char} (h : Stands src a (x ++ rest))
    (hk : k ≠ .named .program) (hcomment : k ≠ .named .comment ∨ role = none) :
    (Tree.node k role a (a + width x) []).everyNode (Tree.sound (encodeChars src)) = true := by
  refine Tree.everyNode_iff.2 ⟨?_, by simp [Tree.children]⟩
  rw [Tree.sound, formed_leaf hk]
  have hrole : (!(Tree.node k role a (a + width x) []).is .comment || role.isNone) = true := by
    rcases hcomment with h | rfl
    · simp [Tree.is, Tree.kind, h]
    · simp
  simp [Tree.bare, Tree.placed, Tree.ordered, Tree.inOrder, Tree.aligned, Editor.spaced, Tree.trimmed,
    Tree.children, Tree.role, Tree.start, Tree.stop, h.boundary, h.after.boundary, hrole]

theorem Tiled.leaf {k : Kind} {role : Option Role} {x rest : List Char} (h : Stands src a (x ++ rest))
    (hk : k ≠ .named .program) (hcomment : k ≠ .named .comment ∨ role = none) :
    Tiled src a (a + width x) [.node k role a (a + width x) []] :=
  ⟨.refl h, Nat.le_add_right _ _, sound_leaf h hk hcomment, .refl h.after⟩

/-- A node over pieces is sound, if it has no blank at its ends and is well formed. -/
theorem Tiled.close {k : NodeKind} {first last : Tree} (h : Tiled src a b ps)
    (hfirst : ps.head? = some first) (hlast : ps.getLast? = some last)
    (hink : first.edged (encodeChars src) = true) (hink' : last.edged (encodeChars src) = true)
    (hk : k ≠ .comment) (hformed : (nodeOf k ps).formed = true) :
    Tiled src a b [nodeOf k ps] ∧ (nodeOf k ps).edged (encodeChars src) = true := by
  have hstart : (nodeOf k ps).start = first.start := by
    simp [nodeOf, Tree.start, hfirst]
  have hstop : (nodeOf k ps).stop = last.stop := by simp [nodeOf, Tree.stop, hlast]
  have hnarrow := h.narrow hfirst hlast
  have hchildren : (nodeOf k ps).children = ps := rfl
  -- the first piece ends before the last one does
  have hle : first.stop ≤ last.stop := by
    obtain ⟨ts, rfl⟩ := List.head?_eq_some_iff.1 hfirst
    exact hnarrow.2.2.2.le
  have hedged : (nodeOf k ps).edged (encodeChars src) = true := by
    simp only [Tree.edged, Bool.and_eq_true, decide_eq_true_eq] at hink hink' ⊢
    rw [hstart, hstop]
    exact ⟨⟨by omega, hink.1.2⟩, hink'.2⟩
  obtain ⟨rest, hleft⟩ := hnarrow.left
  obtain ⟨rest', hright⟩ := hnarrow.right
  have hbare : (nodeOf k ps).bare = true := by
    have hcomment : (nodeOf k ps).is .comment = false := by
      simp [nodeOf, Tree.is, Tree.kind, hk]
    have hnamed : (nodeOf k ps).kind.isNamed = true := rfl
    simp [Tree.bare, hcomment, hnamed]
  have hplaced : (nodeOf k ps).placed (encodeChars src) = true := by
    simp only [Tree.placed, Tree.ordered, Tree.aligned, Tree.trimmed, hstart, hstop, hchildren,
      hnarrow.inOrder, hleft.boundary, hright.boundary, h.spaced, hedged, Bool.or_true, Bool.and_true]
  have hsound : (nodeOf k ps).everyNode (Tree.sound (encodeChars src)) = true := by
    refine Tree.everyNode_iff.2 ⟨?_, fun t ht => h.sound ht⟩
    rw [Tree.sound, hbare, hformed, hplaced]
    rfl
  refine ⟨?_, hedged⟩
  obtain ⟨ts, rfl⟩ := List.head?_eq_some_iff.1 hfirst
  refine ⟨hstart ▸ h.1, by rw [hstart, hstop]; exact hnarrow.le, hsound, ?_⟩
  rw [hstop]
  -- what is behind the last piece is behind the node
  obtain ⟨l, hl⟩ := List.getLast?_eq_some_iff.1 hlast
  rw [hl] at h
  obtain ⟨m, -, hr⟩ := h.split
  exact hr.2.2.2

end Pieces

end Grammar
end OrmCodemod.Syntax
