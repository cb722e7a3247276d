import OrmCodemod.Editor
import OrmCodemod.Proofs.Places
import OrmCodemod.Proofs.TreeShape

/-! What goes with a node that is removed. A statement takes the blanks of its line and the line end
after it along, and nothing else; an item of a list takes one comma beside it and the white space
between them. Two items of a list go apart, unless both take the same comma. -/

namespace OrmCodemod

open Syntax Text

theorem getElem?_slice {α : Type} (xs : List α) {a b p : Nat} (ha : a ≤ p) (hb : p < b) :
    (slice xs a b)[p - a]? = xs[p]? := by
  unfold slice
  rw [List.getElem?_take_of_lt (by omega), List.getElem?_drop, show a + (p - a) = p by omega]

theorem mem_slice {α : Type} {xs : List α} {a b p : Nat} (ha : a ≤ p) (hb : p < b)
    (hp : p < xs.length) : xs[p] ∈ slice xs a b := by
  have h : (slice xs a b)[p - a]? = some xs[p] := by
    rw [getElem?_slice xs ha hb, List.getElem?_eq_getElem hp]
  exact List.mem_of_getElem? h

theorem length_slice {α : Type} {xs : List α} {a b : Nat} (hb : b ≤ xs.length) :
    (slice xs a b).length = b - a := by
  simp only [slice, List.length_take, List.length_drop]
  omega

def inlineBlanks (bs : Bytes) : Bool := bs.all fun b => isBlankByte b && b != 10

namespace Editor

def startsLine (source : Bytes) (t : Tree) : Bool :=
  lineIndent source t.start != "" || slice source (t.start - 1) t.start == [10] || t.start == 0

def removalStart (source : Bytes) (t : Tree) : Nat :=
  if startsLine source t then t.start - (lineHead source t.start).length else t.start

def removalStop (source : Bytes) (t : Tree) : Nat :=
  let tail := source.drop t.stop
  let line := tail.takeWhile (· != 10)
  if startsLine source t && line.length < tail.length && line.all isBlankByte then
    t.stop + line.length + 1
  else t.stop

theorem removeStatement_eq (ed : Editor) (t : Tree) :
    ed.removeStatement t =
      ed.replaceRange (removalStart ed.source t) (removalStop ed.source t) "" := by
  simp only [removeStatement, removalStart, removalStop, startsLine]
  split
  · rename_i h
    simp only [h, Bool.true_and, if_true]
  · rename_i h
    rw [Bool.not_eq_true] at h
    simp only [h, Bool.false_and, Bool.false_eq_true, if_false]

/-- A text that loses its start as far as a test goes does not start with a byte of that test. -/
theorem takeWhile_dropWhile (f : UInt8 → Bool) (xs : Bytes) :
    (xs.dropWhile f).takeWhile f = [] := by
  induction xs with
  | nil => rfl
  | cons x xs ih =>
    rcases hx : f x with _ | _
    · rw [List.dropWhile_cons_of_neg (by simp [hx]), List.takeWhile_cons_of_neg (by simp [hx])]
    · rw [List.dropWhile_cons_of_pos hx, ih]

theorem lineHead_suffix (source : Bytes) (p : Nat) :
    ∃ l, source.take p = l ++ lineHead source p ∧ l.reverse.takeWhile (· != 10) = [] := by
  refine ⟨((source.take p).reverse.dropWhile (· != 10)).reverse, ?_, ?_⟩
  · rw [lineHead, ← List.reverse_append, List.takeWhile_append_dropWhile, List.reverse_reverse]
  · rw [List.reverse_reverse, takeWhile_dropWhile]

/-- What stands at the end of a text in its last line, if a line starts before it. -/
theorem takeWhile_line {l m : Bytes} (hl : l.reverse.takeWhile (· != 10) = [])
    (hm : ∀ b ∈ m, b ≠ 10) : ((l ++ m).reverse.takeWhile (· != 10)).reverse = m := by
  rw [List.reverse_append, List.takeWhile_append_of_pos (by simpa using hm), hl, List.append_nil,
    List.reverse_reverse]

theorem slice_lineHead {source : Bytes} {p : Nat} (hp : p ≤ source.length) :
    slice source (p - (lineHead source p).length) p = lineHead source p := by
  obtain ⟨l, hl, -⟩ := lineHead_suffix source p
  have hlen := congrArg List.length hl
  simp only [List.length_take, List.length_append] at hlen
  have h1 : slice source (p - (lineHead source p).length) p =
      (source.take p).drop (p - (lineHead source p).length) := by
    rw [slice, ← List.drop_take]
  rw [h1, hl, show p - (lineHead source p).length = l.length by omega, List.drop_left]

theorem startsLine_blank {source : Bytes} {t : Tree}
    (h : startsLine source t = true) : (lineHead source t.start).all isBlankByte = true := by
  simp only [startsLine, Bool.or_eq_true, bne_iff_ne, ne_eq, beq_iff_eq] at h
  rcases h with (h | h) | h
  · unfold lineIndent at h
    by_contra hno
    simp only [hno, if_false, not_true_eq_false] at h
  · have hpos : 0 < t.start := by
      by_contra h0
      have : t.start = 0 := by omega
      simp [this, slice] at h
    have htake : source.take t.start = source.take (t.start - 1) ++ [10] := by
      rw [← h, slice, ← List.take_add, show t.start - 1 + (t.start - (t.start - 1)) = t.start by omega]
    simp [lineHead, htake]
  · simp [lineHead, h]

/-- `[a, b)` is a statement, with all or nothing of what stands before it in its line, blanks at that,
and blanks of its own line and at most one line end behind it. -/
structure TakesLine (source : Bytes) (t : Tree) (a b : Nat) : Prop where
  start_le : a ≤ t.start
  le_stop : t.stop ≤ b
  fits : b ≤ source.length
  whole : a = t.start ∨ a + (lineHead source t.start).length = t.start
  head : inlineBlanks (slice source a t.start) = true
  tail : b = t.stop ∨ ∃ blanks, inlineBlanks blanks = true ∧ slice source t.stop b = blanks ++ [10]

theorem length_lineHead (source : Bytes) (p : Nat) : (lineHead source p).length ≤ p := by
  obtain ⟨l, hl, -⟩ := lineHead_suffix source p
  have hlen := congrArg List.length hl
  simp only [List.length_take, List.length_append] at hlen
  omega

theorem removal_takesLine {source : Bytes} {t : Tree} (h1 : t.start ≤ t.stop)
    (h2 : t.stop ≤ source.length) :
    TakesLine source t (removalStart source t) (removalStop source t) := by
  have hstop : t.stop ≤ removalStop source t ∧ removalStop source t ≤ source.length := by
    unfold removalStop
    simp only [Bool.and_eq_true, decide_eq_true_eq]
    split
    · rename_i h
      have := h.1.2
      simp only [List.length_drop] at this
      omega
    · omega
  constructor
  · unfold removalStart
    split <;> omega
  · exact hstop.1
  · exact hstop.2
  · have := length_lineHead source t.start
    unfold removalStart
    split <;> omega
  · unfold removalStart
    split
    · rename_i h
      rw [slice_lineHead (by omega)]
      have hblank := startsLine_blank h
      simp only [inlineBlanks, List.all_eq_true, Bool.and_eq_true] at hblank ⊢
      refine fun x hx => ⟨hblank x hx, ?_⟩
      exact List.all_eq_true.1 (List.all_takeWhile (p := (· != 10))) x (List.mem_reverse.1 hx)
    · simp [slice, inlineBlanks]
  · unfold removalStop
    simp only [Bool.and_eq_true, decide_eq_true_eq]
    split
    · rename_i h
      set line := (source.drop t.stop).takeWhile (· != 10) with hline
      refine .inr ⟨line, ?_, ?_⟩
      · have hblank := h.2
        simp only [inlineBlanks, List.all_eq_true, Bool.and_eq_true] at hblank ⊢
        exact fun x hx => ⟨hblank x hx, List.all_eq_true.1 List.all_takeWhile x hx⟩
      · -- the line ends before the source does, and so with a line feed
        have hlen := h.1.2
        have hsplit : line ++ (source.drop t.stop).dropWhile (· != 10) = source.drop t.stop :=
          List.takeWhile_append_dropWhile
        cases hrest : (source.drop t.stop).dropWhile (· != 10) with
        | nil =>
          rw [hrest, List.append_nil] at hsplit
          rw [← hsplit] at hlen
          omega
        | cons x rest =>
          have hx : x = 10 := by
            have := List.head?_dropWhile_not (· != (10 : UInt8)) (source.drop t.stop)
            rw [hrest] at this
            simpa using this
          rw [slice, ← hsplit, hrest, hx, Nat.add_assoc, Nat.add_sub_cancel_left,
            List.take_length_add_append]
          rfl
    · exact .inl rfl

theorem spaced_middle {source : Bytes} {l r : List Tree} {a b : Tree}
    (h : spaced source (l ++ a :: b :: r) = true) : blankBetween source a.stop b.start = true := by
  induction l with
  | nil => simp_all [spaced]
  | cons x l ih =>
    refine ih ?_
    cases l with
    | nil => simp_all [spaced]
    | cons y l => simp_all [spaced]

def itemRange (p : Place) : Nat × Nat :=
  match p.after with
  | comma :: rest =>
    if comma.isToken "," then
      (p.start, match rest with
        | next :: _ => next.start
        | [] => comma.stop)
    else fromBefore
  | [] => fromBefore
where
  fromBefore : Nat × Nat :=
    match p.before with
    | comma :: _ => if comma.isToken "," then (comma.start, p.stop) else (p.start, p.stop)
    | [] => (p.start, p.stop)

theorem removeListItem_eq (ed : Editor) (p : Place) :
    ed.removeListItem p = ed.replaceRange (itemRange p).1 (itemRange p).2 "" := by
  have hbefore : removeListItem.before ed p =
      ed.replaceRange (itemRange.fromBefore p).1 (itemRange.fromBefore p).2 "" := by
    unfold removeListItem.before itemRange.fromBefore
    cases p.before with
    | nil => rfl
    | cons comma rest => dsimp only; split <;> rfl
  unfold removeListItem itemRange
  cases p.after with
  | nil => exact hbefore
  | cons comma rest =>
    dsimp only
    split
    · rfl
    · exact hbefore

/-- An item goes up to what follows the comma after it, or from the comma before it, or alone. -/
theorem itemRange_cases {f p : Place} (hp : p ∈ f.children) :
    ∃ l q, f.tree.children = l ++ p.tree :: q ∧ p.path = ⟨f.tree, l.reverse, q⟩ :: f.path ∧
      ((∃ comma rest, q = comma :: rest ∧ comma.isToken "," = true ∧
          itemRange p = (p.start, (rest.head?.map Tree.start).getD comma.stop)) ∨
        (∃ comma l', l = l' ++ [comma] ∧ comma.isToken "," = true ∧
          itemRange p = (comma.start, p.stop)) ∨
        itemRange p = (p.start, p.stop)) := by
  obtain ⟨l, q, hsib, hpath⟩ := Place.mem_children hp
  refine ⟨l, q, hsib, hpath, ?_⟩
  have hbefore : (∃ comma l', l = l' ++ [comma] ∧ comma.isToken "," = true ∧
      itemRange.fromBefore p = (comma.start, p.stop)) ∨
        itemRange.fromBefore p = (p.start, p.stop) := by
    unfold itemRange.fromBefore Place.before
    rw [hpath]
    rcases List.eq_nil_or_concat l with rfl | ⟨l', comma, rfl⟩
    · exact .inr rfl
    · simp only [List.concat_eq_append, List.reverse_append, List.reverse_cons, List.reverse_nil,
        List.nil_append, List.singleton_append]
      split
      · rename_i hcomma
        exact .inl ⟨comma, l', rfl, hcomma, rfl⟩
      · exact .inr rfl
  unfold itemRange Place.after
  rw [hpath]
  cases q with
  | nil => exact .inr hbefore
  | cons comma rest =>
    dsimp only
    split
    · rename_i hcomma
      refine .inl ⟨comma, rest, rfl, hcomma, ?_⟩
      cases rest <;> rfl
    · exact .inr hbefore

/-- `[a, b)` is an item of a list with one comma beside it and white space. -/
inductive TakesComma (source : Bytes) (p : Place) (a b : Nat) : Prop where
  | next (comma : Tree) (rest : List Tree) (after : p.after = comma :: rest)
      (isComma : comma.isToken "," = true) (start : a = p.start) (stop : comma.stop ≤ b)
      (gap : blankBetween source p.stop comma.start = true)
      (gap' : blankBetween source comma.stop b = true)
  | previous (comma : Tree) (rest : List Tree) (before : p.before = comma :: rest)
      (isComma : comma.isToken "," = true) (start : a = comma.start) (stop : b = p.stop)
      (gap : blankBetween source comma.stop p.start = true)

theorem blankBetween_self (source : Bytes) (a : Nat) : blankBetween source a a = true := by
  simp [blankBetween, slice, decode, decodeChars, decodeFrom, Except.map]

variable {r : Tree} {f p : Place}

theorem itemRange_takesComma {source : Bytes} (hf : f.Rooted r) (hp : p ∈ f.children)
    (ho : r.everyNode Tree.ordered = true) (hs : r.everyNode (spaced source ·.children) = true) :
    TakesComma source p (itemRange p).1 (itemRange p).2 ∨ itemRange p = (p.start, p.stop) := by
  obtain ⟨l, q, hsib, hpath, hcases⟩ := itemRange_cases hp
  have hgaps : spaced source (l ++ p.tree :: q) = true := hsib ▸ Tree.test_within hs hf.within
  have hin : Tree.inOrder f.start f.stop (l ++ p.tree :: q) = true :=
    hsib ▸ Tree.test_within ho hf.within
  rcases hcases with ⟨comma, rest, rfl, hcomma, h⟩ | ⟨comma, l', rfl, hcomma, h⟩ | h
  · obtain ⟨m, -, hin⟩ := Tree.inOrder_append hin
    rw [h]
    have hafter : p.after = comma :: rest := by simp [Place.after, hpath]
    refine .inl (.next comma rest hafter hcomma rfl ?_ (spaced_middle hgaps) ?_)
    · cases rest with
      | nil => exact le_rfl
      | cons next rest =>
        simp only [Tree.inOrder, Bool.and_eq_true, decide_eq_true_eq] at hin
        exact hin.2.2.1.1
    · cases rest with
      | nil => exact blankBetween_self _ _
      | cons next rest =>
        refine spaced_middle (l := l ++ [p.tree]) (r := rest) ?_
        simpa using hgaps
  · rw [List.append_assoc, List.singleton_append] at hgaps
    rw [h]
    have hbefore : p.before = comma :: l'.reverse := by simp [Place.before, hpath]
    exact .inl (.previous comma l'.reverse hbefore hcomma rfl rfl (spaced_middle hgaps))
  · exact .inr h

/-- A sibling of an item goes with it only if it is the comma. -/
theorem itemRange_siblings (hf : f.Rooted r) (hp : p ∈ f.children)
    (ho : r.everyNode Tree.ordered = true) {y : Tree} (hy : y ∈ f.tree.children) :
    y.stop ≤ (itemRange p).1 ∨ (itemRange p).2 ≤ y.start ∨
      ((y = p.tree ∨ y.isToken "," = true) ∧ (itemRange p).1 ≤ y.start ∧
        y.stop ≤ (itemRange p).2) := by
  obtain ⟨l, q, hsib, hpath, hcases⟩ := itemRange_cases hp
  have hin : Tree.inOrder f.start f.stop (l ++ p.tree :: q) = true :=
    hsib ▸ Tree.test_within ho hf.within
  obtain ⟨m, hl, hq⟩ := Tree.inOrder_append hin
  simp only [Tree.inOrder, Bool.and_eq_true, decide_eq_true_eq] at hq
  rw [hsib] at hy
  rcases hcases with ⟨comma, rest, rfl, hcomma, h⟩ | ⟨comma, l', rfl, hcomma, h⟩ | h <;>
    rw [h] <;> simp only [Place.start, Place.stop]
  · have hrest := hq.2
    simp only [Tree.inOrder, Bool.and_eq_true, decide_eq_true_eq] at hrest
    have hreach : comma.stop ≤ (rest.head?.map Tree.start).getD comma.stop ∧
        ∀ y ∈ rest, (rest.head?.map Tree.start).getD comma.stop ≤ y.start := by
      cases rest with
      | nil => exact ⟨le_rfl, by simp⟩
      | cons next rest =>
        have h1 := hrest.2
        simp only [Tree.inOrder, Bool.and_eq_true, decide_eq_true_eq] at h1
        refine ⟨h1.1.1, fun y hy => ?_⟩
        rcases List.mem_cons.1 hy with rfl | hy
        · exact le_rfl
        · have := Tree.inOrder_mem h1.2 hy
          simp only [List.head?_cons, Option.map_some, Option.getD_some]
          omega
    rcases List.mem_append.1 hy with hy | hy
    · have := Tree.inOrder_mem hl hy
      omega
    · rcases List.mem_cons.1 hy with rfl | hy
      · exact .inr (.inr ⟨.inl rfl, le_rfl, by omega⟩)
      · rcases List.mem_cons.1 hy with rfl | hy
        · exact .inr (.inr ⟨.inr hcomma, by omega, by omega⟩)
        · exact .inr (.inl (hreach.2 y hy))
  · obtain ⟨k, hl', hc⟩ := Tree.inOrder_append hl
    simp only [Tree.inOrder, Bool.and_eq_true, decide_eq_true_eq] at hc
    rcases List.mem_append.1 hy with hy | hy
    · rcases List.mem_append.1 hy with hy | hy
      · have := Tree.inOrder_mem hl' hy
        omega
      · obtain rfl := List.mem_singleton.1 hy
        exact .inr (.inr ⟨.inr hcomma, le_rfl, by omega⟩)
    · rcases List.mem_cons.1 hy with rfl | hy
      · exact .inr (.inr ⟨.inl rfl, by omega, le_rfl⟩)
      · have := Tree.inOrder_mem hq.2 hy
        omega
  · rcases List.mem_append.1 hy with hy | hy
    · have := Tree.inOrder_mem hl hy
      omega
    · rcases List.mem_cons.1 hy with rfl | hy
      · exact .inr (.inr ⟨.inl rfl, le_rfl, le_rfl⟩)
      · have := Tree.inOrder_mem hq.2 hy
        omega

theorem itemRange_bounds (hf : f.Rooted r) (hp : p ∈ f.children)
    (ho : r.everyNode Tree.ordered = true) :
    f.start ≤ (itemRange p).1 ∧ (itemRange p).1 ≤ p.start ∧ p.start ≤ p.stop ∧
      p.stop ≤ (itemRange p).2 ∧ (itemRange p).2 ≤ f.stop := by
  obtain ⟨l, q, hsib, hpath, hcases⟩ := itemRange_cases hp
  have hin : Tree.inOrder f.start f.stop (l ++ p.tree :: q) = true :=
    hsib ▸ Tree.test_within ho hf.within
  obtain ⟨m, hl, hq⟩ := Tree.inOrder_append hin
  have hmem : ∀ t ∈ l ++ p.tree :: q, f.start ≤ t.start ∧ t.start ≤ t.stop ∧ t.stop ≤ f.stop :=
    fun t ht => Tree.inOrder_mem hin ht
  have hself : f.start ≤ p.start ∧ p.start ≤ p.stop ∧ p.stop ≤ f.stop := hmem p.tree (by simp)
  rcases hcases with ⟨comma, rest, rfl, hcomma, h⟩ | ⟨comma, l', rfl, hcomma, h⟩ | h <;> rw [h]
  · have hcomma' := hmem comma (by simp)
    simp only [Tree.inOrder, Bool.and_eq_true, decide_eq_true_eq] at hq
    have hstop : p.stop ≤ comma.start := hq.2.1.1
    cases rest with
    | nil => exact ⟨hself.1, le_rfl, hself.2.1, by simp only [List.head?_nil, Option.map_none, Option.getD_none]; omega, hcomma'.2.2⟩
    | cons next rest =>
      have h1 := hq.2.2
      simp only [Tree.inOrder, Bool.and_eq_true, decide_eq_true_eq] at h1
      have h2 := hmem next (by simp)
      simp only [List.head?_cons, Option.map_some, Option.getD_some]
      omega
  · have hcomma' := hmem comma (by simp)
    have h1 := Tree.inOrder_mem hl (t := comma) (by simp)
    have h2 : m ≤ p.start := (Tree.inOrder_mem hq (t := p.tree) (by simp)).1
    simp only
    omega
  · exact ⟨hself.1, le_rfl, hself.2.1, le_rfl, hself.2.2⟩

/-- A node that an item with its comma overlaps lies in the item or the comma, or holds the list. -/
theorem itemRange_within (hf : f.Rooted r) (hp : p ∈ f.children)
    (ho : r.everyNode Tree.ordered = true) {t : Tree} (ht : t.Within r) :
    (∃ y ∈ f.tree.children, (y = p.tree ∨ y.isToken "," = true) ∧ (itemRange p).1 ≤ y.start ∧
        y.stop ≤ (itemRange p).2 ∧ t.Within y) ∨
      f.tree.Within t ∨ t.stop ≤ (itemRange p).1 ∨ (itemRange p).2 ≤ t.start := by
  have hb := itemRange_bounds hf hp ho
  simp only [Place.start, Place.stop] at hb
  rcases Tree.within_or_apart ho ht hf.within with h | h | h | h
  · cases h with
    | self => exact .inr (.inl .self)
    | @child y _ hy h =>
      have hr := h.range (Tree.everyNode_within ho ((Tree.within_of_mem hy).trans hf.within))
      rcases itemRange_siblings hf hp ho hy with h1 | h1 | ⟨h1, h2, h3⟩
      · exact .inr (.inr (.inl (by omega)))
      · exact .inr (.inr (.inr (by omega)))
      · exact .inl ⟨y, hy, h1, h2, h3, h⟩
  · exact .inr (.inl h)
  · exact .inr (.inr (.inl (by omega)))
  · exact .inr (.inr (.inr (by omega)))

def commaFirst (ts : List Tree) : Bool := ts.head?.any (·.isToken ",")

/-- Only a comma stands between two siblings, and none after the second one: both go with it. -/
def sharesComma (p q : Place) : Bool :=
  q.before.length == p.before.length + 2 &&
    p.after.head?.any (fun c => c.isToken "," && c.start < q.start) && !commaFirst q.after

theorem itemRange_of_comma {p : Place} {comma : Tree} {rest : List Tree}
    (h : p.after = comma :: rest) (hcomma : comma.isToken "," = true) :
    itemRange p = (p.start, (rest.head?.map Tree.start).getD comma.stop) := by
  unfold itemRange
  rw [h]
  dsimp only
  rw [if_pos hcomma]
  cases rest <;> rfl

/-- Without a comma after it, an item ends its range. -/
theorem itemRange_of_no_comma {p : Place} (h : commaFirst p.after = false) :
    itemRange p = itemRange.fromBefore p := by
  unfold itemRange
  cases hafter : p.after with
  | nil => rfl
  | cons comma rest =>
    rw [hafter, commaFirst, List.head?_cons, Option.any_some] at h
    dsimp only
    rw [h]
    rfl

theorem fromBefore_snd (p : Place) : (itemRange.fromBefore p).2 = p.stop := by
  unfold itemRange.fromBefore
  cases p.before with
  | nil => rfl
  | cons comma rest =>
    dsimp only
    split <;> rfl

theorem fromBefore_of_comma {p : Place} {comma : Tree} {rest : List Tree}
    (h : p.before = comma :: rest) (hcomma : comma.isToken "," = true) :
    itemRange.fromBefore p = (comma.start, p.stop) := by
  unfold itemRange.fromBefore
  rw [h]
  dsimp only
  rw [if_pos hcomma]

/-- The range of an item starts with it, or with the comma before it where none comes after it. -/
theorem itemRange_fst (p : Place) :
    (itemRange p).1 = p.start ∨ ∃ comma ∈ p.before.head?, comma.isToken "," = true ∧
      commaFirst p.after = false ∧ (itemRange p).1 = comma.start := by
  cases hafter : commaFirst p.after with
  | true =>
    cases h : p.after with
    | nil => simp [commaFirst, h] at hafter
    | cons comma rest =>
      rw [h, commaFirst, List.head?_cons, Option.any_some] at hafter
      exact .inl (by rw [itemRange_of_comma h hafter])
  | false =>
    rw [itemRange_of_no_comma hafter]
    unfold itemRange.fromBefore
    cases p.before with
    | nil => exact .inl rfl
    | cons comma rest =>
      dsimp only
      split
      · rename_i hcomma
        exact .inr ⟨comma, rfl, hcomma, rfl, rfl⟩
      · exact .inl rfl

section Siblings

variable {q : Place} {mid : List Tree}

theorem between_inOrder (hf : f.Rooted r) (hp : p ∈ f.children)
    (ho : r.everyNode Tree.ordered = true) (hmid : p.Between q mid) :
    Tree.inOrder p.stop f.stop (mid ++ q.tree :: q.after) = true := by
  obtain ⟨l, s, hsib, hpath⟩ := Place.mem_children hp
  have hin : Tree.inOrder f.start f.stop (l ++ p.tree :: s) = true :=
    hsib ▸ Tree.test_within ho hf.within
  obtain ⟨m, -, hin⟩ := Tree.inOrder_append hin
  have hafter : p.after = s := by simp [Place.after, hpath]
  rw [← hmid.1, hafter]
  simp only [Tree.inOrder, Bool.and_eq_true] at hin
  exact hin.2

theorem stop_le_itemRange (hf : f.Rooted r) (hp : p ∈ f.children)
    (ho : r.everyNode Tree.ordered = true) (hmid : p.Between q mid)
    (hpc : p.tree.isToken "," = false) : p.stop ≤ (itemRange q).1 := by
  have hin := between_inOrder hf hp ho hmid
  have hmem : ∀ t ∈ mid ++ q.tree :: q.after, p.stop ≤ t.start :=
    fun t ht => (Tree.inOrder_mem hin ht).1
  rcases itemRange_fst q with h | ⟨comma, hhead, hcomma, -, h⟩ <;> rw [h]
  · exact hmem q.tree (by simp)
  · rw [hmid.2] at hhead
    rcases List.eq_nil_or_concat mid with rfl | ⟨l, x, rfl⟩
    · obtain rfl : p.tree = comma := by simpa using hhead
      rw [hpc] at hcomma
      cases hcomma
    · obtain rfl : x = comma := by simpa using hhead
      exact hmem x (by simp)

theorem itemRange_apart {comma next : Tree} (hf : f.Rooted r) (hp : p ∈ f.children)
    (ho : r.everyNode Tree.ordered = true) (hmid : p.Between q (comma :: next :: mid)) :
    next.start ≤ (itemRange q).1 := by
  have hin := between_inOrder hf hp ho hmid
  simp only [List.cons_append, Tree.inOrder, Bool.and_eq_true, decide_eq_true_eq] at hin
  have hmem : ∀ t ∈ next :: (mid ++ q.tree :: q.after), next.start ≤ t.start := by
    intro t ht
    rcases List.mem_cons.1 ht with rfl | ht
    · exact le_rfl
    · have := (Tree.inOrder_mem hin.2.2 ht).1
      omega
  rcases itemRange_fst q with h | ⟨c, hhead, -, -, h⟩ <;> rw [h]
  · exact hmem q.tree (by simp)
  · rw [hmid.2] at hhead
    rcases List.eq_nil_or_concat mid with rfl | ⟨l, x, rfl⟩
    · obtain rfl : next = c := by simpa using hhead
      exact le_rfl
    · obtain rfl : x = c := by simpa using hhead
      exact hmem x (by simp)

/-- Of two items with a comma between them, the second one reaches into the range of the first exactly
if it takes that comma. -/
theorem itemRange_meet {comma : Tree} (hmid : p.Between q [comma])
    (hcomma : comma.isToken "," = true) :
    (itemRange q).1 < q.start ↔ comma.start < q.start ∧ commaFirst q.after = false := by
  cases hafter : commaFirst q.after with
  | true =>
    rcases itemRange_fst q with h | ⟨-, -, -, hno, -⟩
    · simp [h]
    · rw [hafter] at hno
      cases hno
  | false =>
    rw [itemRange_of_no_comma hafter, fromBefore_of_comma hmid.2 hcomma]
    simp

/-- The ranges of two items overlap exactly if the items share a comma. -/
theorem sharesComma_iff (hf : f.Rooted r) (hp : p ∈ f.children)
    (ho : r.everyNode Tree.ordered = true) (hmid : p.Between q mid)
    (hpc : p.tree.isToken "," = false) (hqc : q.tree.isToken "," = false) :
    sharesComma p q = true ↔ (itemRange q).1 < (itemRange p).2 := by
  have hlen : q.before.length = p.before.length + (mid.length + 1) := by
    rw [hmid.2]
    simp only [List.length_append, List.length_reverse, List.length_cons]
    omega
  cases hcomma : commaFirst p.after with
  | false =>
    have hle := stop_le_itemRange hf hp ho hmid hpc
    have hno : sharesComma p q = false := by
      cases hafter : p.after with
      | nil => simp [sharesComma, hafter]
      | cons comma rest =>
        simp only [commaFirst, hafter, List.head?_cons, Option.any_some] at hcomma
        simp [sharesComma, hafter, hcomma]
    rw [hno, itemRange_of_no_comma hcomma, fromBefore_snd]
    simp only [Bool.false_eq_true, false_iff]
    omega
  | true =>
    -- the comma is a sibling of its own, since the second item is none
    cases mid with
    | nil =>
      rw [hmid.1, commaFirst, List.nil_append, List.head?_cons, Option.any_some, hqc] at hcomma
      cases hcomma
    | cons comma mid =>
      have hafter : p.after = comma :: (mid ++ q.tree :: q.after) := hmid.1
      rw [hafter, commaFirst, List.head?_cons, Option.any_some] at hcomma
      rw [itemRange_of_comma hafter hcomma]
      simp only [sharesComma, hafter, hlen, hcomma, List.head?_cons, Option.any_some, Bool.true_and,
        Bool.and_eq_true, beq_iff_eq, decide_eq_true_eq, Bool.not_eq_true', List.length_cons,
        and_assoc]
      cases mid with
      | nil => simpa [Place.start] using (itemRange_meet hmid hcomma).symm
      | cons next mid =>
        have := itemRange_apart hf hp ho hmid
        simp only [List.cons_append, List.head?_cons, Option.map_some, Option.getD_some,
          List.length_cons]
        omega

end Siblings

end Editor
end OrmCodemod
