import Mathlib.Data.List.TakeWhile
import OrmCodemod.Proofs.Attached

/-! Comments that are read back. A comment is written with the indentation of its statement after every
line feed that a line follows, and compared by its lines without their blanks. Spaces and tabs do not show
in that comparison. The other blanks that a line may start with are line ends themselves: an indentation
with one of them adds lines to a comment of more than one line, which then is not recognized. -/

namespace OrmCodemod

open Syntax Text

namespace Text

variable {cs l t r indent line : List Char} {c : Char}

/-- A text that neither starts nor ends with a blank. -/
structure Trimmed (t : List Char) : Prop where
  first : ∀ c ∈ t.head?, isBlank c = false
  last : ∀ c ∈ t.getLast?, isBlank c = false

theorem dropWhile_of_head (h : ∀ c ∈ t.head?, isBlank c = false) : t.dropWhile isBlank = t := by
  cases t with
  | nil => rfl
  | cons c t => rw [List.dropWhile_cons_of_neg (by simp [h c (by simp)])]

theorem trimChars_between (hl : ∀ c ∈ l, isBlank c = true) (hr : ∀ c ∈ r, isBlank c = true)
    (ht : Trimmed t) : trimChars (l ++ t ++ r) = t := by
  have hr' : ∀ c ∈ r.reverse, isBlank c = true := fun c hc => hr c (List.mem_reverse.1 hc)
  rw [trimChars, List.append_assoc, List.dropWhile_append_of_pos hl]
  rcases t.eq_nil_or_concat with rfl | ⟨t, z, rfl⟩
  · rw [List.nil_append, List.dropWhile_eq_nil_iff.2 hr]
    rfl
  · have hz : isBlank z = false := ht.last z (by simp)
    have hfirst : ∀ c ∈ (t.concat z ++ r).head?, isBlank c = false := by
      intro c hc
      refine ht.first c ?_
      cases t <;> simpa using hc
    rw [dropWhile_of_head hfirst, List.reverse_append, List.dropWhile_append_of_pos hr',
      List.concat_eq_append, List.reverse_append, List.reverse_singleton, List.singleton_append,
      List.dropWhile_cons_of_neg (by simp [hz]), List.reverse_cons, List.reverse_reverse]

theorem exists_trimmed (cs : List Char) : ∃ l r, cs = l ++ trimChars cs ++ r ∧
    (∀ c ∈ l, isBlank c = true) ∧ (∀ c ∈ r, isBlank c = true) ∧ Trimmed (trimChars cs) := by
  have hhead : ∀ (xs : List Char), ∀ c ∈ (xs.dropWhile isBlank).head?, isBlank c = false := by
    intro xs c hc
    have := List.head?_dropWhile_not isBlank xs
    rwa [Option.mem_def.1 hc] at this
  set m := cs.dropWhile isBlank with hm
  have hsplit : m = trimChars cs ++ (m.reverse.takeWhile isBlank).reverse := by
    rw [trimChars, ← hm, ← List.reverse_append, List.takeWhile_append_dropWhile, List.reverse_reverse]
  refine ⟨cs.takeWhile isBlank, (m.reverse.takeWhile isBlank).reverse, ?_,
    fun c hc => List.mem_takeWhile_imp hc,
    fun c hc => List.mem_takeWhile_imp (List.mem_reverse.1 hc), fun c hc => ?_, fun c hc => ?_⟩
  · rw [List.append_assoc, ← hsplit, List.takeWhile_append_dropWhile]
  · refine hhead cs c ?_
    rw [← hm, hsplit, List.head?_append, Option.mem_def.1 hc]
    rfl
  · refine hhead m.reverse c ?_
    rwa [trimChars, ← hm, List.getLast?_reverse] at hc

/-- The indentation, if a line feed stands before a character of a line. -/
def opening (indent : List Char) (c : Char) (rest : List Char) : List Char :=
  if c = '\n' ∧ rest.head?.any (· != '\n') = true then indent else []

/-- Every line that is not empty is indented, but for the first one. -/
def indented (indent : List Char) : List Char → List Char
  | [] => []
  | c :: rest => c :: (opening indent c rest ++ indented indent rest)

theorem opening_cases (indent : List Char) (c : Char) (rest : List Char) :
    opening indent c rest = [] ∨
      (opening indent c rest = indent ∧ c = '\n' ∧ ∃ d rest', rest = d :: rest' ∧ d ≠ '\n') := by
  unfold opening
  split
  · rename_i h
    refine .inr ⟨rfl, h.1, ?_⟩
    cases rest with
    | nil => simp at h
    | cons d rest' => exact ⟨d, rest', rfl, by simpa using h.2⟩
  · exact .inl rfl

theorem opening_of_ne (h : c ≠ '\n') : opening indent c cs = [] := if_neg fun hc => h hc.1

@[simp] theorem head?_indented : (indented indent cs).head? = cs.head? := by
  cases cs <;> rfl

@[simp] theorem getLast?_indented : (indented indent cs).getLast? = cs.getLast? := by
  induction cs with
  | nil => rfl
  | cons c cs ih =>
    rw [indented, ← List.cons_append, List.getLast?_append, ih]
    cases cs with
    | nil => simp [opening]
    | cons d cs => simp [List.getLast?_cons]

theorem mem_indented (h : c ∈ indented indent cs) : c ∈ cs ∨ c ∈ indent := by
  induction cs with
  | nil => simp [indented] at h
  | cons d cs ih =>
    rw [indented, List.mem_cons, List.mem_append] at h
    rcases h with rfl | h | h
    · simp
    · rcases opening_cases indent d cs with ho | ⟨ho, -⟩ <;> rw [ho] at h
      · simp at h
      · exact .inr h
    · exact (ih h).imp_left (List.mem_cons_of_mem d)

theorem indented_append (indent xs ys : List Char) : ∃ pad, (∀ c ∈ pad, c ∈ indent) ∧
    indented indent (xs ++ ys) = indented indent xs ++ pad ++ indented indent ys := by
  induction xs with
  | nil => exact ⟨[], by simp, by simp [indented]⟩
  | cons c xs ih =>
    cases xs with
    | nil =>
      refine ⟨opening indent c ys, fun d hd => ?_, by simp [indented, opening]⟩
      rcases opening_cases indent c ys with ho | ⟨ho, -⟩ <;> rw [ho] at hd
      · simp at hd
      · exact hd
    | cons d xs =>
      obtain ⟨pad, hpad, h⟩ := ih
      have hopening : opening indent c (d :: xs ++ ys) = opening indent c (d :: xs) := rfl
      refine ⟨pad, hpad, ?_⟩
      rw [List.cons_append, indented, indented, h, hopening]
      simp only [List.cons_append, List.append_assoc]

theorem trimChars_indented (hindent : ∀ c ∈ indent, isBlank c = true) (cs : List Char) :
    trimChars (indented indent cs) = indented indent (trimChars cs) := by
  obtain ⟨l, r, hcs, hl, hr, ht⟩ := exists_trimmed cs
  obtain ⟨pad, hpad, h1⟩ := indented_append indent (l ++ trimChars cs) r
  obtain ⟨pad', hpad', h2⟩ := indented_append indent l (trimChars cs)
  have hblank : ∀ {xs : List Char}, (∀ c ∈ xs, isBlank c = true) →
      ∀ c ∈ indented indent xs, isBlank c = true :=
    fun hxs c hc => (mem_indented hc).elim (hxs c) (hindent c)
  conv_lhs => rw [hcs, h1, h2]
  rw [List.append_assoc _ pad]
  refine trimChars_between ?_ ?_ ⟨by simpa using ht.first, by simpa using ht.last⟩
  · intro c hc
    exact (List.mem_append.1 hc).elim (hblank hl c) fun hc => hindent c (hpad' c hc)
  · intro c hc
    exact (List.mem_append.1 hc).elim (fun hc => hindent c (hpad c hc)) (hblank hr c)

/-- Away from a carriage return with its line feed, a character ends the line or belongs to it. -/
theorem linesFrom_cons (h : ¬(c = '\r' ∧ cs.head? = some '\n')) :
    linesFrom line (c :: cs) =
      if isLineEnd c then line.reverse :: linesFrom [] cs else linesFrom (c :: line) cs := by
  rw [linesFrom]
  rintro rest rfl rfl
  exact h ⟨rfl, rfl⟩

/-- An indentation gives a line for each of its line ends; without any it starts the next line. -/
theorem linesFrom_indent (hindent : '\n' ∉ indent) (hcs : cs.head? ≠ some '\n') (line : List Char) :
    ∃ ends line', linesFrom line (indent ++ cs) = ends ++ linesFrom line' cs ∧
      ends.length = indent.countP isLineEnd ∧
      (indent.countP isLineEnd = 0 → line' = indent.reverse ++ line) := by
  induction indent generalizing line with
  | nil => exact ⟨[], line, rfl, rfl, fun _ => rfl⟩
  | cons c indent ih =>
    have hrest : '\n' ∉ indent := fun h => hindent (List.mem_cons_of_mem c h)
    have hnext : (indent ++ cs).head? ≠ some '\n' := by
      cases indent with
      | nil => exact hcs
      | cons d indent => exact fun h => hrest (by simp [Option.some.inj h])
    rw [List.cons_append, linesFrom_cons fun h => hnext h.2]
    cases hc : isLineEnd c with
    | true =>
      obtain ⟨ends, line', h, hends, -⟩ := ih hrest []
      refine ⟨line.reverse :: ends, line', by simp [h], by simp [hc, hends], fun hnone => ?_⟩
      simp [hc] at hnone
    | false =>
      obtain ⟨ends, line', h, hends, hline⟩ := ih hrest (c :: line)
      refine ⟨ends, line', by simp [h], by simp [hc, hends], fun hnone => ?_⟩
      rw [List.countP_cons_of_neg (by simp [hc])] at hnone
      simp [hline hnone]

/-- What stands before a line only adds lines where it has line ends, and else only blanks. -/
theorem linesFrom_opening (hfeed : '\n' ∉ indent) (c : Char) (rest : List Char) : ∃ ends line',
    linesFrom [] (opening indent c rest ++ indented indent rest) =
        ends ++ linesFrom line' (indented indent rest) ∧
      ends.length = (opening indent c rest).countP isLineEnd ∧
      ((opening indent c rest).countP isLineEnd = 0 → line' = (opening indent c rest).reverse) := by
  rcases opening_cases indent c rest with ho | ⟨ho, -, d, rest', rfl, hd⟩ <;> rw [ho]
  · exact ⟨[], [], rfl, rfl, fun _ => rfl⟩
  · have hnext : (indented indent (d :: rest')).head? ≠ some '\n' := by simpa using hd
    obtain ⟨ends, line', h, hends, hline⟩ := linesFrom_indent hfeed hnext []
    exact ⟨ends, line', h, hends, fun hnone => by rw [hline hnone, List.append_nil]⟩

/-- A character that is no carriage return before a line feed is none in the indented text. -/
theorem opening_head (h : ∀ rest', c = '\r' → cs = '\n' :: rest' → False) :
    ¬(c = '\r' ∧ (opening indent c cs ++ indented indent cs).head? = some '\n') := by
  rintro ⟨rfl, hhead⟩
  rw [opening_of_ne (by decide), List.nil_append, head?_indented] at hhead
  obtain ⟨rest', rfl⟩ := List.head?_eq_some_iff.1 hhead
  exact h rest' rfl rfl

theorem opening_subset (indent : List Char) (c : Char) (rest : List Char) :
    opening indent c rest ⊆ indent := by
  rcases opening_cases indent c rest with ho | ⟨ho, -⟩ <;> simp [ho]

theorem trimChars_blank_append (hl : ∀ c ∈ l, isBlank c = true) : trimChars (l ++ t) = trimChars t := by
  rw [trimChars, trimChars, List.dropWhile_append_of_pos hl]

/-- The lines of a text and of the indented text are the same, but for their blanks; the current line may
have started with some. -/
def SameLines (indent line cs : List Char) : Prop :=
  ∀ pad : List Char, (∀ c ∈ pad, isBlank c = true) → (cs = [] → line = [] → pad = []) →
    (linesFrom (line ++ pad) (indented indent cs)).map trimChars =
      (linesFrom line cs).map trimChars

theorem SameLines.next (hindent : ∀ c ∈ indent, isBlank c = true) (hfeed : '\n' ∉ indent)
    (hlevel : ∀ c ∈ indent, isLineEnd c = false) (h : SameLines indent [] cs) (c : Char) :
    (linesFrom [] (opening indent c cs ++ indented indent cs)).map trimChars =
      (linesFrom [] cs).map trimChars := by
  have hnone : (opening indent c cs).countP isLineEnd = 0 :=
    List.countP_eq_zero.2 fun d hd => by simp [hlevel d (opening_subset indent c cs hd)]
  obtain ⟨ends, line', hlines, hends, hline⟩ := linesFrom_opening hfeed c cs
  rw [hnone] at hends
  rw [hlines, List.length_eq_zero_iff.1 hends, List.nil_append, hline hnone]
  refine h _ (fun d hd => hindent d (opening_subset indent c cs (List.mem_reverse.1 hd))) ?_
  rintro rfl -
  simp [opening]

/-- Where the indentation ends no line, an indented text has the lines of the text. -/
theorem sameLines (hindent : ∀ c ∈ indent, isBlank c = true) (hfeed : '\n' ∉ indent)
    (hlevel : ∀ c ∈ indent, isLineEnd c = false) (line cs : List Char) :
    SameLines indent line cs := by
  have htrim : ∀ (line pad : List Char), (∀ c ∈ pad, isBlank c = true) →
      trimChars (line ++ pad).reverse = trimChars line.reverse := fun line pad hpad => by
    rw [List.reverse_append, trimChars_blank_append fun c hc => hpad c (List.mem_reverse.1 hc)]
  unfold SameLines
  fun_induction linesFrom line cs with
  | case1 line hline =>
    intro pad _ hend
    obtain rfl : line = [] := by simpa using hline
    rw [hend rfl rfl]
    rfl
  | case2 line hline =>
    intro pad hpad _
    have hline' : (line ++ pad).isEmpty = false := by
      cases line <;> simp_all
    rw [indented, linesFrom, if_neg (by simp [hline']), List.map_singleton, List.map_singleton,
      htrim line pad hpad]
  | case3 line rest ih =>
    intro pad hpad _
    have hnext := SameLines.next hindent hfeed hlevel ih '\n'
    rw [indented, opening_of_ne (by decide), List.nil_append, indented, linesFrom, List.map_cons,
      List.map_cons, htrim line pad hpad, hnext]
  | case4 line c rest hpair hc ih =>
    intro pad hpad _
    have hnext := SameLines.next hindent hfeed hlevel ih c
    rw [indented, linesFrom_cons (opening_head hpair), if_pos hc, List.map_cons, List.map_cons,
      htrim line pad hpad, hnext]
  | case5 line c rest hpair hc ih =>
    intro pad hpad _
    have hne : c ≠ '\n' := by
      rintro rfl
      exact hc (by decide)
    rw [indented, linesFrom_cons (opening_head hpair), if_neg hc, opening_of_ne hne,
      List.nil_append, ← List.cons_append]
    exact ih pad hpad fun _ h => by cases h

/-- An indented text has the lines of the text and maybe more; there are more if the indentation ends a
line and is put somewhere. -/
def MoreLines (indent line cs : List Char) : Prop :=
  ∀ line' : List Char, line.length ≤ line'.length →
    (linesFrom line cs).length ≤ (linesFrom line' (indented indent cs)).length ∧
      ((∃ c ∈ indent, isLineEnd c = true) → indented indent cs ≠ cs →
        (linesFrom line cs).length < (linesFrom line' (indented indent cs)).length)

theorem MoreLines.next (hfeed : '\n' ∉ indent) (h : MoreLines indent [] cs) (c : Char) :
    (linesFrom [] cs).length ≤
        (linesFrom [] (opening indent c cs ++ indented indent cs)).length ∧
      ((∃ c ∈ indent, isLineEnd c = true) → indented indent (c :: cs) ≠ c :: cs →
        (linesFrom [] cs).length <
          (linesFrom [] (opening indent c cs ++ indented indent cs)).length) := by
  obtain ⟨ends, line', hlines, hends, -⟩ := linesFrom_opening hfeed c cs
  obtain ⟨hle, hlt⟩ := h line' (Nat.zero_le _)
  rw [hlines, List.length_append]
  refine ⟨by omega, fun hend hne => ?_⟩
  rcases opening_cases indent c cs with ho | ⟨ho, -⟩
  · have := hlt hend fun heq => hne (by rw [indented, ho, heq, List.nil_append])
    omega
  · have := List.countP_pos_iff.2 hend
    rw [ho] at hends
    omega

theorem moreLines (hfeed : '\n' ∉ indent) (line cs : List Char) : MoreLines indent line cs := by
  unfold MoreLines
  fun_induction linesFrom line cs with
  | case1 line hline =>
    intro line' _
    exact ⟨Nat.zero_le _, fun _ hne => absurd rfl hne⟩
  | case2 line hline =>
    intro line' hle
    refine ⟨?_, fun _ hne => absurd rfl hne⟩
    have hline' : line'.isEmpty = false := by
      cases line <;> cases line' <;> simp_all
    rw [indented, linesFrom, if_neg (by simp [hline'])]
    exact le_rfl
  | case3 line rest ih =>
    intro line' _
    obtain ⟨hle, hlt⟩ := MoreLines.next hfeed ih '\n'
    have hpair : indented indent ('\r' :: '\n' :: rest) = '\r' :: indented indent ('\n' :: rest) := by
      rw [indented, opening_of_ne (by decide), List.nil_append]
    have hlines : (linesFrom line' (indented indent ('\r' :: '\n' :: rest))).length =
        (linesFrom [] (opening indent '\n' rest ++ indented indent rest)).length + 1 := by
      rw [hpair, indented, linesFrom, List.length_cons]
    rw [hlines, List.length_cons]
    exact ⟨Nat.succ_le_succ hle, fun hend hne =>
      Nat.succ_lt_succ (hlt hend fun heq => hne (by rw [hpair, heq]))⟩
  | case4 line c rest hpair hc ih =>
    intro line' _
    obtain ⟨hle, hlt⟩ := MoreLines.next hfeed ih c
    have hlines : (linesFrom line' (indented indent (c :: rest))).length =
        (linesFrom [] (opening indent c rest ++ indented indent rest)).length + 1 := by
      rw [indented, linesFrom_cons (opening_head hpair), if_pos hc, List.length_cons]
    rw [hlines, List.length_cons]
    exact ⟨Nat.succ_le_succ hle, fun hend hne => Nat.succ_lt_succ (hlt hend hne)⟩
  | case5 line c rest hpair hc ih =>
    intro line' hle
    have hne : c ≠ '\n' := by
      rintro rfl
      exact hc (by decide)
    have hrest : indented indent (c :: rest) = c :: indented indent rest := by
      rw [indented, opening_of_ne hne, List.nil_append]
    have hhead : ¬(c = '\r' ∧ (opening indent c rest ++ indented indent rest).head? = some '\n') :=
      opening_head hpair
    rw [opening_of_ne hne, List.nil_append] at hhead
    rw [hrest, linesFrom_cons hhead, if_neg hc]
    obtain ⟨hle, hlt⟩ := ih (c :: line') (Nat.succ_le_succ hle)
    exact ⟨hle, fun hend hne => hlt hend fun heq => hne (by rw [heq])⟩

theorem length_indented (indent cs : List Char) : cs.length ≤ (indented indent cs).length := by
  induction cs with
  | nil => rfl
  | cons c cs ih =>
    rw [indented, List.length_cons, List.length_cons, List.length_append]
    omega

theorem indented_of_one_line (h : '\n' ∉ cs) : indented indent cs = cs := by
  induction cs with
  | nil => rfl
  | cons c cs ih =>
    rw [List.mem_cons, not_or] at h
    rw [indented, opening_of_ne (Ne.symm h.1), List.nil_append, ih h.2]

/-- Behind a line feed that does not end the text, the indentation is put before the next line that is
not empty. -/
theorem indented_ne (hindent : indent ≠ []) (hlast : cs.getLast? ≠ some '\n') (h : '\n' ∈ cs) :
    indented indent cs ≠ cs := by
  induction cs with
  | nil => simp at h
  | cons c cs ih =>
    intro heq
    rcases opening_cases indent c cs with ho | ⟨ho, -⟩
    · have hmore : '\n' ∈ cs := by
        refine (List.mem_cons.1 h).elim (fun hc => ?_) id
        subst hc
        cases cs with
        | nil => exact absurd rfl hlast
        | cons d cs =>
          have hd : d = '\n' := by simpa [opening, hindent] using ho
          simp [hd]
      refine ih (fun hcs => hlast (by simp [List.getLast?_cons, hcs])) hmore ?_
      rwa [indented, ho, List.nil_append, List.cons.injEq, and_iff_right rfl] at heq
    · have hlength := congrArg List.length heq
      have := length_indented indent cs
      have := List.length_pos_iff.2 hindent
      rw [indented, ho, List.length_cons, List.length_cons, List.length_append] at hlength
      omega

/-- The lines of a text that is not empty have one line feed less between them than they are. -/
theorem count_joinWith {parts : List String} (h : ∀ part ∈ parts, '\n' ∉ part.toList) :
    (joinWith "\n" parts).toList.count '\n' = parts.length - 1 := by
  induction parts with
  | nil => rfl
  | cons s rest ih =>
    have hs : s.toList.count '\n' = 0 := List.count_eq_zero.2 (h s List.mem_cons_self)
    cases rest with
    | nil => exact hs
    | cons t rest =>
      have hrest := ih fun part hpart => h part (List.mem_cons_of_mem s hpart)
      have hsplit : joinWith "\n" (s :: t :: rest) = s ++ "\n" ++ joinWith "\n" (t :: rest) := rfl
      rw [hsplit, String.toList_append, String.toList_append, List.count_append, List.count_append,
        hs, hrest]
      simp [Nat.add_comm]

theorem not_mem_linesFrom (line cs : List Char) (hline : '\n' ∉ line) :
    ∀ l ∈ linesFrom line cs, '\n' ∉ l := by
  fun_induction linesFrom line cs with
  | case1 => simp
  | case2 line _ => simpa using hline
  | case3 line rest ih => simpa [hline] using ih (by simp)
  | case4 line c rest _ _ ih => simpa [hline] using ih (by simp)
  | case5 line c rest _ hc ih =>
    refine ih fun h => (List.mem_cons.1 h).elim ?_ hline
    rintro rfl
    exact hc (by decide)

theorem linesFrom_eq_nil : linesFrom line cs = [] → line = [] ∧ cs = [] := by
  fun_induction linesFrom line cs with
  | case1 line hline => exact fun _ => ⟨by simpa using hline, rfl⟩
  | case5 line c rest _ _ ih => exact fun h => by simpa using (ih h).1
  | _ => exact fun h => by cases h

/-- As many line feeds are written between the lines as there are lines, less one. -/
theorem count_trimmed_lines (cs : List Char) :
    (joinWith "\n" ((lines cs).map fun l => String.ofList (trimChars l))).toList.count '\n' =
      (lines cs).length - 1 := by
  rw [count_joinWith, List.length_map]
  intro part hpart
  obtain ⟨l, hl, rfl⟩ := List.mem_map.1 hpart
  obtain ⟨a, b, hsplit, -⟩ := exists_trimmed l
  have hfeed := not_mem_linesFrom [] cs (by simp) l hl
  rw [hsplit] at hfeed
  simp only [List.mem_append, not_or] at hfeed
  simpa using hfeed.1.2

theorem blankByte_cases {b : UInt8} (h : isBlankByte b = true) (hfeed : b ≠ 10) :
    b.toNat = 9 ∨ b.toNat = 11 ∨ b.toNat = 12 ∨ b.toNat = 13 ∨ b.toNat = 32 := by
  rw [ne_eq, ← UInt8.toNat_inj] at hfeed
  simp only [isBlankByte, Bool.or_eq_true, Bool.and_eq_true, decide_eq_true_eq, beq_iff_eq,
    UInt8.le_iff_toNat_le, ← UInt8.toNat_inj, UInt8.reduceToNat] at h hfeed
  omega

end Text

/-- A character of an indentation is a blank and no line feed, and it ends a line unless it is a space or
a tab. -/
theorem Syntax.mem_lineIndent {source : Bytes} {offset : Nat} {c : Char}
    (h : c ∈ (lineIndent source offset).toList) :
    isBlank c = true ∧ c ≠ '\n' ∧ (isLineEnd c = false ↔ c = ' ' ∨ c = '\t') := by
  unfold lineIndent at h
  dsimp only at h
  split at h
  · rename_i hall
    rw [String.toList_ofList, List.mem_map] at h
    obtain ⟨b, hb, rfl⟩ := h
    have hblank := List.all_eq_true.1 hall b hb
    have hfeed : b ≠ 10 := by
      rw [lineHead, List.mem_reverse] at hb
      simpa using List.mem_takeWhile_imp hb
    rcases blankByte_cases hblank hfeed with h | h | h | h | h <;> rw [h] <;> decide
  · simp at h

namespace Editor

def writtenLine (indent line : String) : String := if line == "" then line else indent ++ line

/-- A comment as it is written: every line that is not empty is indented, but for the first one. -/
def writtenComment (indent comment : String) : String :=
  match splitLines [] comment.toList with
  | [] => ""
  | first :: rest => joinWith "\n" (first :: rest.map (writtenLine indent))

theorem commentText_eq (indent comment : String) :
    commentText indent comment = writtenComment indent comment ++ "\n" ++ indent := rfl

theorem splitLines_head (line cs : List Char) : ∃ more,
    splitLines line cs = String.ofList (line.reverse ++ cs.takeWhile (· != '\n')) :: more := by
  induction cs generalizing line with
  | nil => exact ⟨[], by simp [splitLines]⟩
  | cons c cs ih =>
    unfold splitLines
    split
    · rename_i hc
      exact ⟨splitLines [] cs, by simp [hc]⟩
    · rename_i hc
      obtain ⟨more, h⟩ := ih (c :: line)
      exact ⟨more, by simp [h, hc]⟩

/-- A line that is written behind a line feed starts with the indentation, unless it is empty. -/
theorem toList_writtenLine (indent : String) (cs : List Char) (rest : List String) :
    (joinWith "\n" (writtenLine indent (String.ofList (cs.takeWhile (· != '\n'))) :: rest)).toList =
      opening indent.toList '\n' cs ++
        (joinWith "\n" (String.ofList (cs.takeWhile (· != '\n')) :: rest)).toList := by
  cases cs with
  | nil => simp [writtenLine, opening]
  | cons d cs =>
    by_cases hd : d = '\n'
    · simp [writtenLine, opening, hd]
    · cases rest <;> simp [writtenLine, opening, joinWith, hd]

/-- The lines of a text, each but the first one written behind a line feed, make up the indented text. -/
theorem toList_joinWith_written (indent : String) (line cs : List Char) : ∃ first rest,
    splitLines line cs = first :: rest ∧
      (joinWith "\n" (first :: rest.map (writtenLine indent))).toList =
        line.reverse ++ indented indent.toList cs := by
  induction cs generalizing line with
  | nil => exact ⟨_, _, rfl, by simp [joinWith, indented]⟩
  | cons c cs ih =>
    unfold splitLines
    split
    · rename_i hc
      obtain ⟨first, rest, hlines, h⟩ := ih []
      obtain ⟨more, hhead⟩ := splitLines_head [] cs
      rw [List.reverse_nil, List.nil_append] at hhead h
      obtain ⟨rfl, rfl⟩ := List.cons_eq_cons.1 (hlines.symm.trans hhead)
      refine ⟨_, _, rfl, ?_⟩
      rw [hlines, List.map_cons, joinWith, String.toList_append, String.toList_append,
        toList_writtenLine, h, indented, hc]
      · simp
      · simp
    · rename_i hc
      obtain ⟨first, rest, hlines, h⟩ := ih (c :: line)
      refine ⟨first, rest, hlines, ?_⟩
      rw [h, indented, opening_of_ne hc]
      simp

theorem toList_writtenComment (indent comment : String) :
    (writtenComment indent comment).toList = indented indent.toList comment.toList := by
  obtain ⟨first, rest, hlines, h⟩ := toList_joinWith_written indent [] comment.toList
  rw [writtenComment, hlines]
  exact h

/-- An indentation of blanks without a line feed shows in a comment that is compared exactly if it ends a
line and the comment has more than one line. -/
theorem normalizeComment_written_iff {indent : String} (comment : String)
    (hindent : ∀ c ∈ indent.toList, isBlank c = true) (hfeed : '\n' ∉ indent.toList) :
    normalizeComment (writtenComment indent comment) = normalizeComment comment ↔
      (∀ c ∈ indent.toList, isLineEnd c = false) ∨ '\n' ∉ trimChars comment.toList := by
  set t := trimChars comment.toList with ht
  have hwritten : trimChars (writtenComment indent comment).toList = indented indent.toList t := by
    rw [toList_writtenComment, trimChars_indented hindent]
  have htrimmed : t.getLast? ≠ some '\n' := by
    obtain ⟨-, -, -, -, -, htrim⟩ := exists_trimmed comment.toList
    intro hlast
    have := htrim.last '\n' hlast
    simp [isBlank] at this
  unfold normalizeComment
  rw [hwritten, ← ht]
  constructor
  · intro heq
    by_contra hnot
    simp only [not_or, not_forall, Bool.not_eq_false, not_not, exists_prop] at hnot
    obtain ⟨hend, hmem⟩ := hnot
    have hindented : indented indent.toList t ≠ t :=
      indented_ne (List.ne_nil_of_mem hend.choose_spec.1) htrimmed hmem
    have hmore := (moreLines hfeed [] t [] le_rfl).2 hend hindented
    have hcount := congrArg (fun s => List.count '\n' s.toList) heq
    rw [count_trimmed_lines, count_trimmed_lines, lines, lines] at hcount
    have hsome : (linesFrom [] t).length ≠ 0 := fun h => by
      rw [(linesFrom_eq_nil (List.length_eq_zero_iff.1 h)).2] at hmem
      simp at hmem
    omega
  · rintro (hlevel | hone)
    · have hlines := sameLines hindent hfeed hlevel [] t [] (by simp) fun _ _ => rfl
      have := congrArg (fun ls => joinWith "\n" (ls.map String.ofList)) hlines
      simpa only [List.map_map, Function.comp_def, lines, List.append_nil] using this
    · rw [indented_of_one_line hone]

def commentsBefore (ed : Editor) (statement : Place) : List String :=
  (statement.before.takeWhile (·.is .comment)).map (·.text ed.source)

theorem leadingComments_eq (ed : Editor) (statement : Place) :
    ed.leadingComments statement = (ed.commentsBefore statement).map normalizeComment := by
  simp only [leadingComments, commentsBefore, List.map_map, Function.comp_def]

/-- The indentation is of spaces and tabs, or the comment has one line. -/
def Recognizable (indent comment : String) : Prop :=
  (∀ c ∈ indent.toList, c = ' ' ∨ c = '\t') ∨ '\n' ∉ trimChars comment.toList

/-- A comment with the indentation of a line compares equal to the comment exactly if the indentation is
of spaces and tabs or the comment, without the blanks around it, has one line. So a copy of it right
before a statement is recognized there, and the comment is not put again; a copy that does not compare
equal is not recognized where no other comment stands. -/
theorem written_comment_recognized_iff (source : Bytes) (offset : Nat) (comment : String) :
    let indent := lineIndent source offset
    let written := writtenComment indent comment
    commentText indent comment = written ++ "\n" ++ indent ∧
    (normalizeComment written = normalizeComment comment ↔ Recognizable indent comment) ∧
    ∀ (next : Editor) (p : Place),
      (Recognizable indent comment → written ∈ next.commentsBefore p.statement →
        normalizeComment comment ∈ next.leadingComments p.statement ∧
          next.insertCommentBefore p comment = .ok (false, next)) ∧
      (next.commentsBefore p.statement = [written] →
        (normalizeComment comment ∈ next.leadingComments p.statement ↔
          Recognizable indent comment)) := by
  intro indent written
  have hiff : normalizeComment written = normalizeComment comment ↔ Recognizable indent comment := by
    rw [normalizeComment_written_iff comment (fun c hc => (mem_lineIndent hc).1)
      fun h => (mem_lineIndent h).2.1 rfl]
    exact or_congr_left (forall₂_congr fun c hc => (mem_lineIndent hc).2.2)
  refine ⟨commentText_eq indent comment, hiff, fun next p => ⟨fun hlevel hcopy => ?_, fun honly => ?_⟩⟩
  · have hfound : normalizeComment comment ∈ next.leadingComments p.statement := by
      rw [leadingComments_eq, ← hiff.2 hlevel]
      exact List.mem_map_of_mem hcopy
    refine ⟨hfound, ?_⟩
    rw [insertCommentBefore]
    dsimp only
    rw [if_pos (List.contains_iff_mem.2 hfound)]
  · rw [leadingComments_eq, honly, List.map_singleton, List.mem_singleton, eq_comm, hiff]

def firstCall (source : String) : Option Place :=
  ((⟨(parse .typescript source).root, []⟩ : Place).findByKind ["call_expression"]).head?

def tabbedSample : String := "\t/* a\n\tb */\n\tf();"

theorem tabbedSample_copy :
    ((firstCall tabbedSample).map fun p =>
      ({ source := encode tabbedSample } : Editor).commentsBefore p.statement) =
        some ["/* a\n\tb */"] ∧
    lineIndent (encode tabbedSample) 13 = "\t" ∧
    writtenComment "\t" "/* a\nb */" = "/* a\n\tb */" := by
  decide +kernel

theorem written_comment_recognized_iff_sample : ∃ p,
    firstCall tabbedSample = some p ∧ Recognizable "\t" "/* a\nb */" ∧
    ({ source := encode tabbedSample } : Editor).commentsBefore p.statement =
      [writtenComment "\t" "/* a\nb */"] ∧
    normalizeComment (writtenComment "\t" "/* a\nb */") = normalizeComment "/* a\nb */" ∧
    ({ source := encode tabbedSample } : Editor).insertCommentBefore p "/* a\nb */" =
      .ok (false, { source := encode tabbedSample }) := by
  obtain ⟨hcopy, hindent, hwritten⟩ := tabbedSample_copy
  obtain ⟨p, hp, hcopy⟩ := Option.map_eq_some_iff.1 hcopy
  have hlevel : Recognizable "\t" "/* a\nb */" := .inl (by simp)
  have h := written_comment_recognized_iff (encode tabbedSample) 13 "/* a\nb */"
  rw [hindent] at h
  obtain ⟨-, hiff, hnext⟩ := h
  have hmem : writtenComment "\t" "/* a\nb */" ∈
      ({ source := encode tabbedSample } : Editor).commentsBefore p.statement := by
    simp [hcopy, hwritten]
  exact ⟨p, hp, hlevel, hwritten ▸ hcopy, hiff.2 hlevel, ((hnext _ p).1 hlevel hmem).2⟩

def returnSample : String := "\r/* a\n\rb */\n\rf();"

theorem returnSample_copy :
    ((firstCall returnSample).map fun p =>
      (({ source := encode returnSample } : Editor).commentsBefore p.statement,
        lineIndent (encode returnSample) p.statement.start,
        (({ source := encode returnSample } : Editor).insertCommentBefore p "/* a\nb */").toOption.map
          Prod.fst)) =
      some (["/* a\n\rb */"], "\r", some true) ∧
    writtenComment "\r" "/* a\nb */" = "/* a\n\rb */" := by
  decide +kernel

/-- The carriage return ends a line, so that the copy has one line more, and the comment is put once
more. -/
theorem written_comment_repeated_sample : ∃ p,
    firstCall returnSample = some p ∧ lineIndent (encode returnSample) p.statement.start = "\r" ∧
    ({ source := encode returnSample } : Editor).commentsBefore p.statement =
      [writtenComment "\r" "/* a\nb */"] ∧
    normalizeComment (writtenComment "\r" "/* a\nb */") = "/* a\n\nb */" ∧
    normalizeComment "/* a\nb */" = "/* a\nb */" ∧
    ∃ ed, ({ source := encode returnSample } : Editor).insertCommentBefore p "/* a\nb */" =
      .ok (true, ed) := by
  obtain ⟨hcopy, hwritten⟩ := returnSample_copy
  obtain ⟨p, hp, hcopy⟩ := Option.map_eq_some_iff.1 hcopy
  simp only [Prod.mk.injEq] at hcopy
  obtain ⟨hcomments, hindent, hput⟩ := hcopy
  obtain ⟨⟨put, ed⟩, hok, hput⟩ := exists_ok_of_map hput
  obtain rfl : put = true := hput
  exact ⟨p, hp, hindent, hwritten ▸ hcomments, by rw [hwritten]; decide +kernel, by decide +kernel,
    ed, hok⟩

end Editor
end OrmCodemod
