import Mathlib.Tactic
import OrmCodemod.Text.Utf8

/-! Encoding and decoding undo each other, and a byte offset that no continuation byte follows cuts
an encoded text between two of its characters. -/

namespace OrmCodemod.Text

def encodeChars (cs : List Char) : Bytes := cs.flatMap encodeChar

theorem encode_eq (s : String) : encode s = encodeChars s.toList := rfl

@[simp] theorem encodeChars_nil : encodeChars [] = [] := rfl

@[simp] theorem encodeChars_cons (c : Char) (cs : List Char) :
    encodeChars (c :: cs) = encodeChar c ++ encodeChars cs := by
  simp [encodeChars]

@[simp] theorem encodeChars_append (l r : List Char) :
    encodeChars (l ++ r) = encodeChars l ++ encodeChars r := by
  simp [encodeChars]

theorem encode_append (s t : String) : encode (s ++ t) = encode s ++ encode t := by
  simp [encode_eq]

theorem encode_ofList (cs : List Char) : encode (String.ofList cs) = encodeChars cs := by
  simp [encode_eq]

theorem toNat_toUInt8 {n : Nat} (h : n < 256) : n.toUInt8.toNat = n := by
  simp [Nat.toUInt8]; omega

theorem scalar_bounds (c : Char) :
    c.toNat < 0xD800 ∨ (0xDFFF < c.toNat ∧ c.toNat < 0x110000) := by
  have := c.valid
  simpa [UInt32.isValidChar, Nat.isValidChar] using this

theorem leadLength_eq (b : UInt8) : leadLength b =
    if b.toNat < 0x80 then 1 else if b.toNat < 0xC2 then 0 else if b.toNat < 0xE0 then 2
    else if b.toNat < 0xF0 then 3 else if b.toNat < 0xF5 then 4 else 0 := by
  simp only [leadLength, UInt8.lt_iff_toNat_lt]
  rfl

theorem isTail_iff (b : UInt8) : isTail b = true ↔ 0x80 ≤ b.toNat ∧ b.toNat ≤ 0xBF := by
  simp [isTail, UInt8.le_iff_toNat_le]

theorem admitsSecond_iff (lead b : UInt8) : admitsSecond lead b = true ↔
    (0x80 ≤ b.toNat ∧ b.toNat ≤ 0xBF) ∧ ¬(lead.toNat = 0xE0 ∧ b.toNat < 0xA0) ∧
      ¬(lead.toNat = 0xED ∧ 0xA0 ≤ b.toNat) ∧ ¬(lead.toNat = 0xF0 ∧ b.toNat < 0x90) ∧
      ¬(lead.toNat = 0xF4 ∧ 0x90 ≤ b.toNat) := by
  simp only [admitsSecond, Bool.and_eq_true, isTail_iff, Bool.not_eq_true', Bool.and_eq_false_iff,
    beq_eq_false_iff_ne, decide_eq_false_iff_not, ne_eq, ← UInt8.toNat_inj,
    UInt8.lt_iff_toNat_lt, UInt8.le_iff_toNat_le]
  norm_num
  tauto

theorem takeTail_one {lead : UInt8} (h : leadLength lead = 1) (rest : Bytes) :
    takeTail lead rest = .ok ([], rest) := by
  simp [takeTail, h]

theorem takeTail_two {lead b : UInt8} (h : leadLength lead = 2) (hb : admitsSecond lead b = true)
    (rest : Bytes) : takeTail lead (b :: rest) = .ok ([b], rest) := by
  simp [takeTail, h, hb]

theorem takeTail_three {lead b c : UInt8} (h : leadLength lead = 3)
    (hb : admitsSecond lead b = true) (hc : isTail c = true) (rest : Bytes) :
    takeTail lead (b :: c :: rest) = .ok ([b, c], rest) := by
  simp [takeTail, h, hb, hc]

theorem takeTail_four {lead b c d : UInt8} (h : leadLength lead = 4)
    (hb : admitsSecond lead b = true) (hc : isTail c = true) (hd : isTail d = true)
    (rest : Bytes) : takeTail lead (b :: c :: d :: rest) = .ok ([b, c, d], rest) := by
  simp [takeTail, h, hb, hc, hd]

/-- The bytes of a character are a lead byte and continuation bytes, and decoding takes them back
to the character. -/
theorem encodeChar_spec (c : Char) (rest : Bytes) :
    ∃ lead tail, encodeChar c = lead :: tail ∧ takeTail lead (tail ++ rest) = .ok (tail, rest) ∧
      Char.ofNat (scalarOf lead tail) = c ∧ isTail lead = false ∧
      ∀ b ∈ tail, isTail b = true := by
  have hc := scalar_bounds c
  have hchar := Char.ofNat_toNat c
  unfold encodeChar
  generalize c.toNat = n at hc hchar
  have tail_ok : ∀ m : Nat, isTail (0x80 + m % 0x40).toUInt8 = true := by
    intro m
    rw [isTail_iff, toNat_toUInt8 (by omega)]
    omega
  have lead_not : ∀ {m : Nat}, 0xC0 ≤ m → m < 256 → isTail m.toUInt8 = false := by
    intro m h1 h2
    rw [Bool.eq_false_iff, ne_eq, isTail_iff, toNat_toUInt8 h2]
    omega
  dsimp only
  split_ifs with h1 h2 h3
  · refine ⟨_, [], rfl, takeTail_one ?_ _, ?_, ?_, by simp⟩
    · rw [leadLength_eq, toNat_toUInt8 (by omega), if_pos h1]
    · simpa [scalarOf, toNat_toUInt8 (show n < 256 by omega)] using hchar
    · rw [Bool.eq_false_iff, ne_eq, isTail_iff, toNat_toUInt8 (by omega)]
      omega
  · refine ⟨_, [_], rfl, takeTail_two ?_ ?_ _, ?_, lead_not (by omega) (by omega), ?_⟩
    · rw [leadLength_eq, toNat_toUInt8 (by omega)]
      split_ifs <;> omega
    · rw [admitsSecond_iff, toNat_toUInt8 (by omega), toNat_toUInt8 (by omega)]
      omega
    · have e : scalarOf (0xC0 + n / 0x40).toUInt8 [(0x80 + n % 0x40).toUInt8] = n := by
        simp only [scalarOf, List.length_singleton, List.foldl_cons, List.foldl_nil]
        rw [toNat_toUInt8 (by omega), toNat_toUInt8 (by omega)]
        omega
      rw [e, hchar]
    · simp only [List.mem_singleton, forall_eq]
      exact tail_ok _
  · refine ⟨_, [_, _], rfl, takeTail_three ?_ ?_ (tail_ok _) _, ?_,
      lead_not (by omega) (by omega), ?_⟩
    · rw [leadLength_eq, toNat_toUInt8 (by omega)]
      split_ifs <;> omega
    · rw [admitsSecond_iff, toNat_toUInt8 (by omega), toNat_toUInt8 (by omega)]
      omega
    · have e : scalarOf (0xE0 + n / 0x1000).toUInt8
          [(0x80 + n / 0x40 % 0x40).toUInt8, (0x80 + n % 0x40).toUInt8] = n := by
        simp only [scalarOf, List.length_cons, List.length_nil, List.foldl_cons, List.foldl_nil]
        rw [toNat_toUInt8 (by omega), toNat_toUInt8 (by omega), toNat_toUInt8 (by omega)]
        omega
      rw [e, hchar]
    · simp only [List.mem_cons, List.not_mem_nil, or_false, forall_eq_or_imp, forall_eq]
      exact ⟨tail_ok _, tail_ok _⟩
  · refine ⟨_, [_, _, _], rfl, takeTail_four ?_ ?_ (tail_ok _) (tail_ok _) _, ?_,
      lead_not (by omega) (by omega), ?_⟩
    · rw [leadLength_eq, toNat_toUInt8 (by omega)]
      split_ifs <;> omega
    · rw [admitsSecond_iff, toNat_toUInt8 (by omega), toNat_toUInt8 (by omega)]
      omega
    · have e : scalarOf (0xF0 + n / 0x40000).toUInt8 [(0x80 + n / 0x1000 % 0x40).toUInt8,
          (0x80 + n / 0x40 % 0x40).toUInt8, (0x80 + n % 0x40).toUInt8] = n := by
        simp only [scalarOf, List.length_cons, List.length_nil, List.foldl_cons, List.foldl_nil]
        rw [toNat_toUInt8 (by omega), toNat_toUInt8 (by omega), toNat_toUInt8 (by omega),
          toNat_toUInt8 (by omega)]
        omega
      rw [e, hchar]
    · simp only [List.mem_cons, List.not_mem_nil, or_false, forall_eq_or_imp, forall_eq]
      exact ⟨tail_ok _, tail_ok _, tail_ok _⟩

theorem decodeFrom_encodeChars (cs : List Char) : ∀ fuel pos, (encodeChars cs).length ≤ fuel →
    decodeFrom fuel pos (encodeChars cs) = .ok cs := by
  induction cs with
  | nil => intro fuel pos _; simp [decodeFrom]
  | cons c cs ih =>
    intro fuel pos hf
    obtain ⟨lead, tail, he, ht, hs, -, -⟩ := encodeChar_spec c (encodeChars cs)
    rw [encodeChars_cons, he] at hf ⊢
    simp only [List.cons_append, List.length_cons, List.length_append] at hf ⊢
    obtain ⟨fuel, rfl⟩ : ∃ k, fuel = k + 1 := ⟨fuel - 1, by omega⟩
    simp only [decodeFrom, ht, ih fuel _ (by omega), hs]
    rfl

theorem decode_encode (s : String) : decode (encode s) = .ok s := by
  rw [decode, decodeChars, encode_eq, decodeFrom_encodeChars _ _ _ le_rfl]
  simp [Except.map]

theorem toNat_charOfNat {n : Nat} (h : n < 0xD800 ∨ (0xDFFF < n ∧ n < 0x110000)) :
    (Char.ofNat n).toNat = n := by
  have hv : n.isValidChar := h
  rw [Char.ofNat, dif_pos hv]
  rfl

theorem toUInt8_eq {n : Nat} {b : UInt8} (h : n = b.toNat) : n.toUInt8 = b := by
  subst h
  simp [Nat.toUInt8]

/-- The bytes that are read with a lead byte as one character. -/
inductive IsTailOf (lead : UInt8) : Bytes → Prop
  | none (h : leadLength lead = 1) : IsTailOf lead []
  | one {b : UInt8} (h : leadLength lead = 2) (hb : admitsSecond lead b = true) : IsTailOf lead [b]
  | two {b c : UInt8} (h : leadLength lead = 3) (hb : admitsSecond lead b = true)
      (hc : isTail c = true) : IsTailOf lead [b, c]
  | three {b c d : UInt8} (h : leadLength lead = 4) (hb : admitsSecond lead b = true)
      (hc : isTail c = true) (hd : isTail d = true) : IsTailOf lead [b, c, d]

theorem takeTail_admitted {lead : UInt8} {rest tail rest' : Bytes}
    (h : takeTail lead rest = .ok (tail, rest')) : rest = tail ++ rest' ∧ IsTailOf lead tail := by
  have hlength : leadLength lead ≤ 4 := by
    rw [leadLength_eq]
    split_ifs <;> omega
  fun_cases takeTail lead rest with
  | case2 _ hl =>
    rw [takeTail_one hl] at h
    obtain ⟨rfl, rfl⟩ := Prod.mk.inj (Except.ok.inj h)
    exact ⟨rfl, .none hl⟩
  | case4 b rest hl hb =>
    rw [takeTail_two hl hb] at h
    obtain ⟨rfl, rfl⟩ := Prod.mk.inj (Except.ok.inj h)
    exact ⟨rfl, .one hl hb⟩
  | case9 b hb c rest hc _ _ _ hl =>
    rw [Bool.not_eq_true, Bool.not_eq_false'] at hb hc
    rw [takeTail_three hl hb hc] at h
    obtain ⟨rfl, rfl⟩ := Prod.mk.inj (Except.ok.inj h)
    exact ⟨rfl, .two hl hb hc⟩
  | case11 b hb c hc d rest hd h0 h1 h2 h3 =>
    rw [Bool.not_eq_true, Bool.not_eq_false'] at hb hc
    have hne : leadLength lead ≠ 0 ∧ leadLength lead ≠ 1 ∧ leadLength lead ≠ 2 := ⟨h0, h1, h2⟩
    have hl : leadLength lead = 4 := by omega
    rw [takeTail_four hl hb hc hd] at h
    obtain ⟨rfl, rfl⟩ := Prod.mk.inj (Except.ok.inj h)
    exact ⟨rfl, .three hl hb hc hd⟩
  | _ => simp_all [takeTail]

theorem encodeChar_of_tail {lead : UInt8} {tail : Bytes} (h : IsTailOf lead tail) :
    encodeChar (Char.ofNat (scalarOf lead tail)) = lead :: tail := by
  have hlead := leadLength_eq lead
  cases h with
  | none h =>
    have hs : scalarOf lead [] = lead.toNat := rfl
    have hsmall : lead.toNat < 0x80 := by
      split_ifs at hlead <;> omega
    rw [hs, encodeChar, toNat_charOfNat (by omega)]
    simp [hsmall]
  | @one b h hb =>
    rw [admitsSecond_iff] at hb
    have hs : scalarOf lead [b] = (lead.toNat - 0xC0) * 0x40 + (b.toNat - 0x80) := rfl
    have hrange : 0xC2 ≤ lead.toNat ∧ lead.toNat < 0xE0 := by
      split_ifs at hlead <;> omega
    rw [hs, encodeChar, toNat_charOfNat (by omega), if_neg (by omega), if_pos (by omega),
      toUInt8_eq (b := lead) (by omega), toUInt8_eq (b := b) (by omega)]
  | @two b c h hb hc =>
    rw [admitsSecond_iff] at hb
    rw [isTail_iff] at hc
    have hs : scalarOf lead [b, c] =
        ((lead.toNat - 0xE0) * 0x40 + (b.toNat - 0x80)) * 0x40 + (c.toNat - 0x80) := rfl
    have hrange : 0xE0 ≤ lead.toNat ∧ lead.toNat < 0xF0 := by
      split_ifs at hlead <;> omega
    rw [hs, encodeChar, toNat_charOfNat (by omega), if_neg (by omega), if_neg (by omega),
      if_pos (by omega), toUInt8_eq (b := lead) (by omega), toUInt8_eq (b := b) (by omega),
      toUInt8_eq (b := c) (by omega)]
  | @three b c d h hb hc hd =>
    rw [admitsSecond_iff] at hb
    rw [isTail_iff] at hc hd
    have hs : scalarOf lead [b, c, d] = (((lead.toNat - 0xF0) * 0x40 + (b.toNat - 0x80)) * 0x40 +
        (c.toNat - 0x80)) * 0x40 + (d.toNat - 0x80) := rfl
    have hrange : 0xF0 ≤ lead.toNat ∧ lead.toNat < 0xF5 := by
      split_ifs at hlead <;> omega
    rw [hs, encodeChar, toNat_charOfNat (by omega), if_neg (by omega), if_neg (by omega),
      if_neg (by omega), toUInt8_eq (b := lead) (by omega), toUInt8_eq (b := b) (by omega),
      toUInt8_eq (b := c) (by omega), toUInt8_eq (b := d) (by omega)]

/-- What `takeTail` accepts are the bytes of a character, and nothing else is taken. -/
theorem takeTail_spec {lead : UInt8} {rest tail rest' : Bytes}
    (h : takeTail lead rest = .ok (tail, rest')) :
    rest = tail ++ rest' ∧ encodeChar (Char.ofNat (scalarOf lead tail)) = lead :: tail :=
  (takeTail_admitted h).imp_right encodeChar_of_tail

theorem encodeChars_of_decodeFrom : ∀ fuel pos bs cs, bs.length ≤ fuel →
    decodeFrom fuel pos bs = .ok cs → encodeChars cs = bs := by
  intro fuel
  induction fuel with
  | zero =>
    intro pos bs cs hf h
    obtain rfl : bs = [] := List.length_eq_zero_iff.1 (by omega)
    simp only [decodeFrom, Except.ok.injEq] at h
    simp [← h]
  | succ fuel ih =>
    intro pos bs cs hf h
    cases bs with
    | nil => simp only [decodeFrom, Except.ok.injEq] at h; simp [← h]
    | cons lead rest =>
      simp only [decodeFrom] at h
      split at h
      · cases h
      · rename_i tail rest' ht
        obtain ⟨rfl, he⟩ := takeTail_spec ht
        simp only [List.length_cons, List.length_append] at hf
        cases hm : decodeFrom fuel (pos + 1 + tail.length) rest' with
        | error e => simp [hm, bind, Except.bind] at h
        | ok more =>
          simp only [hm, bind, Except.bind, pure, Except.pure, Except.ok.injEq] at h
          subst h
          rw [encodeChars_cons, he, ih _ _ _ (by omega) hm, List.cons_append]

theorem encode_of_decode {bs : Bytes} {s : String} (h : decode bs = .ok s) : encode s = bs := by
  unfold decode decodeChars at h
  cases hd : decodeFrom bs.length 0 bs with
  | error e => simp [hd, Except.map] at h
  | ok cs =>
    simp only [hd, Except.map, Except.ok.injEq] at h
    subst h
    rw [encode_ofList]
    exact encodeChars_of_decodeFrom _ _ _ _ le_rfl hd

theorem length_encodeChar (c : Char) : (encodeChar c).length = c.utf8Size := by
  have hv : c.toNat = c.val.toNat := rfl
  unfold encodeChar Char.utf8Size
  simp only [UInt32.le_iff_toNat_le, ← hv]
  generalize c.toNat = n
  split_ifs <;> simp_all <;> omega

theorem length_encode (s : String) :
    (encode s).length = s.toList.foldl (fun n c => n + c.utf8Size) 0 := by
  suffices ∀ (cs : List Char) (n : Nat),
      cs.foldl (fun n c => n + c.utf8Size) n = n + (encodeChars cs).length by
    rw [this, Nat.zero_add, encode_eq]
  intro cs
  induction cs with
  | nil => simp
  | cons c cs ih =>
    intro n
    rw [List.foldl_cons, ih, encodeChars_cons, List.length_append, length_encodeChar, Nat.add_assoc]

def isBoundary (source : Bytes) (p : Nat) : Bool :=
  p ≤ source.length && !source[p]?.any isTail

theorem isBoundary_length (source : Bytes) : isBoundary source source.length = true := by
  simp [isBoundary]

theorem isBoundary_of_head {source : Bytes} {p : Nat} {b : UInt8} {rest : Bytes}
    (h : source.drop p = b :: rest) (hb : isTail b = false) : isBoundary source p = true := by
  have hp : p < source.length := by
    have := congrArg List.length h
    simp only [List.length_drop, List.length_cons] at this
    omega
  have he : source[p]? = some b := by
    rw [← List.head?_drop, h]; rfl
  simp [isBoundary, he, hb, hp.le]

theorem exists_cut : ∀ (cs : List Char) (p : Nat), isBoundary (encodeChars cs) p = true →
    ∃ l r, cs = l ++ r ∧ (encodeChars l).length = p := by
  intro cs
  induction cs with
  | nil =>
    intro p h
    have hp : p = 0 := by simpa [isBoundary] using h
    exact ⟨[], [], rfl, by simp [hp]⟩
  | cons c cs ih =>
    intro p h
    obtain ⟨lead, tail, he, -, -, -, ht⟩ := encodeChar_spec c []
    rcases Nat.eq_zero_or_pos p with rfl | hp
    · exact ⟨[], c :: cs, rfl, rfl⟩
    by_cases hlt : p < (encodeChar c).length
    · -- inside the character stand continuation bytes only
      exfalso
      obtain ⟨q, rfl⟩ : ∃ q, p = q + 1 := ⟨p - 1, by omega⟩
      rw [he, List.length_cons] at hlt
      have hq : q < tail.length := by omega
      have hat : (encodeChars (c :: cs))[q + 1]? = some tail[q] := by
        rw [encodeChars_cons, he, List.cons_append, List.getElem?_cons_succ,
          List.getElem?_append_left hq, List.getElem?_eq_getElem hq]
      rw [isBoundary, hat] at h
      simp [ht _ (List.getElem_mem hq)] at h
    · have hsub : isBoundary (encodeChars cs) (p - (encodeChar c).length) = true := by
        simp only [isBoundary, encodeChars_cons, List.length_append, Bool.and_eq_true,
          decide_eq_true_eq, List.getElem?_append_right (Nat.le_of_not_lt hlt)] at h ⊢
        exact ⟨by omega, h.2⟩
      obtain ⟨l, r, rfl, hl⟩ := ih _ hsub
      exact ⟨c :: l, r, rfl, by simp [hl]; omega⟩

theorem exists_chars_between {cs : List Char} {a b : Nat} (ha : isBoundary (encodeChars cs) a = true)
    (hb : isBoundary (encodeChars cs) b = true) :
    ∃ mid, ((encodeChars cs).drop a).take (b - a) = encodeChars mid := by
  obtain ⟨l, r, rfl, rfl⟩ := exists_cut cs a ha
  obtain ⟨m, t, hm, rfl⟩ := exists_cut (l ++ r) b hb
  rcases List.append_eq_append_iff.1 hm with ⟨mid, rfl, rfl⟩ | ⟨mid, rfl, rfl⟩
  · exact ⟨mid, by simp⟩
  · exact ⟨[], by simp⟩

theorem encodeChar_ascii {c : Char} {lead : UInt8} {tail : Bytes} (h : encodeChar c = lead :: tail)
    (hlead : lead.toNat < 0x80) : tail = [] := by
  have hc := scalar_bounds c
  unfold encodeChar at h
  generalize c.toNat = n at hc h
  dsimp only at h
  split_ifs at h <;> simp only [List.cons.injEq] at h <;> obtain ⟨rfl, rfl⟩ := h
  · rfl
  all_goals
    rw [toNat_toUInt8 (by omega)] at hlead
    omega

theorem isBoundary_of_cut (l r : List Char) :
    isBoundary (encodeChars (l ++ r)) (encodeChars l).length = true := by
  cases r with
  | nil => simpa using isBoundary_length (encodeChars l)
  | cons c r =>
    obtain ⟨lead, tail, he, -, -, hlead, -⟩ := encodeChar_spec c []
    have hdrop : (encodeChars (l ++ c :: r)).drop (encodeChars l).length =
        lead :: (tail ++ encodeChars r) := by simp [he]
    exact isBoundary_of_head hdrop hlead

theorem isBoundary_zero (cs : List Char) : isBoundary (encodeChars cs) 0 = true :=
  isBoundary_of_cut [] cs

theorem isBoundary_succ {cs : List Char} {p : Nat} {b : UInt8}
    (h : isBoundary (encodeChars cs) p = true) (hb : (encodeChars cs)[p]? = some b)
    (hlt : b.toNat < 0x80) : isBoundary (encodeChars cs) (p + 1) = true := by
  obtain ⟨l, r, rfl, rfl⟩ := exists_cut cs p h
  rw [encodeChars_append, List.getElem?_append_right le_rfl, Nat.sub_self] at hb
  cases r with
  | nil => simp at hb
  | cons c r =>
    obtain ⟨lead, tail, he, -⟩ := encodeChar_spec c []
    rw [encodeChars_cons, he, List.cons_append, List.getElem?_cons_zero, Option.some.injEq] at hb
    subst hb
    obtain rfl := encodeChar_ascii he hlt
    have := isBoundary_of_cut (l ++ [c]) r
    simpa [he] using this

theorem isBoundary_run {cs : List Char} {a b : Nat} (hab : a ≤ b)
    (h : isBoundary (encodeChars cs) a = true)
    (hrun : ∀ p, a ≤ p → p < b → ∃ x, (encodeChars cs)[p]? = some x ∧ x.toNat < 0x80) :
    isBoundary (encodeChars cs) b = true := by
  induction b, hab using Nat.le_induction with
  | base => exact h
  | succ b hb ih =>
    obtain ⟨x, hx, hlt⟩ := hrun b hb (Nat.lt_succ_self b)
    exact isBoundary_succ (ih fun p h1 h2 => hrun p h1 (by omega)) hx hlt

end OrmCodemod.Text
