import OrmCodemod.Proofs.Grammar.Tokens

/-! What the productions of literals give. Between its quotes a literal is read as it stands, so that
its fragments may start and end with blanks; the literal itself does not. -/

namespace OrmCodemod.Syntax.Grammar

open Text

section Literals

variable {src : List Char} {c : Cursor} {p : Parser Pieces}

theorem measured_inv {k : Kind} {f : List Char → Nat} {r : Pieces × Cursor}
    (h : (do
      let n := f (← get).rest
      require (0 < n)
      leaf k n : Parser Pieces) c = some r) :
    0 < f c.rest ∧ r = ([leafAt k c (f c.rest)], c.advance (f c.rest)) := by
  obtain ⟨c1, c2, h1, h2⟩ := bind_inv h
  obtain ⟨rfl, rfl⟩ := get_inv h1
  obtain ⟨u, c3, h3, h4⟩ := bind_inv h2
  obtain ⟨hpos, hc⟩ := require_inv h3
  obtain ⟨-, rfl⟩ := Prod.mk.inj hc
  exact ⟨of_decide_eq_true hpos, leaf_inv h4⟩

/-- A leaf right at the cursor, as long as what follows tells. -/
theorem measured_after {k : Kind} {f : List Char → Nat} (hk : isLeafKind k = true) :
    After src [] (do
      let n := f (← get).rest
      require (0 < n)
      leaf k n) ((Grade.leaf true false).Holds src) :=
  leaf_after hk fun c _ h => ⟨[], c, _, .inl ⟨rfl, rfl⟩, Grade.unsaid, (measured_inv h).2⟩

instance escape_yields : Yields src escape (.leaf true false) :=
  ⟨fun _ => measured_after (f := escapeLength) rfl⟩

instance fragment_yields {test : Char → Bool} : Yields src (fragment test) (.leaf true false) :=
  ⟨fun _ => measured_after (f := fun cs => (cs.takeWhile test).length) rfl⟩

instance templateChars_yields : Yields src templateChars (.leaf true false) :=
  ⟨fun _ => measured_after (f := templateCharsLength) rfl⟩

instance immediate_yields {text : String} : Yields src (immediate text) (.token text) where
  after hs := by
    have hmark : isMark text = true := hs
    rw [Grade.token, hmark]
    refine leaf_after (k := .token text) rfl fun c r h => ?_
    obtain ⟨c1, c2, h1, h2⟩ := bind_inv h
    obtain ⟨rfl, rfl⟩ := get_inv h1
    obtain ⟨u, c3, h3, h4⟩ := bind_inv h2
    obtain ⟨hmatch, hc⟩ := require_inv h3
    obtain ⟨-, rfl⟩ := Prod.mk.inj hc
    refine ⟨[], _, _, .inl ⟨rfl, rfl⟩, fun _ => ?_, leaf_inv h4⟩
    rw [take_of_isPrefixOf hmatch]
    exact inked_of_mark hmark

section Quotes

variable {inner : Parser Pieces} {g : Grade} {first last : String} {n : Nat} {k : NodeKind}

def Grade.quoted (g : Grade) (k : NodeKind) (first last : String) : Grade :=
  { one with
    sound := isMark first && isMark last && g.sound && plain k
    inert := g.inert && !Tree.activeKinds.contains k
    importing := g.inert && !Tree.activeKinds.contains k }

theorem quoted_yields [Yields src inner g] :
    Yields src (node k (seq [sym first, many n inner, immediate last])) (g.quoted k first last) where
  after hs := by
    simp only [Grade.quoted, Bool.and_eq_true] at hs
    obtain ⟨⟨⟨hfirst, hlast⟩, hg⟩, hk⟩ := hs
    intro o c ps c' hc hacc h
    obtain ⟨own, hown, rfl⟩ := node_inv h
    obtain ⟨l, behind, c1, hl, hbehind, rfl⟩ := seq_inv hown
    obtain ⟨m, close, c2, hm, hclose, rfl⟩ := seq_inv hbehind
    obtain ⟨r, rest, c3, hr, hrest, rfl⟩ := seq_inv hclose
    obtain ⟨rfl, rfl⟩ := Prod.mk.inj (pure_inv hrest)
    obtain ⟨hc1, htl, hleft⟩ := sym_yields.after hfirst o c l c1 hc hacc hl
    obtain ⟨hc2, htm, hmid⟩ := many_yields.after hg c1.pos c1 m c2 hc1 (.refl hc1) hm
    obtain ⟨hc3, htr, hright⟩ := immediate_yields.after hlast c2.pos c2 r c' hc2 (.refl hc2) hr
    have hpieces : l ++ (m ++ (r ++ [])) = l ++ m ++ r := by simp
    rw [hpieces]
    obtain ⟨htiled, hone⟩ := ((htl.append htm).append htr).enclosed hleft rfl hright rfl hmid.bare hk
    have hinert : (g.inert && !Tree.activeKinds.contains k) = true →
        ∀ t ∈ wrap k (l ++ m ++ r), t.inert = true := by
      intro hb
      rw [Bool.and_eq_true, Bool.not_eq_true', List.contains_eq_mem, decide_eq_false_iff_not] at hb
      refine inert_wrap hb.2 fun t ht => ?_
      rw [List.append_assoc, List.mem_append, List.mem_append] at ht
      rcases ht with ht | ht | ht
      · exact hleft.inert rfl t ht
      · exact hmid.inert hb.1 t ht
      · exact hright.inert rfl t ht
    exact ⟨hc3, htiled, hone.bare, hone.edged, Grade.unsaid, hone.filled, Grade.unsaid, hone.own,
      Grade.unsaid, hone.calls, hinert, fun hb t ht => Grade.importing_of_inert (hinert hb t ht),
      hone.roles⟩

end Quotes

section Numbers

variable {cs : List Char} {m n : Nat}

/-- There is no blank among the next `n` characters. -/
def SolidFor (cs : List Char) (n : Nat) : Prop := ∀ c ∈ cs.take n, isSpace c = false

theorem SolidFor.zero : SolidFor cs 0 := by simp [SolidFor]

theorem SolidFor.add (h : SolidFor cs m) (h' : SolidFor (cs.drop m) n) : SolidFor cs (m + n) := by
  intro c hc
  rw [List.take_add, List.mem_append] at hc
  exact hc.elim (h c) (h' c)

theorem SolidFor.cons {c : Char} (hc : isSpace c = false) (h : SolidFor cs n) :
    SolidFor (c :: cs) (1 + n) := by
  intro d hd
  rw [Nat.add_comm, List.take_succ_cons, List.mem_cons] at hd
  rcases hd with rfl | hd
  · exact hc
  · exact h d hd

theorem SolidFor.takeWhile {f : Char → Bool} (hf : ∀ c, f c = true → isSpace c = false) :
    SolidFor cs (cs.takeWhile f).length := fun c hc => hf c (of_mem_take_takeWhile hc)

theorem isSpace_of_isAlphanum {c : Char} (h : c.isAlphanum = true) : isSpace c = false := by
  have hbetween : ∀ {a b : Char}, (c.val ≥ a.val && c.val ≤ b.val) = true →
      a.toNat ≤ c.toNat ∧ c.toNat ≤ b.toNat := fun h =>
    (Bool.and_eq_true_iff.1 h).imp of_decide_eq_true of_decide_eq_true
  have hn : (65 ≤ c.toNat ∧ c.toNat ≤ 90) ∨ (97 ≤ c.toNat ∧ c.toNat ≤ 122) ∨
      (48 ≤ c.toNat ∧ c.toNat ≤ 57) := by
    rcases Bool.or_eq_true_iff.1 h with h | h
    · rcases Bool.or_eq_true_iff.1 h with h | h
      · exact .inl (of_decide_eq_true h)
      · exact .inr (.inl (hbetween h))
    · exact .inr (.inr (hbetween h))
  simp only [isSpace, Bool.or_eq_false_iff, Bool.and_eq_false_iff, decide_eq_false_iff_not,
    beq_eq_false_iff_ne]
  omega

theorem isSpace_of_number {c : Char} (h : (c.isAlphanum || c == '_') = true) : isSpace c = false := by
  rcases Bool.or_eq_true_iff.1 h with h | h
  · exact isSpace_of_isAlphanum h
  · obtain rfl := beq_iff_eq.1 h
    rfl

theorem solid_digits : SolidFor cs (digitsLength cs) :=
  .takeWhile fun c hc => isSpace_of_number (by
    rw [Bool.or_eq_true] at hc ⊢
    exact hc.imp (fun h => by simp [Char.isAlphanum, h]) id)

theorem solid_exponent : SolidFor cs (exponentLength cs) := by
  unfold exponentLength
  split
  · rename_i e rest
    dsimp only
    split_ifs with he hsign hnone hnone
    · exact .zero
    · refine .add (m := 1 + 1) (.cons (letter he) ?_) solid_digits
      cases rest with
      | nil => simp at hsign
      | cons d rest =>
        refine .cons (n := 0) ?_ .zero
        rcases Bool.or_eq_true_iff.1 hsign with hd | hd <;> obtain rfl := beq_iff_eq.1 hd <;> rfl
    · exact .zero
    · exact .add (m := 1 + 0) (.cons (letter he) .zero) solid_digits
    · exact .zero
  · exact .zero
where
  letter {e : Char} (he : (e == 'e' || e == 'E') = true) : isSpace e = false := by
    rcases Bool.or_eq_true_iff.1 he with he | he <;> obtain rfl := beq_iff_eq.1 he <;> rfl

theorem solid_suffix {n : Nat} (h : SolidFor cs n) :
    SolidFor cs (if (cs.drop n).headD ' ' == 'n' then n + 1 else n) := by
  split
  · rename_i hsuffix
    refine h.add ?_
    cases hrest : cs.drop n with
    | nil => simp [hrest] at hsuffix
    | cons d rest =>
      obtain rfl : d = 'n' := by simpa [hrest] using hsuffix
      exact .cons (n := 0) rfl .zero
  · exact h

theorem solid_fraction {fraction : Nat} {b : Bool}
    (h : SolidFor (cs.drop (digitsLength cs)) fraction) :
    SolidFor cs (if b then 0 else
      let n := digitsLength cs + fraction
      let n := n + exponentLength (cs.drop n)
      if (cs.drop n).headD ' ' == 'n' then n + 1 else n) := by
  split
  · exact .zero
  · exact solid_suffix ((solid_digits.add h).add solid_exponent)

theorem solid_decimal : SolidFor cs (numberLength.decimal cs) := by
  refine solid_fraction ?_
  split
  · rename_i more hmore
    rw [hmore]
    split
    · exact .cons rfl solid_digits
    · exact .zero
  · exact .zero

theorem solid_number : SolidFor cs (numberLength cs) := by
  unfold numberLength
  split
  · rename_i x rest
    split
    · rename_i hx
      have hsolid : isSpace x = false := by
        have hall : ∀ c ∈ "xXoObB".toList, isSpace c = false := by simp [isSpace]
        exact hall x (List.contains_iff_mem.1 hx)
      exact .add (m := 1 + 1) (.cons rfl (.cons (n := 0) hsolid .zero))
        (.takeWhile fun c hc => isSpace_of_number hc)
    · exact solid_decimal
  · exact solid_decimal

instance numberLiteral_yields : Yields src numberLiteral (.leaf true true) where
  after _ := by
    refine leaf_after (k := .named .numberLiteral) rfl fun c r h => ?_
    obtain ⟨cs, c1, h1, h2⟩ := bind_inv h
    obtain ⟨c2, c3, h3, h4⟩ := bind_inv h2
    obtain ⟨rfl, rfl⟩ := get_inv h3
    obtain ⟨u, c4, h5, h6⟩ := bind_inv h4
    obtain ⟨hpos, hc⟩ := require_inv h5
    obtain ⟨-, rfl⟩ := Prod.mk.inj hc
    obtain ⟨t, c5, h7, h8⟩ := bind_inv h6
    obtain ⟨rfl, rfl⟩ := Prod.mk.inj (leaf_inv h7)
    refine ⟨cs, _, _, .inr h1, fun _ => .of_solid (fun hnil => ?_) solid_number, pure_inv h8⟩
    rw [decide_eq_true_eq] at hpos
    rcases List.take_eq_nil_iff.1 hnil with h0 | h0
    · omega
    · rw [h0] at hpos
      exact absurd hpos (by decide)

end Numbers

def Grade.string (quote : Char) : Grade :=
  (Grade.or (.leaf true false) (.leaf true false)).quoted .stringLiteral (String.singleton quote)
    (String.singleton quote)

instance quotedString_yields {g : Context} {quote : Char} :
    Yields src (Grammar.quoted g quote) (.string quote) := quoted_yields

instance stringLiteral_yields {g : Context} : Yields src (stringLiteral g)
    ((Grade.string '\'').or (.string '"')) := by
  unfold stringLiteral
  infer_instance

/-- A template whose substitutions are read by a production of a grade. -/
def Grade.template (k holeKind : NodeKind) (hole : Grade) : Grade :=
  Grade.quoted (.or (.leaf true false) (.or (.leaf true false) (.or (.node ((Grade.token "$\x7b").andThen
    (hole.andThen ((Grade.token "\x7d").andThen .nil))) holeKind) .never))) k "`" "`"

instance braceOpen_yields : Yields src braceOpen (.token "\x7b") := sym_yields

instance braceClose_yields : Yields src braceClose (.token "\x7d") := sym_yields

instance templateWith_yields {g : Context} {k holeKind : NodeKind} {hole : Parser Pieces} {a : Grade}
    [Yields src hole a] : Yields src (templateWith g k holeKind hole) (.template k holeKind a) :=
  quoted_yields

theorem regexFlags_holds (hc : At src c)
    (hne : ¬(c.rest.takeWhile fun x => 'a' ≤ x && x ≤ 'z').length = 0) :
    (Grade.leaf true true).Holds src
      [leafAt (.named .regexFlags) c (c.rest.takeWhile fun x => 'a' ≤ x && x ≤ 'z').length] := by
  have hsolid : SolidFor c.rest (c.rest.takeWhile fun x => 'a' ≤ x && x ≤ 'z').length :=
    .takeWhile fun _ hx =>
      isSpace_of_isAlphanum (Bool.or_eq_true_iff.2 (.inl (Bool.or_eq_true_iff.2 (.inr hx))))
  refine leaf_holds .nil hc rfl fun _ => .of_solid (fun hnil => hne ?_) hsolid
  rcases List.take_eq_nil_iff.1 hnil with h0 | h0
  · exact h0
  · rw [h0]
    rfl

instance regexLiteral_yields : Yields src regexLiteral .one where
  after _ := by
    intro o c ps c' hc hacc h
    obtain ⟨own, hown, rfl⟩ := node_inv h
    obtain ⟨slash, c1, hslash, h1⟩ := bind_inv hown
    obtain ⟨c2, c3, h2, h3⟩ := bind_inv h1
    obtain ⟨rfl, rfl⟩ := get_inv h2
    cases hn : patternLength false c1.rest with
    | none => rw [hn] at h3; cases h3
    | some n =>
      cases n with
      | zero => rw [hn] at h3; cases h3
      | succ n =>
        rw [hn] at h3
        obtain ⟨pattern, c4, hpattern, h4⟩ := bind_inv h3
        obtain ⟨close, c5, hclose, h5⟩ := bind_inv h4
        obtain ⟨c6, c7, h6, h7⟩ := bind_inv h5
        obtain ⟨rfl, rfl⟩ := get_inv h6
        obtain ⟨rfl, rfl⟩ := Prod.mk.inj (leaf_inv hpattern)
        obtain ⟨hc1, ht1, hleft⟩ := sym_yields.after (by decide) o c slash c1 hc hacc hslash
        obtain ⟨hc4, ht4⟩ := leaf_tiled (k := .named .regexPattern) (n := n + 1) hc1 rfl
        have hmid : ∀ t ∈ [leafAt (.named .regexPattern) c1 (n + 1)], t.bare = true := by
          simp [leafAt, Tree.bare, Tree.is, Tree.kind, Tree.children]
        obtain ⟨hc5, ht5, hright⟩ :=
          immediate_yields.after (by decide) _ _ close c5 hc4 (.refl hc4) hclose
        have htiled := (ht1.append ht4).append ht5
        dsimp only at h7
        split at h7
        · obtain ⟨tail, c8, htail, h8⟩ := bind_inv h7
          obtain ⟨rfl, rfl⟩ := Prod.mk.inj (pure_inv htail)
          obtain ⟨rfl, rfl⟩ := Prod.mk.inj (pure_inv h8)
          rw [List.append_nil]
          exact ⟨hc5, htiled.enclosed hleft rfl hright rfl hmid rfl⟩
        · rename_i hne
          obtain ⟨tail, c8, htail, h8⟩ := bind_inv h7
          obtain ⟨rfl, rfl⟩ := Prod.mk.inj (leaf_inv htail)
          obtain ⟨rfl, rfl⟩ := Prod.mk.inj (pure_inv h8)
          obtain ⟨hc', ht'⟩ := leaf_tiled (k := .named .regexFlags)
            (n := (c5.rest.takeWhile fun x => 'a' ≤ x && x ≤ 'z').length) hc5 rfl
          have htiled := htiled.append ht'
          rw [List.append_assoc slash] at htiled ⊢
          refine ⟨hc', htiled.enclosed hleft rfl (regexFlags_holds hc5 hne) rfl (fun t ht => ?_) rfl⟩
          exact (List.mem_append.1 ht).elim (hmid t) (hright.bare t)

end Literals

end OrmCodemod.Syntax.Grammar
