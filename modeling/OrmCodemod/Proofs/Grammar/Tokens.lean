import OrmCodemod.Proofs.Grammar.Productions
import OrmCodemod.Syntax.Grammar.Elements

/-! What the productions of tokens give: a leaf, and the comments that were skipped before it. -/

namespace OrmCodemod.Syntax.Grammar

open Text

section Tokens

variable {src : List Char} {a b : Nat}

/-- Where a scan over blanks and comments stands in a source, and where what it scans started. -/
def Scanning (src : List Char) (a : Nat) : Trivia → Nat → List Char → Prop
  | .blank, pos, rest => a = pos ∧ Stands src pos rest
  | .line start, pos, rest => a = start ∧ ∃ body, '\n' ∉ body ∧
      Stands src start ('/' :: '/' :: body ++ rest) ∧ pos = start + width ('/' :: '/' :: body)
  | .block start, pos, rest => a = start ∧ ∃ body,
      Stands src start ('/' :: '*' :: body ++ rest) ∧ pos = start + width ('/' :: '*' :: body)

def Notes (src : List Char) (ps : Pieces) : Prop :=
  ∀ t ∈ ps, t.is .comment = true ∧ t.bare = true ∧ t.edged (encodeChars src) = true ∧
    ∃ rest, Stands src t.start ('/' :: rest)

theorem Notes.nil : Notes src [] := List.forall_mem_nil _

theorem note_tiled {x rest : List Char} {ps : Pieces} (h : Stands src a ('/' :: x ++ rest))
    (hx : Inked ('/' :: x)) (hps : Notes src ps) (htiled : Tiled src (a + width ('/' :: x)) b ps) :
    Tiled src a b (commentNode a (a + width ('/' :: x)) :: ps) ∧
      Notes src (commentNode a (a + width ('/' :: x)) :: ps) := by
  refine ⟨⟨.refl h, Nat.le_add_right _ _, sound_leaf h (by simp) (.inr rfl), htiled⟩, fun t ht => ?_⟩
  rcases List.mem_cons.1 ht with rfl | ht
  · exact ⟨rfl, rfl, hx.edged h rfl rfl, _, h⟩
  · exact hps t ht

theorem Blank.char {c : Char} {rest : List Char} (h : Stands src a (c :: rest)) (hc : isSpace c = true) :
    Blank src a (a + c.utf8Size) :=
  ⟨[c], rest, by simp [hc], h, by rw [width_cons, width_nil, Nat.add_zero]⟩

theorem Stands.char {c : Char} {rest : List Char} (h : Stands src a (c :: rest)) :
    Stands src (a + c.utf8Size) rest := by
  have := Stands.after (x := [c]) h
  rwa [width_cons, width_nil, Nat.add_zero] at this

theorem skipTrivia_tiled (state : Trivia) (pos : Nat) (rest : List Char) {ps : Pieces} {pos' : Nat}
    {rest' : List Char} (h : skipTrivia state pos rest = some (ps, pos', rest'))
    (hin : Scanning src a state pos rest) :
    Tiled src a pos' ps ∧ Stands src pos' rest' ∧ Notes src ps := by
  fun_induction skipTrivia state pos rest generalizing a ps pos' rest' with
  | case1 pos rest ih =>
    obtain ⟨rfl, hat⟩ := hin
    exact ih h ⟨rfl, [], List.not_mem_nil, hat, rfl⟩
  | case2 pos rest ih =>
    obtain ⟨rfl, hat⟩ := hin
    exact ih h ⟨rfl, [], hat, rfl⟩
  | case3 pos c rest _ _ hspace ih =>
    obtain ⟨rfl, hat⟩ := hin
    obtain ⟨htiled, hrest⟩ := ih h ⟨rfl, hat.char⟩
    exact ⟨htiled.blank_left (.char hat hspace), hrest⟩
  | case4 pos c rest _ _ hspace =>
    obtain ⟨rfl, hat⟩ := hin
    simp only [Option.some.injEq, Prod.mk.injEq] at h
    obtain ⟨rfl, rfl, rfl⟩ := h
    exact ⟨.refl hat, hat, .nil⟩
  | case5 pos =>
    obtain ⟨rfl, hat⟩ := hin
    simp only [Option.some.injEq, Prod.mk.injEq] at h
    obtain ⟨rfl, rfl, rfl⟩ := h
    exact ⟨.refl hat, hat, .nil⟩
  | case6 start pos =>
    obtain ⟨rfl, body, hbody, hat, rfl⟩ := hin
    simp only [Option.some.injEq, Prod.mk.injEq] at h
    obtain ⟨rfl, rfl, rfl⟩ := h
    have htail : Tiled src _ _ [] := .refl hat.after
    obtain ⟨htiled, hnotes⟩ := note_tiled hat (.of_line rfl (by simp [hbody])) .nil htail
    exact ⟨htiled, hat.after, hnotes⟩
  | case7 start pos c rest hends ih =>
    obtain ⟨rfl, body, hbody, hat, rfl⟩ := hin
    obtain ⟨⟨ps1, r⟩, hskip, hr⟩ := Option.map_eq_some_iff.1 h
    simp only [Prod.mk.injEq] at hr
    obtain ⟨rfl, rfl⟩ := hr
    have hspace : isSpace c = true := by
      simp only [endsLine, Bool.or_eq_true, beq_iff_eq] at hends
      rcases hends with ((rfl | rfl) | hc) | hc
      · rfl
      · rfl
      · simp [isSpace, hc]
      · simp [isSpace, hc]
    obtain ⟨htiled, hat', hnotes⟩ := ih hskip ⟨rfl, hat.after.char⟩
    obtain ⟨htiled, hnotes⟩ := note_tiled hat (.of_line rfl (by simp [hbody])) hnotes
      (htiled.blank_left (.char hat.after hspace))
    exact ⟨htiled, hat', hnotes⟩
  | case8 start pos c rest hends ih =>
    obtain ⟨rfl, body, hbody, hat, rfl⟩ := hin
    have hfeed : '\n' ≠ c := by
      rintro rfl
      exact hends rfl
    refine ih h ⟨rfl, body ++ [c], by simp [hbody, hfeed], by simpa using hat, ?_⟩
    rw [← List.cons_append, ← List.cons_append, width_append ('/' :: '/' :: body), width_cons c,
      width_nil, Nat.add_zero, Nat.add_assoc]
  | case9 start pos rest ih =>
    obtain ⟨rfl, body, hat, rfl⟩ := hin
    obtain ⟨⟨ps1, r⟩, hskip, hr⟩ := Option.map_eq_some_iff.1 h
    simp only [Prod.mk.injEq] at hr
    obtain ⟨rfl, rfl⟩ := hr
    have hat : Stands src a ('/' :: ('*' :: body ++ ['*', '/']) ++ rest) := by simpa using hat
    have hstop : a + width ('/' :: '*' :: body) + 2 = a + width ('/' :: ('*' :: body ++ ['*', '/'])) := by
      rw [← List.cons_append, width_append, Nat.add_assoc]
      rfl
    have hink : Inked ('/' :: ('*' :: body ++ ['*', '/'])) :=
      ⟨⟨'/', _, rfl, rfl⟩, '/' :: '*' :: body ++ ['*'], '/', [], by simp, rfl, List.not_mem_nil⟩
    rw [hstop] at hskip ih ⊢
    obtain ⟨htiled, hat', hnotes⟩ := ih hskip ⟨rfl, hat.after⟩
    obtain ⟨htiled, hnotes⟩ := note_tiled hat hink hnotes htiled
    exact ⟨htiled, hat', hnotes⟩
  | case10 start pos c rest _ ih =>
    obtain ⟨rfl, body, hat, rfl⟩ := hin
    refine ih h ⟨rfl, body ++ [c], by simpa using hat, ?_⟩
    rw [← List.cons_append, ← List.cons_append, width_append ('/' :: '*' :: body), width_cons c,
      width_nil, Nat.add_zero, Nat.add_assoc]
  | case11 start pos => cases h

theorem advance_eq (n : Nat) (c : Cursor) :
    c.advance n = { c with rest := c.rest.drop n, pos := c.pos + width (c.rest.take n) } := by
  induction n generalizing c with
  | zero => rfl
  | succ n ih =>
    obtain ⟨rest, pos, breaks⟩ := c
    cases rest with
    | nil => rfl
    | cons x rest =>
      rw [Cursor.advance]
      simp only [ih, List.drop_succ_cons, List.take_succ_cons, width_cons, Nat.add_assoc]

theorem Inked.of_solid {x : List Char} (hne : x ≠ []) (h : ∀ c ∈ x, isSpace c = false) : Inked x := by
  obtain ⟨c, cs, rfl⟩ := List.exists_cons_of_ne_nil hne
  refine .of_line (h c (by simp)) fun hfeed => ?_
  have := h '\n' (by simp [hfeed])
  simp [isSpace] at this

def isLeafKind : Kind → Bool
  | .token _ => true
  | .named k => !Tree.activeKinds.contains k && k != .comment

def leafAt (k : Kind) (c : Cursor) (n : Nat) : Tree := .node k none c.pos (c.advance n).pos []

theorem leaf_inv {k : Kind} {n : Nat} {c : Cursor} {r : Pieces × Cursor} (h : leaf k n c = some r) :
    r = ([leafAt k c n], c.advance n) := (Option.some.inj h).symm

theorem trivia_tiled {c c' : Cursor} {ps : Pieces} (hc : At src c) (h : trivia c = some (ps, c')) :
    At src c' ∧ Tiled src c.pos c'.pos ps ∧ Notes src ps := by
  obtain ⟨c1, c2, h1, h2⟩ := bind_inv h
  obtain ⟨rfl, rfl⟩ := get_inv h1
  cases hskip : skipTrivia .blank c.pos c.rest with
  | none =>
    rw [hskip] at h2
    cases h2
  | some r =>
    obtain ⟨comments, pos, rest⟩ := r
    rw [hskip] at h2
    obtain ⟨u, c3, h3, h4⟩ := bind_inv h2
    obtain rfl : { c with rest, pos } = c3 := congrArg Prod.snd (Option.some.inj h3)
    obtain ⟨rfl, rfl⟩ := Prod.mk.inj (pure_inv h4)
    obtain ⟨htiled, hat, hnotes⟩ := skipTrivia_tiled .blank _ _ hskip ⟨rfl, hc⟩
    exact ⟨hat, htiled, hnotes⟩

theorem leaf_holds {ps : Pieces} {k : Kind} {c : Cursor} {n : Nat} {e : Bool} (hps : Notes src ps)
    (hc : At src c) (hk : isLeafKind k = true) (he : e = true → Inked (c.rest.take n)) :
    (Grade.leaf true e).Holds src (ps ++ [leafAt k c n]) := by
  have hcomment : (leafAt k c n).is .comment = false := by
    cases k with
    | token => rfl
    | named k =>
      simp only [isLeafKind, Bool.and_eq_true, bne_iff_ne] at hk
      simpa [leafAt, Tree.is, Tree.kind] using hk.2
  have hinert : (leafAt k c n).inert = true := by
    refine Tree.everyNode_iff.2 ⟨?_, List.forall_mem_nil _⟩
    cases k with
    | token => simp [leafAt, Tree.isAny, Tree.is, Tree.kind]
    | named k =>
      simp only [isLeafKind, Bool.and_eq_true, Bool.not_eq_true', List.contains_eq_mem,
        decide_eq_false_iff_not] at hk
      simp only [Tree.isAny, Bool.not_eq_true', List.any_eq_false]
      intro k' hk'
      simp only [leafAt, Tree.is, Tree.kind, beq_iff_eq, Kind.named.injEq]
      rintro rfl
      exact hk.1 hk'
  have hstill : ∀ t ∈ ps ++ [leafAt k c n], t.inert = true := by
    intro t ht
    rcases List.mem_append.1 ht with ht | ht
    · exact Grade.inert_of_bare (hps t ht).2.1 (by simp [(hps t ht).1])
    · exact List.mem_singleton.1 ht ▸ hinert
  have hall : ∀ t ∈ ps, t.is .comment = true := fun t ht => (hps t ht).1
  have hbare : (leafAt k c n).bare = true := by simp [Tree.bare, leafAt, Tree.children, Tree.role]
  have hnone : ∀ t ∈ ps, t.role = none := fun t ht =>
    (Grade.bare_comment (hps t ht).2.1 (hall t ht)).2
  refine ⟨fun t ht => ?_, fun hedged t ht => ?_, Grade.unsaid, fun _ => ⟨_, by simp, hcomment⟩,
    fun _ => ⟨ps, _, [], rfl, hall, hcomment, rfl⟩, fun _ => ⟨ps, _, rfl, hall, hcomment⟩,
    Grade.unsaid, fun _ l t hl => ?_, fun _ => hstill,
    fun _ t ht => Grade.importing_of_inert (hstill t ht), fun t ht r hr => ?_⟩
  · rcases List.mem_append.1 ht with ht | ht
    · exact (hps t ht).2.1
    · exact List.mem_singleton.1 ht ▸ hbare
  · rcases List.mem_append.1 ht with ht | ht
    · exact (hps t ht).2.2.1
    · rw [List.mem_singleton.1 ht]
      have hsplit : Stands src c.pos (c.rest.take n ++ c.rest.drop n) := by
        rw [List.take_append_drop]
        exact hc
      refine (he hedged).edged hsplit rfl ?_
      rw [leafAt, advance_eq]
      rfl
  · obtain ⟨rfl, -⟩ := List.append_inj' hl rfl
    exact fun s hs => by simp [hnone s hs]
  · rcases List.mem_append.1 ht with ht | ht
    · simp [hnone t ht] at hr
    · rw [List.mem_singleton.1 ht] at hr
      cases hr

theorem leaf_tiled {k : Kind} {c : Cursor} {n : Nat} (hc : At src c) (hk : isLeafKind k = true) :
    At src (c.advance n) ∧ Tiled src c.pos (c.advance n).pos [leafAt k c n] := by
  have hsplit : Stands src c.pos (c.rest.take n ++ c.rest.drop n) := by
    rw [List.take_append_drop]
    exact hc
  rw [leafAt, advance_eq]
  refine ⟨hsplit.after, .leaf hsplit ?_ (.inl ?_)⟩ <;> rintro rfl <;> cases hk

theorem leaf_after {k : Kind} {p : Parser Pieces} {e : Bool} (hk : isLeafKind k = true)
    (hp : ∀ c r, p c = some r → ∃ ps c1 n, (ps = [] ∧ c1 = c ∨ trivia c = some (ps, c1)) ∧
      (e = true → Inked (c1.rest.take n)) ∧ r = (ps ++ [leafAt k c1 n], c1.advance n)) :
    After src [] p ((Grade.leaf true e).Holds src) := by
  intro o c ps c' hc hacc h
  obtain ⟨cs, c1, n, hskip, hink, hr⟩ := hp c _ h
  obtain ⟨rfl, rfl⟩ := Prod.mk.inj hr
  obtain ⟨hc1, htiled, hnotes⟩ : At src c1 ∧ Tiled src o c1.pos cs ∧ Notes src cs := by
    rcases hskip with ⟨rfl, rfl⟩ | hskip
    · exact ⟨hc, hacc, .nil⟩
    · obtain ⟨h1, h2, h3⟩ := trivia_tiled hc hskip
      exact ⟨h1, h2.blank_left hacc, h3⟩
  obtain ⟨hc', hleaf⟩ := leaf_tiled (n := n) hc1 hk
  exact ⟨hc', htiled.append hleaf, leaf_holds hnotes hc1 hk hink⟩

theorem inName_solid {c : Char} (h : inName c = true) : isSpace c = false ∧ c ≠ '/' := by
  by_cases hascii : c.toNat < 128
  · have hall : ∀ n, n < 128 → inName (Char.ofNat n) = true →
        isSpace (Char.ofNat n) = false ∧ Char.ofNat n ≠ '/' := by decide +kernel
    have hc := hall c.toNat hascii
    rw [Char.ofNat_toNat] at hc
    exact hc h
  · have hdigit : c.isDigit = false := by
      rw [← Bool.not_eq_true]
      intro hdigit
      have : c.toNat ≤ 57 := by
        simp only [Char.isDigit, Bool.and_eq_true, decide_eq_true_eq] at hdigit
        exact hdigit.2
      omega
    rw [inName, startsName, if_neg hascii, hdigit, Bool.or_false, Bool.not_eq_true'] at h
    refine ⟨h, ?_⟩
    rintro rfl
    exact hascii (by decide)

theorem inName_of_starts {c : Char} (h : startsName c = true) : inName c = true := by
  rw [inName, h, Bool.true_or]

theorem of_mem_take_takeWhile {f : Char → Bool} {cs : List Char} {c : Char}
    (h : c ∈ cs.take (cs.takeWhile f).length) : f c = true := by
  rw [← List.prefix_iff_eq_take.1 (List.takeWhile_prefix f)] at h
  exact List.all_eq_true.1 List.all_takeWhile c h

theorem inName_of_mem {cs : List Char} {c : Char} (h : c ∈ cs.take (nameLength cs)) :
    inName c = true := by
  cases cs with
  | nil => simp at h
  | cons d cs =>
    rw [nameLength] at h
    split at h
    · rename_i hd
      rw [Nat.add_comm, List.take_succ_cons, List.mem_cons] at h
      rcases h with rfl | h
      · exact inName_of_starts hd
      · exact of_mem_take_takeWhile h
    · simp at h

theorem inked_name {cs : List Char} (h : nameLength cs ≠ 0) : Inked (cs.take (nameLength cs)) := by
  refine .of_solid (fun hnil => h ?_) fun c hc => (inName_solid (inName_of_mem hc)).1
  rcases List.take_eq_nil_iff.1 hnil with h0 | rfl
  · exact h0
  · rfl

theorem inked_of_mark {text : String} (h : isMark text = true) : Inked text.toList := by
  unfold isMark at h
  split at h
  · cases h
  · rename_i c cs hcs
    rw [hcs]
    simp only [Bool.and_eq_true, Bool.not_eq_true', List.contains_eq_mem, decide_eq_false_iff_not] at h
    exact .of_line h.1 h.2

theorem take_of_isPrefixOf {text : String} {cs : List Char} (h : text.toList.isPrefixOf cs = true) :
    cs.take text.length = text.toList := by
  rw [← String.length_toList]
  exact (List.prefix_iff_eq_take.1 (List.isPrefixOf_iff_prefix.1 h)).symm

theorem sym_inv {text : String} {c : Cursor} {r : Pieces × Cursor} (h : sym text c = some r) :
    ∃ cs c1, trivia c = some (cs, c1) ∧ text.toList.isPrefixOf c1.rest = true ∧
      r = (cs ++ [leafAt (.token text) c1 text.length], c1.advance text.length) := by
  obtain ⟨cs, c1, h1, h2⟩ := bind_inv h
  obtain ⟨c2, c3, h3, h4⟩ := bind_inv h2
  obtain ⟨rfl, rfl⟩ := get_inv h3
  split at h4
  · rename_i hmatch
    obtain ⟨t, c4, h5, h6⟩ := bind_inv h4
    obtain ⟨rfl, rfl⟩ := Prod.mk.inj (leaf_inv h5)
    exact ⟨cs, c1, h1, hmatch, pure_inv h6⟩
  · cases h4

instance sym_yields {text : String} : Yields src (sym text) (.token text) where
  after hs := by
    have hmark : isMark text = true := hs
    rw [Grade.token, hmark]
    refine leaf_after (k := .token text) rfl fun c r h => ?_
    obtain ⟨cs, c1, hskip, hmatch, hr⟩ := sym_inv h
    refine ⟨cs, c1, _, .inr hskip, fun _ => ?_, hr⟩
    rw [take_of_isPrefixOf hmatch]
    exact inked_of_mark hmark

instance symNot_yields {text next : String} : Yields src (symNot text next) (.token text) where
  after hs := .start hs fun _ ht => .peek .get fun _ => .peek .require fun _ => .pure ht

instance word_yields {text : String} : Yields src (word text) (.token text) where
  after hs := by
    have hmark : isMark text = true := hs
    rw [Grade.token, hmark]
    refine leaf_after (k := .token text) rfl fun c r h => ?_
    obtain ⟨cs, c1, h1, h2⟩ := bind_inv h
    obtain ⟨c2, c3, h3, h4⟩ := bind_inv h2
    obtain ⟨rfl, rfl⟩ := get_inv h3
    split at h4
    · rename_i hword
      obtain ⟨t, c4, h5, h6⟩ := bind_inv h4
      obtain ⟨rfl, rfl⟩ := Prod.mk.inj (leaf_inv h5)
      refine ⟨cs, _, _, .inr h1, fun _ => ?_, pure_inv h6⟩
      have htext : text.toList.isPrefixOf c1.rest = true := by
        rw [← beq_iff_eq.1 hword, nameText, String.toList_ofList, List.isPrefixOf_iff_prefix]
        exact List.take_prefix _ _
      rw [take_of_isPrefixOf htext]
      exact inked_of_mark hmark
    · cases h4

def Grade.tokens (texts : List String) : Grade := .leaf (texts.all isMark) true

instance words_yields {texts : List String} : Yields src (words texts) (.tokens texts) where
  after hs := by
    have hall : texts.all isMark = true := hs
    rw [Grade.tokens, hall]
    clear hs
    unfold words
    induction texts with
    | nil => exact .fail
    | cons text texts ih =>
      rw [List.all_cons, Bool.and_eq_true] at hall
      refine .orElse ?_ (ih hall.2)
      have h : After src [] (word text) ((Grade.token text).Holds src) := word_yields.after hall.1
      rwa [Grade.token, hall.1] at h

instance name_yields {k : NodeKind} :
    Yields src (name k) (.leaf (isLeafKind (.named k)) true) where
  after hs := by
    have hk : isLeafKind (.named k) = true := hs
    rw [hk]
    refine leaf_after hk fun c r h => ?_
    obtain ⟨cs, c1, h1, h2⟩ := bind_inv h
    obtain ⟨c2, c3, h3, h4⟩ := bind_inv h2
    obtain ⟨rfl, rfl⟩ := get_inv h3
    dsimp only at h4
    split at h4
    · cases h4
    · rename_i hne
      obtain ⟨t, c4, h5, h6⟩ := bind_inv h4
      obtain ⟨rfl, rfl⟩ := Prod.mk.inj (leaf_inv h5)
      exact ⟨cs, _, _, .inr h1, fun _ => inked_name hne, pure_inv h6⟩

instance wordNode_yields {k : NodeKind} {text : String} : Yields src (wordNode k text)
    (Grade.nil.andThen ((Grade.leaf (isLeafKind (.named k)) true).andThen .nil)) := by
  unfold wordNode
  infer_instance

section Lists

variable {n : Nat} {item : Parser Pieces} {g : Grade} [Yields src item g]

instance commaList_yields : Yields src (commaList n item) ((g.andThen
    ((((Grade.token ",").andThen (g.andThen .nil)).many).andThen
      (((Grade.token ",").or .nil).andThen .nil))).or .nil) := by
  unfold commaList
  infer_instance

instance commaSlots_yields : Yields src (commaSlots n item) ((g.or .nil).andThen
    ((((Grade.token ",").andThen ((g.or .nil).andThen .nil)).many).andThen .nil)) := by
  unfold commaSlots
  infer_instance

end Lists

def Grade.notes : Grade := { nil with empty := false }

theorem Notes.holds {ps : Pieces} (h : Notes src ps) : Grade.notes.Holds src ps := by
  have hnone : ∀ t ∈ ps, t.role = none := fun t ht =>
    (Grade.bare_comment (h t ht).2.1 (h t ht).1).2
  have hinert : ∀ t ∈ ps, t.inert = true := fun t ht =>
    Grade.inert_of_bare (h t ht).2.1 (by simp [(h t ht).1])
  refine ⟨fun t ht => (h t ht).2.1, fun _ t ht => (h t ht).2.2.1, Grade.unsaid, Grade.unsaid,
    Grade.unsaid, Grade.unsaid, Grade.unsaid, fun _ l t hl s hs => ?_, fun _ => hinert,
    fun _ t ht => Grade.importing_of_inert (hinert t ht), fun t ht r hr => by simp [hnone t ht] at hr⟩
  simp [hnone s (hl ▸ List.mem_append_left _ hs)]

theorem passTo_width {x rest : List Char} {k : Nat} {c : Cursor} (hx : c.rest = x ++ rest)
    (hk : x.length ≤ k) :
    impliedSemicolon.passTo (c.pos + width x) k c = c.advance x.length := by
  induction x generalizing k c with
  | nil =>
    cases k with
    | zero => rfl
    | succ k => rw [impliedSemicolon.passTo, width_nil, if_neg (by omega)]; rfl
  | cons y ys ih =>
    obtain ⟨k, rfl⟩ : ∃ m, k = m + 1 := ⟨k - 1, by simp at hk; omega⟩
    obtain ⟨r, pos, breaks⟩ := c
    obtain rfl : r = y :: (ys ++ rest) := hx
    have hpos := y.utf8Size_pos
    have hstep := ih (c := ⟨ys ++ rest, pos + y.utf8Size, breaks⟩) rfl (by simpa using hk)
    rw [impliedSemicolon.passTo, width_cons, if_pos (by simp; omega)]
    simpa only [List.length_cons, Cursor.advance, Nat.add_assoc] using hstep

theorem Stands.between {x y : List Char} (h : Stands src a x) (h' : Stands src b y) (hab : a ≤ b) :
    ∃ z, x = z ++ y ∧ b = a + width z := by
  obtain ⟨done, rfl, rfl⟩ := h
  obtain ⟨done', he, rfl⟩ := h'
  rcases List.append_eq_append_iff.1 he with ⟨z, rfl, rfl⟩ | ⟨z, rfl, rfl⟩
  · exact ⟨z, rfl, width_append _ _⟩
  · rw [width_append] at hab
    obtain rfl : z = [] := width_eq_zero (by omega)
    exact ⟨[], rfl, by simp [width_nil]⟩

theorem passTo_note {c : Cursor} {first : Tree} {more : Pieces} {r : Nat × List Char} (hc : At src c)
    (h : skipTrivia .blank c.pos c.rest = some (first :: more, r)) :
    let past := impliedSemicolon.passTo first.stop c.rest.length
      (c.advance (c.rest.takeWhile isSpace).length)
    At src past ∧ Tiled src c.pos past.pos [first] ∧ Notes src [first] := by
  obtain ⟨htiled, -, hnotes⟩ := skipTrivia_tiled .blank _ _ h ⟨rfl, hc⟩
  obtain ⟨-, -, -, rest, hstart⟩ := hnotes first (by simp)
  obtain ⟨⟨gap, rest', hgap, hat, hpos⟩, hle, hsound, hmore⟩ := htiled
  obtain ⟨behind, hstop⟩ := hmore.left
  have hrest : c.rest = gap ++ rest' := hc.unique hat
  obtain rfl : rest' = '/' :: rest := (hpos ▸ hat.after).unique hstart
  obtain ⟨z, hz, hwidth⟩ := hstart.between hstop hle
  have hskip : c.advance (c.rest.takeWhile isSpace).length =
      { c with rest := '/' :: rest, pos := first.start } := by
    have htake : c.rest.takeWhile isSpace = gap := by
      rw [hrest, List.takeWhile_append_of_pos (List.all_eq_true.1 hgap)]
      simp [isSpace]
    rw [htake, advance_eq, hrest, List.drop_left, List.take_left, hpos]
  have hlen : z.length ≤ c.rest.length := by
    have := congrArg List.length hz
    simp only [List.length_append] at this
    rw [hrest, List.length_append]
    omega
  have hpast : impliedSemicolon.passTo first.stop c.rest.length
      (c.advance (c.rest.takeWhile isSpace).length) =
      { c with rest := behind, pos := first.stop } := by
    rw [hskip, hwidth, passTo_width (c := { c with rest := '/' :: rest, pos := first.start }) hz hlen,
      advance_eq]
    simp [hz]
  dsimp only
  rw [hpast]
  exact ⟨hstop, ⟨⟨gap, _, hgap, hat, hpos⟩, hle, hsound, .refl hstop⟩,
    fun t ht => hnotes t (by simp_all)⟩

instance impliedSemicolon_yields {g : Context} {operand : Bool} {n : Nat} :
    Yields src (impliedSemicolon g operand n) .notes where
  after _ := by
    induction n with
    | zero => exact .fail
    | succ n ih =>
      intro o c ps c' hc hacc h
      obtain ⟨c1, c2, h1, h2⟩ := bind_inv h
      obtain ⟨rfl, rfl⟩ := get_inv h1
      split at h2
      · obtain ⟨rfl, rfl⟩ := Prod.mk.inj (pure_inv h2)
        exact ⟨hc, hacc, Notes.nil.holds⟩
      · cases hskip : skipTrivia .blank c.pos c.rest with
        | none => rw [hskip] at h2; cases h2
        | some r =>
          obtain ⟨_ | ⟨first, more⟩, r⟩ := r
          · rw [hskip] at h2; cases h2
          · rw [hskip] at h2
            obtain ⟨hpast, htiled, hnotes⟩ := passTo_note hc hskip
            obtain ⟨u, c3, h3, h4⟩ := bind_inv h2
            obtain rfl := congrArg Prod.snd (Option.some.inj h3)
            obtain ⟨ps', c4, h5, h6⟩ := bind_inv h4
            obtain ⟨rfl, rfl⟩ := Prod.mk.inj (pure_inv h6)
            obtain ⟨rest, hrest⟩ := htiled.right
            obtain ⟨hc', hmore, hps⟩ := ih _ _ _ _ hpast (.refl hrest) h5
            exact ⟨hc', (htiled.blank_left hacc).append hmore, (hnotes.holds.append hps).mono rfl⟩

instance semicolon_yields {g : Context} {operand : Bool} :
    Yields src (semicolon g operand) (.or .notes (.token ";")) := by
  unfold semicolon
  infer_instance

end Tokens

end OrmCodemod.Syntax.Grammar
