import OrmCodemod.Proofs.Attached

/-! Texts with comments in between. A text that is put together from strands tells what it is without
those that are comments. Putting strands together is all that a pass does with the texts of nodes, so
that no comment gets lost in a text that is made of others. -/

namespace OrmCodemod

open Syntax Text

/-- A part of a text: a comment that was put there, or anything else. -/
structure Strand where
  put : Bool
  text : String

namespace Strand

def comments (ss : List Strand) : List String := (ss.filter (·.put)).map (·.text)

def bytes (ss : List Strand) : Bytes := ss.flatMap fun s => encode s.text

def plain (ss : List Strand) : Bytes := bytes (ss.filter fun s => !s.put)

@[simp] theorem comments_append (l r : List Strand) : comments (l ++ r) = comments l ++ comments r := by
  simp [comments]

@[simp] theorem bytes_append (l r : List Strand) : bytes (l ++ r) = bytes l ++ bytes r := by
  simp [bytes]

@[simp] theorem plain_append (l r : List Strand) : plain (l ++ r) = plain l ++ plain r := by
  simp [plain]

theorem exists_text (ss : List Strand) : ∃ s, encode s = bytes ss := by
  induction ss with
  | nil => exact ⟨"", rfl⟩
  | cons x xs ih =>
    obtain ⟨s, hs⟩ := ih
    exact ⟨x.text ++ s, by rw [encode_append, hs]; rfl⟩

end Strand

/-- The text is the plain one with these comments in between, each of them as a whole. -/
def Woven (comments : List String) (plain text : Bytes) : Prop :=
  ∃ ss : List Strand,
    (Strand.comments ss).Perm comments ∧ Strand.plain ss = plain ∧ Strand.bytes ss = text

namespace Woven

variable {cs ds : List String} {a b c d : Bytes}

theorem nil : Woven [] [] [] := ⟨[], .refl _, rfl, rfl⟩

theorem of_text (s : String) : Woven [] (encode s) (encode s) :=
  ⟨[⟨false, s⟩], .refl _, by simp [Strand.plain, Strand.bytes], by simp [Strand.bytes]⟩

theorem append (h : Woven cs a b) (h' : Woven ds c d) : Woven (cs ++ ds) (a ++ c) (b ++ d) := by
  obtain ⟨ss, h1, rfl, rfl⟩ := h
  obtain ⟨ts, h2, rfl, rfl⟩ := h'
  exact ⟨ss ++ ts, by simpa using h1.append h2, by simp, by simp⟩

theorem perm (h : Woven cs a b) (hp : cs.Perm ds) : Woven ds a b := by
  obtain ⟨ss, h1, h2⟩ := h
  exact ⟨ss, h1.trans hp, h2⟩

theorem of_strands (ss : List Strand) :
    Woven (Strand.comments ss) (Strand.plain ss) (Strand.bytes ss) := ⟨ss, .refl _, rfl, rfl⟩

theorem texts (h : Woven cs a b) : (∃ s, encode s = a) ∧ ∃ t, encode t = b := by
  obtain ⟨ss, -, rfl, rfl⟩ := h
  exact ⟨Strand.exists_text _, Strand.exists_text _⟩

theorem encode_render {inner : Tree → Bytes} {m : Tree} {s : String} (h : encode s = inner m) :
    encode (Calls.Scene.render inner m) = inner m := by
  rw [Calls.Scene.render, ← h, decode_encode]
  rfl

theorem render {inner inner' : Tree → Bytes} {m : Tree} (h : Woven cs (inner m) (inner' m)) :
    Woven cs (encode (Calls.Scene.render inner m)) (encode (Calls.Scene.render inner' m)) := by
  obtain ⟨⟨s, hs⟩, t, ht⟩ := h.texts
  rwa [encode_render hs, encode_render ht]

theorem around {s t : String} (h : Woven cs (encode s) (encode t)) (before behind : String) :
    Woven cs (encode (before ++ s ++ behind)) (encode (before ++ t ++ behind)) := by
  simpa [encode_append] using ((of_text before).append h).append (of_text behind)

theorem joinWith {α : Type} (sep : String) {f g : α → String} {comments : α → List String}
    {xs : List α} (h : ∀ x ∈ xs, Woven (comments x) (encode (f x)) (encode (g x))) :
    Woven (xs.flatMap comments) (encode (joinWith sep (xs.map f))) (encode (joinWith sep (xs.map g))) := by
  induction xs with
  | nil => exact of_text ""
  | cons x xs ih =>
    have hx := h x (by simp)
    have hrest := ih fun y hy => h y (by simp [hy])
    cases xs with
    | nil => simpa [Text.joinWith] using hx
    | cons y ys =>
      simp only [List.map_cons, Text.joinWith, encode_append]
      simpa [encode_append] using (hx.append (of_text sep)).append hrest

end Woven

def commentsIn (strands : Nat → List Strand) (a b : Nat) : List String :=
  (List.range' a (b - a)).flatMap fun p => Strand.comments (strands p)

section Offsets

variable {strands strands' : Nat → List Strand} {a b c : Nat}

theorem commentsIn_append (strands : Nat → List Strand) (h1 : a ≤ b) (h2 : b ≤ c) :
    commentsIn strands a b ++ commentsIn strands b c = commentsIn strands a c := by
  simp [commentsIn, View.range'_split h1 h2]

@[simp] theorem commentsIn_self (strands : Nat → List Strand) (a : Nat) :
    commentsIn strands a a = [] := by
  simp [commentsIn]

theorem commentsIn_cons (strands : Nat → List Strand) (h : a < b) :
    commentsIn strands a b = Strand.comments (strands a) ++ commentsIn strands (a + 1) b := by
  rw [← commentsIn_append strands (Nat.le_succ a) h]
  simp [commentsIn]

theorem commentsIn_congr (h : ∀ p, a ≤ p → p < b → strands p = strands' p) :
    commentsIn strands a b = commentsIn strands' a b := by
  unfold commentsIn
  refine List.flatMap_congr fun p hp => ?_
  rw [List.mem_range'_1] at hp
  rw [h p hp.1 (by omega)]

theorem commentsIn_eq_nil (h : ∀ p, a ≤ p → p < b → strands p = []) : commentsIn strands a b = [] := by
  refine List.flatMap_eq_nil_iff.2 fun p hp => ?_
  rw [List.mem_range'_1] at hp
  rw [h p hp.1 (by omega)]
  rfl

theorem commentsIn_hide (strands : Nat → List Strand) (a b : Nat) :
    commentsIn (Function.update strands a []) a b = commentsIn strands (a + 1) b := by
  rcases Nat.lt_or_ge a b with h | h
  · rw [commentsIn_cons _ h, Function.update_self]
    exact commentsIn_congr fun p hp _ => Function.update_of_ne (by omega) _ _
  · rw [commentsIn, commentsIn, Nat.sub_eq_zero_of_le h, Nat.sub_eq_zero_of_le (by omega)]
    rfl

theorem exists_next {source : Bytes} (hab : a < b) (hb : isBoundary source b = true) :
    ∃ c, a < c ∧ c ≤ b ∧ isBoundary source c = true ∧
      ∀ p, a < p → p < c → isBoundary source p = false := by
  have h : ∃ c, a < c ∧ isBoundary source c = true := ⟨b, hab, hb⟩
  obtain ⟨h1, h2⟩ := Nat.find_spec h
  refine ⟨Nat.find h, h1, Nat.find_min' h ⟨hab, hb⟩, h2, fun p hp hpc => ?_⟩
  have := Nat.find_min h hpc
  simpa [hp] using this

end Offsets

namespace View

variable {v : View} {a b : Nat}

/-- Where nothing is inserted but at the first offset. -/
theorem span_of_bare (hab : a < b) (h : ∀ p, a < p → p < b → v.inserted p = []) :
    v.span a b = v.inserted a ++ (List.range' a (b - a)).flatMap v.shown := by
  rw [v.span_hide hab]
  congr 1
  refine List.flatMap_congr fun p hp => ?_
  rw [List.mem_range'_1] at hp
  by_cases hpa : p = a
  · rw [hpa, hide_cell_self]
  · rw [hide_cell_of_ne _ hpa, cell, h p (by omega) (by omega), List.nil_append]

theorem fill_hide (v : View) (cs : List Tree) (piece : Tree → Bytes) (a : Nat) :
    (v.fill cs piece).hide a = (v.hide a).fill cs piece := by
  ext1
  · funext p
    by_cases h : p = a <;> simp [hide, fill, h]
  · rfl

end View

/-- Two views that show the same, the one without the comments of some strands, the other one with
them. -/
structure Weave (source : Bytes) (strands : Nat → List Strand) (v w : View) : Prop where
  shown : v.shown = w.shown
  plain : ∀ p, v.inserted p = Strand.plain (strands p)
  full : ∀ p, w.inserted p = Strand.bytes (strands p)
  aligned : ∀ p, strands p ≠ [] → isBoundary source p = true
  /-- For a character, a text is shown. -/
  character : ∀ a b, a < b → isBoundary source a = true → isBoundary source b = true →
    (∀ p, a < p → p < b → isBoundary source p = false) →
    ∃ s, encode s = (List.range' a (b - a)).flatMap w.shown

namespace Weave

variable {source : Bytes} {strands : Nat → List Strand} {v w : View} {a b : Nat}

theorem hide (h : Weave source strands v w) (a : Nat) :
    Weave source (Function.update strands a []) (v.hide a) (w.hide a) where
  shown := h.shown
  plain p := by
    by_cases hp : p = a
    · simp [View.hide, hp, Strand.plain, Strand.bytes]
    · simp [View.hide, hp, h.plain]
  full p := by
    by_cases hp : p = a
    · simp [View.hide, hp, Strand.bytes]
    · simp [View.hide, hp, h.full]
  aligned p hne := by
    by_cases hp : p = a
    · simp [hp] at hne
    · rw [Function.update_of_ne hp] at hne
      exact h.aligned p hne
  character := h.character

theorem offset (h : Weave source strands v w) (p : Nat) :
    Woven (Strand.comments (strands p)) (v.inserted p) (w.inserted p) := by
  rw [h.plain, h.full]
  exact .of_strands _

theorem step (h : Weave source strands v w) (hab : a < b) (ha : isBoundary source a = true)
    (hb : isBoundary source b = true) (hnone : ∀ p, a < p → p < b → isBoundary source p = false) :
    Woven (commentsIn strands a b) (v.span a b) (w.span a b) := by
  have hempty : ∀ p, a < p → p < b → strands p = [] := by
    intro p h1 h2
    by_contra hne
    have := h.aligned p hne
    simp [hnone p h1 h2] at this
  obtain ⟨s, hs⟩ := h.character a b hab ha hb hnone
  have hv : v.span a b = v.inserted a ++ encode s := by
    rw [hs, ← h.shown]
    refine View.span_of_bare hab fun p h1 h2 => ?_
    rw [h.plain, hempty p h1 h2]
    rfl
  have hw : w.span a b = w.inserted a ++ encode s := by
    rw [hs]
    refine View.span_of_bare hab fun p h1 h2 => ?_
    rw [h.full, hempty p h1 h2]
    rfl
  rw [hv, hw, commentsIn_cons _ hab, commentsIn_eq_nil fun p h1 h2 => hempty p (by omega) h2]
  exact (h.offset a).append (.of_text s)

theorem run (h : Weave source strands v w) (hab : a ≤ b) (ha : isBoundary source a = true)
    (hb : isBoundary source b = true) : Woven (commentsIn strands a b) (v.span a b) (w.span a b) := by
  induction hn : b - a using Nat.strong_induction_on generalizing a with
  | _ n ih =>
    rcases Nat.eq_or_lt_of_le hab with rfl | hlt
    · simpa using Woven.nil
    obtain ⟨c, hac, hcb, hc, hnone⟩ := exists_next hlt hb
    have hrest := ih (b - c) (by omega) hcb hc rfl
    rw [← commentsIn_append _ hac.le hcb, ← v.span_append hac.le hcb, ← w.span_append hac.le hcb]
    exact (h.step hac ha hc hnone).append hrest

/-- Where texts that are woven stand in the places of nodes, what stands from character to character is
woven. -/
theorem fill (h : Weave source strands v w) {cs : List Tree} {f g : Tree → Bytes}
    (hin : Tree.inOrder a b cs = true) (ha : isBoundary source a = true)
    (hb : isBoundary source b = true) (hcs : ∀ c ∈ cs, c.aligned source = true)
    (hpiece : ∀ c ∈ cs, c.start < c.stop →
      Woven (commentsIn strands (c.start + 1) c.stop) (f c) (g c)) :
    Woven (commentsIn strands a b) ((v.fill cs f).span a b) ((w.fill cs g).span a b) := by
  have hends : ∀ c ∈ cs, isBoundary source c.start = true ∧ isBoundary source c.stop = true :=
    fun c hc => by simpa only [Tree.aligned, Bool.and_eq_true] using hcs c hc
  refine Tree.inOrder_chain (R := fun p q => Woven (commentsIn strands p q)
    ((v.fill cs f).span p q) ((w.fill cs g).span p q)) hin (fun p => by simpa using Woven.nil)
    (fun p q r hpq hqr h1 h2 => ?_) (fun p q hap hpq hqb hp hq hfree => ?_) fun c hc hne => ?_
  · rw [← commentsIn_append _ hpq hqr, ← View.span_append _ hpq hqr, ← View.span_append _ hpq hqr]
    exact h1.append h2
  · have hp : isBoundary source p = true := by
      rcases hp with rfl | ⟨c, hc, rfl⟩
      · exact ha
      · exact (hends c hc).2
    have hq : isBoundary source q = true := by
      rcases hq with rfl | ⟨c, hc, rfl⟩
      · exact hb
      · exact (hends c hc).1
    have hspan : ∀ (x : View) (piece : Tree → Bytes), (x.fill cs piece).span p q = x.span p q := by
      refine fun x piece => View.span_congr fun i h1 h2 => ?_
      have hi : ∀ c ∈ cs, ¬(c.start ≤ i ∧ i < c.stop) := fun c hc => by
        have := hfree c hc
        omega
      rw [View.cell, View.cell, View.fill_shown_of_free hi,
        View.fill_inserted_of_free fun c hc hh => hi c hc ⟨hh.1.le, hh.2⟩]
    rw [hspan, hspan]
    exact h.run hpq hp hq
  · rw [commentsIn_cons _ hne, View.span_hide (v.fill cs f) hne, View.span_hide (w.fill cs g) hne,
      View.fill_span hin hc hne, View.fill_span hin hc hne, View.fill_inserted_start hin hc hne,
      View.fill_inserted_start hin hc hne]
    exact (h.offset c.start).append (hpiece c hc hne)

end Weave
end OrmCodemod
