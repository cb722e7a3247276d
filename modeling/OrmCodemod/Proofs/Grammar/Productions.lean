import OrmCodemod.Proofs.Grammar.Grades

/-! What productions give. A production whose pieces tile what it reads, with what its grade says, has
an instance of `Yields`; the combinators have theirs from the productions that they are made of, so that
the grade of a production is found from the way it is written. Where a production goes on with what it
has read so far, `After` tells what it makes of that. -/

namespace OrmCodemod.Syntax.Grammar

open Text

section Monad

variable {α β : Type} {c : Cursor} {r : β × Cursor}

theorem bind_inv {x : Parser α} {f : α → Parser β} (h : (x >>= f) c = some r) :
    ∃ a c', x c = some (a, c') ∧ f a c' = some r := by
  obtain ⟨⟨a, c'⟩, h1, h2⟩ := Option.bind_eq_some_iff.1 h
  exact ⟨a, c', h1, h2⟩

theorem orElse_inv {p q : Parser β} (h : (p <|> q) c = some r) : p c = some r ∨ q c = some r := by
  change (p c <|> q c) = some r at h
  cases hp : p c with
  | none => rw [hp] at h; exact .inr h
  | some s => rw [hp] at h; exact .inl h

theorem require_inv {b : Bool} {r : Unit × Cursor} (h : require b c = some r) : b = true ∧ r = ((), c) := by
  cases b with
  | false => cases h
  | true => exact ⟨rfl, (Option.some.inj h).symm⟩

theorem get_inv {c c1 c2 : Cursor} (h : (get : Parser Cursor) c = some (c1, c2)) : c = c1 ∧ c = c2 := by
  simpa using Option.some.inj h

theorem pure_inv {α : Type} {c : Cursor} {v : α} {r : α × Cursor}
    (h : (return v : Parser α) c = some r) : r = (v, c) := (Option.some.inj h).symm

theorem map_inv {f : α → β} {x : Parser α} (h : (f <$> x) c = some r) :
    ∃ v c', x c = some (v, c') ∧ r = (f v, c') := by
  obtain ⟨⟨v, c'⟩, h1, h2⟩ := Option.bind_eq_some_iff.1 h
  exact ⟨v, c', h1, (Option.some.inj h2).symm⟩

theorem seq_inv {p : Parser Pieces} {parsers : List (Parser Pieces)} {ps : Pieces} {c' : Cursor}
    (h : seq (p :: parsers) c = some (ps, c')) :
    ∃ l r c1, p c = some (l, c1) ∧ seq parsers c1 = some (r, c') ∧ ps = l ++ r := by
  obtain ⟨l, c1, h1, h2⟩ := bind_inv h
  obtain ⟨r, c2, h3, h4⟩ := bind_inv h2
  obtain ⟨rfl, rfl⟩ := Prod.mk.inj (pure_inv h4)
  exact ⟨l, r, c1, h1, h3, rfl⟩

theorem node_inv {k : NodeKind} {p : Parser Pieces} {ps : Pieces} {c' : Cursor}
    (h : node k p c = some (ps, c')) : ∃ own, p c = some (own, c') ∧ ps = wrap k own := by
  obtain ⟨own, c1, h1, h2⟩ := bind_inv h
  obtain ⟨rfl, rfl⟩ := Prod.mk.inj (pure_inv h2)
  exact ⟨own, h1, rfl⟩

theorem inRole_inv {r : Role} {p : Parser Pieces} {ps : Pieces} {c' : Cursor}
    (h : inRole r p c = some (ps, c')) :
    ∃ own, p c = some (own, c') ∧ ps = mapLast (Tree.withRole r) own := by
  obtain ⟨own, c1, h1, h2⟩ := bind_inv h
  obtain ⟨rfl, rfl⟩ := Prod.mk.inj (pure_inv h2)
  exact ⟨own, h1, rfl⟩

theorem withBreaks_inv {b : Bool} {p : Parser Pieces} {ps : Pieces} {c' : Cursor}
    (h : withBreaks b p c = some (ps, c')) :
    ∃ c1, p { c with breaks := b } = some (ps, c1) ∧ c' = { c1 with breaks := c.breaks } := by
  obtain ⟨c0, c1, h1, h2⟩ := bind_inv h
  obtain ⟨rfl, rfl⟩ := get_inv h1
  obtain ⟨u, c2, h3, h4⟩ := bind_inv h2
  obtain rfl : { c with breaks := b } = c2 := congrArg Prod.snd (Option.some.inj h3)
  obtain ⟨qs, c3, h5, h6⟩ := bind_inv h4
  obtain ⟨v, c4, h7, h8⟩ := bind_inv h6
  obtain rfl : { c3 with breaks := c.breaks } = c4 := congrArg Prod.snd (Option.some.inj h7)
  obtain ⟨rfl, rfl⟩ := Prod.mk.inj (pure_inv h8)
  exact ⟨c3, h5, rfl⟩

end Monad

def At (src : List Char) (c : Cursor) : Prop := Stands src c.pos c.rest

/-- Behind pieces that tile what was read, a production gives pieces that tile what is read then. -/
def After (src : List Char) (acc : Pieces) (p : Parser Pieces) (Q : Pieces → Prop) : Prop :=
  ∀ a c ps c', At src c → Tiled src a c.pos acc → p c = some (ps, c') →
    At src c' ∧ Tiled src a c'.pos ps ∧ Q ps

/-- The pieces of a production tile what it reads, and its grade tells of them. -/
class Yields (src : List Char) (p : Parser Pieces) (g : outParam Grade) : Prop where
  after : g.sound = true → After src [] p (g.Holds src)

def Still {α : Type} (p : Parser α) : Prop := ∀ c v c', p c = some (v, c') → c' = c

section After

variable {src : List Char} {acc : Pieces} {Q : Pieces → Prop} {p q : Parser Pieces} {a b : Grade}

theorem After.mono {Q' : Pieces → Prop} (h : After src acc p Q) (hq : ∀ ps, Q ps → Q' ps) :
    After src acc p Q' := fun o c ps c' hc hacc hp =>
  let ⟨h1, h2, h3⟩ := h o c ps c' hc hacc hp
  ⟨h1, h2, hq ps h3⟩

theorem After.fail : After src acc failure Q := fun _ _ _ _ _ _ hp => nomatch hp

theorem After.fail_bind {α : Type} {f : α → Parser Pieces} : After src acc (failure >>= f) Q :=
  fun _ _ _ _ _ _ hp => nomatch hp

theorem After.pure (h : Q acc) : After src acc (return acc) Q := by
  intro o c ps c' hc hacc hp
  obtain ⟨rfl, rfl⟩ : acc = ps ∧ c = c' := by simpa using Option.some.inj hp
  exact ⟨hc, hacc, h⟩

theorem After.orElse (hp : After src acc p Q) (hq : After src acc q Q) : After src acc (p <|> q) Q :=
  fun o c ps c' hc hacc h => (orElse_inv h).elim (hp o c ps c' hc hacc) (hq o c ps c' hc hacc)

theorem After.ite {P : Prop} [Decidable P] (hp : After src acc p Q) (hq : After src acc q Q) :
    After src acc (if P then p else q) Q := by
  split <;> assumption

theorem After.choice_nil : After src acc (choice []) Q := .fail

theorem After.choice_cons {ps : List (Parser Pieces)} (hp : After src acc p Q)
    (hps : After src acc (choice ps) Q) : After src acc (choice (p :: ps)) Q := hp.orElse hps

/-- A production reads on, and the rest goes on with its pieces too. -/
theorem After.andThen {f : Pieces → Parser Pieces} {Q' : Pieces → Prop} (hp : After src [] p Q')
    (hf : ∀ ps, Q' ps → After src (acc ++ ps) (f ps) Q) : After src acc (p >>= f) Q := by
  intro o c ps c' hc hacc h
  obtain ⟨ps1, c1, h1, h2⟩ := bind_inv h
  obtain ⟨hc1, htiled, hq⟩ := hp c.pos c ps1 c1 hc (.refl hc) h1
  exact hf ps1 hq o c1 ps c' hc1 (hacc.append htiled) h2

theorem After.bind {f : Pieces → Parser Pieces} [h : Yields src p a] (hs : a.sound = true)
    (hf : ∀ ps, a.Holds src ps → After src (acc ++ ps) (f ps) Q) : After src acc (p >>= f) Q :=
  (h.after hs).andThen hf

theorem After.start {f : Pieces → Parser Pieces} [h : Yields src p a] (hs : a.sound = true)
    (hf : ∀ ps, a.Holds src ps → After src ps (f ps) Q) : After src [] (p >>= f) Q :=
  .bind hs hf

theorem After.peek {α : Type} {x : Parser α} {f : α → Parser Pieces} (hx : Still x)
    (hf : ∀ v, After src acc (f v) Q) : After src acc (x >>= f) Q := by
  intro o c ps c' hc hacc h
  obtain ⟨v, c1, h1, h2⟩ := bind_inv h
  obtain rfl := hx c v c1 h1
  exact hf v o c1 ps c' hc hacc h2

theorem After.require {f : Unit → Parser Pieces} {v : Bool} (hf : v = true → After src acc (f ()) Q) :
    After src acc (require v >>= f) Q := by
  intro o c ps c' hc hacc h
  obtain ⟨u, c1, h1, h2⟩ := bind_inv h
  obtain ⟨hv, hc1⟩ := require_inv h1
  obtain ⟨rfl, rfl⟩ := Prod.mk.inj hc1
  exact hf hv o _ ps c' hc hacc h2

theorem After.wrap {k : NodeKind} (hg : a.Holds src acc) (hs : (a.node k).sound = true) :
    After src acc (return wrap k acc) (Grade.one.Holds src) := by
  intro o c ps c' hc hacc hp
  obtain ⟨rfl, rfl⟩ : Grammar.wrap k acc = ps ∧ c = c' := by simpa using Option.some.inj hp
  obtain ⟨htiled, hnode⟩ := hacc.around hg hs
  exact ⟨hc, htiled, hnode.mono (Grade.node_le hs)⟩

theorem Tiled.inRole {ps : Pieces} {r : Role} {m n : Nat} (h : Tiled src m n ps)
    (hps : a.Holds src ps) (hown : a.own = true) :
    Tiled src m n (mapLast (Tree.withRole r) ps) := by
  obtain ⟨cs, t, rfl, hall, hc⟩ := hps.own hown
  obtain ⟨hkind, hrole, hstart, hstop, hchildren⟩ := Grade.withRole_same t r
  have hsound := h.sound (t := t) (by simp)
  rw [Grade.mapLast_concat]
  refine h.replace hstart hstop ?_
  obtain ⟨hself, hbelow⟩ := Tree.everyNode_iff.1 hsound
  refine Tree.everyNode_iff.2 ⟨?_, by rwa [hchildren]⟩
  have hc' : (t.withRole r).is .comment = false := by rw [Tree.is, hkind]; exact hc
  have hbare : (t.withRole r).bare = t.bare := by
    simp [Tree.bare, hkind, hc, hc', hchildren]
  have hrest : (t.withRole r).formed = t.formed ∧
      (t.withRole r).placed (encodeChars src) = t.placed (encodeChars src) := by
    cases t
    exact ⟨rfl, rfl⟩
  rw [Tree.sound, hbare, hrest.1, hrest.2]
  exact hself

/-- A node is put around what was read so far, of which the first node is given a role. -/
theorem After.wrapRole {k : NodeKind} {r : Role} {ps rest : Pieces} (hps : a.Holds src ps)
    (hrest : b.Holds src rest) (hown : a.own = true)
    (hs : (((a.inRole r).andThen b).node k).sound = true) :
    After src (ps ++ rest) (return Grammar.wrap k (mapLast (Tree.withRole r) ps ++ rest))
      (Grade.one.Holds src) := by
  intro o c ps' c' hc hacc hp
  obtain ⟨m, hl, hr⟩ := hacc.split
  exact After.wrap ((hps.inRole hown).append hrest) hs o c ps' c' hc ((hl.inRole hps hown).append hr) hp

/-- A production goes on with what was read so far, and the rest with what it makes of that. -/
theorem After.onward {f : Pieces → Parser Pieces} {Q' : Pieces → Prop} (hp : After src acc p Q')
    (hf : ∀ ps, Q' ps → After src ps (f ps) Q) : After src acc (p >>= f) Q := by
  intro o c ps c' hc hacc h
  obtain ⟨ps1, c1, h1, h2⟩ := bind_inv h
  obtain ⟨hc1, htiled, hq⟩ := hp o c ps1 c1 hc hacc h1
  exact hf ps1 hq o c1 ps c' hc1 htiled h2

theorem After.frame {f : Pieces → Parser Pieces} {Q' : Pieces → Prop} {l ps : Pieces}
    (hp : After src ps p Q') (hf : ∀ qs, Q' qs → After src (l ++ qs) (f qs) Q) :
    After src (l ++ ps) (p >>= f) Q := by
  intro o c qs c' hc hacc h
  obtain ⟨qs1, c1, h1, h2⟩ := bind_inv h
  obtain ⟨m, hl, hps⟩ := hacc.split
  obtain ⟨hc1, htiled, hq⟩ := hp m c qs1 c1 hc hps h1
  exact hf qs1 hq o c1 qs c' hc1 (hl.append htiled) h2

theorem After.frame_wrap {k : NodeKind} {l ps : Pieces} (hl : b.Holds src l) (hg : a.Holds src ps)
    (hs : (a.node k).sound = true) (hle : (b.andThen .one).le .several = true) :
    After src (l ++ ps) (return l ++ Grammar.wrap k ps) (Grade.several.Holds src) :=
  After.frame (.wrap hg hs) fun _ hqs => .pure ((hl.append hqs).mono hle)

theorem After.grade [h : Yields src p a] (hle : a.le b = true) (hb : b.sound = true) :
    After src [] p (b.Holds src) := by
  have ha : a.sound = true := by
    simp only [Grade.le, Bool.and_eq_true, Bool.or_eq_true, Bool.not_eq_true'] at hle
    exact hle.1.1.1.1.1.1.1.1.1.1.resolve_left (by simp [hb])
  exact (h.after ha).mono fun _ h => h.mono hle

theorem After.recast {acc' : Pieces} {P : Prop}
    (h : ∀ m n, Tiled src m n acc → Tiled src m n acc' ∧ P) (hp : P → After src acc' p Q) :
    After src acc p Q := fun o c ps c' hc hacc hr =>
  hp (h o c.pos hacc).2 o c ps c' hc (h o c.pos hacc).1 hr

theorem After.rewrap {k : NodeKind} (hg : a.Holds src acc) (hs : (a.node k).sound = true)
    (hp : Grade.one.Holds src (Grammar.wrap k acc) → After src (Grammar.wrap k acc) p Q) :
    After src acc p Q :=
  .recast (fun _ _ h => ⟨(h.around hg hs).1, (h.around hg hs).2.mono (Grade.node_le hs)⟩) hp

/-- A node that is extended as long as that succeeds. -/
theorem After.extend {step : Pieces → Parser Pieces} {n : Nat} {ps : Pieces} (hq : Q ps)
    (hstep : ∀ ps, Q ps → After src ps (step ps) Q) : After src ps (extend n step ps) Q := by
  induction n generalizing ps with
  | zero => exact .pure hq
  | succ n ih =>
    refine .orElse (fun o c ps' c' hc hacc h => ?_) (.pure hq)
    obtain ⟨ps1, c1, h1, h2⟩ := bind_inv h
    obtain ⟨hc1, htiled, hq1⟩ := hstep ps hq o c ps1 c1 hc hacc h1
    exact ih hq1 o c1 ps' c' hc1 htiled h2

end After

section Stills

variable {α β : Type} {p : Parser Pieces}

theorem Still.get : Still (get : Parser Cursor) := fun c v c' h => by
  obtain ⟨-, rfl⟩ : c = v ∧ c = c' := by simpa using Option.some.inj h
  rfl

theorem Still.pure {v : α} : Still (return v) := fun c v' c' h => by
  obtain ⟨-, rfl⟩ : v = v' ∧ c = c' := by simpa using Option.some.inj h
  rfl

theorem Still.bind {x : Parser α} {f : α → Parser β} (hx : Still x) (hf : ∀ v, Still (f v)) :
    Still (x >>= f) := fun c v c' h => by
  obtain ⟨a, c1, h1, h2⟩ := bind_inv h
  rw [hf a c1 v c' h2, hx c a c1 h1]

theorem Still.require {b : Bool} : Still (require b) := fun _ _ _ h =>
  congrArg Prod.snd (require_inv h).2

theorem Still.ahead : Still (ahead p) := fun c v c' h => by
  obtain ⟨-, rfl⟩ : (p c).isSome = v ∧ c = c' := by simpa [Grammar.ahead] using Option.some.inj h
  rfl

theorem Still.nextChars : Still nextChars := fun c v c' h => by
  rw [Grammar.nextChars] at h
  split at h <;> exact (congrArg Prod.snd (Option.some.inj h)).symm

theorem Still.nextWord : Still nextWord := fun c v c' h => by
  rw [Grammar.nextWord] at h
  split at h <;> exact (congrArg Prod.snd (Option.some.inj h)).symm

theorem Still.lineFeedNext : Still lineFeedNext := fun _ _ _ h =>
  (congrArg Prod.snd (Option.some.inj h)).symm

theorem Still.check {x : Parser Bool} (hx : Still x) : Still (check x) :=
  .bind hx fun _ => .bind .require fun _ => .pure

theorem Still.brokenHere : Still brokenHere := .bind .get fun _ => .pure

end Stills

section Combinators

variable {src : List Char} {p q : Parser Pieces} {ps : List (Parser Pieces)} {a b : Grade}

theorem Yields.mono [h : Yields src p a] (hle : a.le b = true) : Yields src p b where
  after hb := .grade hle hb

instance never_yields : Yields src failure .never := ⟨fun _ => .fail⟩

instance pure_nil_yields : Yields src (return []) .nil := ⟨fun _ => .pure Grade.holds_nil⟩

instance seq_nil_yields : Yields src (seq []) .nil := pure_nil_yields

instance seq_yields [Yields src p a] [Yields src (seq ps) b] :
    Yields src (seq (p :: ps)) (a.andThen b) where
  after hs := by
    obtain ⟨ha, hb⟩ := Bool.and_eq_true_iff.1 hs
    exact .start ha fun l hl => .bind hb fun r hr => .pure (hl.append hr)

instance orElse_yields [hp : Yields src p a] [hq : Yields src q b] :
    Yields src (p <|> q) (a.or b) where
  after hs := by
    obtain ⟨ha, hb⟩ := Bool.and_eq_true_iff.1 hs
    exact .orElse ((hp.after ha).mono fun _ h => h.or_left) ((hq.after hb).mono fun _ h => h.or_right)

instance ite_yields {P : Prop} [Decidable P] [hp : Yields src p a] [hq : Yields src q b] :
    Yields src (if P then p else q) (a.or b) where
  after hs := by
    obtain ⟨ha, hb⟩ := Bool.and_eq_true_iff.1 hs
    exact .ite ((hp.after ha).mono fun _ h => h.or_left) ((hq.after hb).mono fun _ h => h.or_right)

instance choice_nil_yields : Yields src (choice []) .never := ⟨fun _ => .choice_nil⟩

instance choice_yields [Yields src p a] [Yields src (choice ps) b] :
    Yields src (choice (p :: ps)) (a.or b) := orElse_yields

instance opt_yields [hp : Yields src p a] : Yields src (opt p) (a.or .nil) where
  after hs := by
    obtain ⟨ha, -⟩ := Bool.and_eq_true_iff.1 hs
    exact .orElse ((hp.after ha).mono fun _ h => h.or_left)
      ((After.pure Grade.holds_nil).mono fun _ h => h.or_right)

theorem After.opt [h : Yields src p a] (hs : a.sound = true) :
    After src [] (opt p) fun ps => ps = [] ∨ a.Holds src ps :=
  .orElse ((h.after hs).mono fun _ => .inr) (.pure (.inl rfl))

instance many_yields {n : Nat} [hp : Yields src p a] : Yields src (many n p) a.many where
  after hs := by
    have ha : a.sound = true := hs
    induction n with
    | zero => exact .pure (.nil rfl rfl rfl rfl)
    | succ n ih =>
      refine .orElse (.start ha fun l hl => ?_) (.pure (.nil rfl rfl rfl rfl))
      exact .ite .fail_bind (.andThen ih fun r hr => .pure (hl.many_append hr))

instance node_yields {k : NodeKind} [hp : Yields src p a] : Yields src (node k p) (a.node k) where
  after hs := by
    have ha : a.sound = true := by
      simp only [Grade.node, Bool.and_eq_true] at hs
      exact hs.1.1.1
    intro o c ps c' hc hacc h
    obtain ⟨own, hown, rfl⟩ := node_inv h
    obtain ⟨hc', htiled, hg⟩ := hp.after ha o c own c' hc hacc hown
    exact ⟨hc', htiled.around hg hs⟩

theorem After.node {k : NodeKind} (hp : After src [] p (a.Holds src)) (hs : (a.node k).sound = true) :
    After src [] (node k p) (Grade.one.Holds src) := by
  have : Yields src p a := ⟨fun _ => hp⟩
  exact .grade (Grade.node_le hs) rfl

instance inRole_yields {r : Role} [hp : Yields src p a] : Yields src (inRole r p) (a.inRole r) where
  after hs := by
    obtain ⟨ha, hown⟩ := Bool.and_eq_true_iff.1 hs
    intro o c ps c' hc hacc h
    obtain ⟨own, hread, rfl⟩ := inRole_inv h
    obtain ⟨hc', htiled, hg⟩ := hp.after ha o c own c' hc hacc hread
    exact ⟨hc', htiled.inRole hg hown, hg.inRole hown⟩

theorem check_yields {x : Parser Bool} (hx : Still x) : Yields src (check x) .nil :=
  ⟨fun _ => .peek hx fun _ => .peek .require fun _ => .pure Grade.holds_nil⟩

instance check_pure_yields {b : Bool} : Yields src (check (return b)) .nil := check_yields .pure

instance notAhead_yields : Yields src (notAhead p) .nil := check_yields (.bind .ahead fun _ => .pure)

instance onlyAhead_yields : Yields src (onlyAhead p) .nil := check_yields .ahead

instance sameLine_yields : Yields src sameLine .nil :=
  check_yields (.bind .lineFeedNext fun _ => .pure)

instance withBreaks_yields {b : Bool} [hp : Yields src p a] : Yields src (withBreaks b p) a where
  after hs := by
    intro o c ps c' hc hacc h
    obtain ⟨c1, h1, rfl⟩ := withBreaks_inv h
    exact hp.after hs o { c with breaks := b } ps c1 hc hacc h1

end Combinators

end OrmCodemod.Syntax.Grammar
