import OrmCodemod.Proofs.Grammar.Statements

/-! The tree of every source, of whatever dialect, has what is asked of it: its nodes are nested, tile the
source, and are made as the grammar has them. A source that the grammar does not cover has a root only. -/

namespace OrmCodemod.Syntax.Grammar

open Text

theorem ruleBody_after {src : List Char} {g : Context} [Sound src g] (r : Rule) :
    After src [] (ruleBody g r) ((ruleGrade r).Holds src) := by
  cases r <;> dsimp only [ruleBody] <;> exact .grade rfl rfl

instance production_sound (src : List Char) (dialect : Dialect) (n : Nat) :
    Sound src ⟨dialect, n, production dialect n⟩ := by
  induction n with
  | zero =>
    constructor
    · exact fun _ => .fail
    · exact .fail
  | succ n ih =>
    constructor
    · exact fun r => ruleBody_after r
    · exact propertyName_keys (g := ⟨dialect, n, production dialect n⟩)

theorem hashBang_after {src : List Char} : After src [] hashBang ((Grade.leaf true true).Holds src) := by
  refine leaf_after (k := .named .hashBangLine) rfl fun c r h => ?_
  obtain ⟨c1, c2, h1, h2⟩ := bind_inv h
  obtain ⟨rfl, rfl⟩ := get_inv h1
  obtain ⟨u, c3, h3, h4⟩ := bind_inv h2
  obtain ⟨hmatch, hc⟩ := require_inv h3
  obtain ⟨-, rfl⟩ := Prod.mk.inj hc
  obtain ⟨c4, c5, h5, h6⟩ := bind_inv h4
  obtain ⟨rfl, rfl⟩ := get_inv h5
  refine ⟨[], _, _, .inl ⟨rfl, rfl⟩, fun _ => ?_, leaf_inv h6⟩
  obtain ⟨more, hmore⟩ := List.isPrefixOf_iff_prefix.1 hmatch
  rw [← List.prefix_iff_eq_take.1 (List.takeWhile_prefix _), ← hmore,
    show "#!".toList ++ more = '#' :: '!' :: more from rfl]
  refine .of_line (c := '#') rfl fun hfeed => ?_
  rcases List.mem_cons.1 hfeed with h | h
  · cases h
  · exact absurd (List.all_eq_true.1 List.all_takeWhile _ h) (by decide)

section Parsed

variable {chars : List Char}

theorem skipped_blank : At chars ((⟨chars, 0, true⟩ : Cursor).advance (chars.takeWhile isSpace).length) ∧
    Blank chars 0 ((⟨chars, 0, true⟩ : Cursor).advance (chars.takeWhile isSpace).length).pos := by
  have hsplit : chars.takeWhile isSpace ++ chars.dropWhile isSpace = chars :=
    List.takeWhile_append_dropWhile
  have hat : Stands chars 0 (chars.takeWhile isSpace ++ chars.dropWhile isSpace) := by
    rw [hsplit]
    exact ⟨[], rfl, rfl⟩
  have htake : chars.take (chars.takeWhile isSpace).length = chars.takeWhile isSpace :=
    (List.prefix_iff_eq_take.1 (List.takeWhile_prefix _)).symm
  have hdrop : (chars.takeWhile isSpace ++ chars.dropWhile isSpace).drop
      (chars.takeWhile isSpace).length = chars.dropWhile isSpace := List.drop_left
  rw [hsplit] at hdrop
  rw [advance_eq]
  dsimp only [At]
  rw [htake, hdrop]
  exact ⟨hat.after, _, _, List.all_takeWhile, hat, rfl⟩

theorem wholeSource_tiled {dialect : Dialect} {n : Nat} {children : Pieces} {c : Cursor}
    (h : wholeSource dialect n ⟨chars, 0, true⟩ = some (children, c)) :
    Tiled chars 0 (width chars) children := by
  obtain ⟨first, c1, h1, h2⟩ := bind_inv h
  obtain ⟨body, c2, h3, h4⟩ := bind_inv h2
  obtain ⟨comments, c3, h5, h6⟩ := bind_inv h4
  obtain ⟨c4, c5, h7, h8⟩ := bind_inv h6
  obtain ⟨rfl, rfl⟩ := get_inv h7
  obtain ⟨u, c6, h9, h10⟩ := bind_inv h8
  obtain ⟨hend, hc⟩ := require_inv h9
  obtain ⟨-, rfl⟩ := Prod.mk.inj hc
  obtain ⟨rfl, rfl⟩ := Prod.mk.inj (pure_inv h10)
  obtain ⟨hc1, hfirst⟩ : At chars c1 ∧ Tiled chars 0 c1.pos first := by
    rcases orElse_inv h1 with h1 | h1
    · obtain ⟨u, c7, h11, h12⟩ := bind_inv h1
      obtain rfl := congrArg Prod.snd (Option.some.inj h11)
      obtain ⟨hat, hblank⟩ := (skipped_blank : At chars _ ∧ _)
      obtain ⟨hc1, hfirst, -⟩ := hashBang_after 0 _ first c1 hat hblank h12
      exact ⟨hc1, hfirst⟩
    · obtain ⟨rfl, rfl⟩ := Prod.mk.inj (pure_inv h1)
      have hstart : At chars ⟨chars, 0, true⟩ := ⟨[], rfl, rfl⟩
      exact ⟨hstart, .refl hstart⟩
  have hstatement : Yields chars (production dialect n .statement) .one :=
    ⟨fun _ => (production_sound chars dialect n).rules .statement⟩
  obtain ⟨hc2, hbody, -⟩ := (Yields.after (p := many n (production dialect n .statement)) rfl) c1.pos c1 body c2 hc1 (.refl hc1) h3
  obtain ⟨hc3, hcomments, -⟩ := trivia_tiled hc2 h5
  have hpos : c.pos = width chars := by
    obtain ⟨done, hdone, hpos⟩ := hc3
    rw [List.isEmpty_iff.1 hend, List.append_nil] at hdone
    rw [hpos, hdone]
  rw [← hpos]
  exact (hfirst.append hbody).append hcomments

end Parsed

end OrmCodemod.Syntax.Grammar

namespace OrmCodemod

open Syntax Syntax.Grammar Text

def Syntax.rootOver (start stop : Nat) (children : List Tree) : Tree :=
  .node (.named .program) none start stop children

/-- A source has what is asked of it, if its statements do and stand in order. -/
theorem sheltered_of_sound {chars : List Char} {children : List Tree} {start : Nat} {settings : Settings}
    (hsound : ∀ t ∈ children, t.everyNode (Tree.sound (encodeChars chars)) = true)
    (hstart : isBoundary (encodeChars chars) start = true)
    (horder : Tree.inOrder start (width chars) children = true)
    (hspaced : Editor.spaced (encodeChars chars) children = true) :
    SourceUnit.Sheltered ⟨encodeChars chars, rootOver start (width chars) children, settings⟩ ∧
    SourceUnit.WellFormed ⟨encodeChars chars, rootOver start (width chars) children, settings⟩ ∧
    (rootOver start (width chars) children).everyNode Tree.imports = true := by
  have hbelow : ∀ {p : Tree → Bool}, (∀ t, t.sound (encodeChars chars) = true → p t = true) →
      ∀ t ∈ children, t.everyNode p = true := fun hp t ht => Tree.everyNode_mono hp t (hsound t ht)
  have hevery : ∀ {p : Tree → Bool}, p (rootOver start (width chars) children) = true →
      (∀ t, t.sound (encodeChars chars) = true → p t = true) →
      (rootOver start (width chars) children).everyNode p = true := fun hroot hp =>
    Tree.everyNode_iff.2 ⟨hroot, hbelow hp⟩
  have hparts : ∀ t : Tree, t.sound (encodeChars chars) = true →
      (t.is .program = false ∧ t.closedCall = true ∧ t.ownToken = true ∧ t.tokened = true ∧
        t.composed = true ∧ t.shelters = true ∧ t.imports = true) ∧ t.ordered = true ∧ t.aligned (encodeChars chars) = true ∧
        Editor.spaced (encodeChars chars) t.children = true ∧ t.trimmed (encodeChars chars) = true ∧
        t.bare = true := by
    intro t ht
    simp only [Tree.sound, Tree.formed, Tree.placed, Bool.and_eq_true, Bool.not_eq_true'] at ht
    tauto
  have his : ∀ k : NodeKind, k ≠ .program →
      (rootOver start (width chars) children).is k = false := by
    intro k hk
    simpa [rootOver, Tree.is, Tree.kind] using hk.symm
  have hordered : (rootOver start (width chars) children).everyNode Tree.ordered = true :=
    hevery horder fun t ht => (hparts t ht).2.1
  have hstop : Stands chars (width chars) [] := ⟨chars, (List.append_nil _).symm, rfl⟩
  have hsheltered : (children.all fun c => (c.kind.isNamed && !c.is .comment) || c.blockless) = true := by
    refine List.all_eq_true.2 fun t ht => ?_
    rw [Bool.or_eq_true, or_iff_not_imp_left, Bool.not_eq_true]
    exact Grade.blockless_of_bare (hparts t (Tree.everyNode_iff.1 (hsound t ht)).1).2.2.2.2.2
  have htop : (children.all (Tree.trimmed (encodeChars chars))) = true :=
    List.all_eq_true.2 fun t ht => (hparts t (Tree.everyNode_iff.1 (hsound t ht)).1).2.2.2.2.1
  refine ⟨{
    fits := le_rfl
    ordered := hordered
    calls := hevery (by simp [Tree.closedCall, his]) fun t ht => (hparts t ht).1.2.1
    blocks := List.all_eq_true.2 (hbelow fun t ht => by simp [(hparts t ht).1])
    program := rfl
    trimmed := htop
    tokens := hevery (by simp [Tree.tokened, his]) fun t ht => (hparts t ht).1.2.2.2.1
    aligned := hevery (Bool.and_eq_true_iff.2 ⟨hstart, hstop.boundary⟩) fun t ht =>
      (hparts t ht).2.2.1
    composed := hevery (by simp [Tree.composed, his]) fun t ht => (hparts t ht).1.2.2.2.2.1
    sheltered := hevery (by
      rw [Tree.shelters, show (rootOver start (width chars) children).children = children from rfl,
        hsheltered]
      simp [his]) fun t ht => (hparts t ht).1.2.2.2.2.2.1 }, {
    fits := le_rfl
    ordered := hordered
    program := rfl
    trimmed := htop
    spaced := hevery hspaced fun t ht => (hparts t ht).2.2.2.1 }, ?_⟩
  exact hevery (by simp [Tree.imports, his]) fun t ht => (hparts t ht).1.2.2.2.2.2.2

theorem parse_sound (dialect : Dialect) (source : String) (settings : Settings) :
    SourceUnit.Sheltered ⟨encode source, (parse dialect source).root, settings⟩ ∧
      SourceUnit.WellFormed ⟨encode source, (parse dialect source).root, settings⟩ ∧
      (parse dialect source).root.everyNode Tree.imports = true := by
  have hsize : source.toList.foldl (fun n c => n + c.utf8Size) 0 = width source.toList := by
    rw [← length_encode, encode_eq, width]
  rw [encode_eq]
  unfold parse
  dsimp only
  rw [hsize]
  split
  · rename_i children c hparsed
    have htiled := wholeSource_tiled hparsed
    have hstop : Stands source.toList (width source.toList) [] := ⟨_, (List.append_nil _).symm, rfl⟩
    cases children with
    | nil => exact sheltered_of_sound (List.forall_mem_nil _) hstop.boundary (by simp [Tree.inOrder]) rfl
    | cons t ts =>
      obtain ⟨rest, hat⟩ := htiled.1.right
      have hnarrow : Tiled source.toList t.start (width source.toList) (t :: ts) :=
        ⟨.refl hat, htiled.2⟩
      exact sheltered_of_sound (fun s hs => htiled.sound hs) hat.boundary hnarrow.inOrder htiled.spaced
  · have hzero : Stands source.toList 0 source.toList := ⟨[], rfl, rfl⟩
    exact sheltered_of_sound (List.forall_mem_nil _) hzero.boundary (by simp [Tree.inOrder]) rfl

theorem parse_sheltered (dialect : Dialect) (source : String) (settings : Settings) :
    SourceUnit.Sheltered ⟨encode source, (parse dialect source).root, settings⟩ :=
  (parse_sound dialect source settings).1

/-- Only white space stands between the nodes of a source. -/
theorem parse_wellFormed (dialect : Dialect) (source : String) (settings : Settings) :
    SourceUnit.WellFormed ⟨encode source, (parse dialect source).root, settings⟩ :=
  (parse_sound dialect source settings).2.1

theorem parse_imports (dialect : Dialect) (source : String) :
    (parse dialect source).root.everyNode Tree.imports = true := (parse_sound dialect source {}).2.2

end OrmCodemod
