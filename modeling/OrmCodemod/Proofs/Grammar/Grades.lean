import OrmCodemod.Proofs.Grammar.Tiling

/-! Grades: what is known of the pieces that a production gives, from the combinators that it is made
of. A grade also gathers what is asked of the texts and kinds of a production, as one test. -/

namespace OrmCodemod.Syntax.Grammar

open Text

/-- A text that can be a token: of one line, and not starting with a blank. -/
def isMark (text : String) : Bool :=
  match text.toList with
  | [] => false
  | c :: cs => !isSpace c && !cs.contains '\n'

/-- What is known of the pieces that a production gives. -/
structure Grade where
  /-- The production is made as it should be; the rest is known if it is. -/
  sound : Bool
  /-- No piece starts or ends with a blank. -/
  edged : Bool
  /-- There are no pieces. -/
  empty : Bool
  /-- There is a piece that is no comment. -/
  filled : Bool
  /-- The first piece that is no comment is a leaf. -/
  opens : Bool
  /-- The last piece is the only one that is no comment. -/
  own : Bool
  /-- The first piece that is no comment is an object, and no statements stand in those behind it. -/
  rooted : Bool
  /-- Only the last piece can be the arguments. -/
  calls : Bool
  /-- No statements stand in the pieces, and nothing is called or defined there. -/
  inert : Bool
  /-- The same, but for the attributes of an import. -/
  importing : Bool
  /-- The roles that the pieces can have. -/
  roles : List Role
  deriving DecidableEq

namespace Grade

/-- Nothing is known but that no piece starts or ends with a blank. -/
def any : Grade :=
  { sound := true, edged := true, empty := false, filled := false, opens := false, own := false,
    rooted := false, calls := false, inert := false, importing := false,
    roles := [.callee, .arguments, .typeArguments, .object, .property, .name, .body, .value, .ascription,
      .key, .source, .parameters, .pattern, .constructed] }

def several : Grade := { any with filled := true }

def one : Grade := { several with own := true, calls := true, roles := [] }

def still (a : Grade) : Grade := { a with inert := true, importing := true }

def nil : Grade :=
  { sound := true, edged := true, empty := true, filled := false, opens := false, own := false,
    rooted := false, calls := true, inert := true, importing := true, roles := [] }

def never : Grade :=
  { sound := true, edged := true, empty := true, filled := true, opens := true, own := true,
    rooted := true, calls := true, inert := true, importing := true, roles := [] }

def leaf (sound edged : Bool) : Grade :=
  { one.still with sound, edged, opens := true }

def token (text : String) : Grade := leaf (isMark text) true

def andThen (a b : Grade) : Grade :=
  { sound := a.sound && b.sound
    edged := a.edged && b.edged
    empty := a.empty && b.empty
    filled := a.filled || b.filled
    opens := a.opens || (a.empty && b.opens)
    own := (a.own && b.empty) || (a.empty && b.own)
    rooted := (a.rooted && b.inert) || (a.empty && b.rooted)
    calls := (a.calls && b.empty) || (!a.roles.contains .arguments && b.calls)
    inert := a.inert && b.inert
    importing := a.importing && b.importing
    roles := a.roles ++ b.roles }

def or (a b : Grade) : Grade :=
  { sound := a.sound && b.sound
    edged := a.edged && b.edged
    empty := a.empty && b.empty
    filled := a.filled && b.filled
    opens := a.opens && b.opens
    own := a.own && b.own
    rooted := a.rooted && b.rooted
    calls := a.calls && b.calls
    inert := a.inert && b.inert
    importing := a.importing && b.importing
    roles := a.roles ++ b.roles }

def many (a : Grade) : Grade :=
  { a with filled := false, opens := false, own := false, rooted := false, calls := false }

def inRole (a : Grade) (r : Role) : Grade :=
  { a with sound := a.sound && a.own, rooted := r == .object, calls := true, roles := [r] }

/-- The kinds of nodes that are told of otherwise, or are no nodes over pieces. -/
def apart : List NodeKind :=
  [.program, .comment, .arguments, .object, .pair, .propertyIdentifier, .shorthandPropertyIdentifier]

def fits (a : Grade) (k : NodeKind) : Bool :=
  if Tree.blockKinds.contains k then a.opens
  else if k == .callExpression then a.calls
  else if k == .memberExpression then a.rooted
  else if k == .importStatement then a.importing
  else !apart.contains k

def node (a : Grade) (k : NodeKind) : Grade :=
  { one with
    sound := a.sound && a.edged && a.filled && a.fits k
    inert := a.inert && !Tree.activeKinds.contains k
    importing := (a.inert && !Tree.activeKinds.contains k) || k == .importAttribute }

def plain (k : NodeKind) : Bool :=
  !(.callExpression :: .memberExpression :: .importStatement :: Tree.blockKinds ++ apart).contains k

theorem node_sound {a : Grade} {k : NodeKind} (h : (a.sound && a.edged && a.filled) = true)
    (hk : plain k = true) : (a.node k).sound = true := by
  simp only [plain, Bool.not_eq_true', List.contains_eq_mem, decide_eq_false_iff_not, List.cons_append,
    List.mem_cons, List.mem_append, not_or] at hk
  simp [node, fits, h, hk]

def le (a b : Grade) : Bool :=
  (!b.sound || a.sound) && (!b.edged || a.edged) && (!b.empty || a.empty) && (!b.filled || a.filled) &&
    (!b.opens || a.opens) && (!b.own || a.own) && (!b.rooted || a.rooted) && (!b.calls || a.calls) &&
    (!b.inert || a.inert) && (!b.importing || a.importing) && a.roles.all fun r => b.roles.contains r

end Grade

/-- What a grade says of pieces. -/
structure Grade.Holds (src : List Char) (g : Grade) (ps : Pieces) : Prop where
  bare : ∀ t ∈ ps, t.bare = true
  edged : g.edged = true → ∀ t ∈ ps, t.edged (encodeChars src) = true
  empty : g.empty = true → ps = []
  filled : g.filled = true → ∃ t ∈ ps, t.is .comment = false
  opens : g.opens = true → ∃ cs t ts, ps = cs ++ t :: ts ∧ (∀ c ∈ cs, c.is .comment = true) ∧
    t.is .comment = false ∧ t.children = []
  own : g.own = true → ∃ cs t, ps = cs ++ [t] ∧ (∀ c ∈ cs, c.is .comment = true) ∧
    t.is .comment = false
  rooted : g.rooted = true → ∃ cs t ts, ps = cs ++ t :: ts ∧ (∀ c ∈ cs, c.is .comment = true) ∧
    t.is .comment = false ∧ t.role = some .object ∧ ∀ s ∈ ts, s.blockless = true
  calls : g.calls = true → ∀ l t, ps = l ++ [t] → ∀ s ∈ l, s.role ≠ some .arguments
  inert : g.inert = true → ∀ t ∈ ps, t.inert = true
  importing : g.importing = true → ∀ t ∈ ps, (t.is .importAttribute || t.inert) = true
  roles : ∀ t ∈ ps, ∀ r, t.role = some r → r ∈ g.roles

namespace Grade

theorem unsaid {p : Prop} : false = true → p := Bool.false_ne_true.elim

theorem node_le {a : Grade} {k : NodeKind} (h : (a.node k).sound = true) : (a.node k).le one = true := by
  rw [le, h]
  rfl

variable {src : List Char} {a b : Grade} {ps qs : Pieces} {t : Tree} {r : Role} {k : NodeKind}

theorem bare_comment (h : t.bare = true) (hc : t.is .comment = true) :
    t.children = [] ∧ t.role = none := by
  simp only [Tree.bare, hc, Bool.not_true, Bool.and_false, Bool.false_or, Bool.and_eq_true,
    List.isEmpty_iff, Option.isNone_iff_eq_none] at h
  exact h

theorem blockless_of_inert (h : t.inert = true) : t.blockless = true :=
  Tree.everyNode_mono (fun s hs => by
    simp only [Tree.isAny, Tree.activeKinds, List.any_cons, Bool.not_eq_true', Bool.or_eq_false_iff] at hs ⊢
    exact hs.2.2) t h

theorem inert_of_bare (h : t.bare = true) (hc : (t.kind.isNamed && !t.is .comment) = false) :
    t.inert = true := by
  have hchildren : t.children = [] := by
    simpa only [Tree.bare, hc, Bool.false_or, Bool.and_eq_true, List.isEmpty_iff] using
      (Bool.and_eq_true_iff.1 h).1
  refine Tree.everyNode_iff.2 ⟨?_, by simp [hchildren]⟩
  rw [Bool.not_eq_true', Tree.isAny, List.any_eq_false]
  intro k hk hkind
  rw [Tree.is, beq_iff_eq] at hkind
  rw [hkind, Kind.isNamed, Bool.true_and, Bool.not_eq_false'] at hc
  rw [Tree.is, hkind, beq_iff_eq, Kind.named.injEq] at hc
  subst hc
  exact absurd hk (by decide)

theorem blockless_of_bare (h : t.bare = true) (hc : (t.kind.isNamed && !t.is .comment) = false) :
    t.blockless = true := blockless_of_inert (inert_of_bare h hc)

theorem importing_of_inert (h : t.inert = true) : (t.is .importAttribute || t.inert) = true := by
  rw [h, Bool.or_true]

theorem Holds.nil (h : a.filled = false) (ho : a.opens = false) (hw : a.own = false)
    (hr : a.rooted = false) : a.Holds src [] := by
  constructor <;> simp_all

theorem holds_nil : nil.Holds src [] := .nil rfl rfl rfl rfl

theorem Holds.append (h : a.Holds src ps) (h' : b.Holds src qs) :
    (a.andThen b).Holds src (ps ++ qs) where
  bare t ht := (List.mem_append.1 ht).elim (h.bare t) (h'.bare t)
  edged he t ht := by
    simp only [andThen, Bool.and_eq_true] at he
    exact (List.mem_append.1 ht).elim (h.edged he.1 t) (h'.edged he.2 t)
  empty he := by
    simp only [andThen, Bool.and_eq_true] at he
    rw [h.empty he.1, h'.empty he.2, List.append_nil]
  filled he := by
    simp only [andThen, Bool.or_eq_true] at he
    rcases he with he | he
    · obtain ⟨t, ht, hc⟩ := h.filled he
      exact ⟨t, List.mem_append_left _ ht, hc⟩
    · obtain ⟨t, ht, hc⟩ := h'.filled he
      exact ⟨t, List.mem_append_right _ ht, hc⟩
  opens he := by
    simp only [andThen, Bool.or_eq_true, Bool.and_eq_true] at he
    rcases he with he | ⟨he, he'⟩
    · obtain ⟨cs, t, ts, rfl, hall, hc, hleaf⟩ := h.opens he
      exact ⟨cs, t, ts ++ qs, by simp, hall, hc, hleaf⟩
    · rw [h.empty he, List.nil_append]
      exact h'.opens he'
  own he := by
    simp only [andThen, Bool.or_eq_true, Bool.and_eq_true] at he
    rcases he with ⟨he, he'⟩ | ⟨he, he'⟩
    · rw [h'.empty he', List.append_nil]
      exact h.own he
    · rw [h.empty he, List.nil_append]
      exact h'.own he'
  rooted he := by
    simp only [andThen, Bool.or_eq_true, Bool.and_eq_true] at he
    rcases he with ⟨he, he'⟩ | ⟨he, he'⟩
    · obtain ⟨cs, t, ts, rfl, hall, hc, hrole, hts⟩ := h.rooted he
      refine ⟨cs, t, ts ++ qs, by simp, hall, hc, hrole, fun s hs => ?_⟩
      exact (List.mem_append.1 hs).elim (hts s) fun hs => blockless_of_inert (h'.inert he' s hs)
    · rw [h.empty he, List.nil_append]
      exact h'.rooted he'
  calls he l t hl s hs := by
    simp only [andThen, Bool.or_eq_true, Bool.and_eq_true, Bool.not_eq_true'] at he
    rcases he with ⟨he, he'⟩ | ⟨he, he'⟩
    · rw [h'.empty he', List.append_nil] at hl
      exact h.calls he l t hl s hs
    · have hfirst : ∀ s ∈ ps, s.role ≠ some .arguments := fun s hs hrole => by
        have := h.roles s hs _ hrole
        simp_all
      rcases List.eq_nil_or_concat qs with rfl | ⟨l', t', rfl⟩
      · rw [List.append_nil] at hl
        exact hfirst s (hl ▸ List.mem_append_left _ hs)
      · rw [List.concat_eq_append, ← List.append_assoc] at hl
        obtain ⟨rfl, -⟩ := List.append_inj' hl rfl
        rcases List.mem_append.1 hs with hs | hs
        · exact hfirst s hs
        · exact h'.calls he' l' t' (List.concat_eq_append ..) s hs
  inert he t ht := by
    simp only [andThen, Bool.and_eq_true] at he
    exact (List.mem_append.1 ht).elim (h.inert he.1 t) (h'.inert he.2 t)
  importing he t ht := by
    simp only [andThen, Bool.and_eq_true] at he
    exact (List.mem_append.1 ht).elim (h.importing he.1 t) (h'.importing he.2 t)
  roles t ht r hr :=
    List.mem_append.2 ((List.mem_append.1 ht).imp (h.roles t · r hr) (h'.roles t · r hr))

theorem Holds.mono (h : a.Holds src ps) (hle : a.le b = true) : b.Holds src ps := by
  simp only [le, Bool.and_eq_true, Bool.or_eq_true, Bool.not_eq_true', List.all_eq_true,
    List.contains_iff_mem] at hle
  obtain ⟨⟨⟨⟨⟨⟨⟨⟨⟨⟨-, h1⟩, h2⟩, h3⟩, h4⟩, h5⟩, h6⟩, h7⟩, h8⟩, h9⟩, h10⟩ := hle
  have himp : ∀ {x y : Bool}, y = false ∨ x = true → y = true → x = true := by
    rintro x y (h | h) hy
    · exact absurd hy (by simp [h])
    · exact h
  exact ⟨h.bare, fun g => h.edged (himp h1 g), fun g => h.empty (himp h2 g),
    fun g => h.filled (himp h3 g), fun g => h.opens (himp h4 g), fun g => h.own (himp h5 g),
    fun g => h.rooted (himp h6 g), fun g => h.calls (himp h7 g), fun g => h.inert (himp h8 g),
    fun g => h.importing (himp h9 g), fun t ht r hr => h10 r (h.roles t ht r hr)⟩

theorem Holds.or_left (h : a.Holds src ps) : (a.or b).Holds src ps := by
  have hand : ∀ {x y : Bool}, (x && y) = true → x = true := fun hxy => (Bool.and_eq_true_iff.1 hxy).1
  exact ⟨h.bare, fun g => h.edged (hand g), fun g => h.empty (hand g), fun g => h.filled (hand g),
    fun g => h.opens (hand g), fun g => h.own (hand g), fun g => h.rooted (hand g),
    fun g => h.calls (hand g), fun g => h.inert (hand g), fun g => h.importing (hand g),
    fun t ht r hr => List.mem_append_left _ (h.roles t ht r hr)⟩

theorem Holds.or_right (h : b.Holds src ps) : (a.or b).Holds src ps := by
  have hand : ∀ {x y : Bool}, (x && y) = true → y = true := fun hxy => (Bool.and_eq_true_iff.1 hxy).2
  exact ⟨h.bare, fun g => h.edged (hand g), fun g => h.empty (hand g), fun g => h.filled (hand g),
    fun g => h.opens (hand g), fun g => h.own (hand g), fun g => h.rooted (hand g),
    fun g => h.calls (hand g), fun g => h.inert (hand g), fun g => h.importing (hand g),
    fun t ht r hr => List.mem_append_right _ (h.roles t ht r hr)⟩

theorem Holds.many_append (h : a.Holds src ps) (h' : a.many.Holds src qs) :
    a.many.Holds src (ps ++ qs) := by
  refine ⟨(h.append h').bare, fun g => ?_, fun g => ?_, unsaid, unsaid, unsaid, unsaid, unsaid,
    fun g => ?_, fun g => ?_, fun t ht r hr => ?_⟩
  · exact (h.append h').edged (by simpa [andThen, many] using g)
  · rw [h.empty g, h'.empty g, List.append_nil]
  · exact (h.append h').inert (by simpa [andThen, many] using g)
  · exact (h.append h').importing (by simpa [andThen, many] using g)
  · exact (List.mem_append.1 ht).elim (h.roles t · r hr) (h'.roles t · r hr)

theorem withRole_same (t : Tree) (r : Role) : (t.withRole r).kind = t.kind ∧
    (t.withRole r).role = some r ∧ (t.withRole r).start = t.start ∧
    (t.withRole r).stop = t.stop ∧ (t.withRole r).children = t.children := by
  cases t
  exact ⟨rfl, rfl, rfl, rfl, rfl⟩

theorem mapLast_concat (f : Tree → Tree) (cs : Pieces) (t : Tree) :
    mapLast f (cs ++ [t]) = cs ++ [f t] := by
  induction cs with
  | nil => rfl
  | cons c cs ih =>
    cases cs with
    | nil => rfl
    | cons d cs => exact congrArg (c :: ·) ih

theorem blockless_withRole : (t.withRole r).blockless = t.blockless := by
  cases t
  rfl

theorem inert_withRole : (t.withRole r).inert = t.inert := by
  cases t
  rfl

theorem Holds.inRole (h : a.Holds src ps) (hown : a.own = true) :
    (a.inRole r).Holds src (mapLast (Tree.withRole r) ps) := by
  obtain ⟨cs, t, rfl, hall, hc⟩ := h.own hown
  rw [mapLast_concat]
  obtain ⟨hkind, hrole, hstart, hstop, hchildren⟩ := withRole_same t r
  have hc' : (t.withRole r).is .comment = false := by rw [Tree.is, hkind]; exact hc
  have hbare : ∀ s ∈ cs ++ [t.withRole r], s.bare = true := by
    intro s hs
    rcases List.mem_append.1 hs with hs | hs
    · exact h.bare s (List.mem_append_left _ hs)
    · rw [List.mem_singleton.1 hs]
      have := h.bare t (by simp)
      simpa [Tree.bare, hkind, hc, hc', hchildren] using this
  have hnone : ∀ s ∈ cs, s.role = none := fun s hs =>
    (bare_comment (h.bare s (List.mem_append_left _ hs)) (hall s hs)).2
  refine ⟨hbare, fun g s hs => ?_, fun g => absurd (h.empty g) (by simp),
    fun _ => ⟨t.withRole r, by simp, hc'⟩, fun g => ?_, fun _ => ⟨cs, _, rfl, hall, hc'⟩, fun g => ?_,
    fun _ l s hl => ?_, fun g s hs => ?_, fun g s hs => ?_, fun s hs q hq => ?_⟩
  · rcases List.mem_append.1 hs with hs | hs
    · exact h.edged g s (List.mem_append_left _ hs)
    · rw [List.mem_singleton.1 hs, Tree.edged, hstart, hstop]
      exact h.edged g t (by simp)
  · obtain ⟨cs', t', ts', he, hall', hct', hleaf⟩ := h.opens g
    -- the leaf is the last piece, as those before it are comments
    obtain rfl : t' = t := by
      have hmem : t' ∈ cs ++ [t] := he ▸ by simp
      rcases List.mem_append.1 hmem with hmem | hmem
      · exact absurd (hall t' hmem) (by simp [hct'])
      · exact List.mem_singleton.1 hmem
    exact ⟨cs, t'.withRole r, [], rfl, hall, hc', by rw [hchildren, hleaf]⟩
  · obtain rfl : r = .object := by simpa [Grade.inRole] using g
    exact ⟨cs, t.withRole .object, [], rfl, hall, hc', hrole, List.forall_mem_nil _⟩
  · obtain ⟨rfl, -⟩ := List.append_inj' hl rfl
    exact fun s hs => by simp [hnone s hs]
  · rcases List.mem_append.1 hs with hs | hs
    · exact h.inert g s (List.mem_append_left _ hs)
    · rw [List.mem_singleton.1 hs, inert_withRole]
      exact h.inert g t (by simp)
  · rcases List.mem_append.1 hs with hs | hs
    · exact h.importing g s (List.mem_append_left _ hs)
    · rw [List.mem_singleton.1 hs, Tree.is, hkind, inert_withRole]
      exact h.importing g t (by simp)
  · rcases List.mem_append.1 hs with hs | hs
    · simp [hnone s hs] at hq
    · rw [List.mem_singleton.1 hs, hrole, Option.some.injEq] at hq
      simp [Grade.inRole, hq]

end Grade

theorem wrap_comments {k : NodeKind} {comments more : Pieces} {first : Tree}
    (h : ∀ t ∈ comments, t.is .comment = true) (hnot : first.is .comment = false) :
    wrap k (comments ++ first :: more) = comments ++ [nodeOf k (first :: more)] := by
  rw [wrap, List.takeWhile_append_of_pos h, List.dropWhile_append_of_pos h]
  simp [hnot]

section Nodes

variable {src : List Char} {g : Grade} {a b : Nat} {cs kids ps : Pieces} {first last : Tree} {k : NodeKind}

theorem Grade.one_holds {t : Tree} (hcs : Grade.any.Holds src cs)
    (hall : ∀ c ∈ cs, c.is .comment = true) (hcomment : t.is .comment = false) (hbare : t.bare = true)
    (hink : t.edged (encodeChars src) = true) (hrole : t.role = none) :
    Grade.one.Holds src (cs ++ [t]) := by
  have hnone : ∀ s ∈ cs, s.role = none := fun s hs => (bare_comment (hcs.bare s hs) (hall s hs)).2
  refine ⟨fun s hs => ?_, fun _ s hs => ?_, unsaid, fun _ => ⟨t, by simp, hcomment⟩, unsaid,
    fun _ => ⟨cs, t, rfl, hall, hcomment⟩, unsaid, fun _ l s hl => ?_, unsaid, unsaid,
    fun s hs r hr => ?_⟩
  · rcases List.mem_append.1 hs with hs | hs
    · exact hcs.bare s hs
    · exact List.mem_singleton.1 hs ▸ hbare
  · rcases List.mem_append.1 hs with hs | hs
    · exact hcs.edged rfl s hs
    · exact List.mem_singleton.1 hs ▸ hink
  · obtain ⟨rfl, -⟩ := List.append_inj' hl rfl
    exact fun s hs => by simp [hnone s hs]
  · rcases List.mem_append.1 hs with hs | hs
    · simp [hnone s hs] at hr
    · rw [List.mem_singleton.1 hs, hrole] at hr
      cases hr

theorem Tiled.over {kids : Pieces} (h : Tiled src a b (cs ++ kids)) (hcs : Grade.any.Holds src cs)
    (hall : ∀ c ∈ cs, c.is .comment = true) (hfirst : kids.head? = some first)
    (hnot : first.is .comment = false) (hlast : kids.getLast? = some last)
    (hink : first.edged (encodeChars src) = true) (hink' : last.edged (encodeChars src) = true)
    (hk : k ≠ .comment) (hformed : (nodeOf k kids).formed = true) :
    Tiled src a b (wrap k (cs ++ kids)) ∧ Grade.one.Holds src (wrap k (cs ++ kids)) := by
  obtain ⟨more, rfl⟩ := List.head?_eq_some_iff.1 hfirst
  rw [wrap_comments hall hnot]
  obtain ⟨m, hl, hr⟩ := h.split
  obtain ⟨htiled, hedged⟩ := hr.close hfirst hlast hink hink' hk hformed
  have hbare := (Tree.everyNode_iff.1 (htiled.sound (List.mem_singleton_self _))).1
  simp only [Tree.sound, Bool.and_eq_true] at hbare
  have hcomment : (nodeOf k (first :: more)).is .comment = false := by
    simp [nodeOf, Tree.is, Tree.kind, hk]
  exact ⟨hl.append htiled, Grade.one_holds hcs hall hcomment hbare.1.1 hedged rfl⟩

/-- No statements stand in the children of a node that are tokens or comments. -/
theorem sheltered_children (h : ∀ t ∈ kids, t.bare = true) :
    ((nodeOf k kids).children.all fun c => (c.kind.isNamed && !c.is .comment) || c.blockless) = true := by
  rw [List.all_eq_true]
  intro t ht
  rw [Bool.or_eq_true, or_iff_not_imp_left, Bool.not_eq_true]
  exact Grade.blockless_of_bare (h t ht)

theorem is_nodeOf (k k' : NodeKind) (kids : Pieces) : (nodeOf k kids).is k' = (k == k') := by
  simp [nodeOf, Tree.is, Tree.kind, Kind.named.injEq, beq_eq_beq]

theorem formed_nodeOf (hbare : ∀ t ∈ kids, t.bare = true) (hk : k ∉ Grade.apart)
    (hcall : k = .callExpression → (nodeOf k kids).closedCall = true)
    (hblock : k ∈ Tree.blockKinds → (nodeOf k kids).ownToken = true)
    (hmember : k = .memberExpression → (nodeOf k kids).blocklessBut .object = true)
    (himport : k = .importStatement → (nodeOf k kids).imports = true) :
    (nodeOf k kids).formed = true := by
  have hne : ∀ k' ∈ Grade.apart, (k == k') = false := fun k' hk' => by
    rw [beq_eq_false_iff_ne]
    rintro rfl
    exact hk hk'
  have hclosed : (nodeOf k kids).closedCall = true := by
    by_cases h : k = .callExpression
    · exact hcall h
    · simp [Tree.closedCall, is_nodeOf, h]
  have htoken : (nodeOf k kids).ownToken = true := by
    by_cases h : k ∈ Tree.blockKinds
    · exact hblock h
    · rw [Tree.ownToken, Bool.or_eq_true, Bool.not_eq_true', Tree.isAny, List.any_eq_false]
      refine .inl fun k' hk' => ?_
      rw [is_nodeOf, beq_iff_eq]
      rintro rfl
      exact h hk'
  have hobject : (!(k == .memberExpression) || (nodeOf k kids).blocklessBut .object) = true := by
    by_cases h : k = .memberExpression
    · simp [hmember h]
    · simp [h]
  have himports : (nodeOf k kids).imports = true := by
    by_cases h : k = .importStatement
    · exact himport h
    · simp [Tree.imports, is_nodeOf, h]
  simp [Tree.formed, Tree.tokened, Tree.composed, Tree.shelters, hclosed, htoken, hobject, himports,
    sheltered_children hbare, is_nodeOf, hne .program (by decide), hne .arguments (by decide),
    hne .propertyIdentifier (by decide), hne .object (by decide), hne .pair (by decide),
    hne .shorthandPropertyIdentifier (by decide)]

theorem closedCall_nodeOf {l : Pieces} (hkids : kids = l ++ [last])
    (hl : ∀ s ∈ l, s.role ≠ some .arguments) (hink : last.edged (encodeChars src) = true) :
    (nodeOf k kids).closedCall = true := by
  rw [Tree.closedCall, Bool.or_eq_true, or_iff_not_imp_left, Option.all_eq_true]
  intro _ arg harg
  rw [Tree.child?] at harg
  have hrole := List.find?_some harg
  have hmem : arg ∈ l ++ [last] := hkids ▸ List.mem_of_find?_eq_some harg
  obtain rfl : arg = last := by
    rcases List.mem_append.1 hmem with hmem | hmem
    · exact absurd (beq_iff_eq.1 hrole) (hl arg hmem)
    · exact List.mem_singleton.1 hmem
  have hstop : (nodeOf k kids).stop = arg.stop := by simp [nodeOf, Tree.stop, hkids]
  simp only [Tree.edged, Bool.and_eq_true, decide_eq_true_eq] at hink
  simp [hstop, hink.1.1]

/-- Behind comments, the pieces of a node start with the first that is no comment. -/
theorem eq_behind_comments {cs' more : Pieces} {t : Tree} (h : cs ++ kids = cs' ++ t :: more)
    (hall : ∀ c ∈ cs, c.is .comment = true) (hall' : ∀ c ∈ cs', c.is .comment = true)
    (hfirst : ∀ c ∈ kids.head?, c.is .comment = false) (ht : t.is .comment = false) :
    kids = t :: more := by
  have hdrop := congrArg (List.dropWhile (·.is .comment)) h
  rw [List.dropWhile_append_of_pos hall, List.dropWhile_append_of_pos hall',
    List.dropWhile_cons_of_neg (by simp [ht])] at hdrop
  rw [← hdrop]
  cases kids with
  | nil => rfl
  | cons c kids => rw [List.dropWhile_cons_of_neg (by simp [hfirst c rfl])]

theorem formed_of_fits (h : g.Holds src (cs ++ kids)) (hall : ∀ c ∈ cs, c.is .comment = true)
    (hfirst : kids.head? = some first) (hnot : first.is .comment = false) (hedged : g.edged = true)
    (hfits : g.fits k = true) : (nodeOf k kids).formed = true := by
  have hedges : ∀ t ∈ kids, t.edged (encodeChars src) = true := fun t ht =>
    h.edged hedged t (List.mem_append_right _ ht)
  have hhead : ∀ c ∈ kids.head?, c.is .comment = false := by
    rw [hfirst]
    rintro c ⟨⟩
    exact hnot
  refine formed_nodeOf (fun t ht => h.bare t (List.mem_append_right _ ht)) (fun hk => ?_) ?_
    (fun hblock => ?_) ?_ ?_
  · have : ∀ k ∈ Grade.apart, g.fits k = false := by
      intro k hk
      simp only [Grade.apart, List.mem_cons, List.not_mem_nil, or_false] at hk
      rcases hk with rfl | rfl | rfl | rfl | rfl | rfl | rfl <;> rfl
    simp [this k hk] at hfits
  · rintro rfl
    obtain ⟨more, rfl⟩ := List.head?_eq_some_iff.1 hfirst
    obtain ⟨l, last, hl⟩ : ∃ l last, first :: more = l ++ [last] :=
      ⟨_, _, (List.dropLast_append_getLast (List.cons_ne_nil _ _)).symm⟩
    refine closedCall_nodeOf hl (fun s hs => ?_) (hedges last (hl ▸ by simp))
    exact h.calls hfits (cs ++ l) last (by rw [hl, List.append_assoc]) s (List.mem_append_right _ hs)
  · have hopens : g.opens = true := by
      rwa [Grade.fits, if_pos (List.contains_iff_mem.2 hblock)] at hfits
    obtain ⟨cs', t, more, he, hall', ht, hleaf⟩ := h.opens hopens
    obtain rfl := eq_behind_comments he hall hall' hhead ht
    have := hedges t (by simp)
    simp only [Tree.edged, Bool.and_eq_true, decide_eq_true_eq] at this
    rw [Tree.ownToken, show (nodeOf k (t :: more)).children = t :: more from rfl, Bool.or_eq_true]
    exact .inr (by simp [hleaf, this.1.1])
  · rintro rfl
    obtain ⟨cs', t, more, he, hall', ht, hrole, hmore⟩ := h.rooted hfits
    obtain rfl := eq_behind_comments he hall hall' hhead ht
    rw [Tree.blocklessBut, show (nodeOf .memberExpression (t :: more)).children = t :: more from rfl,
      List.eraseP_cons_of_pos (by simp [hrole]), List.all_eq_true]
    exact hmore
  · rintro rfl
    rw [Tree.imports, Bool.or_eq_true, List.all_eq_true]
    exact .inr fun t ht => h.importing hfits t (List.mem_append_right _ ht)

theorem Grade.Holds.exists_first (h : g.Holds src ps) (hfilled : g.filled = true) :
    ∃ cs first more, ps = cs ++ first :: more ∧ (∀ c ∈ cs, c.is .comment = true) ∧
      first.is .comment = false := by
  obtain ⟨t, ht, hc⟩ := h.filled hfilled
  have hne : ps.dropWhile (·.is .comment) ≠ [] := by
    intro hnil
    have hall := ps.takeWhile_append_dropWhile (p := (·.is .comment))
    rw [hnil, List.append_nil] at hall
    have := List.all_eq_true.1 List.all_takeWhile t (hall ▸ ht)
    simp [hc] at this
  obtain ⟨first, more, hmore⟩ := List.exists_cons_of_ne_nil hne
  refine ⟨ps.takeWhile (·.is .comment), first, more, ?_, fun c hc => ?_, ?_⟩
  · rw [← hmore, List.takeWhile_append_dropWhile]
  · exact List.all_eq_true.1 List.all_takeWhile c hc
  · have := List.head?_dropWhile_not (·.is .comment) ps
    rw [hmore] at this
    simpa using this

theorem inert_wrap (hk : k ∉ Tree.activeKinds) (h : ∀ t ∈ ps, t.inert = true) :
    ∀ t ∈ wrap k ps, t.inert = true := by
  intro t ht
  rw [wrap] at ht
  rcases List.mem_append.1 ht with ht | ht
  · exact h t (List.takeWhile_subset _ ht)
  · rw [List.mem_singleton.1 ht]
    refine Tree.everyNode_iff.2 ⟨?_, fun c hc => h c (List.dropWhile_subset _ hc)⟩
    simp only [Tree.isAny, Bool.not_eq_true', List.any_eq_false]
    intro k' hk'
    rw [is_nodeOf, beq_iff_eq]
    rintro rfl
    exact hk hk'

theorem importing_wrap (hk : k = .importAttribute) (h : ∀ t ∈ ps, t.bare = true) :
    ∀ t ∈ wrap k ps, (t.is .importAttribute || t.inert) = true := by
  subst hk
  intro t ht
  rw [wrap] at ht
  rcases List.mem_append.1 ht with ht | ht
  · have hcomment := List.all_eq_true.1 List.all_takeWhile t ht
    exact Grade.importing_of_inert
      (Grade.inert_of_bare (h t (List.takeWhile_subset _ ht)) (by simp [hcomment]))
  · rw [List.mem_singleton.1 ht, is_nodeOf]
    rfl

theorem Grade.Holds.comments (h : g.Holds src (cs ++ ps)) (hedged : g.edged = true) :
    Grade.any.Holds src cs := by
  refine ⟨fun t ht => h.bare t (List.mem_append_left _ ht),
    fun _ t ht => h.edged hedged t (List.mem_append_left _ ht), unsaid, unsaid, unsaid, unsaid,
    unsaid, unsaid, unsaid, unsaid, fun t ht r hr => ?_⟩
  cases r <;> decide

/-- A node over pieces of a grade, if it is well formed behind the comments in front of it. -/
theorem Tiled.built (h : Tiled src a b ps) (hg : g.Holds src ps) (he : (g.edged && g.filled) = true)
    (hk : k ≠ .comment)
    (hformed : ∀ cs first more, ps = cs ++ first :: more → (∀ c ∈ cs, c.is .comment = true) →
      first.is .comment = false → (nodeOf k (first :: more)).formed = true) :
    Tiled src a b (wrap k ps) ∧ Grade.one.Holds src (wrap k ps) := by
  obtain ⟨hedged, hfilled⟩ := Bool.and_eq_true_iff.1 he
  obtain ⟨cs, first, more, rfl, hall, hnot⟩ := hg.exists_first hfilled
  obtain ⟨last, hlast⟩ : ∃ last, (first :: more).getLast? = some last :=
    ⟨_, List.getLast?_eq_some_getLast (List.cons_ne_nil _ _)⟩
  exact h.over (hg.comments hedged) hall rfl hnot hlast (hg.edged hedged first (by simp))
    (hg.edged hedged last (List.mem_append_right _ (List.mem_of_getLast? hlast))) hk
    (hformed cs first more rfl hall hnot)

theorem Tiled.around (h : Tiled src a b ps) (hg : g.Holds src ps) (hs : (g.node k).sound = true) :
    Tiled src a b (wrap k ps) ∧ (g.node k).Holds src (wrap k ps) := by
  simp only [Grade.node, Bool.and_eq_true] at hs
  obtain ⟨⟨⟨-, hedged⟩, hfilled⟩, hfits⟩ := hs
  have hk : k ≠ .comment := by
    rintro rfl
    simp [Grade.fits, Tree.blockKinds, Grade.apart] at hfits
  obtain ⟨htiled, hone⟩ := h.built hg (by rw [hedged, hfilled]; rfl) hk fun cs first more hps hall hnot =>
    formed_of_fits (hps ▸ hg) hall rfl hnot hedged hfits
  have hinert : (g.node k).inert = true → ∀ t ∈ wrap k ps, t.inert = true := fun hb => by
    simp only [Grade.node, Bool.and_eq_true, Bool.not_eq_true', List.contains_eq_mem,
      decide_eq_false_iff_not] at hb
    exact inert_wrap hb.2 (hg.inert hb.1)
  refine ⟨htiled, hone.bare, fun _ => hone.edged rfl, Grade.unsaid, fun _ => hone.filled rfl, Grade.unsaid,
    fun _ => hone.own rfl, Grade.unsaid, fun _ => hone.calls rfl, hinert, fun hb t ht => ?_, hone.roles⟩
  rcases Bool.or_eq_true_iff.1 hb with hb | hb
  · exact Grade.importing_of_inert (hinert hb t ht)
  · exact importing_wrap (beq_iff_eq.1 hb) hg.bare t ht

/-- A node over whatever stands between pieces at its ends. -/
theorem Tiled.enclosed {l m r : Pieces} {gl gr : Grade} (h : Tiled src a b (l ++ m ++ r))
    (hl : gl.Holds src l) (hlown : (gl.edged && gl.own) = true) (hr : gr.Holds src r)
    (hrown : (gr.edged && gr.own) = true) (hm : ∀ t ∈ m, t.bare = true) (hk : Grade.plain k = true) :
    Tiled src a b (wrap k (l ++ m ++ r)) ∧ Grade.one.Holds src (wrap k (l ++ m ++ r)) := by
  simp only [Bool.and_eq_true] at hlown hrown
  simp only [Grade.plain, Bool.not_eq_true', List.contains_eq_mem, decide_eq_false_iff_not,
    List.cons_append, List.mem_cons, List.mem_append, not_or] at hk
  obtain ⟨hcall, hmember, himport, hblock, hapart⟩ := hk
  obtain ⟨cs, t, rfl, hall, ht⟩ := hl.own hlown.2
  obtain ⟨cs', t', rfl, -, -⟩ := hr.own hrown.2
  have hpieces : cs ++ [t] ++ m ++ (cs' ++ [t']) = cs ++ t :: (m ++ (cs' ++ [t'])) := by simp
  rw [hpieces] at h ⊢
  have hbare : ∀ s ∈ t :: (m ++ (cs' ++ [t'])), s.bare = true := by
    intro s hs
    rcases List.mem_cons.1 hs with rfl | hs
    · exact hl.bare s (by simp)
    · exact (List.mem_append.1 hs).elim (hm s) (hr.bare s)
  have hlast : (t :: (m ++ (cs' ++ [t']))).getLast? = some t' := by simp [List.getLast?_cons]
  refine h.over (hl.comments hlown.1) hall rfl ht hlast
    (hl.edged hlown.1 t (by simp)) (hr.edged hrown.1 t' (by simp)) ?_ ?_
  · rintro rfl
    exact hapart (by decide)
  · exact formed_nodeOf hbare hapart (absurd · hcall) (absurd · hblock) (absurd · hmember)
      (absurd · himport)

end Nodes

end OrmCodemod.Syntax.Grammar
