import OrmCodemod.Proofs.Grammar.Members

/-! What the productions of expressions give. -/

namespace OrmCodemod.Syntax.Grammar

open Text

section Items

variable {src : List Char} {test : Tree → Bool} {p q : Parser Pieces} {ps : List (Parser Pieces)} {a : Grade}

def Items (test : Tree → Bool) (ps : Pieces) : Prop := ∀ t ∈ ps, t.is .comment = false → test t = true

/-- A production gives items, or something that has to be called. -/
def Itemized (src : List Char) (test : Tree → Bool) (p : Parser Pieces) : Prop :=
  ∀ c ps c', At src c → p c = some (ps, c') → At src c' ∧ (Items test ps ∨ Opens c')

/-- A production reads nothing where something has to be called. -/
def Blocked (p : Parser Pieces) : Prop := ∀ c ps c', Opens c → p c = some (ps, c') → ps = [] ∧ c' = c

theorem Items.append {l r : Pieces} (hl : Items test l) (hr : Items test r) : Items test (l ++ r) :=
  fun t ht => (List.mem_append.1 ht).elim (hl t) (hr t)

theorem sym_none {text : String} {c : Cursor} (ho : Opens c)
    (h : ∀ rest, text.toList.isPrefixOf ('(' :: rest) = false) : sym text c = none := by
  obtain ⟨r, hsym⟩ := Option.isSome_iff_exists.1 ho
  obtain ⟨cs, c1, hskip, hmatch, -⟩ := sym_inv hsym
  obtain ⟨rest, hrest⟩ := List.isPrefixOf_iff_prefix.1 hmatch
  rw [Option.eq_none_iff_forall_ne_some]
  intro r' hr'
  obtain ⟨cs', c2, hskip', hmatch', -⟩ := sym_inv hr'
  obtain ⟨-, rfl⟩ := Prod.mk.inj (Option.some.inj (hskip.symm.trans hskip'))
  rw [← hrest] at hmatch'
  exact absurd hmatch' (by rw [show "(".toList ++ rest = '(' :: rest from rfl, h rest]; simp)

theorem Blocked.nil : Blocked (seq []) := fun _ _ _ _ h =>
  have ⟨h1, h2⟩ := Prod.mk.inj (pure_inv h)
  ⟨h1, h2⟩

theorem Blocked.seq (hp : Blocked p) (hps : Blocked (seq ps)) : Blocked (seq (p :: ps)) :=
  fun c qs c' ho h => by
    obtain ⟨l, r, c1, h1, h2, rfl⟩ := seq_inv h
    obtain ⟨rfl, rfl⟩ := hp c l c1 ho h1
    exact hps c1 r c' ho h2

theorem Blocked.many {n : Nat} (h : ∀ c, Opens c → p c = none) : Blocked (many n p) :=
  fun c ps c' ho hr => by
    cases n with
    | zero =>
      obtain ⟨rfl, rfl⟩ := Prod.mk.inj (pure_inv hr)
      exact ⟨rfl, rfl⟩
    | succ n =>
      rcases orElse_inv hr with hr | hr
      · obtain ⟨v, c1, h1, -⟩ := bind_inv hr
        rw [h c ho] at h1
        cases h1
      · obtain ⟨rfl, rfl⟩ := Prod.mk.inj (pure_inv hr)
        exact ⟨rfl, rfl⟩

theorem Grade.Holds.items {ps : Pieces} (h : a.Holds src ps) (hown : a.own = true)
    (ht : EndsIn test ps) : Items test ps := by
  obtain ⟨l, t, rfl, ht⟩ := ht
  intro s hs hcomment
  obtain ⟨cs, t', hps, hall, -⟩ := h.own hown
  obtain ⟨rfl, -⟩ := List.append_inj' hps rfl
  rcases List.mem_append.1 hs with hs | hs
  · exact absurd (hall s hs) (by simp [hcomment])
  · exact List.mem_singleton.1 hs ▸ ht

/-- A production of one node that passes the test, or after which something has to be called. -/
theorem Itemized.one [h : Yields src p a] (hs : (a.sound && a.own) = true)
    (ht : Leads (At src) p fun ps c => EndsIn test ps ∨ Opens c) : Itemized src test p := by
  intro c ps c' hc hp
  obtain ⟨hs, hown⟩ := Bool.and_eq_true_iff.1 hs
  obtain ⟨hc', -, hholds⟩ := h.after hs c.pos c ps c' hc (.refl hc) hp
  exact ⟨hc', (ht c ps c' hc hp).imp_left (hholds.items hown)⟩

theorem Itemized.nil : Itemized src test (seq []) := fun c ps c' hc h => by
  obtain ⟨rfl, rfl⟩ := Prod.mk.inj (pure_inv h)
  exact ⟨hc, .inl (List.forall_mem_nil _)⟩

theorem Itemized.seq (hp : Itemized src test p) (hps : Itemized src test (seq ps))
    (hb : Blocked (seq ps)) : Itemized src test (seq (p :: ps)) := by
  intro c qs c' hc h
  obtain ⟨l, r, c1, h1, h2, rfl⟩ := seq_inv h
  obtain ⟨hc1, hl⟩ := hp c l c1 hc h1
  obtain ⟨hc', hr⟩ := hps c1 r c' hc1 h2
  refine ⟨hc', ?_⟩
  rcases hl with hl | ho
  · exact hr.imp_left hl.append
  · obtain ⟨-, rfl⟩ := hb c1 r c' ho h2
    exact .inr ho

theorem Itemized.orElse (hp : Itemized src test p) (hq : Itemized src test q) :
    Itemized src test (p <|> q) := fun c ps c' hc h =>
  (orElse_inv h).elim (hp c ps c' hc) (hq c ps c' hc)

theorem Itemized.opt (hp : Itemized src test p) : Itemized src test (opt p) := .orElse hp .nil

theorem Itemized.many {n : Nat} (hp : Itemized src test p) (hb : ∀ c, Opens c → p c = none) :
    Itemized src test (many n p) := by
  induction n with
  | zero => exact .nil
  | succ n ih =>
    refine .orElse (fun c ps c' hc h => ?_) .nil
    obtain ⟨l, c1, h1, h2⟩ := bind_inv h
    split at h2
    · cases h2
    · obtain ⟨r, c2, h3, h4⟩ := bind_inv h2
      obtain ⟨rfl, rfl⟩ := Prod.mk.inj (pure_inv h4)
      obtain ⟨hc1, hl⟩ := hp c l c1 hc h1
      obtain ⟨hc2, hr⟩ := ih c1 r c' hc1 h3
      refine ⟨hc2, ?_⟩
      rcases hl with hl | ho
      · exact hr.imp_left hl.append
      · obtain ⟨-, rfl⟩ := Blocked.many hb c1 r c' ho h3
        exact .inr ho

theorem sym_items {text : String} {c c' : Cursor} {own : Pieces} (hs : isMark text = true)
    (ht : ∀ t : Tree, t.kind.isNamed = false → test t = true) (hc : At src c)
    (h : sym text c = some (own, c')) : At src c' ∧ Items test own := by
  have hends : Concludes test (sym text) :=
    .bind fun _ => .bind fun _ => .ite (ends_leaf fun _ _ => ht _ rfl) .fail
  obtain ⟨hc', -, hholds⟩ := sym_yields.after hs c.pos c own c' hc (.refl hc) h
  exact ⟨hc', hholds.items rfl (hends c own c' trivial h)⟩

theorem Itemized.behind {text : String} (hs : isMark text = true)
    (ht : ∀ t : Tree, t.kind.isNamed = false → test t = true) (hps : Itemized src test (Grammar.seq ps)) :
    Itemized src test (Grammar.seq (sym text :: ps)) := by
  intro c qs c' hc h
  obtain ⟨l, r, c1, h1, h2, rfl⟩ := seq_inv h
  obtain ⟨hc1, hl⟩ := sym_items hs ht hc h1
  obtain ⟨hc', hr⟩ := hps c1 r c' hc1 h2
  exact ⟨hc', hr.imp_left hl.append⟩

theorem slots_items {n : Nat} {left right : String} (hitem : Itemized src test p)
    (hmarks : (isMark left && isMark right) = true)
    (ht : ∀ t : Tree, t.kind.isNamed = false → test t = true)
    (hright : ∀ rest, right.toList.isPrefixOf ('(' :: rest) = false) {c c' : Cursor} {own : Pieces}
    (hc : At src c) (h : seq [sym left, commaSlots n p, sym right] c = some (own, c')) :
    Items test own := by
  obtain ⟨hleft, hright'⟩ := Bool.and_eq_true_iff.1 hmarks
  have hcomma : ∀ c, Opens c → seq [sym ",", opt p] c = none := fun c ho => by
    change (sym "," c).bind _ = none
    rw [sym_none ho fun _ => rfl]
    rfl
  have hslots : Itemized src test (commaSlots n p) :=
    .seq (.opt hitem) (.seq (.many (.behind rfl ht (.seq (.opt hitem) .nil .nil)) hcomma) .nil .nil)
      (.seq (.many hcomma) .nil)
  obtain ⟨l, rest, c1, h1, h2, rfl⟩ := seq_inv h
  obtain ⟨m, rest', c2, h3, h4, rfl⟩ := seq_inv h2
  obtain ⟨r, r', c3, h5, h6, rfl⟩ := seq_inv h4
  obtain ⟨rfl, rfl⟩ := Prod.mk.inj (pure_inv h6)
  obtain ⟨hc1, hl⟩ := sym_items hleft ht hc h1
  obtain ⟨hc2, hm⟩ := hslots c1 m c2 hc1 h3
  obtain ⟨-, hr⟩ := sym_items hright' ht hc2 h5
  -- the closing bracket comes next, not a parenthesis that opens
  rcases hm with hm | ho
  · rw [List.append_nil]
    exact hl.append (hm.append hr)
  · rw [sym_none ho hright] at h5
    cases h5

end Items

section Expressions

variable {src : List Char} {g : Context} [Sound src g]

instance variableName_yields : Yields src variableName .one where
  after _ := .peek .nextWord fun _ => .peek .require fun _ => .grade rfl rfl

instance templateString_yields : Yields src (templateString g) .one := by
  unfold templateString
  exact .mono rfl

instance spread_yields : Yields src (spread g) .one := by
  unfold spread
  exact .mono rfl

instance array_yields : Yields src (array g) .one := by
  unfold array
  exact .mono rfl

omit [Sound src g] in
theorem node_after {k : NodeKind} {p : Parser Pieces} {a : Grade} [h : Yields src p a]
    (hs : (a.sound && (a.edged && a.filled)) = true) (hk : k ≠ .comment)
    (hformed : ∀ c c' cs first more, At src c → p c = some (cs ++ first :: more, c') →
      a.Holds src (cs ++ first :: more) → (∀ t ∈ cs, t.is .comment = true) →
      first.is .comment = false → (nodeOf k (first :: more)).formed = true) :
    After src [] (node k p) (Grade.one.Holds src) := by
  obtain ⟨hs, he⟩ := Bool.and_eq_true_iff.1 hs
  intro o c ps c' hc hacc hr
  obtain ⟨own, hown, rfl⟩ := node_inv hr
  obtain ⟨hc', htiled, hholds⟩ := h.after hs o c own c' hc hacc hown
  refine ⟨hc', htiled.built hholds he hk fun cs first more hps hall hnot => ?_⟩
  subst hps
  exact hformed c c' cs first more hc hown hholds hall hnot

omit [Sound src g] in
theorem significant_items {test : Tree → Bool} {k : NodeKind} {cs kids : Pieces}
    (h : Items (fun t => !t.kind.isNamed || test t) (cs ++ kids)) :
    (nodeOf k kids).significant.all test = true := by
  refine List.all_eq_true.2 fun t ht => ?_
  obtain ⟨ht, hcomment⟩ := List.mem_filter.1 ht
  obtain ⟨ht, hnamed⟩ := List.mem_filter.1 ht
  simpa [hnamed] using h t (List.mem_append_right _ ht) (by simpa using hcomment)

omit [Sound src g] in
theorem formed_apart {k : NodeKind} {kids : Pieces} (hk : k ∈ [.arguments, .object, .pair])
    (hbare : ∀ t ∈ kids, t.bare = true) (htokened : (nodeOf k kids).tokened = true)
    (hcomposed : (nodeOf k kids).composed = true)
    (hpair : k = .pair → (((nodeOf k kids).child? .key).any (·.is .computedPropertyName) ||
      (nodeOf k kids).blocklessBut .value) = true) : (nodeOf k kids).formed = true := by
  have hshelters : (nodeOf k kids).shelters = true := by
    rw [Tree.shelters, sheltered_children hbare]
    simp only [List.mem_cons, List.not_mem_nil, or_false] at hk
    rcases hk with rfl | rfl | rfl
    · simp [is_nodeOf]
    · simp [is_nodeOf]
    · rw [Bool.or_assoc, hpair rfl]
      simp [is_nodeOf]
  rw [Tree.formed, htokened, hcomposed, hshelters]
  simp only [List.mem_cons, List.not_mem_nil, or_false] at hk
  rcases hk with rfl | rfl | rfl <;>
    simp [Tree.closedCall, Tree.ownToken, is_nodeOf, Tree.isAny, Tree.blockKinds, Tree.imports]

theorem argument_itemized : Itemized src (fun t => !t.kind.isNamed || t.isArgument)
    (spread g <|> g.rule .expression) := by
  refine .orElse (.one rfl (.bind fun _ => .pure fun _ _ => .inl (endsIn_wrap fun _ => rfl)))
    (.one (a := .one) rfl ((Ending.ends .expression).mono (fun _ _ => trivial) fun ps c h => h.imp_left ?_))
  rintro ⟨l, t, rfl, ht⟩
  exact ⟨l, t, rfl, by simp [Tree.isArgument, ht]⟩

instance arguments_yields : Yields src (arguments g) .one where
  after _ := by
    refine node_after rfl (by decide) fun c c' cs first more hc hr hholds hall hnot => ?_
    obtain ⟨c1, hr, -⟩ := withBreaks_inv hr
    have hitems := significant_items (k := .arguments)
      (slots_items (c := { c with breaks := false }) argument_itemized rfl (by simp +contextual)
        (fun _ => rfl) hc hr)
    -- the first piece that is no comment is the parenthesis
    obtain ⟨cs', t, ts, hps, hall', ht, hleaf⟩ := hholds.opens rfl
    obtain ⟨rfl, rfl⟩ := List.cons.inj (eq_behind_comments hps hall hall' (by simpa using hnot) ht)
    have hedged := hholds.edged rfl first (by simp)
    simp only [Tree.edged, Bool.and_eq_true, decide_eq_true_eq] at hedged
    have hchildren : (nodeOf .arguments (first :: more)).children = first :: more := rfl
    refine formed_apart (by simp) (fun t ht => hholds.bare t (List.mem_append_right cs ht)) ?_ ?_ nofun
    · simp [Tree.tokened, is_nodeOf, hchildren, hleaf, hedged.1.1]
    · simp [Tree.composed, is_nodeOf, hitems]

/-- The pieces of a key with a value: in the key stand no statements, unless it is computed. -/
theorem keyed_pieces {c c' : Cursor} {ps : Pieces} (hc : At src c)
    (h : seq [inRole .key (g.rule .propertyName), sym ":", inRole .value (g.rule .expression)] c =
      some (ps, c')) :
    ∃ cs k m v, ps = cs ++ k :: (m ++ [v]) ∧ (∀ t ∈ cs, t.is .comment = true) ∧ k.is .comment = false ∧
      k.role = some .key ∧ (k.blockless = true ∨ k.is .computedPropertyName = true) ∧
      (∀ t ∈ m, t.role = none ∧ t.blockless = true) ∧ v.role = some .value ∧
      (v.isExpression = true ∨ Opens c') := by
  obtain ⟨key, rest, c1, h1, h2, rfl⟩ := seq_inv h
  obtain ⟨colon, rest', c2, h3, h4, rfl⟩ := seq_inv h2
  obtain ⟨value, rest'', c3, h5, h6, rfl⟩ := seq_inv h4
  obtain ⟨rfl, rfl⟩ := Prod.mk.inj (pure_inv h6)
  obtain ⟨key, hkey, rfl⟩ := inRole_inv h1
  obtain ⟨value, hvalue, rfl⟩ := inRole_inv h5
  obtain ⟨hc1, -, hk⟩ := Sound.rules .propertyName c.pos c key c1 hc (.refl hc) hkey
  obtain ⟨-, -, hkeyed⟩ := Sound.keys c.pos c key c1 hc (.refl hc) hkey
  obtain ⟨hc2, -, hcolon⟩ := sym_yields.after rfl c1.pos c1 colon c2 hc1 (.refl hc1) h3
  obtain ⟨-, -, hv⟩ := Sound.rules .expression c2.pos c2 value c' hc2 (.refl hc2) hvalue
  have hends := Ending.ends .expression c2 value c' trivial hvalue
  obtain ⟨cs, k, rfl, hall, hknot⟩ := hk.own rfl
  obtain ⟨notes, v, rfl, hnotes, -⟩ := hv.own rfl
  rw [Grade.mapLast_concat, Grade.mapLast_concat]
  have hsame := Grade.withRole_same k .key
  have hsame' := Grade.withRole_same v .value
  refine ⟨cs, k.withRole .key, colon ++ notes, v.withRole .value, by simp, hall, ?_, hsame.2.1, ?_,
    fun t ht => ?_, hsame'.2.1, ?_⟩
  · rw [Tree.is, hsame.1]
    exact hknot
  · refine hkeyed.imp (fun h => ?_) ?_
    · rw [Grade.blockless_withRole]
      exact h k (by simp)
    · rintro ⟨l, t, hl, ht⟩
      obtain ⟨-, hl⟩ := List.append_inj' hl rfl
      rw [Tree.is, hsame.1, (List.cons.inj hl).1]
      exact ht
  · rcases List.mem_append.1 ht with ht | ht
    · refine ⟨?_, Grade.blockless_of_inert (hcolon.inert rfl t ht)⟩
      cases hr : t.role with
      | none => rfl
      | some r => exact absurd (hcolon.roles t ht r hr) (by simp [Grade.token, Grade.leaf, Grade.still, Grade.one])
    · have hbare := hv.bare t (List.mem_append_left _ ht)
      exact ⟨(Grade.bare_comment hbare (hnotes t ht)).2,
        Grade.blockless_of_bare hbare (by simp [hnotes t ht])⟩
  · refine hends.imp_left ?_
    rintro ⟨l, t, hl, ht⟩
    obtain ⟨-, hl⟩ := List.append_inj' hl rfl
    rw [(List.cons.inj hl).1]
    cases t
    exact ht

instance pair_yields : Yields src (node .pair (seq [inRole .key (g.rule .propertyName), sym ":",
    inRole .value (g.rule .expression)])) .one where
  after _ := by
    refine node_after rfl (by decide) fun c c' cs first more hc hr hholds hall hnot => ?_
    obtain ⟨cs', k, m, v, hps, hall', hk, hrole, hkeyed, hm, hvalue, -⟩ := keyed_pieces hc hr
    obtain ⟨rfl, rfl⟩ := List.cons.inj (eq_behind_comments hps hall hall' (by simpa using hnot) hk)
    refine formed_apart (by simp) (fun t ht => hholds.bare t (List.mem_append_right cs ht)) ?_ ?_
      fun _ => ?_
    · simp [Tree.tokened, is_nodeOf]
    · simp [Tree.composed, is_nodeOf]
    · rcases hkeyed with hblockless | hcomputed
      · have hbut : (nodeOf .pair (first :: (m ++ [v]))).blocklessBut .value = true := by
          have hnot : ∀ t ∈ first :: m, ¬(t.role == some .value) = true := by
            intro t ht
            rcases List.mem_cons.1 ht with rfl | ht
            · simp [hrole]
            · simp [(hm t ht).1]
          rw [Tree.blocklessBut, show (nodeOf .pair (first :: (m ++ [v]))).children = first :: m ++ [v] from rfl,
            List.eraseP_append_right _ hnot, List.all_eq_true]
          intro t ht
          simp only [hvalue, beq_self_eq_true, List.eraseP_cons_of_pos, List.append_nil] at ht
          rcases List.mem_cons.1 ht with rfl | ht
          · exact hblockless
          · exact (hm t ht).2
        rw [hbut, Bool.or_true]
      · have hkey : (nodeOf .pair (first :: (m ++ [v]))).child? .key = some first := by
          simp [Tree.child?, nodeOf, Tree.children, hrole]
        rw [hkey, Option.any_some, hcomputed, Bool.true_or]

theorem entry_itemized : Itemized src (fun t => !t.kind.isNamed || t.isMember) (objectEntry g) := by
  have hmember : ∀ {k : NodeKind} {kids : Pieces},
      k ∈ [NodeKind.spreadElement, .methodDefinition, .shorthandPropertyIdentifier] →
      (!(nodeOf k kids).kind.isNamed || (nodeOf k kids).isMember) = true := by
    intro k kids hk
    simp only [List.mem_cons, List.not_mem_nil, or_false] at hk
    rcases hk with rfl | rfl | rfl <;> rfl
  refine .orElse ?_ (.orElse ?_ (.orElse ?_ (.orElse ?_ fun _ _ _ _ h => nomatch h)))
  · exact .one (a := .one) rfl (.bind fun _ => .pure fun _ _ => .inl (endsIn_wrap fun _ => hmember (by simp)))
  · refine .one (a := .one) rfl fun c ps c' hc h => ?_
    obtain ⟨own, hown, rfl⟩ := node_inv h
    obtain ⟨cs, k, m, v, rfl, hall, hk, hrole, -, hm, hvalue, hends⟩ := keyed_pieces hc hown
    refine hends.imp_left fun hv => ?_
    rw [wrap_comments hall hk]
    refine ⟨cs, _, rfl, ?_⟩
    have hnot : ∀ t ∈ k :: m, ¬(t.role == some .value) = true := by
      intro t ht
      rcases List.mem_cons.1 ht with rfl | ht
      · simp [hrole]
      · simp [(hm t ht).1]
    have hchild : (nodeOf .pair (k :: (m ++ [v]))).child? .value = some v := by
      rw [Tree.child?, show (nodeOf .pair (k :: (m ++ [v]))).children = k :: m ++ [v] from rfl,
        List.find?_append, List.find?_eq_none.2 hnot]
      simp [hvalue]
    simp [Tree.isMember, hchild, is_nodeOf, hv]
  · refine .one rfl fun c ps c' hc h => .inl ?_
    obtain ⟨l, r, c1, h1, h2, rfl⟩ := seq_inv h
    obtain ⟨l', r', c2, h3, h4, rfl⟩ := seq_inv h2
    obtain ⟨rfl, rfl⟩ := Prod.mk.inj (pure_inv h4)
    obtain ⟨b, c3, h5, h6⟩ := bind_inv h3
    obtain ⟨u, c4, h7, h8⟩ := bind_inv h6
    obtain ⟨rfl, rfl⟩ := Prod.mk.inj (pure_inv h8)
    rw [List.append_nil, List.append_nil]
    exact Concludes.name (fun _ _ => rfl) c l c1 trivial h1
  · refine .one (a := .one) rfl ((Ending.ends .method).mono (fun _ _ => trivial) fun ps c h => .inl ?_)
    obtain ⟨l, t, rfl, ht⟩ := h
    exact ⟨l, t, rfl, by simp [Tree.isMember, Tree.isAny, ht]⟩

instance objectEntry_yields : Yields src (objectEntry g) .one := by
  unfold objectEntry
  exact .mono rfl

instance object_yields : Yields src (object g) .one where
  after _ := by
    refine node_after rfl (by decide) fun c c' cs first more hc hr hholds hall hnot => ?_
    obtain ⟨c1, hr, -⟩ := withBreaks_inv hr
    have hitems := significant_items (k := .object)
      (slots_items (c := { c with breaks := false }) entry_itemized rfl (by simp +contextual)
        (fun _ => rfl) hc hr)
    refine formed_apart (by simp) (fun t ht => hholds.bare t (List.mem_append_right cs ht)) ?_ ?_ nofun
    · simp [Tree.tokened, is_nodeOf]
    · rw [List.all_eq_true] at hitems
      have hmembers : ((nodeOf .object (first :: more)).significant.all fun m =>
          m.isMember && decide (m.start < m.stop)) = true := by
        refine List.all_eq_true.2 fun t ht => ?_
        have hmem := (List.mem_filter.1 (List.mem_filter.1 ht).1).1
        have hedged := hholds.edged rfl t (List.mem_append_right cs hmem)
        simp only [Tree.edged, Bool.and_eq_true, decide_eq_true_eq] at hedged
        simp [hitems t ht, hedged.1.1]
      rw [Tree.composed, hmembers]
      simp [is_nodeOf]

instance parenthesized_yields : Yields src (parenthesized g) .one := by
  unfold parenthesized
  exact .mono rfl

instance functionExpression_yields : Yields src (functionExpression g) .one where
  after _ := .start rfl fun _ hhead => .bind rfl fun _ hstar => .bind rfl fun _ htail =>
    .wrap ((hhead.append hstar).append htail) (by split <;> rfl)

instance classExpression_yields : Yields src (classExpression g) .one := by
  unfold classExpression
  exact .mono rfl

instance arrowHead_yields : Yields src (arrowHead g) .several := by
  unfold arrowHead
  exact .mono rfl

instance arrowFunction_yields : Yields src (arrowFunction g) .one := by
  unfold arrowFunction
  exact .mono rfl

instance metaProperty_yields : Yields src metaProperty .one := by
  unfold metaProperty
  exact .mono rfl

instance newExpression_yields : Yields src (newExpression g) .one := by
  unfold newExpression
  exact .mono rfl

instance operand_yields : Yields src (operand g) .one where
  after _ := by
    refine .peek .nextChars fun cs => ?_
    split
    · exact .grade rfl rfl
    · exact .grade rfl rfl
    · exact .grade rfl rfl
    · exact .grade rfl rfl
    · exact .grade rfl rfl
    · exact .grade rfl rfl
    · exact .grade rfl rfl
    · exact .grade rfl rfl
    · exact .grade rfl rfl
    · exact .grade rfl rfl
    · refine .ite (.grade rfl rfl) (.peek .nextWord fun w => ?_)
      split
      · exact .grade rfl rfl
      · exact .grade rfl rfl
      · exact .grade rfl rfl
      · exact .grade rfl rfl
      · exact .grade rfl rfl
      · exact .grade rfl rfl
      · exact .grade rfl rfl
      · exact .grade rfl rfl
      · exact .grade rfl rfl
      · exact .grade rfl rfl
      · exact .grade rfl rfl
    · exact .fail

omit [Sound src g] in
instance chain_yields : Yields src (mapLast (Tree.withKind .optionalChain) <$> sym "?.")
    (.leaf true true) where
  after _ := by
    refine leaf_after (k := .named .optionalChain) rfl fun c r h => ?_
    obtain ⟨own, c1, hown, rfl⟩ := map_inv h
    obtain ⟨cs, c2, hskip, hmatch, hr⟩ := sym_inv hown
    obtain ⟨rfl, rfl⟩ := Prod.mk.inj hr
    refine ⟨cs, c2, _, .inr hskip, fun _ => ?_, by rw [Grade.mapLast_concat]; rfl⟩
    rw [take_of_isPrefixOf hmatch]
    exact inked_of_mark rfl

instance optionalChain_yields :
    Yields src (optionalChain g) Grade.one.still := by
  unfold optionalChain
  exact .mono rfl

theorem access_after {ps : Pieces} (h : Grade.one.Holds src ps) :
    After src ps (access g ps) (Grade.one.Holds src) := by
  refine .choice_cons ?_ (.choice_cons ?_ (.choice_cons ?_ .choice_nil))
  · refine .bind rfl fun dot hdot => .bind rfl fun name hname => ?_
    rw [List.append_assoc, List.append_assoc]
    exact .wrapRole h (hdot.append hname) rfl rfl
  · refine .bind rfl fun chain hchain => .bind rfl fun name hname => ?_
    rw [List.append_assoc, List.append_assoc]
    exact .wrapRole h (hchain.append hname) rfl rfl
  · exact .bind rfl fun _ hindex => .wrapRole h hindex rfl rfl

omit [Sound src g] in
theorem nonNull_after {ps : Pieces} (h : Grade.one.Holds src ps) :
    After src ps (nonNull g ps) (Grade.one.Holds src) :=
  .peek .lineFeedNext fun _ => .peek .require fun _ => .bind rfl fun _ hmark =>
    .wrap (h.append hmark) rfl

theorem call_after {ps : Pieces} (h : Grade.one.Holds src ps) :
    After src ps (call g ps) (Grade.one.Holds src) := by
  refine .choice_cons ?_ (.choice_cons ?_ (.choice_cons ?_ .choice_nil))
  · exact .bind rfl fun _ hargs => .wrapRole h hargs rfl rfl
  · exact .bind rfl fun _ hargs => .wrapRole h hargs rfl rfl
  · exact .bind rfl fun _ hargs => .wrapRole h hargs rfl rfl

instance heritage_yields : Yields src (heritage g) .one where
  after _ := .start rfl fun _ h => .extend h fun _ hps =>
    .choice_cons (access_after hps) (.choice_cons (nonNull_after hps)
      (.choice_cons (call_after hps) .choice_nil))

instance constructed_yields : Yields src (constructed g) .one where
  after _ := .start rfl fun _ h => .extend h fun _ hps =>
    .choice_cons (access_after hps) (.choice_cons (nonNull_after hps) .choice_nil)

theorem instantiated_after {ps : Pieces} (h : Grade.one.Holds src ps) :
    After src ps (instantiated g ps) (Grade.one.Holds src) :=
  .peek .require fun _ => .bind rfl fun _ hargs => .peek .nextChars fun _ => .peek .lineFeedNext fun _ =>
    .peek .require fun _ => .wrap (h.append hargs) rfl

instance suffixed_yields : Yields src (suffixed g) .one where
  after _ := .start rfl fun _ h => .onward (.orElse (instantiated_after h) (.pure h)) fun _ h =>
    .orElse (.peek .lineFeedNext fun _ => .peek .require fun _ => .bind rfl fun _ hmark =>
      .wrap (h.append hmark) rfl) (.pure h)

instance unary_yields : Yields src (unary g) .one where
  after _ := by
    refine .peek .nextChars fun cs => ?_
    split
    · exact .grade rfl rfl
    · exact .grade rfl rfl
    · exact .grade rfl rfl
    · exact .grade rfl rfl
    · exact .grade rfl rfl
    · exact .grade rfl rfl
    · exact .grade rfl rfl
    · refine .peek .nextWord fun w => ?_
      split
      · exact .grade rfl rfl
      · exact .grade rfl rfl
      · exact .grade rfl rfl
      · exact .grade rfl rfl
      · exact .grade rfl rfl

theorem operator_after {ps : Pieces} {p : Parser Pieces} {op : String} {k : NodeKind} {r : Rule}
    [Yields src p (.token op)] (h : Grade.one.Holds src ps) (hop : isMark op = true) (hk : Grade.plain k = true)
    (hr : ruleGrade r = .one) : After src ps (do
      let rest ← seq [p, g.rule r]
      return wrap k (ps ++ rest)) (Grade.one.Holds src) := by
  have hsound : ((Grade.token op).andThen ((ruleGrade r).andThen .nil)).sound = true := by
    rw [hr]
    change (isMark op && _) = true
    rw [hop]
    rfl
  refine .bind hsound fun rest hrest => .wrap (h.append hrest) (Grade.node_sound ?_ hk)
  rw [hr]
  change ((true && (isMark op && _)) && _ && _) = true
  rw [hop]
  rfl

theorem binaryStep_after {level : Nat} {ps : Pieces} (h : Grade.one.Holds src ps) :
    After src ps (binaryStep g level ps) (Grade.one.Holds src) := by
  refine .peek .nextWord fun w => ?_
  split
  · rename_i hw
    have hmark : isMark w = true := by
      rw [Bool.or_eq_true, beq_iff_eq, beq_iff_eq] at hw
      rcases hw with rfl | rfl <;> rfl
    refine .peek .brokenHere fun _ => .peek .require fun _ => .bind (a := .token w) hmark
      fun keyword hkeyword => .bind rfl fun target htarget =>
        .wrap ((h.append hkeyword).append htarget) (Grade.node_sound ?_ (by split <;> rfl))
    change ((true && isMark w && _) && _ && _) = true
    rw [hmark]
    rfl
  split
  · rename_i hw
    have hmark : isMark w = true := by
      rw [Bool.or_eq_true, beq_iff_eq, beq_iff_eq] at hw
      rcases hw with rfl | rfl <;> rfl
    exact .peek .require fun _ => operator_after h hmark rfl rfl
  · refine .peek .nextChars fun cs => ?_
    split
    · exact .fail
    · rename_i op tightness hop
      refine .peek .require fun _ => operator_after h ?_ rfl rfl
      have hmem : (op, tightness) ∈ operators := by
        rw [operatorAt] at hop
        split at hop
        · cases hop
        · exact List.mem_of_find?_eq_some hop
      have hall : ∀ o ∈ operators, isMark o.1 = true := by decide
      exact hall _ hmem

instance binary_yields {level : Nat} : Yields src (binary g level) .one where
  after _ := .start rfl fun _ h => .extend h fun _ hps => binaryStep_after hps

instance conditional_yields : Yields src (conditional g) .one where
  after _ := .start rfl fun _ h => .orElse (.bind rfl fun _ hrest => .wrap (h.append hrest) rfl) (.pure h)

instance yieldExpression_yields : Yields src (yieldExpression g) .one := by
  unfold yieldExpression
  exact .mono rfl

instance assignment_yields : Yields src (assignment g) .one where
  after _ := by
    intro o c ps c' hc hacc h
    obtain ⟨before, c1, h1, h2⟩ := bind_inv h
    obtain ⟨rfl, rfl⟩ := get_inv h1
    obtain ⟨left, c2, h3, h4⟩ := bind_inv h2
    obtain ⟨hc2, hleft, hone⟩ := conditional_yields.after rfl o c left c2 hc hacc h3
    obtain ⟨b, c3, h5, h6⟩ := bind_inv h4
    obtain rfl := Still.ahead c2 b c3 h5
    have hassign : ∀ {target : Pieces}, Grade.one.Holds src target → After src target (do
        let value ← seq [symNot "=" "=>", g.rule .expression]
        return wrap .assignmentExpression (target ++ value)) (Grade.one.Holds src) := fun htarget =>
      .bind rfl fun _ hvalue => .wrap (htarget.append hvalue) rfl
    split at h6
    · split at h6
      · obtain ⟨u, c4, h7, h8⟩ := bind_inv h6
        obtain rfl := congrArg Prod.snd (Option.some.inj h7)
        obtain ⟨target, c5, h9, h10⟩ := bind_inv h8
        obtain ⟨hc5, htarget, hone⟩ := Sound.rules .pattern o c target c5 hc hacc h9
        exact hassign hone o c5 ps c' hc5 htarget h10
      · obtain ⟨target, c5, h9, h10⟩ := bind_inv h6
        obtain ⟨rfl, rfl⟩ := Prod.mk.inj (pure_inv h9)
        exact hassign hone o _ ps c' hc2 hleft h10
    · refine After.peek .nextChars (fun cs => ?_) o _ ps c' hc2 hleft h6
      split
      · rename_i op hop
        have hall : ∀ o ∈ assignments, isMark o = true := by decide
        exact operator_after hone (hall op (List.mem_of_find?_eq_some hop)) rfl rfl
      · exact .pure hone

instance expression_yields : Yields src (expression g) .one where
  after _ := .peek .nextChars fun _ => .ite (.grade rfl rfl) (.ite (.grade rfl rfl) (.grade rfl rfl))

instance sequence_yields : Yields src (sequence g) .one where
  after _ := by
    refine .start rfl fun first hfirst => .bind rfl fun more hmore => ?_
    split
    · rename_i hnil
      obtain rfl := List.isEmpty_iff.1 hnil
      rw [List.append_nil]
      exact .pure hfirst
    · exact .wrap (hfirst.append hmore) rfl

end Expressions

end OrmCodemod.Syntax.Grammar
