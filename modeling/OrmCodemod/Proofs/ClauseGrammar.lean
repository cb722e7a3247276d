import OrmCodemod.Proofs.Grammar.Tokens
import OrmCodemod.Proofs.TypeNames

/-! How the grammar reads the clause of an import that is put together from its bindings. What a
production reads is told by the text of its tokens and by what is skipped before each of them. -/

namespace OrmCodemod.Syntax.Grammar

open Text

section Monad

variable {α β : Type} {c c' c'' : Cursor} {p q : Parser Pieces} {ps ps' : Pieces}
  {parsers : List (Parser Pieces)}

theorem bind_ok {x : Parser α} {f : α → Parser β} {a : α} (h : x c = some (a, c')) :
    (x >>= f) c = f a c' := by
  change (x c).bind _ = _
  rw [h]
  rfl

theorem bind_fail {x : Parser α} {f : α → Parser β} (h : x c = none) : (x >>= f) c = none := by
  change (x c).bind _ = _
  rw [h]
  rfl

theorem orElse_ok (h : p c = some (ps, c')) : (p <|> q) c = some (ps, c') := by
  change (p c <|> q c) = _
  rw [h]
  rfl

theorem orElse_fail (h : p c = none) : (p <|> q) c = q c := by
  change (p c <|> q c) = _
  rw [h]
  rfl

theorem get_ok : (get : Parser Cursor) c = some (c, c) := rfl

theorem require_ok : require true c = some ((), c) := rfl

theorem seq_nil : seq [] c = some ([], c) := rfl

theorem seq_cons (h : p c = some (ps, c')) (h' : seq parsers c' = some (ps', c'')) :
    seq (p :: parsers) c = some (ps ++ ps', c'') := by
  rw [seq, bind_ok h, bind_ok h']
  rfl

theorem seq_stuck (h : p c = none) : seq (p :: parsers) c = none := bind_fail h

theorem seq_later (h : p c = some (ps, c')) (h' : seq parsers c' = none) :
    seq (p :: parsers) c = none := by
  rw [seq, bind_ok h, bind_fail h']

theorem choice_nil : choice [] c = none := rfl

theorem opt_fail (h : p c = none) : opt p c = some ([], c) := orElse_fail h

theorem opt_goes : ∃ ps c', opt p c = some (ps, c') := by
  cases h : p c with
  | none => exact ⟨_, _, opt_fail h⟩
  | some r => exact ⟨_, _, orElse_ok h⟩

theorem onlyAhead_ok (h : p c = some (ps, c')) : onlyAhead p c = some ([], c) := by
  have hahead : ahead p c = some (true, c) := by rw [ahead, h]; rfl
  rw [onlyAhead, check, bind_ok hahead]
  rfl

theorem onlyAhead_fail (h : p c = none) : onlyAhead p c = none := by
  have hahead : ahead p c = some (false, c) := by rw [ahead, h]; rfl
  rw [onlyAhead, check, bind_ok hahead]
  rfl

theorem notAhead_ok (h : p c = none) : notAhead p c = some ([], c) := by
  have hahead : ahead p c = some (false, c) := by rw [ahead, h]; rfl
  rw [notAhead, check, bind_ok (bind_ok hahead)]
  rfl

theorem notAhead_fail (h : p c = some (ps, c')) : notAhead p c = none := by
  have hahead : ahead p c = some (true, c) := by rw [ahead, h]; rfl
  rw [notAhead, check, bind_ok (bind_ok hahead)]
  rfl

theorem node_ok {k : NodeKind} (h : p c = some (ps, c')) : node k p c = some (wrap k ps, c') := by
  rw [node, bind_ok h]
  rfl

theorem node_fail {k : NodeKind} (h : p c = none) : node k p c = none := bind_fail h

theorem withBreaks_ok {rest rest' : List Char} {pos pos' : Nat} {b b' : Bool}
    (h : p ⟨rest, pos, b⟩ = some (ps, ⟨rest', pos', b⟩)) :
    withBreaks b p ⟨rest, pos, b'⟩ = some (ps, ⟨rest', pos', b'⟩) := by
  have hinner : (do
      let ps ← p
      modify fun c : Cursor => { c with breaks := b' }
      return ps : Parser Pieces) ⟨rest, pos, b⟩ = some (ps, ⟨rest', pos', b'⟩) := by
    rw [bind_ok h]
    rfl
  exact hinner

theorem withBreaks_fail {rest : List Char} {pos : Nat} {b b' : Bool}
    (h : p ⟨rest, pos, b⟩ = none) : withBreaks b p ⟨rest, pos, b'⟩ = none := by
  have hinner : (do
      let ps ← p
      modify fun c : Cursor => { c with breaks := b' }
      return ps : Parser Pieces) ⟨rest, pos, b⟩ = none := bind_fail h
  exact hinner

theorem inRole_ok {r : Role} (h : p c = some (ps, c')) :
    inRole r p c = some (mapLast (Tree.withRole r) ps, c') := by
  rw [inRole, bind_ok h]
  rfl

theorem many_step {n : Nat} (h : p c = some (ps, c')) (hne : ps ≠ [])
    (h' : many n p c' = some (ps', c'')) : many (n + 1) p c = some (ps ++ ps', c'') := by
  rw [many]
  refine orElse_ok ?_
  rw [bind_ok h, if_neg (by simpa using hne)]
  dsimp only
  rw [bind_ok h']
  rfl

theorem many_stop {n : Nat} (h : p c = none) : many n p c = some ([], c) := by
  cases n with
  | zero => rfl
  | succ n =>
    rw [many, orElse_fail (bind_fail h)]
    rfl

end Monad

/-- Characters that start a token: no blank, and no comment. -/
def Solid : List Char → Prop
  | [] => False
  | c :: _ => isSpace c = false ∧ c ≠ '/'

/-- What is skipped before a token: blanks and comments, of which the comments are told. -/
def Gap (gap : List Char) : Prop :=
  ∀ pos rest, Solid rest → ∃ comments, (∀ t ∈ comments, t.is .comment = true) ∧
    skipTrivia .blank pos (gap ++ rest) = some (comments, pos + width gap, rest)

def Ends (rest : List Char) : Prop := rest.head?.all (fun c => !inName c) = true

/-- Comments, and then nodes from one offset to another. -/
structure Spans (a b : Nat) (ps : Pieces) : Prop where
  split : ∃ comments own, ps = comments ++ own ∧ (∀ c ∈ comments, c.is .comment = true) ∧
    (∃ t, own.head? = some t ∧ t.is .comment = false ∧ t.start = a) ∧
    ∃ t, own.getLast? = some t ∧ t.stop = b

/-- A production reads a text behind what is skipped. -/
def Reads (p : Parser Pieces) (gap text rest : List Char) : Prop :=
  ∀ pos b, ∃ ps, p ⟨gap ++ (text ++ rest), pos, b⟩ =
      some (ps, ⟨rest, pos + width gap + width text, b⟩) ∧
    Spans (pos + width gap) (pos + width gap + width text) ps

/-- A production reads nothing of a text. -/
def Fails (p : Parser Pieces) (text : List Char) : Prop := ∀ pos b, p ⟨text, pos, b⟩ = none

/-- A production reads a text behind what is skipped as one node of a kind. -/
def ReadsAsNode (p : Parser Pieces) (kind : Kind) (gap text rest : List Char) : Prop :=
  ∀ pos b, ∃ comments t, p ⟨gap ++ (text ++ rest), pos, b⟩ =
      some (comments ++ [t], ⟨rest, pos + width gap + width text, b⟩) ∧
    (∀ c ∈ comments, c.is .comment = true) ∧ t.kind = kind ∧ t.start = pos + width gap ∧
    t.stop = pos + width gap + width text

section Tokens

variable {gap rest text : List Char} {pos : Nat} {b : Bool} {p q : Parser Pieces}

theorem skip_char {c : Char} {cs : List Char} (hslash : c ≠ '/') :
    skipTrivia .blank pos (c :: cs) =
      if isSpace c then skipTrivia .blank (pos + c.utf8Size) cs else some ([], pos, c :: cs) := by
  rw [skipTrivia.eq_def]
  split <;> rename_i hstate hchars
  case h_3 =>
    obtain ⟨rfl, rfl⟩ := List.cons.inj hchars
    rfl
  all_goals first
    | exact absurd (List.cons.inj hchars).1 hslash
    | (cases hchars; done)
    | cases hstate

theorem skip_solid (h : Solid rest) : skipTrivia .blank pos rest = some ([], pos, rest) := by
  cases rest with
  | nil => exact h.elim
  | cons c cs => simp [skip_char h.2, h.1]

theorem Gap.blank (h : gap.all isSpace = true) : Gap gap := by
  induction gap with
  | nil => exact fun _ _ hsolid => ⟨[], by simp, skip_solid hsolid⟩
  | cons c cs ih =>
    intro pos rest hsolid
    rw [List.all_cons, Bool.and_eq_true] at h
    obtain ⟨comments, hcomments, hskip⟩ := ih h.2 (pos + c.utf8Size) rest hsolid
    have hslash : c ≠ '/' := by
      rintro rfl
      exact absurd h.1 (by decide)
    refine ⟨comments, hcomments, ?_⟩
    rw [List.cons_append, skip_char hslash, if_pos h.1, hskip, width_cons, Nat.add_assoc]

theorem Gap.nil : Gap [] := .blank rfl

theorem Gap.space : Gap [' '] := .blank (by decide)

theorem Gap.ends (hgap : Gap gap) (hne : gap ≠ []) : Ends (gap ++ rest) := by
  obtain ⟨c, cs, rfl⟩ := List.exists_cons_of_ne_nil hne
  rw [Ends, List.cons_append, List.head?_cons, Option.all_some, Bool.not_eq_true', ← Bool.not_eq_true]
  intro hname
  -- a name would not be skipped
  obtain ⟨hspace, hslash⟩ := inName_solid hname
  obtain ⟨comments, -, hskip⟩ := hgap 0 [','] ⟨by decide, by decide⟩
  rw [List.cons_append, skip_char hslash, if_neg (by simp [hspace])] at hskip
  have hlength := congrArg List.length (congrArg (fun r => r.2.2) (Option.some.inj hskip))
  simp at hlength

theorem trivia_ok (hgap : Gap gap) (h : Solid rest) (pos : Nat) (b : Bool) : ∃ comments,
    (∀ t ∈ comments, t.is .comment = true) ∧
    trivia ⟨gap ++ rest, pos, b⟩ = some (comments, ⟨rest, pos + width gap, b⟩) := by
  obtain ⟨comments, hall, hskip⟩ := hgap pos rest h
  refine ⟨comments, hall, ?_⟩
  rw [trivia, bind_ok get_ok]
  simp only [hskip]
  rfl

theorem advance_append (text rest : List Char) (pos : Nat) :
    Cursor.advance text.length ⟨text ++ rest, pos, b⟩ = ⟨rest, pos + width text, b⟩ := by
  induction text generalizing pos with
  | nil => rfl
  | cons c cs ih =>
    simp only [List.length_cons, List.cons_append, Cursor.advance, ih]
    simp [width, length_encodeChar, Nat.add_assoc]

theorem leaf_ok (k : Kind) : leaf k text.length ⟨text ++ rest, pos, b⟩ =
    some ([.node k none pos (pos + width text) []], ⟨rest, pos + width text, b⟩) := by
  rw [leaf, bind_ok get_ok]
  simp only [advance_append]
  rfl

theorem ReadsAsNode.reads {kind : Kind} (hk : kind ≠ .named .comment)
    (h : ReadsAsNode p kind gap text rest) : Reads p gap text rest := by
  intro pos b
  obtain ⟨comments, t, hrun, hcomments, rfl, hstart, hstop⟩ := h pos b
  exact ⟨_, hrun, comments, [t], rfl, hcomments, ⟨t, rfl, by simpa [Tree.is] using hk, hstart⟩,
    t, rfl, hstop⟩

theorem Spans.append {a b c d : Nat} {ps ps' : Pieces} (h : Spans a b ps) (h' : Spans c d ps') :
    Spans a d (ps ++ ps') := by
  obtain ⟨comments, own, rfl, hcomments, ⟨first, hfirst, hnot, hstart⟩, -⟩ := h.split
  obtain ⟨comments', own', rfl, -, -, last, hlast, hstop⟩ := h'.split
  have hown : own' ≠ [] := by
    rintro rfl
    simp at hlast
  refine ⟨comments, own ++ (comments' ++ own'), by simp, hcomments, ⟨first, ?_, hnot, hstart⟩,
    last, ?_, hstop⟩
  · rw [List.head?_append, hfirst, Option.some_or]
  · rw [List.getLast?_append_of_ne_nil _ (by simp [hown]), List.getLast?_append_of_ne_nil _ hown, hlast]

theorem sym_reads {mark : String} (hgap : Gap gap) (h : Solid (mark.toList ++ rest)) :
    ReadsAsNode (sym mark) (.token mark) gap mark.toList rest := by
  intro pos b
  obtain ⟨comments, hall, htrivia⟩ := trivia_ok hgap h pos b
  refine ⟨comments, .node (.token mark) none _ _ [], ?_, hall, rfl, rfl, rfl⟩
  rw [sym, bind_ok htrivia, bind_ok get_ok]
  have hstarts : mark.toList.isPrefixOf (mark.toList ++ rest) = true := by simp
  simp only [hstarts, if_true, ← String.length_toList]
  rw [bind_ok (leaf_ok (.token mark))]
  rfl

theorem sym_fails {mark : String} (hgap : Gap gap) (h : Solid rest)
    (hnot : mark.toList.isPrefixOf rest = false) : Fails (sym mark) (gap ++ rest) := by
  intro pos b
  obtain ⟨comments, -, htrivia⟩ := trivia_ok hgap h pos b
  rw [sym, bind_ok htrivia, bind_ok get_ok]
  simp only [hnot, Bool.false_eq_true, if_false]
  rfl

theorem sym_fails_on {mark : String} {c d : Char} {cs : List Char} (hgap : Gap gap)
    (h : Solid (c :: cs)) (hmark : mark.toList.head? = some d) (hne : d ≠ c) :
    Fails (sym mark) (gap ++ c :: cs) := by
  obtain ⟨ds, hds⟩ := List.head?_eq_some_iff.1 hmark
  refine sym_fails hgap h ?_
  rw [hds, List.isPrefixOf, beq_eq_false_iff_ne.2 hne, Bool.false_and]

section Names

variable {name word_ : String}

theorem exists_cons_of_isName (h : IsName name) : ∃ c cs, name.toList = c :: cs ∧ startsName c = true ∧
    ∀ d ∈ cs, inName d = true := by
  obtain ⟨hhead, hall⟩ := h
  cases hchars : name.toList with
  | nil => simp [hchars] at hhead
  | cons c cs =>
    rw [hchars] at hhead hall
    simp only [List.all_cons, Bool.and_eq_true, List.all_eq_true] at hall
    exact ⟨c, cs, rfl, by simpa using hhead, hall.2⟩

theorem solid_of_isName (h : IsName name) : Solid (name.toList ++ rest) := by
  obtain ⟨c, cs, hchars, hstart, -⟩ := exists_cons_of_isName h
  rw [hchars]
  exact inName_solid (inName_of_starts hstart)

theorem Ends.takeWhile (h : Ends rest) : rest.takeWhile inName = [] := by
  cases rest with
  | nil => rfl
  | cons c cs =>
    have hc : inName c = false := by simpa [Ends] using h
    rw [List.takeWhile_cons, hc]
    rfl

theorem nameLength_append (h : IsName name) (hends : Ends rest) :
    nameLength (name.toList ++ rest) = name.toList.length := by
  obtain ⟨c, cs, hchars, hstart, hall⟩ := exists_cons_of_isName h
  rw [hchars, List.cons_append, nameLength, if_pos hstart, List.takeWhile_append_of_pos hall,
    hends.takeWhile, List.append_nil, List.length_cons, Nat.add_comm]

theorem nameText_append (h : IsName name) (hends : Ends rest) :
    nameText (name.toList ++ rest) = name := by
  rw [nameText, nameLength_append h hends, List.take_left, String.ofList_toList]

theorem name_reads {k : NodeKind} (hgap : Gap gap) (h : IsName name) (hends : Ends rest) :
    ReadsAsNode (Grammar.name k) (.named k) gap name.toList rest := by
  intro pos b
  obtain ⟨comments, hall, htrivia⟩ := trivia_ok hgap (solid_of_isName h) pos b
  refine ⟨comments, .node (.named k) none _ _ [], ?_, hall, rfl, rfl, rfl⟩
  obtain ⟨c, cs, hchars, -, -⟩ := exists_cons_of_isName h
  have hne : name.toList.length ≠ 0 := by simp [hchars]
  rw [Grammar.name, bind_ok htrivia, bind_ok get_ok]
  simp only [nameLength_append h hends, if_neg hne]
  rw [bind_ok (leaf_ok (.named k))]
  rfl

theorem name_fails {k : NodeKind} {c : Char} {cs : List Char} (hgap : Gap gap)
    (h : Solid (c :: cs)) (hnot : startsName c = false) : Fails (Grammar.name k) (gap ++ c :: cs) := by
  intro pos b
  obtain ⟨comments, -, htrivia⟩ := trivia_ok hgap h pos b
  rw [Grammar.name, bind_ok htrivia, bind_ok get_ok]
  simp only [nameLength, hnot]
  rfl

theorem word_reads (hgap : Gap gap) (h : IsName name) (hends : Ends rest) :
    Reads (word name) gap name.toList rest := by
  have hnode : ReadsAsNode (word name) (.token name) gap name.toList rest := by
    intro pos b
    obtain ⟨comments, hall, htrivia⟩ := trivia_ok hgap (solid_of_isName h) pos b
    refine ⟨comments, .node (.token name) none _ _ [], ?_, hall, rfl, rfl, rfl⟩
    rw [word, bind_ok htrivia, bind_ok get_ok]
    simp only [nameText_append h hends, beq_self_eq_true, if_true, ← String.length_toList]
    rw [bind_ok (leaf_ok (.token name))]
    rfl
  exact hnode.reads (by simp)

theorem word_fails (hgap : Gap gap) (h : Solid rest) (hnot : nameText rest ≠ word_) :
    Fails (word word_) (gap ++ rest) := by
  intro pos b
  obtain ⟨comments, -, htrivia⟩ := trivia_ok hgap h pos b
  rw [word, bind_ok htrivia, bind_ok get_ok]
  simp only [beq_eq_false_iff_ne.2 hnot, Bool.false_eq_true, if_false]
  rfl

end Names

end Tokens

/-- A production reads nothing, and goes on. -/
def Idles (p : Parser Pieces) (text : List Char) : Prop :=
  ∀ pos b, p ⟨text, pos, b⟩ = some ([], ⟨text, pos, b⟩)

/-- A production reads something, or nothing, and goes on. -/
def Goes (p : Parser Pieces) (text : List Char) : Prop := ∀ pos b, ∃ r, p ⟨text, pos, b⟩ = some r

section Combinators

variable {gap gap' text text' rest : List Char} {p q : Parser Pieces} {parsers : List (Parser Pieces)}

theorem Reads.seq_single (h : Reads p gap text rest) : Reads (seq [p]) gap text rest := by
  intro pos b
  obtain ⟨ps, hrun, hspans⟩ := h pos b
  exact ⟨ps ++ [], seq_cons hrun seq_nil, by rwa [List.append_nil]⟩

theorem Reads.seq_cons (h : Reads p gap text (gap' ++ (text' ++ rest)))
    (h' : Reads (seq parsers) gap' text' rest) :
    Reads (seq (p :: parsers)) gap (text ++ (gap' ++ text')) rest := by
  intro pos b
  obtain ⟨ps, hrun, hspans⟩ := h pos b
  obtain ⟨ps', hrun', hspans'⟩ := h' (pos + width gap + width text) b
  have hend : pos + width gap + width (text ++ (gap' ++ text')) =
      pos + width gap + width text + width gap' + width text' := by
    simp only [width_append]
    omega
  rw [hend]
  refine ⟨_, Grammar.seq_cons ?_ hrun', hspans.append hspans'⟩
  simpa using hrun

theorem Reads.seq_idle (h : Idles p (gap ++ (text ++ rest))) (h' : Reads (seq parsers) gap text rest) :
    Reads (seq (p :: parsers)) gap text rest := by
  intro pos b
  obtain ⟨ps, hrun, hspans⟩ := h' pos b
  exact ⟨[] ++ ps, Grammar.seq_cons (h pos b) hrun, hspans⟩

theorem Reads.left (h : Reads p gap text rest) : Reads (p <|> q) gap text rest := by
  intro pos b
  obtain ⟨ps, hrun, hspans⟩ := h pos b
  exact ⟨ps, orElse_ok hrun, hspans⟩

theorem Reads.right (h : Fails p (gap ++ (text ++ rest))) (h' : Reads q gap text rest) :
    Reads (p <|> q) gap text rest := by
  intro pos b
  obtain ⟨ps, hrun, hspans⟩ := h' pos b
  exact ⟨ps, by rw [orElse_fail (h pos b), hrun], hspans⟩

theorem Reads.node {k : NodeKind} (h : Reads p gap text rest) :
    ReadsAsNode (Grammar.node k p) (.named k) gap text rest := by
  intro pos b
  obtain ⟨ps, hrun, hspans⟩ := h pos b
  obtain ⟨comments, own, rfl, hcomments, ⟨first, hfirst, hnot, hstart⟩, last, hlast, hstop⟩ :=
    hspans.split
  obtain ⟨more, rfl⟩ := List.head?_eq_some_iff.1 hfirst
  refine ⟨comments, nodeOf k (first :: more), ?_, hcomments, rfl, ?_, ?_⟩
  · rw [node_ok hrun, wrap_comments hcomments hnot]
  · simpa [nodeOf, Tree.start] using hstart
  · simpa [nodeOf, Tree.stop, hlast] using hstop

theorem mapLast_append {f : Tree → Tree} {ps own : Pieces} (hne : own ≠ []) :
    mapLast f (ps ++ own) = ps ++ mapLast f own := by
  induction ps with
  | nil => rfl
  | cons t ts ih =>
    have hcons : ts ++ own ≠ [] := by simp [hne]
    rw [List.cons_append, mapLast, ih, List.cons_append]
    exact fun h => hcons h

theorem Reads.inRole {r : Role} (h : Reads p gap text rest) : Reads (Grammar.inRole r p) gap text rest := by
  intro pos b
  obtain ⟨ps, hrun, hspans⟩ := h pos b
  refine ⟨_, inRole_ok hrun, ?_⟩
  obtain ⟨comments, own, rfl, hcomments, ⟨first, hfirst, hnot, hstart⟩, last, hlast, hstop⟩ :=
    hspans.split
  have hrole : ∀ t : Tree, (t.withRole r).start = t.start ∧ (t.withRole r).stop = t.stop ∧
      ∀ k, (t.withRole r).is k = t.is k := fun t => by
    cases t
    exact ⟨rfl, rfl, fun _ => rfl⟩
  obtain ⟨own, rfl⟩ := List.getLast?_eq_some_iff.1 hlast
  refine ⟨comments, mapLast (Tree.withRole r) (own ++ [last]), mapLast_append (by simp), hcomments, ?_, ?_⟩
  · rw [mapLast_append (by simp)]
    cases own with
    | nil =>
      obtain rfl : last = first := by simpa using hfirst
      exact ⟨_, rfl, by rw [(hrole last).2.2, hnot], by rw [(hrole last).1, hstart]⟩
    | cons t ts =>
      obtain rfl : t = first := by simpa using hfirst
      exact ⟨t, rfl, hnot, hstart⟩
  · rw [mapLast_append (by simp)]
    exact ⟨last.withRole r, by simp [mapLast], by rw [(hrole last).2.1, hstop]⟩

theorem Reads.goes (h : Reads p gap text rest) : Goes p (gap ++ (text ++ rest)) := by
  intro pos b
  obtain ⟨ps, hrun, -⟩ := h pos b
  exact ⟨_, hrun⟩

theorem Reads.seq_goes (h : Reads p gap text rest) (h' : Goes (seq parsers) rest) :
    Goes (seq (p :: parsers)) (gap ++ (text ++ rest)) := by
  intro pos b
  obtain ⟨ps, hrun, -⟩ := h pos b
  obtain ⟨⟨ps', c⟩, hrun'⟩ := h' (pos + width gap + width text) b
  exact ⟨_, Grammar.seq_cons hrun hrun'⟩

theorem Idles.seq_goes (h : Idles p text) (h' : Goes (seq parsers) text) :
    Goes (seq (p :: parsers)) text := by
  intro pos b
  obtain ⟨⟨ps', c⟩, hrun'⟩ := h' pos b
  exact ⟨_, Grammar.seq_cons (h pos b) hrun'⟩

theorem Goes.seq_single (h : Goes p text) : Goes (seq [p]) text := by
  intro pos b
  obtain ⟨⟨ps, c⟩, hrun⟩ := h pos b
  exact ⟨_, Grammar.seq_cons hrun seq_nil⟩

theorem Goes.left (h : Goes p text) : Goes (p <|> q) text := by
  intro pos b
  obtain ⟨⟨ps, c⟩, hrun⟩ := h pos b
  exact ⟨_, orElse_ok hrun⟩

theorem Goes.right (h : Fails p text) (h' : Goes q text) : Goes (p <|> q) text := by
  intro pos b
  obtain ⟨r, hrun⟩ := h' pos b
  exact ⟨r, by rw [orElse_fail (h pos b), hrun]⟩

theorem Goes.idles_ahead (h : Goes p text) : Idles (onlyAhead p) text := by
  intro pos b
  obtain ⟨⟨ps, c⟩, hrun⟩ := h pos b
  exact onlyAhead_ok hrun

theorem Reads.fails_notAhead (h : Reads p gap text rest) :
    Fails (notAhead p) (gap ++ (text ++ rest)) := by
  intro pos b
  obtain ⟨ps, hrun, -⟩ := h pos b
  exact notAhead_fail hrun

theorem Fails.onlyAhead (h : Fails p text) : Fails (Grammar.onlyAhead p) text :=
  fun pos b => onlyAhead_fail (h pos b)

theorem Fails.idles_notAhead (h : Fails p text) : Idles (notAhead p) text :=
  fun pos b => notAhead_ok (h pos b)

theorem Fails.idles_opt (h : Fails p text) : Idles (opt p) text := fun pos b => opt_fail (h pos b)

theorem Fails.seq (h : Fails p text) : Fails (seq (p :: parsers)) text :=
  fun pos b => seq_stuck (h pos b)

theorem Reads.seq_fails (h : Reads p gap text rest) (h' : Fails (seq parsers) rest) :
    Fails (seq (p :: parsers)) (gap ++ (text ++ rest)) := by
  intro pos b
  obtain ⟨ps, hrun, -⟩ := h pos b
  exact seq_later hrun (h' _ b)

theorem Idles.seq_fails (h : Idles p text) (h' : Fails (Grammar.seq parsers) text) :
    Fails (Grammar.seq (p :: parsers)) text :=
  fun pos b => seq_later (h pos b) (h' pos b)

theorem Fails.orElse (h : Fails p text) (h' : Fails q text) : Fails (p <|> q) text := by
  intro pos b
  rw [orElse_fail (h pos b)]
  exact h' pos b

theorem Fails.choice_nil : Fails (choice []) text := fun _ _ => rfl

theorem Fails.node {k : NodeKind} (h : Fails p text) : Fails (Grammar.node k p) text :=
  fun pos b => node_fail (h pos b)

end Combinators

section Specifiers

variable {g : Context} {gap gap' text body rest : List Char} {name : String}

/-- A text that the grammar reads as a string, whatever comes before and behind it. -/
structure IsString (g : Context) (text : List Char) : Prop where
  quote : ∃ q cs, text = q :: cs ∧ (q = '\'' ∨ q = '"')
  reads : ∀ gap rest, Gap gap → Reads (stringLiteral g) gap text rest

/-- What stands in the quotes of a plain string: no quote of this kind, no backslash and no line end. -/
def inQuotes (q c : Char) : Bool := c != q && c != '\\' && c != '\n' && c != '\r'

theorem quoted_eq (g : Context) (q : Char) : quoted g q = node .stringLiteral
    (seq [sym (String.singleton q), many g.bound (fragment (inQuotes q) <|> escape),
      immediate (String.singleton q)]) :=
  rfl

theorem Spans.single {k : Kind} {a b : Nat} (hk : k ≠ .named .comment) :
    Spans a b [.node k none a b []] :=
  ⟨[], _, rfl, by simp, ⟨_, rfl, by simpa [Tree.is, Tree.kind] using hk, rfl⟩, _, rfl, rfl⟩

theorem immediate_reads {mark : String} : Reads (immediate mark) [] mark.toList rest := by
  intro pos b
  have hstarts : mark.toList.isPrefixOf (mark.toList ++ rest) = true := by simp
  refine ⟨_, ?_, Spans.single (k := .token mark) (by simp)⟩
  rw [List.nil_append, immediate, bind_ok get_ok]
  simp only [hstarts, ← String.length_toList]
  rw [bind_ok require_ok, leaf_ok]
  rfl

theorem fragment_reads {test : Char → Bool} (hne : text ≠ []) (htext : text.all test = true)
    (hstop : rest.takeWhile test = []) : Reads (fragment test) [] text rest := by
  intro pos b
  have htake : (text ++ rest).takeWhile test = text := by
    rw [List.takeWhile_append_of_pos (by simpa using htext), hstop, List.append_nil]
  refine ⟨_, ?_, Spans.single (k := .named .stringFragment) (by simp)⟩
  rw [List.nil_append, fragment, bind_ok get_ok]
  simp only [htake, decide_eq_true (List.length_pos_iff.2 hne)]
  rw [bind_ok require_ok, leaf_ok]
  rfl

theorem fragment_fails {test : Char → Bool} (hstop : rest.takeWhile test = []) :
    Fails (fragment test) rest := by
  intro pos b
  rw [fragment, bind_ok get_ok]
  simp only [hstop]
  rfl

theorem plain_isString {q : Char} {cs : List Char} (hq : q = '\'' ∨ q = '"')
    (hcs : cs.all (inQuotes q) = true) (hbound : g.bound ≠ 0) : IsString g (q :: (cs ++ [q])) := by
  refine ⟨⟨q, _, rfl, hq⟩, fun gap rest hgap => ?_⟩
  obtain ⟨n, hn⟩ := Nat.exists_eq_succ_of_ne_zero hbound
  have hmark : (String.singleton q).toList = [q] := by simp
  have hsolid : Solid (q :: (cs ++ q :: rest)) := by
    rcases hq with rfl | rfl <;> exact ⟨by decide, by decide⟩
  have hstop : (q :: rest).takeWhile (inQuotes q) = [] := by
    simp [inQuotes]
  -- at the closing quote nothing more is read
  have hescape : Fails escape (q :: rest) := by
    intro pos b
    rcases hq with rfl | rfl <;> rfl
  have hinner : Fails (fragment (inQuotes q) <|> escape) (q :: rest) :=
    .orElse (fragment_fails hstop) hescape
  have hclose : Reads (seq [immediate (String.singleton q)]) [] [q] rest :=
    Reads.seq_single (hmark ▸ immediate_reads)
  have hbehind : Reads (seq [many g.bound (fragment (inQuotes q) <|> escape),
      immediate (String.singleton q)]) [] (cs ++ [q]) rest := by
    by_cases hempty : cs = []
    · subst hempty
      exact .seq_idle (fun pos b => many_stop (hinner pos b)) hclose
    · refine Reads.seq_cons (fun pos b => ?_) hclose
      obtain ⟨ps, hrun, hspans⟩ := fragment_reads hempty hcs hstop pos b
      have hne : ps ≠ [] := by
        rintro rfl
        simpa using hspans.split
      refine ⟨ps ++ [], ?_, by rwa [List.append_nil]⟩
      rw [hn]
      exact many_step (orElse_ok hrun) hne (many_stop (hinner _ b))
  have hquoted : Reads (quoted g q) gap (q :: (cs ++ [q])) rest := by
    have hopen : Reads (sym (String.singleton q)) gap [q] ([] ++ ((cs ++ [q]) ++ rest)) :=
      hmark ▸ (sym_reads hgap (by simpa using hsolid)).reads (by simp)
    rw [quoted_eq]
    exact (Reads.node (hopen.seq_cons hbehind)).reads (by decide)
  rcases hq with rfl | rfl
  · exact .left hquoted
  · exact .right (.node (.seq (sym_fails_on hgap hsolid rfl (by decide)))) hquoted

/-- What a module may give out: a name or a string. -/
inductive Symbol (g : Context) : List Char → Prop where
  | name {name : String} (isName : IsName name) : Symbol g name.toList
  | string {text : List Char} (isString : IsString g text) : Symbol g text

/-- If a text is a name, then it ends before the rest. -/
def Parted (text rest : List Char) : Prop := text.head?.any startsName = true → Ends rest

def Stops (rest : List Char) : Prop :=
  ∃ gap c cs, rest = gap ++ c :: cs ∧ Gap gap ∧ (c = ',' ∨ c = '\x7d')

/-- A name that is given out, and maybe the name it has here. -/
inductive Body (g : Context) : List Char → Prop where
  | plain {text : List Char} (symbol : Symbol g text) : Body g text
  | renamed {text gap gap' : List Char} {target : String} (symbol : Symbol g text) (skipped : Gap gap)
      (parted : Parted text (gap ++ "as".toList)) (skipped' : Gap gap') (apart : gap' ≠ [])
      (isName : IsName target) : Body g (text ++ (gap ++ ("as".toList ++ (gap' ++ target.toList))))

def marks : List String := ["type", "typeof"]

/-- A specifier of an import. One that starts with the word of a mark is renamed to something else than
`as`, so that the word is not taken for the mark. -/
inductive Specifier (g : Context) : List Char → Prop where
  | plain {text : List Char} (symbol : Symbol g text) : Specifier g text
  | renamed {text gap gap' : List Char} {target : String} (symbol : Symbol g text) (skipped : Gap gap)
      (parted : Parted text (gap ++ "as".toList)) (skipped' : Gap gap') (apart : gap' ≠ [])
      (isName : IsName target) (unmarked : String.ofList text ∈ marks → target ≠ "as") :
      Specifier g (text ++ (gap ++ ("as".toList ++ (gap' ++ target.toList))))
  | marked {mark : String} {gap body : List Char} (typed : g.typed = true) (listed : mark ∈ marks)
      (skipped : Gap gap) (parted : Parted mark.toList (gap ++ body)) (isBody : Body g body) :
      Specifier g (mark.toList ++ (gap ++ body))

theorem not_starts {c : Char} (h : startsName c = true) :
    c ≠ '\'' ∧ c ≠ '"' ∧ c ≠ ',' ∧ c ≠ '*' ∧ c ≠ '\x7b' ∧ c ≠ '\x7d' := by
  refine ⟨?_, ?_, ?_, ?_, ?_, ?_⟩ <;> rintro rfl <;> revert h <;> decide

theorem Stops.ends (h : Stops rest) : Ends rest := by
  obtain ⟨gap, c, cs, rfl, hgap, hc⟩ := h
  by_cases hne : gap = []
  · subst hne
    rcases hc with rfl | rfl <;> (simp only [Ends, List.nil_append, List.head?_cons]; decide)
  · exact hgap.ends hne

theorem Stops.solid {c : Char} {cs : List Char} (h : c = ',' ∨ c = '\x7d') : Solid (c :: cs) := by
  rcases h with rfl | rfl <;> exact ⟨by decide, by decide⟩

theorem string_fails {c : Char} {cs : List Char} (hgap : Gap gap) (h : Solid (c :: cs))
    (hquote : '\'' ≠ c) (hdouble : '"' ≠ c) : Fails (stringLiteral g) (gap ++ c :: cs) :=
  Fails.orElse (.node (.seq (sym_fails_on hgap h rfl hquote)))
    (.node (.seq (sym_fails_on hgap h rfl hdouble)))

theorem string_fails_name (hgap : Gap gap) (h : IsName name) :
    Fails (stringLiteral g) (gap ++ (name.toList ++ rest)) := by
  have hsolid : Solid (name.toList ++ rest) := solid_of_isName h
  obtain ⟨c, cs, hchars, hstart, -⟩ := exists_cons_of_isName h
  obtain ⟨h1, h2, -⟩ := not_starts hstart
  rw [hchars] at hsolid ⊢
  exact string_fails hgap hsolid h1.symm h2.symm

theorem Stops.word_fails {word_ : String} (h : Stops rest) (hne : word_ ≠ "") :
    Fails (word word_) rest := by
  obtain ⟨gap, c, cs, rfl, hgap, hc⟩ := h
  refine Grammar.word_fails hgap (Stops.solid hc) ?_
  have hempty : nameText (c :: cs) = "" := by
    rcases hc with rfl | rfl <;> rfl
  rw [hempty]
  exact hne.symm

theorem Stops.name_fails {k : NodeKind} (h : Stops rest) : Fails (Grammar.name k) rest := by
  obtain ⟨gap, c, cs, rfl, hgap, hc⟩ := h
  refine Grammar.name_fails hgap (Stops.solid hc) ?_
  rcases hc with rfl | rfl <;> decide

theorem Stops.string_fails (h : Stops rest) : Fails (stringLiteral g) rest := by
  obtain ⟨gap, c, cs, rfl, hgap, hc⟩ := h
  refine Grammar.string_fails hgap (Stops.solid hc) ?_ ?_ <;> rcases hc with rfl | rfl <;> decide

theorem as_isName : IsName "as" := by decide

theorem word_fails_name {word_ : String} (hgap : Gap gap) (h : IsName name) (hends : Ends rest)
    (hne : name ≠ word_) : Fails (word word_) (gap ++ (name.toList ++ rest)) :=
  word_fails hgap (solid_of_isName h) (by rwa [nameText_append h hends])

theorem IsString.word_fails {word_ : String} (h : IsString g text) (hgap : Gap gap) (hne : word_ ≠ "") :
    Fails (word word_) (gap ++ (text ++ rest)) := by
  obtain ⟨q, cs, rfl, hq⟩ := h.quote
  have hempty : nameText (q :: cs ++ rest) = "" := by
    rcases hq with rfl | rfl <;> rfl
  refine Grammar.word_fails hgap ?_ (by rw [hempty]; exact hne.symm)
  rcases hq with rfl | rfl <;> exact ⟨by decide, by decide⟩

theorem exportName_reads (h : Symbol g text) (hgap : Gap gap) (hparted : Parted text rest) :
    Reads (exportName g) gap text rest := by
  cases h with
  | string hstring => exact .left (hstring.reads gap rest hgap)
  | name hname =>
    rename_i name
    obtain ⟨c, cs, hchars, hstart, -⟩ := exists_cons_of_isName hname
    have hends : Ends rest := hparted (by simp [hchars, hstart])
    refine .right (string_fails_name hgap hname) ?_
    by_cases hdefault : name = "default"
    · subst hdefault
      exact .left (word_reads hgap hname hends)
    · exact .right (word_fails_name hgap hname hends hdefault)
        (.left ((name_reads hgap hname hends).reads (by decide)))

theorem Parted.append {more : List Char} (h : Parted text more) (hne : more ≠ []) (rest : List Char) :
    Parted text (more ++ rest) := by
  obtain ⟨c, cs, rfl⟩ := List.exists_cons_of_ne_nil hne
  exact h

theorem Parted.ends (h : Parted name.toList rest) (hname : IsName name) : Ends rest := by
  obtain ⟨c, cs, hchars, hstart, -⟩ := exists_cons_of_isName hname
  exact h (by simp [hchars, hstart])

theorem Symbol.ne_nil (h : Symbol g text) : text ≠ [] := by
  cases h with
  | name hname =>
    obtain ⟨c, cs, hchars, -⟩ := exists_cons_of_isName hname
    simp [hchars]
  | string hstring =>
    obtain ⟨q, cs, rfl, -⟩ := hstring.quote
    simp

theorem Body.ne_nil (h : Body g body) : body ≠ [] := by
  cases h with
  | plain hsymbol => exact hsymbol.ne_nil
  | renamed hsymbol _ _ _ _ _ => simp [hsymbol.ne_nil]

def afterMark (g : Context) : Parser Pieces :=
  choice [stringLiteral g, seq [notAhead (word "as"), Grammar.name .identifier],
    seq [word "as", word "as"], seq [word "as", onlyAhead (sym "," <|> braceClose)]]

theorem typeMark_eq (g : Context) : typeMark g =
    opt (seq [check (return g.typed), onlyAhead (seq [words marks, afterMark g]), words marks]) :=
  rfl

theorem typeMark_idles (h : Fails (seq [words marks, afterMark g]) text) : Idles (typeMark g) text := by
  rw [typeMark_eq]
  refine Fails.idles_opt ?_
  cases htyped : g.typed with
  | true => exact Idles.seq_fails (fun _ _ => rfl) (.seq h.onlyAhead)
  | false => exact Fails.seq fun _ _ => rfl

theorem mark_isName (h : name ∈ marks) : IsName name := by
  simp only [marks, List.mem_cons, List.not_mem_nil, or_false] at h
  rcases h with rfl | rfl <;> decide

theorem words_reads (hgap : Gap gap) (hlisted : name ∈ marks) (hends : Ends rest) :
    Reads (words marks) gap name.toList rest := by
  have hname := mark_isName hlisted
  simp only [marks, List.mem_cons, List.not_mem_nil, or_false] at hlisted
  rcases hlisted with rfl | rfl
  · exact .left (word_reads hgap hname hends)
  · exact .right (word_fails_name hgap hname hends (by decide)) (.left (word_reads hgap hname hends))

theorem words_fail (h : ∀ mark ∈ marks, Fails (word mark) text) : Fails (words marks) text :=
  Fails.orElse (h _ (by decide)) (.orElse (h _ (by decide)) .choice_nil)

theorem words_fail_string (h : IsString g text) (hgap : Gap gap) :
    Fails (words marks) (gap ++ (text ++ rest)) := by
  refine words_fail fun mark hlisted => h.word_fails hgap ?_
  rintro rfl
  revert hlisted
  decide

theorem words_fail_name (hgap : Gap gap) (h : IsName name) (hends : Ends rest) (hnot : name ∉ marks) :
    Fails (words marks) (gap ++ (name.toList ++ rest)) := by
  refine words_fail fun mark hlisted => word_fails_name hgap h hends ?_
  rintro rfl
  exact hnot hlisted

theorem Stops.afterMark_fails (h : Stops rest) : Fails (afterMark g) rest :=
  .orElse h.string_fails (.orElse
    (Idles.seq_fails (h.word_fails (by decide)).idles_notAhead (.seq h.name_fails))
    (.orElse (.seq (h.word_fails (by decide))) (.orElse (.seq (h.word_fails (by decide))) .choice_nil)))

theorem renamed_afterMark_fails (hgap : Gap gap) (hgap' : Gap gap') (hne : gap' ≠ [])
    (hname : IsName name) (hends : Ends rest) (hother : name ≠ "as") :
    Fails (afterMark g) (gap ++ ("as".toList ++ (gap' ++ (name.toList ++ rest)))) := by
  have has : Reads (word "as") gap "as".toList (gap' ++ (name.toList ++ rest)) :=
    word_reads hgap as_isName (hgap'.ends hne)
  have hstops : ∀ {mark : String} {d : Char}, mark.toList.head? = some d → startsName d = false →
      Fails (sym mark) (gap' ++ (name.toList ++ rest)) := by
    intro mark d hmark hnot
    have hsolid : Solid (name.toList ++ rest) := solid_of_isName hname
    obtain ⟨c, cs, hchars, hstart, -⟩ := exists_cons_of_isName hname
    rw [hchars] at hsolid ⊢
    refine sym_fails_on hgap' hsolid hmark ?_
    rintro rfl
    rw [hstart] at hnot
    cases hnot
  refine .orElse (string_fails_name hgap as_isName) (.orElse (.seq has.fails_notAhead)
    (.orElse (has.seq_fails (.seq (word_fails_name hgap' hname hends hother)))
      (.orElse (has.seq_fails (.seq (Fails.onlyAhead (.orElse ?_ ?_)))) .choice_nil)))
  · exact hstops (d := ',') rfl (by decide)
  · exact hstops (d := '\x7d') rfl (by decide)

/-- Behind the word of a mark, what a module gives out says that it is one; so does `as` where it is
itself the name. -/
theorem afterMark_goes (hgap : Gap gap) (h : Body g body) (hstops : Stops rest) :
    Goes (afterMark g) (gap ++ (body ++ rest)) := by
  -- a name other than `as`
  have hother : ∀ {name : String} {rest : List Char}, IsName name → Ends rest → name ≠ "as" →
      Goes (afterMark g) (gap ++ (name.toList ++ rest)) := fun hname hends hne =>
    .right (string_fails_name hgap hname) (.left (Idles.seq_goes
      (word_fails_name hgap hname hends hne).idles_notAhead
      ((name_reads hgap hname hends).reads (by decide)).seq_single.goes))
  have has : ∀ {rest : List Char}, Ends rest → Reads (word "as") gap "as".toList rest :=
    fun hends => word_reads hgap as_isName hends
  cases h with
  | plain hsymbol =>
    cases hsymbol with
    | string hstring => exact .left (hstring.reads gap rest hgap).goes
    | name hname =>
      rename_i name
      by_cases hne : name = "as"
      · subst hne
        refine .right (string_fails_name hgap hname) (.right
          (.seq (has hstops.ends).fails_notAhead) (.right
            ((has hstops.ends).seq_fails (.seq (hstops.word_fails (by decide)))) (.left
              ((has hstops.ends).seq_goes (Idles.seq_goes (Goes.idles_ahead ?_) fun _ _ => ⟨_, seq_nil⟩)))))
        obtain ⟨gap', c, cs, rfl, hgap', hc⟩ := hstops
        have hsolid : Solid (c :: cs) := Stops.solid hc
        rcases hc with rfl | rfl
        · have hcomma : ReadsAsNode (sym ",") (.token ",") gap' ",".toList cs := sym_reads hgap' hsolid
          exact .left (hcomma.reads (by simp)).goes
        · have hbrace : ReadsAsNode (sym "\x7d") (.token "\x7d") gap' "\x7d".toList cs :=
            sym_reads hgap' hsolid
          exact .right (sym_fails_on hgap' hsolid (d := ',') rfl (by decide))
            (hbrace.reads (by simp)).goes
      · exact hother hname hstops.ends hne
  | renamed hsymbol hskipped hparted hskipped' happart htarget =>
    rename_i text gap₁ gap₂ target
    have hends : ∀ {name : String}, IsName name → Parted name.toList (gap₁ ++ "as".toList) →
        Ends (gap₁ ++ ("as".toList ++ (gap₂ ++ (target.toList ++ rest)))) := by
      intro name hname hparted
      have h := (hparted.append (by simp) (gap₂ ++ (target.toList ++ rest))).ends hname
      simpa using h
    simp only [List.append_assoc]
    cases hsymbol with
    | string hstring => exact .left (hstring.reads gap _ hgap).goes
    | name hname =>
      rename_i name
      by_cases hne : name = "as"
      · subst hne
        have hnext := hends hname hparted
        have hnext' : Reads (word "as") gap₁ "as".toList (gap₂ ++ (target.toList ++ rest)) :=
          word_reads hskipped as_isName (hskipped'.ends happart)
        exact .right (string_fails_name hgap hname) (.right (.seq (has hnext).fails_notAhead)
          (.left ((has hnext).seq_goes hnext'.seq_single.goes)))
      · exact hother hname (hends hname hparted) hne

def bodyParser (g : Context) : Parser Pieces :=
  seq [inRole .name (exportName g), word "as", Grammar.name .identifier] <|> inRole .name (exportName g)

theorem renamed_eq (g : Context) : renamed .importSpecifier g (Grammar.name .identifier) =
    node .importSpecifier (seq [typeMark g, bodyParser g]) :=
  rfl

theorem body_reads (hgap : Gap gap) (h : Body g body) (hstops : Stops rest) :
    Reads (bodyParser g) gap body rest := by
  cases h with
  | plain hsymbol =>
    have hread := (exportName_reads hsymbol hgap fun _ => hstops.ends).inRole (r := .name)
    have has : Fails (word "as") rest := hstops.word_fails (by decide)
    exact .right (hread.seq_fails (.seq has)) hread
  | renamed hsymbol hskipped hparted hskipped' happart htarget =>
    rename_i text gap₁ gap₂ target
    have hmore := hparted.append (by simp) (gap₂ ++ (target.toList ++ rest))
    rw [List.append_assoc] at hmore
    have hname := name_reads (k := .identifier) hskipped' htarget hstops.ends
    have htarget' := (hname.reads (by decide)).seq_single
    have has : Reads (word "as") gap₁ "as".toList (gap₂ ++ (target.toList ++ rest)) :=
      word_reads hskipped as_isName (hskipped'.ends happart)
    have hread := (exportName_reads hsymbol hgap hmore).inRole (r := .name)
    refine .left (Reads.seq_cons ?_ (has.seq_cons htarget'))
    simpa using hread

theorem specifier_reads (hgap : Gap gap) (h : Specifier g text) (hstops : Stops rest) :
    ReadsAsNode (renamed .importSpecifier g (Grammar.name .identifier)) (.named .importSpecifier)
      gap text rest := by
  rw [renamed_eq]
  refine Reads.node ?_
  cases h with
  | plain hsymbol =>
    refine .seq_idle (typeMark_idles ?_) (body_reads hgap (.plain hsymbol) hstops).seq_single
    cases hsymbol with
    | string hstring => exact .seq (words_fail_string hstring hgap)
    | name hname =>
      rename_i name
      by_cases hmark : name ∈ marks
      · exact (words_reads hgap hmark hstops.ends).seq_fails (.seq hstops.afterMark_fails)
      · exact .seq (words_fail_name hgap hname hstops.ends hmark)
  | renamed hsymbol hskipped hparted hskipped' happart htarget hunmarked =>
    refine .seq_idle (typeMark_idles ?_)
      (body_reads hgap (.renamed hsymbol hskipped hparted hskipped' happart htarget) hstops).seq_single
    rename_i text gap₁ gap₂ target
    simp only [List.append_assoc]
    cases hsymbol with
    | string hstring => exact .seq (words_fail_string hstring hgap)
    | name hname =>
      rename_i name
      have hends := (hparted.append (by simp) (gap₂ ++ (target.toList ++ rest))).ends hname
      rw [List.append_assoc] at hends
      by_cases hmark : name ∈ marks
      · refine (words_reads hgap hmark hends).seq_fails (.seq ?_)
        exact renamed_afterMark_fails hskipped hskipped' happart htarget hstops.ends
          (hunmarked (by rwa [String.ofList_toList]))
      · exact .seq (words_fail_name hgap hname hends hmark)
  | marked htyped hlisted hskipped hparted hbody =>
    rename_i mark gap₁ body
    have hends := (hparted.append (by simp [hbody.ne_nil]) rest).ends (mark_isName hlisted)
    rw [List.append_assoc] at hends
    have hwords := words_reads hgap hlisted hends
    have hmark : Reads (typeMark g) gap mark.toList (gap₁ ++ (body ++ rest)) := by
      rw [typeMark_eq]
      refine .left (.seq_idle (fun _ _ => ?_) (.seq_idle (Goes.idles_ahead ?_) hwords.seq_single))
      · rw [htyped]
        rfl
      · exact hwords.seq_goes (afterMark_goes hskipped hbody hstops).seq_single
    exact hmark.seq_cons (body_reads hskipped hbody hstops).seq_single

end Specifiers

def significantOf (ps : Pieces) : Pieces :=
  (ps.filter (·.kind.isNamed)).filter fun c => !c.is .comment

section Lists

variable {g : Context} {ps ps' comments : Pieces} {t : Tree} {before gap text after rest : List Char}
  {s : String} {rs : List String} {n : Nat} {b : Bool}

theorem significantOf_append : significantOf (ps ++ ps') = significantOf ps ++ significantOf ps' := by
  simp [significantOf]

theorem significantOf_comments (h : ∀ c ∈ comments, c.is .comment = true) :
    significantOf comments = [] := by
  refine List.filter_eq_nil_iff.2 fun c hc => ?_
  simp [h c (List.mem_of_mem_filter hc)]

theorem significantOf_token {mark : String} (h : t.kind = .token mark) : significantOf [t] = [] := by
  simp [significantOf, h, Kind.isNamed]

theorem significantOf_node {k : NodeKind} (h : t.kind = .named k) (hk : k ≠ .comment) :
    significantOf [t] = [t] := by
  simp [significantOf, h, Kind.isNamed, Tree.is, hk]

theorem significantOf_cons {k : NodeKind} (h : t.kind = .named k) (hk : k ≠ .comment) :
    significantOf (t :: ps) = t :: significantOf ps := by
  rw [← List.singleton_append, significantOf_append, significantOf_node h hk, List.singleton_append]

theorem text_between (hstart : t.start = width before) (hstop : t.stop = width before + width text) :
    t.text (encodeChars (before ++ (text ++ after))) = String.ofList text := by
  have hslice : slice (encodeChars (before ++ (text ++ after))) (width before)
      (width before + width text) = encode (String.ofList text) := by
    rw [encode_ofList, slice, encodeChars_append, encodeChars_append, width, width, List.drop_left,
      Nat.add_sub_cancel_left, List.take_left]
  rw [Tree.text, Tree.bytes, hstart, hstop, hslice, decode_encode]
  rfl

def commaed (rs : List String) : List Char := rs.flatMap fun r => ',' :: ' ' :: r.toList

theorem joinWith_cons (s : String) (rs : List String) :
    (joinWith ", " (s :: rs)).toList = s.toList ++ commaed rs := by
  induction rs generalizing s with
  | nil => simp [joinWith, commaed]
  | cons r rs ih =>
    rw [joinWith, String.toList_append, String.toList_append, ih r]
    · simp [commaed]
    · simp

theorem stops_commaed (rs : List String) (after : List Char) :
    Stops (commaed rs ++ ' ' :: '\x7d' :: after) := by
  cases rs with
  | nil => exact ⟨[' '], '\x7d', after, rfl, Gap.space, .inr rfl⟩
  | cons r rs => exact ⟨[], ',', _, rfl, Gap.nil, .inl rfl⟩

theorem many_reads (hrs : ∀ r ∈ rs, Specifier g r.toList) (hn : rs.length ≤ n) (before after : List Char)
    (b : Bool) : ∃ ps, many n (seq [sym ",", renamed .importSpecifier g (name .identifier)])
        ⟨commaed rs ++ ' ' :: '\x7d' :: after, width before, b⟩ =
      some (ps, ⟨' ' :: '\x7d' :: after, width (before ++ commaed rs), b⟩) ∧
    (∀ t ∈ significantOf ps, t.is .importSpecifier = true) ∧
    (significantOf ps).map (·.text (encodeChars (before ++ (commaed rs ++ ' ' :: '\x7d' :: after)))) =
      rs := by
  induction rs generalizing n before with
  | nil =>
    have hfails : Fails (seq [sym ",", renamed .importSpecifier g (name .identifier)])
        (' ' :: '\x7d' :: after) :=
      .seq (sym_fails_on Gap.space (Stops.solid (.inr rfl)) (d := ',') rfl (by decide))
    refine ⟨[], ?_, by simp [significantOf], rfl⟩
    rw [commaed, List.flatMap_nil, List.nil_append, List.append_nil, many_stop (hfails _ b)]
  | cons r rs ih =>
    obtain ⟨n, rfl⟩ : ∃ m, n = m + 1 := ⟨n - 1, by simp at hn; omega⟩
    have hitem := specifier_reads Gap.space (hrs r (by simp)) (stops_commaed rs after)
    have hcomma : ReadsAsNode (sym ",") (.token ",") [] ",".toList
        ([' '] ++ (r.toList ++ (commaed rs ++ ' ' :: '\x7d' :: after))) :=
      sym_reads Gap.nil ⟨by decide, by decide⟩
    obtain ⟨comments, comma, hrun, hcomments, hkind, -⟩ := hcomma (width before) b
    obtain ⟨comments', t, hrun', hcomments', hkind', hstart, hstop⟩ := hitem _ b
    have hchars : commaed (r :: rs) = ",".toList ++ ([' '] ++ (r.toList ++ commaed rs)) := by
      simp [commaed]
    have hwidth : width before + width [] + width ",".toList + width [' '] + width r.toList =
        width (before ++ (",".toList ++ ([' '] ++ r.toList))) := by
      simp only [width_append, width_nil]
      omega
    obtain ⟨ps, hmany, hall, htexts⟩ := ih (n := n) (fun x hx => hrs x (by simp [hx]))
      (by simpa using hn) (before ++ (",".toList ++ ([' '] ++ r.toList)))
    rw [hwidth] at hrun' hstop
    have hone := Grammar.seq_cons hrun (Grammar.seq_cons hrun' seq_nil)
    have hsignificant : significantOf (comments ++ [comma] ++ (comments' ++ [t] ++ [])) = [t] := by
      simp only [significantOf_append, significantOf_comments hcomments,
        significantOf_comments hcomments', significantOf_token hkind,
        significantOf_node hkind' (by decide), List.nil_append, List.append_nil]
    refine ⟨comments ++ [comma] ++ (comments' ++ [t] ++ []) ++ ps, ?_, ?_, ?_⟩
    · have hstep := many_step hone (by simp) hmany
      simpa [hchars] using hstep
    · rw [significantOf_append, hsignificant]
      intro x hx
      rcases List.mem_cons.1 hx with rfl | hx
      · simp [Tree.is, hkind']
      · exact hall x hx
    · have htext : t.text (encodeChars ((before ++ (",".toList ++ [' '])) ++
          (r.toList ++ (commaed rs ++ ' ' :: '\x7d' :: after)))) = String.ofList r.toList := by
        refine text_between ?_ ?_
        · rw [hstart]
          simp only [width_append, width_nil]
          omega
        · rw [hstop]
          simp only [width_append]
          omega
      rw [significantOf_append, hsignificant, List.map_append, List.map_singleton, hchars]
      simp only [List.append_assoc, String.ofList_toList] at htext htexts ⊢
      rw [htext, htexts]
      rfl

theorem list_reads (hspecifiers : ∀ r ∈ s :: rs, Specifier g r.toList) (hn : rs.length ≤ g.bound)
    (before after : List Char) (b : Bool) : ∃ ps,
    commaList g.bound (renamed .importSpecifier g (name .identifier))
        ⟨[' '] ++ (s.toList ++ (commaed rs ++ ' ' :: '\x7d' :: after)), width before, b⟩ =
      some (ps, ⟨' ' :: '\x7d' :: after, width (before ++ ([' '] ++ (s.toList ++ commaed rs))), b⟩) ∧
    (∀ t ∈ significantOf ps, t.is .importSpecifier = true) ∧
    (significantOf ps).map (·.text (encodeChars
      (before ++ ([' '] ++ (s.toList ++ (commaed rs ++ ' ' :: '\x7d' :: after)))))) = s :: rs := by
  have hitem := specifier_reads Gap.space (hspecifiers s (by simp)) (stops_commaed rs after)
  have hcomma : Idles (opt (sym ",")) (' ' :: '\x7d' :: after) :=
    Fails.idles_opt (sym_fails_on Gap.space (Stops.solid (.inr rfl)) (d := ',') rfl (by decide))
  obtain ⟨comments, t, hrun, hcomments, hkind, hstart, hstop⟩ := hitem (width before) b
  obtain ⟨ps, hmany, hall, htexts⟩ := many_reads (fun x hx => hspecifiers x (by simp [hx])) hn
    (before ++ ([' '] ++ s.toList)) after b
  have hwidth : width before + width [' '] + width s.toList =
      width (before ++ ([' '] ++ s.toList)) := by
    simp only [width_append, Nat.add_assoc]
  rw [hwidth] at hrun
  have hsignificant : significantOf (comments ++ [t] ++ (ps ++ ([] ++ []))) = t :: significantOf ps := by
    simp only [significantOf_append, significantOf_comments hcomments,
      significantOf_node hkind (by decide), List.nil_append, List.append_nil, List.singleton_append]
  have htext : t.text (encodeChars ((before ++ [' ']) ++
      (s.toList ++ (commaed rs ++ ' ' :: '\x7d' :: after)))) = String.ofList s.toList := by
    refine text_between ?_ ?_
    · rw [hstart, width_append]
    · rw [hstop, width_append]
  refine ⟨comments ++ [t] ++ (ps ++ ([] ++ [])), ?_, ?_, ?_⟩
  · have hlist := Grammar.seq_cons hrun (Grammar.seq_cons hmany
      (Grammar.seq_cons (hcomma (width (before ++ ([' '] ++ s.toList) ++ commaed rs)) b) seq_nil))
    simp only [List.append_assoc] at hlist ⊢
    exact orElse_ok hlist
  · rw [hsignificant]
    rintro x (_ | ⟨_, hx⟩)
    · simp [Tree.is, hkind]
    · exact hall x hx
  · rw [hsignificant, List.map_cons]
    simp only [List.append_assoc, String.ofList_toList] at htext htexts ⊢
    rw [htext, htexts]

def braced (s : String) (rs : List String) : List Char :=
  '\x7b' :: ' ' :: (s.toList ++ (commaed rs ++ [' ', '\x7d']))

theorem namedImports_reads (hgap : Gap gap) (hspecifiers : ∀ r ∈ s :: rs, Specifier g r.toList)
    (hn : rs.length ≤ g.bound) (before after : List Char) (b : Bool) : ∃ comments t,
    namedImports g ⟨gap ++ (braced s rs ++ after), width before, b⟩ =
      some (comments ++ [t], ⟨after, width (before ++ (gap ++ braced s rs)), b⟩) ∧
    (∀ c ∈ comments, c.is .comment = true) ∧ t.kind = .named .namedImports ∧
    (t.significant.filter (·.is .importSpecifier)).map
      (·.text (encodeChars (before ++ (gap ++ (braced s rs ++ after))))) = s :: rs := by
  let inner := before ++ (gap ++ "\x7b".toList)
  have hopen : ReadsAsNode braceOpen (.token "\x7b") gap "\x7b".toList
      ([' '] ++ (s.toList ++ (commaed rs ++ ' ' :: '\x7d' :: after))) :=
    sym_reads hgap ⟨by decide, by decide⟩
  have hclose : ReadsAsNode braceClose (.token "\x7d") [' '] "\x7d".toList after :=
    sym_reads Gap.space ⟨by decide, by decide⟩
  obtain ⟨comments, opening, hrun, hcomments, hkind, -⟩ := hopen (width before) false
  obtain ⟨ps, hlist, hall, htexts⟩ := list_reads hspecifiers hn inner after false
  obtain ⟨comments', closing, hrun', hcomments', hkind', -⟩ :=
    hclose (width (inner ++ ([' '] ++ (s.toList ++ commaed rs)))) false
  have hwidth : width before + width gap + width "\x7b".toList = width inner := by
    simp only [inner, width_append, Nat.add_assoc]
  have hend : width (inner ++ ([' '] ++ (s.toList ++ commaed rs))) + width [' '] +
      width "\x7d".toList = width (before ++ (gap ++ braced s rs)) := by
    have hchars : before ++ (gap ++ braced s rs) =
        inner ++ ([' '] ++ (s.toList ++ commaed rs)) ++ ([' '] ++ "\x7d".toList) := by
      simp [inner, braced]
    rw [hchars]
    simp only [width_append, Nat.add_assoc]
  rw [hwidth] at hrun
  rw [hend] at hrun'
  have hnot : opening.is .comment = false := by simp [Tree.is, hkind]
  have hbraces : withBreaks false (seq [braceOpen,
      commaList g.bound (renamed .importSpecifier g (name .identifier)), braceClose])
      ⟨gap ++ (braced s rs ++ after), width before, b⟩ =
        some (comments ++ opening :: (ps ++ (comments' ++ [closing] ++ [])),
          ⟨after, width (before ++ (gap ++ braced s rs)), b⟩) := by
    have hseq := Grammar.seq_cons hrun (Grammar.seq_cons hlist (Grammar.seq_cons hrun' seq_nil))
    rw [List.append_assoc, List.singleton_append] at hseq
    refine withBreaks_ok ?_
    simpa [braced] using hseq
  have hsignificant : significantOf (opening :: (ps ++ (comments' ++ [closing] ++ []))) =
      significantOf ps := by
    rw [← List.singleton_append]
    simp only [significantOf_append, significantOf_comments hcomments', significantOf_token hkind,
      significantOf_token hkind', List.nil_append, List.append_nil]
  refine ⟨comments, nodeOf .namedImports (opening :: (ps ++ (comments' ++ [closing] ++ []))), ?_,
    hcomments, rfl, ?_⟩
  · rw [namedImports, node_ok hbraces, wrap_comments hcomments hnot]
  · change ((significantOf (opening :: (ps ++ (comments' ++ [closing] ++ [])))).filter _).map _ = _
    have hsource : before ++ (gap ++ (braced s rs ++ after)) =
        inner ++ ([' '] ++ (s.toList ++ (commaed rs ++ ' ' :: '\x7d' :: after))) := by
      simp [inner, braced]
    rw [hsignificant, List.filter_eq_self.2 hall, hsource, htexts]

end Lists

/-- What the clause of an import binds: as a default or a namespace, and by names. -/
structure Bindings where
  plain : List String
  named : List String
  deriving DecidableEq, Repr

namespace Bindings

def parts (b : Bindings) : List String :=
  b.plain ++ if b.named = [] then [] else ["\x7b " ++ joinWith ", " b.named ++ " \x7d"]

def text (b : Bindings) : String := joinWith ", " b.parts

theorem parts_eq_nil {b : Bindings} : b.parts = [] ↔ b = ⟨[], []⟩ := by
  obtain ⟨plain, named⟩ := b
  by_cases h : named = [] <;> simp [parts, h]

def specifiersOf (clause : Tree) : List Tree :=
  match clause.namedChildren.find? (·.is .namedImports) with
  | some named => named.significant.filter (·.is .importSpecifier)
  | none => []

/-- What a clause binds, of its specifiers only some. -/
def of (source : Bytes) (clause : Tree) (keeps : Tree → Bool) : Bindings :=
  ⟨(clause.significant.filter fun c => !c.is .namedImports).map (·.text source),
    ((specifiersOf clause).filter keeps).map (·.text source)⟩

/-- The bindings of a clause that has names: maybe a default, and specifiers. -/
structure Grammatical (g : Context) (b : Bindings) : Prop where
  plain : b.plain = [] ∨ ∃ name, b.plain = [name] ∧ IsName name
  named : ∀ s ∈ b.named, Specifier g s.toList
  length : b.named.length ≤ g.bound

/-- Written between characters, the grammar reads this as a clause with these bindings, up to the
characters behind. -/
def ReadsBack (g : Context) (b : Bindings) (before after : List Char) : Prop :=
  ∀ breaks, ∃ comments clause c,
    importClause g ⟨b.text.toList ++ after, width before, breaks⟩ = some (comments ++ [clause], c) ∧
    c.rest = after ∧ of (encodeChars (before ++ (b.text.toList ++ after))) clause (fun _ => true) = b

end Bindings

section Clauses

variable {g : Context} {b : Bindings} {before gap more after : List Char} {name : String}
  {clause t ni : Tree} {ps : Pieces} {source : Bytes} {ss : List String}

theorem find_namedImports (t : Tree) : t.namedChildren.find? (·.is .namedImports) =
    t.significant.find? (·.is .namedImports) := by
  rw [Tree.significant, List.find?_filter]
  congr 1
  funext c
  by_cases h : c.kind = .named .namedImports
  · simp [Tree.is, h]
  · simp [Tree.is, h]

theorem Bindings.of_plain (h : ∀ c ∈ clause.significant, c.is .namedImports = false) :
    of source clause (fun _ => true) = ⟨clause.significant.map (·.text source), []⟩ := by
  have hnone : clause.significant.find? (·.is .namedImports) = none :=
    List.find?_eq_none.2 fun c hc => by simp [h c hc]
  rw [of, specifiersOf, find_namedImports, hnone, List.filter_eq_self.2 fun c hc => by simp [h c hc]]
  rfl

theorem Bindings.of_named (hclause : clause.significant = ps ++ [ni])
    (h : ∀ c ∈ ps, c.is .namedImports = false) (hni : ni.is .namedImports = true) :
    of source clause (fun _ => true) = ⟨ps.map (·.text source),
      (ni.significant.filter (·.is .importSpecifier)).map (·.text source)⟩ := by
  have hnone : ps.find? (·.is .namedImports) = none :=
    List.find?_eq_none.2 fun c hc => by simp [h c hc]
  rw [of, specifiersOf, find_namedImports, hclause, List.find?_append, hnone, Option.none_or,
    List.find?_singleton, if_pos hni, List.filter_append,
    List.filter_eq_self.2 fun c hc => by simp [h c hc], List.filter_cons_of_neg (by simp [hni])]
  simp

theorem namespaceImport_fails {c : Char} {cs : List Char} (hgap : Gap gap) (hsolid : Solid (c :: cs))
    (hne : '*' ≠ c) : Fails namespaceImport (gap ++ c :: cs) :=
  .node (.seq (sym_fails_on hgap hsolid rfl hne))

theorem namedImports_fails {c : Char} {cs : List Char} (hgap : Gap gap) (hsolid : Solid (c :: cs))
    (hne : '\x7b' ≠ c) : Fails (namedImports g) (gap ++ c :: cs) := by
  have hopen : Fails (seq [braceOpen,
      commaList g.bound (renamed .importSpecifier g (Grammar.name .identifier)), braceClose])
      (gap ++ c :: cs) := .seq (sym_fails_on hgap hsolid rfl hne)
  exact .node fun pos b => withBreaks_fail (hopen pos false)

def behindDefault (g : Context) : Parser Pieces :=
  opt (seq [sym ",", namespaceImport <|> namedImports g])

theorem importClause_eq (g : Context) : importClause g = node .importClause
    (choice [namespaceImport, namedImports g, seq [Grammar.name .identifier, behindDefault g]]) :=
  rfl

/-- A clause that starts with a name has it as its default, whatever the grammar reads behind it. -/
theorem importClause_default {c : Cursor} {breaks : Bool} (hname : IsName name) (hends : Ends after)
    (hbehind : behindDefault g ⟨after, width (before ++ name.toList), breaks⟩ = some (ps, c)) :
    ∃ comments t, importClause g ⟨name.toList ++ after, width before, breaks⟩ =
        some (comments ++ [nodeOf .importClause (t :: ps)], c) ∧
      (∀ t ∈ comments, t.is .comment = true) ∧ t.kind = .named .identifier ∧
      t.text (encodeChars (before ++ (name.toList ++ after))) = name := by
  obtain ⟨comments, t, hrun, hcomments, hkind, hstart, hstop⟩ :=
    name_reads (k := .identifier) Gap.nil hname hends (width before) breaks
  have hsolid : Solid (name.toList ++ after) := solid_of_isName hname
  obtain ⟨d, ds, hchars, hd, -⟩ := exists_cons_of_isName hname
  obtain ⟨-, -, -, hstar, hbrace, -⟩ := not_starts hd
  rw [hchars] at hsolid
  have hnamespace : Fails namespaceImport (name.toList ++ after) := by
    have hfails := namespaceImport_fails Gap.nil hsolid hstar.symm
    rwa [hchars]
  have hnamed : Fails (namedImports g) (name.toList ++ after) := by
    have hfails : Fails (namedImports g) _ := namedImports_fails Gap.nil hsolid hbrace.symm
    rwa [hchars]
  simp only [width_nil, Nat.add_zero, ← width_append] at hrun hstart hstop
  have hseq := Grammar.seq_cons hrun (Grammar.seq_cons hbehind seq_nil)
  refine ⟨comments, t, ?_, hcomments, hkind, ?_⟩
  · have hchoice : choice [namespaceImport, namedImports g,
        seq [Grammar.name .identifier, behindDefault g]] ⟨name.toList ++ after, width before, breaks⟩ =
        some (comments ++ t :: ps, c) := by
      rw [choice, orElse_fail (hnamespace _ _), choice, orElse_fail (hnamed _ _), choice]
      refine orElse_ok ?_
      simpa using hseq
    rw [importClause_eq, node_ok hchoice, wrap_comments hcomments (by simp [Tree.is, hkind])]
  · rw [text_between hstart (hstop.trans (width_append _ _)), String.ofList_toList]

theorem behindDefault_idles (hgap : Gap gap) : Idles (behindDefault g) (gap ++ ("from".toList ++ more)) :=
  Fails.idles_opt (.seq (sym_fails_on hgap (c := 'f') ⟨by decide, by decide⟩ (d := ',') rfl (by decide)))

namespace Bindings

theorem default_readsBack (hname : IsName name) (hgap : Gap gap) (hne : gap ≠ []) :
    (⟨[name], []⟩ : Bindings).ReadsBack g before (gap ++ ("from".toList ++ more)) := by
  intro breaks
  obtain ⟨comments, t, hrun, hcomments, hkind, htext⟩ := importClause_default (g := g) hname
    (hgap.ends hne) (behindDefault_idles hgap (width (before ++ name.toList)) breaks)
  refine ⟨comments, _, _, hrun, rfl, ?_⟩
  have hsignificant : (nodeOf .importClause [t]).significant = [t] :=
    significantOf_node hkind (by decide)
  rw [of_plain (by simp [hsignificant, Tree.is, hkind]), hsignificant, List.map_singleton]
  exact congrArg (fun s => (⟨[s], []⟩ : Bindings)) htext

theorem default_not_readsBack (hname : IsName name) :
    ¬(⟨[name], []⟩ : Bindings).ReadsBack g before ("from".toList ++ more) := by
  intro hreads
  obtain ⟨comments', clause, c', hrun', -, hof⟩ := hreads false
  -- the name that is read instead
  let longer := String.ofList (name.toList ++ ("from".toList ++ more.takeWhile inName))
  have hlonger : longer.toList = name.toList ++ ("from".toList ++ more.takeWhile inName) :=
    String.toList_ofList
  have hisName : IsName longer := by
    obtain ⟨d, ds, hd, hstart, hall⟩ := exists_cons_of_isName hname
    refine ⟨by simp [hlonger, hd, hstart], ?_⟩
    have hfrom : "from".toList.all inName = true := by decide
    rw [hlonger, List.all_append, hname.2, List.all_append, hfrom, List.all_takeWhile]
    rfl
  have hends : Ends (more.dropWhile inName) := by
    have hnot := List.head?_dropWhile_not inName more
    rw [Ends]
    cases hhead : (more.dropWhile inName).head? with
    | none => rfl
    | some d =>
      rw [hhead] at hnot
      simpa using hnot
  have hchars : name.toList ++ ("from".toList ++ more) = longer.toList ++ more.dropWhile inName := by
    simp [hlonger]
  obtain ⟨ps, c, hbehind⟩ : ∃ ps c, behindDefault g
      ⟨more.dropWhile inName, width (before ++ longer.toList), false⟩ = some (ps, c) :=
    opt_goes
  obtain ⟨comments, t, hrun, hcomments, hkind, htext⟩ := importClause_default hisName hends hbehind
  rw [← hchars, show name.toList = (⟨[name], []⟩ : Bindings).text.toList from rfl, hrun'] at hrun
  obtain rfl : clause = nodeOf .importClause (t :: ps) := by
    have hpieces := congrArg Prod.fst (Option.some.inj hrun)
    exact List.singleton_inj.1 (List.append_inj_right' hpieces rfl)
  have hplain := congrArg Bindings.plain hof
  have hsignificant : (nodeOf .importClause (t :: ps)).significant = t :: significantOf ps :=
    significantOf_cons hkind (by decide)
  rw [of, hsignificant, List.filter_cons_of_pos (by simp [Tree.is, hkind]), List.map_cons,
    show (⟨[name], []⟩ : Bindings).text = name from rfl, hchars, htext] at hplain
  have hlength := congrArg List.length (hlonger.symm.trans (congrArg String.toList (List.cons.inj hplain).1))
  simp at hlength

theorem named_readsBack {s : String} {rs : List String} (hnamed : ∀ r ∈ s :: rs, Specifier g r.toList)
    (hlength : rs.length ≤ g.bound) : (⟨[], s :: rs⟩ : Bindings).ReadsBack g before after := by
  intro breaks
  obtain ⟨comments, ni, hrun, hcomments, hkind, htexts⟩ :=
    namedImports_reads Gap.nil hnamed hlength before after breaks
  have hbraced : (⟨[], s :: rs⟩ : Bindings).text.toList = braced s rs := by
    rw [text, parts, if_neg (by simp), List.nil_append, joinWith]
    simp [braced, joinWith_cons]
  have hnamespace : Fails namespaceImport (braced s rs ++ after) :=
    namespaceImport_fails Gap.nil (c := '\x7b') ⟨by decide, by decide⟩ (by decide)
  rw [List.nil_append] at hrun
  refine ⟨comments, nodeOf .importClause [ni], ⟨after, width (before ++ braced s rs), breaks⟩, ?_,
    rfl, ?_⟩
  · have hchoice : choice [namespaceImport, namedImports g,
        seq [Grammar.name .identifier, behindDefault g]] ⟨braced s rs ++ after, width before, breaks⟩ =
        some (comments ++ [ni], ⟨after, width (before ++ braced s rs), breaks⟩) := by
      rw [choice, orElse_fail (hnamespace _ _), choice]
      exact orElse_ok hrun
    rw [hbraced, importClause_eq, node_ok hchoice, wrap_comments hcomments (by simp [Tree.is, hkind])]
  · have hsignificant : (nodeOf .importClause [ni]).significant = [] ++ [ni] :=
      significantOf_node hkind (by decide)
    rw [List.nil_append] at htexts
    rw [of_named hsignificant (by simp) (by simp [Tree.is, hkind]), hbraced, htexts]
    rfl

theorem default_named_readsBack {s : String} {rs : List String} (hname : IsName name)
    (hnamed : ∀ r ∈ s :: rs, Specifier g r.toList) (hlength : rs.length ≤ g.bound) :
    (⟨[name], s :: rs⟩ : Bindings).ReadsBack g before after := by
  intro breaks
  have htext : (⟨[name], s :: rs⟩ : Bindings).text.toList =
      name.toList ++ (",".toList ++ ([' '] ++ braced s rs)) := by
    rw [text, parts, if_neg (by simp), List.singleton_append, joinWith, joinWith]
    · simp [braced, joinWith_cons]
    · simp
  have hcomma : ReadsAsNode (sym ",") (.token ",") [] ",".toList ([' '] ++ (braced s rs ++ after)) :=
    sym_reads Gap.nil ⟨by decide, by decide⟩
  obtain ⟨comments, comma, hrun, hcomments, hcommaKind, -⟩ :=
    hcomma (width (before ++ name.toList)) breaks
  obtain ⟨comments', ni, hrun', hcomments', hkind, htexts⟩ := namedImports_reads Gap.space hnamed hlength
    (before ++ name.toList ++ ",".toList) after breaks
  have hnamespace : Fails namespaceImport ([' '] ++ (braced s rs ++ after)) :=
    namespaceImport_fails Gap.space (c := '\x7b') ⟨by decide, by decide⟩ (by decide)
  rw [width_nil, Nat.add_zero, ← width_append] at hrun
  have hbehind : behindDefault g ⟨",".toList ++ ([' '] ++ (braced s rs ++ after)),
      width (before ++ name.toList), breaks⟩ = some (comments ++ [comma] ++ (comments' ++ [ni] ++ []),
        ⟨after, width (before ++ name.toList ++ ",".toList ++ ([' '] ++ braced s rs)), breaks⟩) :=
    orElse_ok (Grammar.seq_cons hrun (Grammar.seq_cons ((orElse_fail (hnamespace _ _)).trans hrun')
      seq_nil))
  have hends : Ends (",".toList ++ ([' '] ++ (braced s rs ++ after))) := rfl
  obtain ⟨comments'', t, hread, -, hdefault, hfirst⟩ := importClause_default hname hends hbehind
  have hchars : (⟨[name], s :: rs⟩ : Bindings).text.toList ++ after =
      name.toList ++ (",".toList ++ ([' '] ++ (braced s rs ++ after))) := by
    simp [htext]
  have hsignificant : (nodeOf .importClause (t :: (comments ++ [comma] ++
      (comments' ++ [ni] ++ [])))).significant = [t] ++ [ni] := by
    refine (significantOf_cons hdefault (by decide)).trans ?_
    simp only [significantOf_append, significantOf_comments hcomments,
      significantOf_comments hcomments', significantOf_token hcommaKind,
      significantOf_node hkind (by decide), List.nil_append, List.append_nil]
    rfl
  rw [hchars]
  refine ⟨comments'', _, _, hread, rfl, ?_⟩
  rw [of_named hsignificant (by simp [Tree.is, hdefault]) (by simp [Tree.is, hkind]), List.map_singleton,
    hfirst]
  simp only [List.append_assoc] at htexts
  rw [htexts]

theorem Grammatical.fewer {keeps : Tree → Bool} (h : Grammatical g (of source clause fun _ => true)) :
    Grammatical g (of source clause keeps) := by
  have hsub : (((specifiersOf clause).filter keeps).map (·.text source)).Sublist
      ((specifiersOf clause).map (·.text source)) := List.filter_sublist.map _
  have hall : (of source clause fun _ => true).named = (specifiersOf clause).map (·.text source) := by
    simp [of]
  obtain ⟨hplain, hnamed, hlength⟩ := h
  rw [hall] at hnamed hlength
  exact ⟨hplain, fun s hs => hnamed s (hsub.subset hs), hsub.length_le.trans hlength⟩

/-- The grammar reads what is put together from bindings as a clause with these bindings, but for a
default alone with the next word right behind it. -/
theorem readsBack_iff (h : Grammatical g b) (hsome : b ≠ ⟨[], []⟩) (hgap : Gap gap) :
    b.ReadsBack g before (gap ++ ("from".toList ++ more)) ↔ ¬(b.named = [] ∧ gap = []) := by
  obtain ⟨plain, named⟩ := b
  obtain ⟨hplain, hnamed, hlength⟩ := h
  cases named with
  | nil =>
    obtain ⟨name, rfl, hname⟩ := hplain.resolve_left fun hnone => hsome (by rw [← hnone])
    by_cases hempty : gap = []
    · subst hempty
      exact iff_of_false (default_not_readsBack hname) (by simp)
    · exact iff_of_true (default_readsBack hname hgap hempty) fun hno => hempty hno.2
  | cons s rs =>
    have hrs : rs.length ≤ g.bound := by
      simp only [List.length_cons] at hlength
      omega
    refine iff_of_true ?_ fun hno => List.cons_ne_nil _ _ hno.1
    rcases hplain with hnone | ⟨name, hone, hname⟩
    · rw [show plain = [] from hnone]
      exact named_readsBack hnamed hrs
    · rw [show plain = [name] from hone]
      exact default_named_readsBack hname hnamed hrs

end Bindings

end Clauses

end OrmCodemod.Syntax.Grammar
