import OrmCodemod.Proofs.Grammar.Tokens
import OrmCodemod.Syntax.Parse

/-! What node the pieces of a production end in. An expression ends in a node of an expression's kind;
only `import` is none, and with a parenthesis behind it, it is neither an argument nor a value. -/

namespace OrmCodemod.Syntax.Grammar

/-- The pieces end in a node that passes a test. -/
def EndsIn (test : Tree → Bool) (ps : Pieces) : Prop := ∃ l t, ps = l ++ [t] ∧ test t = true

/-- The next token is an opening parenthesis. -/
def Opens (c : Cursor) : Prop := (sym "(" c).isSome = true

/-- The pieces end in an expression, or something that has to be called comes next. -/
def Value (ps : Pieces) (c : Cursor) : Prop := EndsIn Tree.isExpression ps ∨ Opens c

/-- From where one condition holds, a production ends where another holds of its pieces. -/
def Leads (P : Cursor → Prop) (p : Parser Pieces) (Q : Pieces → Cursor → Prop) : Prop :=
  ∀ c ps c', P c → p c = some (ps, c') → Q ps c'

/-- The pieces of a production end in a node that passes a test. -/
abbrev Concludes (test : Tree → Bool) (p : Parser Pieces) : Prop :=
  Leads (fun _ => True) p fun ps _ => EndsIn test ps

/-- A production gives an expression, or something that has to be called. -/
abbrev Valued (p : Parser Pieces) : Prop := Leads (fun _ => True) p Value

section Leads

variable {P P' : Cursor → Prop} {Q Q' : Pieces → Cursor → Prop} {p q : Parser Pieces} {α : Type}
  {test : Tree → Bool} {k : NodeKind}

theorem Leads.mono (h : Leads P p Q) (hP : ∀ c, P' c → P c) (hQ : ∀ ps c, Q ps c → Q' ps c) :
    Leads P' p Q' := fun c ps c' hc hp => hQ ps c' (h c ps c' (hP c hc) hp)

theorem Leads.fail : Leads P failure Q := fun _ _ _ _ hp => nomatch hp

theorem Leads.fail_bind {f : α → Parser Pieces} : Leads P (failure >>= f) Q := fun _ _ _ _ hp => nomatch hp

theorem Leads.pure {ps : Pieces} (h : ∀ c, P c → Q ps c) : Leads P (return ps) Q := fun c ps' c' hc hp => by
  obtain ⟨rfl, rfl⟩ := Prod.mk.inj (pure_inv hp)
  exact h _ hc

theorem Leads.orElse (hp : Leads P p Q) (hq : Leads P q Q) : Leads P (p <|> q) Q :=
  fun c ps c' hc h => (orElse_inv h).elim (hp c ps c' hc) (hq c ps c' hc)

theorem Leads.ite {C : Prop} [Decidable C] (hp : Leads P p Q) (hq : Leads P q Q) :
    Leads P (if C then p else q) Q := by
  split <;> assumption

theorem Leads.choice_nil : Leads P (choice []) Q := .fail

theorem Leads.choice_cons {ps : List (Parser Pieces)} (hp : Leads P p Q) (hps : Leads P (choice ps) Q) :
    Leads P (choice (p :: ps)) Q := hp.orElse hps

theorem Leads.bind {x : Parser α} {f : α → Parser Pieces} (h : ∀ v, Leads (fun _ => True) (f v) Q) :
    Leads P (x >>= f) Q := fun _ ps c' _ hp =>
  let ⟨v, c1, _, h2⟩ := bind_inv hp
  h v c1 ps c' trivial h2

theorem Leads.peek {x : Parser α} {f : α → Parser Pieces} (hx : Still x) (h : ∀ v, Leads P (f v) Q) :
    Leads P (x >>= f) Q := fun c ps c' hc hp => by
  obtain ⟨v, c1, h1, h2⟩ := bind_inv hp
  obtain rfl := hx c v c1 h1
  exact h v c1 ps c' hc h2

theorem Leads.andThen {f : Pieces → Parser Pieces} (hp : Leads P p Q')
    (hf : ∀ ps, Leads (Q' ps) (f ps) Q) : Leads P (p >>= f) Q := fun c ps c' hc h =>
  let ⟨ps1, c1, h1, h2⟩ := bind_inv h
  hf ps1 c1 ps c' (hp c ps1 c1 hc h1) h2

theorem Leads.extend {step : Pieces → Parser Pieces} {n : Nat} {ps : Pieces}
    (h : ∀ ps, Leads (Q ps) (step ps) Q) : Leads (Q ps) (extend n step ps) Q := by
  induction n generalizing ps with
  | zero => exact .pure fun _ => id
  | succ n ih => exact .orElse (.andThen (h ps) fun _ => ih) (.pure fun _ => id)

theorem endsIn_wrap {ps : Pieces} (h : ∀ kids, test (nodeOf k kids) = true) : EndsIn test (wrap k ps) :=
  ⟨_, _, rfl, h _⟩

theorem is_nodeOf_self {kids : Pieces} : (nodeOf k kids).is k = true := beq_self_eq_true _

theorem isExpression_nodeOf (h : k ∈ Tree.expressionKinds) {kids : Pieces} :
    (nodeOf k kids).isExpression = true := List.any_eq_true.2 ⟨k, h, is_nodeOf_self⟩

theorem Concludes.node (h : ∀ kids, test (nodeOf k kids) = true) : Concludes test (node k p) :=
  .bind fun _ => .pure fun _ _ => endsIn_wrap h

theorem Leads.of_ends (h : Concludes Tree.isExpression p) : Leads P p Value :=
  h.mono (fun _ _ => trivial) fun _ _ => .inl

/-- Behind a value there is only a node of an expression's kind around it. -/
theorem Leads.wrap {ps : Pieces} (h : k ∈ Tree.expressionKinds) : Leads P (return wrap k ps) Value :=
  .pure fun _ _ => .inl (endsIn_wrap fun _ => isExpression_nodeOf h)

theorem Leads.node (h : k ∈ Tree.expressionKinds) : Leads P (node k p) Value := .bind fun _ => .wrap h

theorem ends_leaf {kind : Kind} {n : Nat} {cs : Pieces} (h : ∀ c n, test (leafAt kind c n) = true) :
    Concludes test (do
      let t ← leaf kind n
      return cs ++ t) := fun c ps c' _ hr => by
  obtain ⟨t, c1, h1, h2⟩ := bind_inv hr
  obtain ⟨rfl, rfl⟩ := Prod.mk.inj (leaf_inv h1)
  obtain ⟨rfl, rfl⟩ := Prod.mk.inj (pure_inv h2)
  exact ⟨_, _, rfl, h c n⟩

theorem isExpression_leafAt (h : k ∈ Tree.expressionKinds) {c : Cursor} {n : Nat} :
    (leafAt (.named k) c n).isExpression = true := List.any_eq_true.2 ⟨k, h, beq_self_eq_true _⟩

theorem Concludes.name (h : ∀ c n, test (leafAt (.named k) c n) = true) : Concludes test (name k) :=
  .bind fun _ => .bind fun _ => .ite .fail_bind (ends_leaf h)

theorem Concludes.wordNode {text : String} (h : ∀ c n, test (leafAt (.named k) c n) = true) :
    Concludes test (wordNode k text) := by
  intro c ps c' _ hr
  obtain ⟨l, r, c1, h1, h2, rfl⟩ := seq_inv hr
  obtain ⟨l', r', c2, h3, h4, rfl⟩ := seq_inv h2
  obtain ⟨rfl, rfl⟩ := Prod.mk.inj (pure_inv h4)
  obtain ⟨ls, t, rfl, ht⟩ := Concludes.name h c1 l' _ trivial h3
  exact ⟨l ++ ls, t, by simp, ht⟩

end Leads

section Values

variable {g : Context}

/-- What the pieces of the productions that others go back to end in. -/
def ruleEnds : Rule → Pieces → Cursor → Prop
  | .expression | .binary _ | .unary => Value
  | .template | .object | .array | .element => fun ps _ => EndsIn Tree.isExpression ps
  | .method => fun ps _ => EndsIn (·.is .methodDefinition) ps
  | _ => fun _ _ => True

/-- The productions that others go back to end as they should. -/
class Ending (g : Context) : Prop where
  ends : ∀ r, Leads (fun _ => True) (g.rule r) (ruleEnds r)

theorem variableName_valued : Valued variableName :=
  .bind fun _ => .bind fun _ => .orElse
    (Leads.of_ends (.wordNode fun _ _ => isExpression_leafAt (by decide)))
    (Leads.of_ends (.name fun _ _ => isExpression_leafAt (by decide)))

theorem functionExpression_valued : Valued (functionExpression g) :=
  .bind fun _ => .bind fun star => .bind fun _ => .wrap (by split <;> decide)

theorem metaProperty_valued : Valued metaProperty := .node (by decide)

theorem importCallee_valued : Valued (seq [importCallee, onlyAhead (sym "(")]) := by
  intro c ps c' _ h
  obtain ⟨l, r, c1, h1, h2, rfl⟩ := seq_inv h
  obtain ⟨l', r', c2, h3, h4, rfl⟩ := seq_inv h2
  obtain ⟨rfl, rfl⟩ := Prod.mk.inj (pure_inv h4)
  obtain ⟨b, c3, h5, h6⟩ := bind_inv h3
  obtain ⟨rfl, rfl⟩ := Prod.mk.inj (Option.some.inj h5)
  obtain ⟨u, c4, h7, h8⟩ := bind_inv h6
  obtain ⟨hopens, hc⟩ := require_inv h7
  obtain ⟨-, rfl⟩ := Prod.mk.inj hc
  obtain ⟨rfl, rfl⟩ := Prod.mk.inj (pure_inv h8)
  exact .inr hopens

theorem privateName_valued : Valued privateName := by
  refine .bind fun cs => .bind fun c => ?_
  split
  · exact .bind fun _ => .of_ends (ends_leaf fun _ _ => isExpression_leafAt (by decide))
  · exact .fail

theorem numberLiteral_valued : Valued numberLiteral :=
  .bind fun _ => .bind fun _ => .bind fun _ =>
    .of_ends (ends_leaf fun _ _ => isExpression_leafAt (by decide))

theorem operand_valued [h : Ending g] : Valued (operand g) := by
  refine .peek .nextChars fun cs => ?_
  have word : ∀ {k : NodeKind} {text : String}, k ∈ Tree.expressionKinds → Valued (wordNode k text) :=
    fun hk => .of_ends (.wordNode fun _ _ => isExpression_leafAt hk)
  split
  · exact .node (by decide)
  · exact .of_ends (h.ends .array)
  · exact .of_ends (h.ends .object)
  · exact .of_ends (h.ends .template)
  · exact .node (by decide)
  · exact .node (by decide)
  · exact .node (by decide)
  · exact .node (by decide)
  · exact privateName_valued
  · exact .ite .fail (.of_ends (h.ends .element))
  · refine .ite ?_ (.peek .nextWord fun w => ?_)
    · exact numberLiteral_valued
    · split
      · exact word (by decide)
      · exact word (by decide)
      · exact word (by decide)
      · exact word (by decide)
      · exact word (by decide)
      · exact functionExpression_valued
      · exact .orElse functionExpression_valued variableName_valued
      · exact .node (by decide)
      · exact .orElse metaProperty_valued (.node (by decide))
      · exact .orElse metaProperty_valued importCallee_valued
      · exact variableName_valued
  · exact .fail

theorem access_valued {ps : Pieces} : Valued (access g ps) :=
  .choice_cons (.bind fun _ => .bind fun _ => .wrap (by decide))
    (.choice_cons (.bind fun _ => .bind fun _ => .wrap (by decide))
      (.choice_cons (.bind fun _ => .wrap (by decide)) .choice_nil))

theorem nonNull_valued {ps : Pieces} : Valued (nonNull g ps) :=
  .bind fun _ => .bind fun _ => .bind fun _ => .wrap (by decide)

theorem call_valued {ps : Pieces} : Valued (call g ps) :=
  .choice_cons (.bind fun _ => .wrap (by decide))
    (.choice_cons (.bind fun _ => .wrap (by decide))
      (.choice_cons (.bind fun _ => .wrap (by decide)) .choice_nil))

theorem heritage_valued [Ending g] : Valued (heritage g) :=
  .andThen operand_valued fun _ => .extend fun _ =>
    (Leads.choice_cons access_valued (.choice_cons nonNull_valued (.choice_cons call_valued
      .choice_nil))).mono (fun _ _ => trivial) fun _ _ => id

theorem suffixed_valued [Ending g] : Valued (suffixed g) :=
  .andThen heritage_valued fun _ => .andThen
    (.orElse (.bind fun _ => .bind fun _ => .bind fun _ => .bind fun _ => .bind fun _ => .wrap (by decide))
      (.pure fun _ => id)) fun _ =>
    .orElse (.bind fun _ => .bind fun _ => .bind fun _ => .wrap (by decide)) (.pure fun _ => id)

theorem unary_valued [Ending g] : Valued (unary g) := by
  refine .peek .nextChars fun cs => ?_
  split
  · exact .node (by decide)
  · exact .node (by decide)
  · exact .node (by decide)
  · exact .node (by decide)
  · exact .node (by decide)
  · exact .node (by decide)
  · exact .ite (.node (by decide)) suffixed_valued
  · refine .peek .nextWord fun w => ?_
    split
    · exact .node (by decide)
    · exact .node (by decide)
    · exact .node (by decide)
    · exact .orElse (.node (by decide)) suffixed_valued
    · exact suffixed_valued

theorem binaryStep_valued {level : Nat} {left : Pieces} : Valued (binaryStep g level left) := by
  refine .bind fun w => .ite (.bind fun _ => .bind fun _ => .bind fun _ => .bind fun _ => .wrap ?_)
    (.ite (.bind fun _ => .bind fun _ => .wrap (by decide)) (.bind fun cs => ?_))
  · split <;> decide
  · split
    · exact .fail
    · exact .bind fun _ => .bind fun _ => .wrap (by decide)

theorem binary_valued [h : Ending g] {level : Nat} : Valued (binary g level) :=
  .andThen (h.ends .unary) fun _ => .extend fun _ =>
    binaryStep_valued.mono (fun _ _ => trivial) fun _ _ => id

theorem conditional_valued [h : Ending g] : Valued (conditional g) :=
  .andThen (h.ends (.binary 1)) fun _ => .orElse (.bind fun _ => .wrap (by decide)) (.pure fun _ => id)

theorem assignment_valued [Ending g] : Valued (assignment g) := by
  refine .peek .get fun before => .andThen conditional_valued fun left => .peek .ahead fun v =>
    .ite (.ite (.bind fun _ => .bind fun _ => ?_) (.bind fun _ => ?_)) (.peek .nextChars fun cs => ?_)
  · exact .bind fun _ => .wrap (by decide)
  · exact .bind fun _ => .wrap (by decide)
  split
  · exact .bind fun _ => .wrap (by decide)
  · exact .pure fun _ => id

theorem expression_valued [Ending g] : Valued (expression g) :=
  .peek .nextChars fun _ => .ite (.orElse (.node (by decide)) assignment_valued)
    (.ite (.orElse (.node (by decide)) assignment_valued) assignment_valued)

theorem element_ends : Concludes Tree.isExpression (element g) :=
  .bind fun _ => .orElse
    (.bind fun _ => .pure fun _ _ => endsIn_wrap fun _ => isExpression_nodeOf (by decide))
    (.bind fun _ => .bind fun _ => .bind fun _ => .pure fun _ _ => endsIn_wrap fun _ =>
      isExpression_nodeOf (by decide))

instance production_ending (dialect : Dialect) (n : Nat) :
    Ending ⟨dialect, n, production dialect n⟩ := by
  induction n with
  | zero => exact ⟨fun _ => .fail⟩
  | succ n ih =>
    refine ⟨fun r => ?_⟩
    change Leads _ (ruleBody ⟨dialect, n, production dialect n⟩ r) _
    cases r with
    | expression => exact expression_valued
    | binary => exact binary_valued
    | unary => exact unary_valued
    | template => exact Concludes.node fun _ => isExpression_nodeOf (by decide)
    | object => exact Concludes.node fun _ => isExpression_nodeOf (by decide)
    | array => exact Concludes.node fun _ => isExpression_nodeOf (by decide)
    | element => exact element_ends
    | method => exact Concludes.node fun _ => is_nodeOf_self
    | _ => exact fun _ _ _ _ _ => trivial

end Values

end OrmCodemod.Syntax.Grammar
