import OrmCodemod.Proofs.Grammar.Literals
import OrmCodemod.Proofs.Grammar.Endings

/-! What the productions of types give. -/

namespace OrmCodemod.Syntax.Grammar

open Text

def ruleGrade : Rule → Grade
  | .decorators => .any
  | .callSignature => .several
  | .classTail => .several
  | _ => .one

/-- No statements stand in the name of a property, unless it is computed. -/
def Keyed (ps : Pieces) : Prop :=
  (∀ t ∈ ps, t.blockless = true) ∨ EndsIn (·.is .computedPropertyName) ps

/-- The productions that others go back to give what their grades say. -/
class Sound (src : List Char) (g : Context) : Prop extends Ending g where
  rules : ∀ r, After src [] (g.rule r) ((ruleGrade r).Holds src)
  keys : After src [] (g.rule .propertyName) Keyed

section Types

variable {src : List Char} {g : Context} [Sound src g]

instance rule_yields {r : Rule} : Yields src (g.rule r) (ruleGrade r) := ⟨fun _ => Sound.rules r⟩

instance typeArguments_yields : Yields src (typeArguments g) .one := by
  unfold typeArguments
  exact .mono rfl

instance typeParameter_yields : Yields src (typeParameter g) .one := by
  unfold typeParameter
  exact .mono rfl

instance typeParameters_yields : Yields src (typeParameters g) .one := by
  unfold typeParameters
  exact .mono rfl

instance typePredicate_yields : Yields src (typePredicate g) .one := by
  unfold typePredicate
  exact .mono rfl

instance asserts_yields : Yields src (asserts g) .one := by
  unfold asserts
  exact .mono rfl

instance resultType_yields : Yields src (resultType g) .one := by
  unfold resultType
  exact .mono rfl

instance typeAscription_yields : Yields src (typeAscription g) .one := by
  unfold typeAscription
  exact .mono rfl

instance resultAscription_yields : Yields src (resultAscription g) .one := by
  unfold resultAscription
  exact .mono rfl

instance callSignature_yields : Yields src (callSignature g) .several := by
  unfold callSignature
  exact .mono rfl

instance functionType_yields : Yields src (functionType g) .one := by
  unfold functionType
  exact .mono rfl

instance constructorType_yields : Yields src (constructorType g) .one := by
  unfold constructorType
  exact .mono rfl

instance literalType_yields : Yields src (literalType g) .one := by
  unfold literalType
  exact .mono rfl

instance importCallee_yields : Yields src importCallee .one := by
  unfold importCallee
  exact .mono rfl

theorem typeValueAccess_after {start : Pieces} (h : Grade.one.Holds src start) :
    After src start (typeValueAccess g start) (Grade.one.Holds src) := by
  refine .extend h fun ps hps => .choice_cons ?_ (.choice_cons ?_ .choice_nil)
  · exact .bind rfl fun _ hrest => .wrapRole hps hrest rfl rfl
  · exact .peek .require fun _ => .bind rfl fun _ hargs => .wrapRole hps hargs rfl rfl

instance typeQuery_yields : Yields src (typeQuery g) .one where
  after _ := by
    refine .node (a := .several) (.start rfl fun keyword hkeyword => .bind rfl fun start hstart =>
      .frame (typeValueAccess_after (hstart.mono rfl)) fun value hvalue => .peek .ahead fun v => ?_) rfl
    split
    · refine .bind rfl fun args hargs => ?_
      rw [List.append_assoc]
      exact .frame_wrap hkeyword (hvalue.append hargs) rfl rfl
    · exact .pure ((hkeyword.append hvalue).mono rfl)

instance importedType_yields : Yields src (importedType g) .one where
  after _ := .start rfl fun _ hstart => .onward (typeValueAccess_after hstart) fun _ hvalue =>
    .orElse (.bind rfl fun _ hargs => .wrapRole hvalue hargs rfl rfl) (.pure hvalue)

instance tupleElement_yields : Yields src (tupleElement g) .one where
  after _ := by
    refine .choice_cons (.grade rfl rfl) (.choice_cons (.grade rfl rfl) (.choice_cons (.grade rfl rfl)
      (.choice_cons ?_ .choice_nil)))
    exact .start rfl fun t ht => .orElse (.bind rfl fun mark hmark => .wrap (ht.append hmark) rfl)
      (.pure ht)

instance mappedClause_yields : Yields src (mappedClause g) .one := by
  unfold mappedClause
  exact .mono rfl

instance indexSignature_yields : Yields src (indexSignature g) .one := by
  unfold indexSignature
  exact .mono rfl

instance modifier_yields {p : Parser Pieces} {a : Grade} [Yields src p a] :
    Yields src (modifier g p) ((Grade.nil.andThen (a.andThen .nil)).or .nil) := by
  unfold modifier
  infer_instance

instance accessorMark_yields : Yields src (accessorMark g) ((Grade.token "*").or
    ((Grade.nil.andThen ((Grade.tokens ["get", "set"]).andThen .nil)).or .nil)) := by
  unfold accessorMark
  infer_instance

instance typeMember_yields : Yields src (typeMember g) .one := by
  unfold typeMember
  exact .mono rfl

def Grade.braced : Grade := { several with opens := true }

instance typeBody_yields {k : NodeKind} : Yields src (typeBody g k) (Grade.braced.node k) := by
  unfold typeBody
  have : Yields src (withBreaks true (seq [braceOpen, opt (sym "," <|> sym ";"),
    many g.bound (seq [typeMember g, sym "," <|> semicolon g false]), braceClose])) .braced := .mono rfl
  infer_instance

/-- A qualifier that is itself qualified can also be the object of an access. -/
structure Dotted (src : List Char) (ps : Pieces) : Prop where
  one : Grade.one.Holds src ps
  sound : ∀ t ∈ ps, t.is .nestedIdentifier = true →
    t.everyNode (Tree.sound (encodeChars src)) = true →
    (t.withKind .memberExpression).everyNode (Tree.sound (encodeChars src)) = true

theorem Dotted.of_leaf {ps : Pieces} (h : (Grade.leaf true true).Holds src ps) : Dotted src ps := by
  refine ⟨h.mono rfl, fun t ht hnested hsound => ?_⟩
  obtain ⟨cs, t', more, hps, hall, hc, hleaf⟩ := h.opens rfl
  obtain ⟨ds, d, rfl, hall', hd⟩ := h.own rfl
  have hlast := eq_behind_comments hps hall' hall (by simpa using hd) hc
  obtain ⟨rfl, rfl⟩ : d = t' ∧ [] = more := List.cons.inj hlast
  have hchildren : t.children = [] := by
    rcases List.mem_append.1 ht with ht | ht
    · have hcomment := hall' t ht
      simp only [Tree.is, beq_iff_eq] at hcomment hnested
      rw [hcomment] at hnested
      cases hnested
    · rw [List.mem_singleton.1 ht, hleaf]
  obtain ⟨k, r, a, b, kids⟩ := t
  obtain rfl : kids = [] := hchildren
  have hself := (Tree.everyNode_iff.1 hsound).1
  simp only [Tree.sound, Bool.and_eq_true] at hself
  refine Tree.everyNode_iff.2 ⟨?_, List.forall_mem_nil _⟩
  rw [Tree.sound, Bool.and_eq_true, Bool.and_eq_true]
  exact ⟨⟨rfl, formed_leaf (by simp)⟩, hself.2⟩

def asObject (ps : Pieces) : Pieces :=
  ps.map fun t => if t.is .nestedIdentifier then t.withKind .memberExpression else t

/-- A dotted name that is an object is still one node, and tiles the same text. -/
theorem Dotted.asObject {ps rest : Pieces} {m n : Nat} (h : Dotted src ps)
    (ht : Tiled src m n (ps ++ rest)) :
    Tiled src m n (asObject ps ++ rest) ∧ Grade.one.Holds src (asObject ps) := by
  obtain ⟨cs, t, rfl, hall, hc⟩ := h.one.own rfl
  have hcs : cs.map (fun t => if t.is .nestedIdentifier then t.withKind .memberExpression else t) = cs := by
    refine (List.map_congr_left fun c hc => if_neg ?_).trans (List.map_id cs)
    have hkind := hall c hc
    rw [Tree.is, beq_iff_eq] at hkind
    simp [Tree.is, hkind]
  rw [Grammar.asObject, List.map_append, hcs, List.map_singleton]
  split
  · rename_i hnested
    have hsame : (t.withKind .memberExpression).start = t.start ∧
        (t.withKind .memberExpression).stop = t.stop ∧
        (t.withKind .memberExpression).role = t.role := by
      cases t
      exact ⟨rfl, rfl, rfl⟩
    have hsound := h.sound t (by simp) hnested (ht.sound (by simp))
    have hbare := (Tree.everyNode_iff.1 hsound).1
    simp only [Tree.sound, Bool.and_eq_true] at hbare
    have hcomment : (t.withKind .memberExpression).is .comment = false := by
      cases t
      rfl
    have hrole : t.role = none := by
      cases hr : t.role with
      | none => rfl
      | some r => exact absurd (h.one.roles t (by simp) r hr) (by simp [Grade.one])
    constructor
    · rw [List.append_assoc, List.singleton_append] at ht ⊢
      exact ht.replace hsame.1 hsame.2.1 hsound
    · refine Grade.one_holds (h.one.comments rfl) hall hcomment hbare.1.1 ?_ (hsame.2.2.trans hrole)
      rw [Tree.edged, hsame.1, hsame.2.1]
      exact h.one.edged rfl t (by simp)
  · exact ⟨ht, h.one⟩

theorem Dotted.wrap {ps rest : Pieces} {a : Grade} {m n : Nat} (h : Dotted src ps)
    (hrest : a.Holds src rest) (ha : (a.sound && a.edged && a.inert) = true)
    (ht : Tiled src m n (ps ++ rest)) :
    Tiled src m n (wrap .nestedIdentifier (mapLast (Tree.withRole .object) (Grammar.asObject ps) ++ rest)) ∧
      Dotted src (wrap .nestedIdentifier (mapLast (Tree.withRole .object) (Grammar.asObject ps) ++ rest)) := by
  obtain ⟨htiled, hone⟩ := h.asObject ht
  obtain ⟨b, hl, hr⟩ := htiled.split
  have htiled := (hl.inRole (r := .object) hone rfl).append hr
  have hholds := (hone.inRole (r := .object) rfl).append hrest
  simp only [Bool.and_eq_true] at ha
  have hfits : ∀ k ∈ [NodeKind.nestedIdentifier, .memberExpression],
      ((((Grade.one.inRole .object).andThen a).node k).sound) = true := by
    intro k hk
    simp only [List.mem_cons, List.not_mem_nil, or_false] at hk
    rcases hk with rfl | rfl <;>
      simp [Grade.node, Grade.andThen, Grade.inRole, Grade.fits, Grade.one, Grade.several, Grade.any,
        Grade.apart, Tree.blockKinds, ha]
  obtain ⟨h1, h2⟩ := htiled.around hholds (hfits .nestedIdentifier (by simp))
  obtain ⟨h3, -⟩ := htiled.around hholds (hfits .memberExpression (by simp))
  refine ⟨h1, h2.mono (Grade.node_le (hfits _ (by simp))), fun t hmem hnested _ => ?_⟩
  -- as an object it is the node that is put around the same pieces for an access
  rw [Grammar.wrap] at hmem
  rcases List.mem_append.1 hmem with hmem | hmem
  · have hcomment := List.all_eq_true.1 List.all_takeWhile t hmem
    simp only [Tree.is, beq_iff_eq] at hcomment hnested
    rw [hcomment] at hnested
    cases hnested
  · rw [List.mem_singleton.1 hmem]
    exact h3.sound (List.mem_append_right _ (List.mem_singleton_self _))

theorem dottedType_after {n : Nat} {qualifier : Pieces} (h : Dotted src qualifier) :
    After src qualifier (dottedType n qualifier) (Grade.one.Holds src) := by
  induction n generalizing qualifier with
  | zero => exact .fail
  | succ n ih =>
    refine .bind rfl fun dot hdot => .peek .ahead fun v => .ite ?_ ?_
    · refine .bind rfl fun property hproperty => ?_
      rw [List.append_assoc]
      refine .recast (fun m n ht => ?_) fun hdotted => ih hdotted
      have hrest := hdot.append (hproperty.inRole (r := .property) rfl)
      rw [List.append_assoc]
      obtain ⟨b, hl, hr⟩ := ht.split
      obtain ⟨b', hl', hr'⟩ := hr.split
      exact h.wrap hrest rfl (hl.append (hl'.append (hr'.inRole hproperty rfl)))
    · exact .bind rfl fun last hlast => .wrap ((h.one.append hdot).append hlast) rfl

instance typeReference_yields : Yields src (typeReference g) .one where
  after _ := by
    have hargs : ∀ {named : Pieces}, Grade.one.Holds src named → After src named (do
        if ← ahead (sym "<") then
          (do
            let args ← inRole .typeArguments (g.rule .typeArguments)
            return wrap .genericType (mapLast (Tree.withRole .name) named ++ args)) <|> return named
        else return named) (Grade.one.Holds src) := fun hnamed =>
      .peek .ahead fun _ => .ite (.orElse (.bind rfl fun _ h => .wrapRole hnamed h rfl rfl)
        (.pure hnamed)) (.pure hnamed)
    refine .peek .ahead fun v => .ite ?_ ?_
    · exact .start rfl fun first hfirst => .onward (dottedType_after (.of_leaf (hfirst.mono rfl))) fun _ h => hargs h
    · exact .start rfl fun _ h => hargs (h.mono rfl)

theorem joined_after {text : String} {ps qs : Pieces} (hps : (Grade.leaf true true).Holds src ps)
    (hqs : (Grade.leaf true true).Holds src qs) : After src (ps ++ qs)
      (match ps.getLast?, qs.getLast? with
        | some t, some u => return ps.dropLast ++ [.node (.token text) none t.start u.stop []]
        | _, _ => failure) (Grade.one.Holds src) := by
  obtain ⟨cs, t, rfl, hall, hc⟩ := hps.own rfl
  obtain ⟨cs', u, rfl, hall', hc'⟩ := hqs.own rfl
  simp only [List.getLast?_append_cons, List.getLast?_singleton, List.dropLast_concat]
  intro o c ps c' hat htiled h
  obtain ⟨rfl, rfl⟩ := Prod.mk.inj (pure_inv h)
  rw [List.append_assoc] at htiled
  obtain ⟨m, hcs, ⟨hblank, -, -, hbehind⟩⟩ := htiled.split
  obtain ⟨m', hnotes, ⟨hblank', hle, -, hrest⟩⟩ :=
    (show Tiled src _ _ (cs' ++ [u]) from hbehind).split
  obtain ⟨x, hx⟩ := hblank.right
  obtain ⟨y, hy⟩ := Tiled.left hrest
  have h1 := hps.edged rfl t (by simp)
  have h2 := hqs.edged rfl u (by simp)
  simp only [Tree.edged, Bool.and_eq_true, decide_eq_true_eq] at h1 h2
  have hlt : t.start < u.stop := by
    have := hnotes.le
    have := hblank'.le
    omega
  obtain ⟨z, rfl, hwidth⟩ := hx.between hy hlt.le
  refine ⟨hat, hcs.append ⟨hblank, hlt.le, ?_, hrest⟩, Grade.one_holds (hps.comments rfl) hall rfl rfl ?_ rfl⟩
  · rw [hwidth]
    exact sound_leaf hx (by simp) (.inr rfl)
  · simp only [Tree.edged, Bool.and_eq_true, decide_eq_true_eq]
    exact ⟨⟨hlt, h1.1.2⟩, h2.2⟩

instance predefinedType_yields : Yields src predefinedType .one where
  after _ := by
    refine .node (a := .one) (.orElse (.grade rfl rfl) ?_) rfl
    exact .start rfl fun a ha => .bind rfl fun b hb => joined_after (ha.mono rfl) (hb.mono rfl)

instance primaryType_yields : Yields src (primaryType g) .one := by
  unfold primaryType
  exact .mono rfl

instance bracketedType_yields : Yields src (bracketedType g) .one where
  after _ := by
    unfold bracketedType
    refine .start rfl fun inner hinner => .extend hinner fun ps hps => .peek .brokenHere fun v =>
      .peek .require fun _ => .bind rfl fun mark hmark => .orElse ?_ ?_
    · exact .bind rfl fun close hclose => .wrap ((hps.append hmark).append hclose) rfl
    · exact .bind rfl fun index hindex => .bind rfl fun close hclose =>
        .wrap (((hps.append hmark).append hindex).append hclose) rfl

instance typeOperand_yields : Yields src (typeOperand g) .one := by
  unfold typeOperand
  exact .mono rfl

omit [Sound src g] in
theorem joinedType_yields {k : NodeKind} {operator : String} {operand : Parser Pieces}
    [Yields src operand .one] (ho : isMark operator = true) (hk : Grade.plain k = true) :
    Yields src (joinedType g k operator operand) .one where
  after _ := by
    have hop : ((Grade.token operator).andThen (Grade.one.andThen .nil)).sound = true := by
      change (isMark operator && _) = true
      rw [ho]
      rfl
    refine .andThen (.orElse (.node (Yields.after hop) (Grade.node_sound ?_ hk)) (.grade rfl rfl))
      fun first hfirst => .extend hfirst fun ps hps => .bind (a := .token operator) ho fun bar hbar =>
      .bind rfl fun right hright => .wrap ((hps.append hbar).append hright) (Grade.node_sound ?_ hk)
    · rw [hop]
      rfl
    · change (((true && isMark operator) && true) && _ && _) = true
      rw [ho]
      rfl

instance unionType_yields : Yields src (unionType g) .one :=
  have : Yields src (joinedType g .intersectionType "&" (g.rule .typeOperand)) .one :=
    joinedType_yields rfl rfl
  joinedType_yields rfl rfl

instance type_yields : Yields src (type g) .one where
  after _ := .start rfl fun _ hleft => .orElse (.peek .brokenHere fun _ => .peek .require fun _ =>
    .bind rfl fun _ htest => .wrap (hleft.append htest) rfl) (.pure hleft)

end Types

end OrmCodemod.Syntax.Grammar
