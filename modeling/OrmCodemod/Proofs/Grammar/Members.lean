import OrmCodemod.Proofs.Grammar.Types

/-! What the productions of patterns, parameters and members give. -/

namespace OrmCodemod.Syntax.Grammar

open Text

section Members

variable {src : List Char} {g : Context} [Sound src g]

instance privateName_yields : Yields src privateName (.leaf true true) where
  after _ := by
    refine leaf_after (k := .named .privatePropertyIdentifier) rfl fun c r h => ?_
    obtain ⟨cs, c1, h1, h2⟩ := bind_inv h
    obtain ⟨c2, c3, h3, h4⟩ := bind_inv h2
    obtain ⟨rfl, rfl⟩ := get_inv h3
    obtain ⟨rest, pos, breaks⟩ := c1
    dsimp only at h4
    split at h4
    · rename_i x more
      obtain ⟨u, c4, h5, h6⟩ := bind_inv h4
      obtain ⟨hn, hr⟩ := require_inv h5
      obtain ⟨rfl, rfl⟩ := Prod.mk.inj hr
      obtain ⟨t, c5, h7, h8⟩ := bind_inv h6
      obtain ⟨rfl, rfl⟩ := Prod.mk.inj (leaf_inv h7)
      refine ⟨cs, _, _, .inr h1, fun _ => ?_, pure_inv h8⟩
      refine .of_solid (by simp) fun c hc => ?_
      rcases List.mem_cons.1 hc with rfl | hc
      · rfl
      · exact (inName_solid (inName_of_mem hc)).1
    · cases h4

instance propertyName_yields : Yields src (propertyName g) .one := by
  unfold propertyName
  exact .mono rfl

theorem propertyName_keys : After src [] (propertyName g) Keyed :=
  have plain : ∀ {p : Parser Pieces} {a : Grade} [Yields src p a],
      (a.sound && a.inert) = true → After src [] p Keyed := fun {p a} _ ha =>
    have ⟨hs, hb⟩ := Bool.and_eq_true_iff.1 ha
    (Yields.after hs).mono fun _ h => .inl fun t ht => Grade.blockless_of_inert (h.inert hb t ht)
  .choice_cons (plain rfl) (.choice_cons (plain rfl) (.choice_cons (plain rfl) (.choice_cons (plain rfl)
    (.choice_cons (fun o c ps c' hc hacc h => by
      obtain ⟨h1, h2, -⟩ := After.node (k := .computedPropertyName) (a := .several) (.grade rfl rfl) rfl
        o c ps c' hc hacc h
      exact ⟨h1, h2, .inr (Concludes.node (fun _ => is_nodeOf_self) c ps c' trivial h)⟩) .choice_nil))))

instance identifier_yields : Yields src identifier .one := by
  unfold identifier
  exact .mono rfl

instance initializer_yields : Yields src (initializer g) .several := by
  unfold initializer
  exact .mono rfl

instance patternWithDefault_yields : Yields src (patternWithDefault g) .one where
  after _ := .start rfl fun _ hleft =>
    .orElse (.bind rfl fun _ hrest => .wrap (hleft.append hrest) rfl) (.pure hleft)

instance patternEntry_yields : Yields src (patternEntry g) .one := by
  unfold patternEntry
  exact .mono rfl

instance objectPattern_yields : Yields src (objectPattern g) .one := by
  unfold objectPattern
  exact .mono rfl

instance arrayPattern_yields : Yields src (arrayPattern g) .one := by
  unfold arrayPattern
  exact .mono rfl

instance assignable_yields : Yields src (assignable g) .one where
  after _ := .peek .nextWord fun _ => .peek .require fun _ => .start rfl fun _ h =>
    .peek .require fun _ => .pure h

instance pattern_yields : Yields src (pattern g) .one := by
  unfold pattern
  exact .mono rfl

instance decorator_yields : Yields src (decorator g) .one where
  after _ := by
    refine .node (a := .several) (.start rfl fun mark hmark => .peek .ahead fun v => .ite ?_ ?_) rfl
    · exact .bind rfl fun _ hinner => .pure ((hmark.append hinner).mono rfl)
    · have hpath : ∀ {start : Pieces}, Grade.one.Holds src start → After src start
          (extend g.bound (fun ps => do
            let rest ← seq [symNot "." ".", inRole .property (name .propertyIdentifier)]
            return wrap .memberExpression (mapLast (Tree.withRole .object) ps ++ rest)) start)
          (Grade.one.Holds src) := fun h =>
        .extend h fun _ hps => .bind rfl fun _ hrest => .wrapRole hps hrest rfl rfl
      refine .bind rfl fun start hstart => .frame (hpath (hstart.mono rfl)) fun path h => .orElse ?_ ?_
      · refine .bind rfl fun args hargs => ?_
        rw [List.append_assoc]
        exact .frame (.wrapRole h hargs rfl rfl) fun _ hcall => .pure ((hmark.append hcall).mono rfl)
      · exact .pure ((hmark.append h).mono rfl)

instance decorators_yields : Yields src (decorators g) .any := by
  unfold decorators
  exact .mono rfl

instance accessibility_yields : Yields src accessibility .one := by
  unfold accessibility
  exact .mono rfl

instance overrideMark_yields : Yields src overrideMark .one := by
  unfold overrideMark
  exact .mono rfl

instance typedParameter_yields : Yields src (typedParameter g) .one where
  after _ := by
    refine .start rfl fun head hhead => .bind rfl fun optional hoptional => .bind rfl fun tail htail =>
      .wrap ((hhead.append hoptional).append htail) ?_
    split <;> rfl

instance parameters_yields : Yields src (parameters g) .one := by
  unfold parameters
  exact .mono rfl

instance method_yields : Yields src (method g) .one := by
  unfold method
  exact .mono rfl

instance methodSignature_yields : Yields src (methodSignature g) .one := by
  unfold methodSignature
  exact .mono rfl

instance abstractMethod_yields : Yields src (abstractMethod g) .one := by
  unfold abstractMethod
  exact .mono rfl

instance typedField_yields : Yields src (typedField g) .several := by
  unfold typedField
  exact .mono rfl

instance fieldEnd_yields {field : Pieces} : Yields src (fieldEnd g field) .any := by
  unfold fieldEnd
  exact .mono rfl

instance typedMember_yields : Yields src (typedMember g) .any where
  after _ := by
    refine .start rfl fun marks hmarks => ?_
    refine .choice_cons ?_ (.choice_cons ?_ (.choice_cons ?_ (.choice_cons ?_ (.choice_cons ?_
      (.choice_cons ?_ (.choice_cons ?_ (.choice_cons ?_ .choice_nil)))))))
    · exact .bind rfl fun _ h => .pure ((hmarks.append h).mono rfl)
    · exact .bind rfl fun _ h => .pure ((hmarks.append h).mono rfl)
    · exact .bind rfl fun _ h => .bind rfl fun _ h' => .pure (((hmarks.append h).append h').mono rfl)
    · exact .bind rfl fun _ h => .bind rfl fun _ h' => .pure (((hmarks.append h).append h').mono rfl)
    · exact .bind rfl fun _ h => .bind rfl fun _ h' => .pure (((hmarks.append h).append h').mono rfl)
    · exact .bind rfl fun _ h => .bind rfl fun _ h' => .pure (((hmarks.append h).append h').mono rfl)
    · exact .bind rfl fun _ h => .rewrap (hmarks.append h) rfl fun hfield =>
        .bind rfl fun _ h' => .pure ((hfield.append h').mono rfl)
    · exact .peek .require fun _ => .pure (hmarks.mono rfl)

instance untypedMember_yields : Yields src (untypedMember g) .any where
  after _ := by
    refine .choice_cons (.grade rfl rfl) (.choice_cons (.grade rfl rfl) (.choice_cons ?_
      (.choice_cons ?_ .choice_nil)))
    · exact .start rfl fun _ h => .bind rfl fun _ h' => .pure ((h.append h').mono rfl)
    · exact .start rfl fun _ h => .bind rfl fun _ h' => .pure ((h.append h').mono rfl)

instance classBody_yields : Yields src (classBody g) .one := by
  unfold classBody
  exact .mono rfl

omit [Sound src g] in
theorem either_after {p q : Parser Pieces} [Yields src p .one] [Yields src q .one] :
    After src [] (do
      let above ← opt p
      let kept ← opt q
      require (!(above ++ kept).isEmpty)
      return above ++ kept) (Grade.several.Holds src) := by
  refine .andThen (.opt rfl) fun above habove => .andThen (.opt rfl) fun kept hkept => ?_
  rcases habove with rfl | habove <;> rcases hkept with rfl | hkept
  · exact .fail_bind
  · exact .peek .require fun _ => .pure (hkept.mono rfl)
  · exact .peek .require fun _ => .pure ((habove.append Grade.holds_nil).mono rfl)
  · exact .peek .require fun _ => .pure ((habove.append hkept).mono rfl)

instance classHeritage_yields : Yields src (classHeritage g) .one where
  after _ := .ite (.node either_after rfl) (.grade rfl rfl)

instance classTail_yields : Yields src (classTail g) .several := by
  unfold classTail
  exact .mono rfl

instance className_yields : Yields src (className g) .several := by
  unfold className
  cases g.typed <;> exact .mono rfl

end Members

end OrmCodemod.Syntax.Grammar
