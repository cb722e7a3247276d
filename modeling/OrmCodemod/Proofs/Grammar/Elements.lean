import OrmCodemod.Proofs.Grammar.Expressions

/-! What the productions of markup give. -/

namespace OrmCodemod.Syntax.Grammar

open Text

section Elements

variable {src : List Char} {g : Context}

instance markupName_yields {k : NodeKind} :
    Yields src (markupName k) (.leaf (isLeafKind (.named k)) true) where
  after hs := by
    have hk : isLeafKind (.named k) = true := hs
    rw [hk]
    refine leaf_after hk fun c r h => ?_
    obtain ⟨cs, c1, h1, h2⟩ := bind_inv h
    obtain ⟨c2, c3, h3, h4⟩ := bind_inv h2
    obtain ⟨rfl, rfl⟩ := get_inv h3
    obtain ⟨u, c4, h5, h6⟩ := bind_inv h4
    obtain ⟨hpos, hc⟩ := require_inv h5
    obtain ⟨-, rfl⟩ := Prod.mk.inj hc
    obtain ⟨t, c5, h7, h8⟩ := bind_inv h6
    obtain ⟨rfl, rfl⟩ := Prod.mk.inj (leaf_inv h7)
    have hsolid : SolidFor c4.rest (nameLength c4.rest) := fun x hx => (inName_solid (inName_of_mem hx)).1
    refine ⟨cs, c4, _, .inr h1, fun _ => .of_solid (fun hnil => ?_) (hsolid.add (.takeWhile fun x hx => ?_)),
      pure_inv h8⟩
    · rw [decide_eq_true_eq] at hpos
      rcases List.take_eq_nil_iff.1 hnil with h0 | h0
      · omega
      · rw [h0] at hpos
        exact absurd hpos (by decide)
    · rcases Bool.or_eq_true_iff.1 hx with hx | hx
      · exact (inName_solid hx).1
      · rw [beq_iff_eq.1 hx]
        rfl

instance markupNamespace_yields : Yields src markupNamespace .one := by
  unfold markupNamespace
  exact .mono rfl

instance elementName_yields : Yields src (elementName g) .one where
  after _ := .choice_cons (.grade rfl rfl) (.choice_cons
    (.start rfl fun _ h => .peek .get fun _ => .peek .require fun _ =>
      .extend (h.mono rfl) fun _ hps => .bind rfl fun _ hrest => .wrapRole hps hrest rfl rfl)
    (.choice_cons (.grade rfl rfl) .choice_nil))

instance markupText_yields : Yields src markupText (.leaf true false) where
  after _ := by
    refine leaf_after (k := .named .jsxText) rfl fun c r h => ?_
    obtain ⟨c1, c2, h1, h2⟩ := bind_inv h
    obtain ⟨rfl, rfl⟩ := get_inv h1
    obtain ⟨u, c3, h3, h4⟩ := bind_inv h2
    obtain ⟨-, rfl⟩ := Prod.mk.inj (require_inv h3).2
    split at h4
    · obtain ⟨u, c4, -, h5⟩ := bind_inv h4
      cases h5
    · exact ⟨[], _, _, .inl ⟨rfl, rfl⟩, Grade.unsaid, leaf_inv h4⟩

instance entity_yields : Yields src entity (.leaf true false) where
  after _ := by
    refine leaf_after (k := .named .htmlCharacterReference) rfl fun c r h => ?_
    obtain ⟨c1, c2, h1, h2⟩ := bind_inv h
    obtain ⟨rfl, rfl⟩ := get_inv h1
    obtain ⟨rest, pos, breaks⟩ := c
    dsimp only at h2
    split at h2
    · obtain ⟨u, c3, h3, h4⟩ := bind_inv h2
      obtain ⟨-, rfl⟩ := Prod.mk.inj (require_inv h3).2
      exact ⟨[], _, _, .inl ⟨rfl, rfl⟩, Grade.unsaid, leaf_inv h4⟩
    · cases h2

instance markupString_yields {quote : Char} : Yields src (markupString g quote) (.string quote) :=
  quoted_yields

variable [Sound src g]

instance markupExpression_yields : Yields src (markupExpression g) .one := by
  unfold markupExpression
  exact .mono rfl

instance attribute_yields : Yields src (attribute_ g) .one := by
  unfold attribute_
  exact .mono rfl

instance markupChild_yields : Yields src (markupChild g) { Grade.one with edged := false } := by
  unfold markupChild
  exact .mono rfl

/-- A node is put around whatever stands between pieces at its ends. -/
theorem After.enclosed {k : NodeKind} {l m r : Pieces} (hl : Grade.one.Holds src l)
    (hm : ∀ t ∈ m, t.bare = true) (hr : Grade.one.Holds src r) (hk : Grade.plain k = true) :
    After src (l ++ m ++ r) (return Grammar.wrap k (l ++ m ++ r)) (Grade.one.Holds src) := by
  intro o c ps c' hc hacc h
  obtain ⟨rfl, rfl⟩ := Prod.mk.inj (pure_inv h)
  exact ⟨hc, hacc.enclosed hl rfl hr rfl hm hk⟩

instance element_yields : Yields src (element g) .one where
  after _ := .start rfl fun _ hopening => .orElse (.bind rfl fun _ hend => .wrap (hopening.append hend) rfl)
    (.bind rfl fun _ hend => .rewrap (hopening.append hend) rfl fun hstart => .bind rfl fun _ hinner =>
      .bind rfl fun _ hclose => .enclosed hstart hinner.bare (hclose.mono rfl) rfl)

end Elements

end OrmCodemod.Syntax.Grammar
