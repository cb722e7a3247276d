import OrmCodemod.Proofs.Grammar.Elements

/-! What the productions of statements and declarations give. -/

namespace OrmCodemod.Syntax.Grammar

open Text

section Statements

variable {src : List Char} {g : Context} [Sound src g]

instance block_yields {operand : Bool} : Yields src (block g operand) .one := by
  unfold block
  exact .mono rfl

instance condition_yields : Yields src (condition g) .one := parenthesized_yields

instance declarator_yields : Yields src (declarator g) .one := by
  unfold declarator
  exact .mono rfl

omit [Sound src g] in
theorem declarationKeyword_after {c c' : Cursor} {k : NodeKind} {keyword : Pieces} (hc : At src c)
    (h : declarationKeyword c = some ((k, keyword), c')) :
    At src c' ∧ Tiled src c.pos c'.pos keyword ∧ Grade.one.Holds src keyword ∧ Grade.plain k = true := by
  have hword : ∀ {p : Parser Pieces} {k' : NodeKind}, After src [] p (Grade.one.Holds src) →
      Grade.plain k' = true →
      (do return (k', ← p) : Parser (NodeKind × Pieces)) c = some ((k, keyword), c') →
      At src c' ∧ Tiled src c.pos c'.pos keyword ∧ Grade.one.Holds src keyword ∧ Grade.plain k = true := by
    intro p k' hp hk hr
    obtain ⟨ps, c1, h1, h2⟩ := bind_inv hr
    obtain ⟨hr, rfl⟩ := Prod.mk.inj (pure_inv h2)
    obtain ⟨rfl, rfl⟩ := Prod.mk.inj hr
    obtain ⟨hc', htiled, hholds⟩ := hp c.pos c keyword c' hc (.refl hc) h1
    exact ⟨hc', htiled, hholds, hk⟩
  rcases orElse_inv h with h | h
  · exact hword (.grade rfl rfl) rfl h
  · exact hword (.grade rfl rfl) rfl h

instance variableDeclaration_yields : Yields src (variableDeclaration g) .one where
  after _ := by
    intro o c ps c' hc hacc h
    obtain ⟨⟨k, keyword⟩, c1, h1, h2⟩ := bind_inv h
    obtain ⟨hc1, htiled, hkeyword, hk⟩ := declarationKeyword_after hc h1
    have hrest : After src keyword (do
        let list ← seq [declarator g, many g.bound (seq [sym ",", declarator g])]
        return wrap k (keyword ++ list ++ (← semicolon g (endsInValue list)))) (Grade.one.Holds src) :=
      .bind rfl fun _ hlist => .bind rfl fun _ hend =>
        .wrap ((hkeyword.append hlist).append hend) (Grade.node_sound rfl hk)
    exact hrest o c1 ps c' hc1 (htiled.blank_left hacc) h2

instance functionDeclaration_yields : Yields src (functionDeclaration g) .one where
  after _ := by
    refine .start rfl fun head hhead => .bind rfl fun star hstar => .bind rfl fun signature hsignature =>
      .orElse (.bind rfl fun body hbody => .wrap (((hhead.append hstar).append hsignature).append hbody) ?_) ?_
    · split <;> rfl
    · refine .require fun hplain => ?_
      obtain rfl := List.isEmpty_iff.1 (Bool.and_eq_true_iff.1 hplain).2
      rw [List.append_nil]
      exact .bind rfl fun _ hend => .wrap ((hhead.append hsignature).append hend) rfl

theorem classDeclaration_after {marks : Pieces} (h : Grade.any.Holds src marks) :
    After src marks (classDeclaration g marks) (Grade.one.Holds src) :=
  .choice_cons (.peek .require fun _ => .bind rfl fun _ hclass => .wrap (h.append hclass) rfl)
    (.choice_cons (.bind rfl fun _ hclass => .wrap (h.append hclass) rfl) .choice_nil)

instance enumMember_yields : Yields src (enumMember g) { Grade.one with roles := [.name] } where
  after _ := .start rfl fun _ hkey => .orElse
    (.bind rfl fun _ hvalue => (After.wrap (hkey.append hvalue) rfl).mono fun _ h => h.mono rfl)
    (.pure (hkey.mono rfl))

instance enumDeclaration_yields : Yields src (enumDeclaration g) .one := by
  unfold enumDeclaration
  exact .mono rfl

instance interfaceDeclaration_yields : Yields src (interfaceDeclaration g) .one := by
  unfold interfaceDeclaration
  exact .mono rfl

instance typeAlias_yields : Yields src (typeAlias g) .one := by
  unfold typeAlias
  exact .mono rfl

omit [Sound src g] in
instance dottedName_yields : Yields src (dottedName g) .one where
  after _ := by
    refine .start rfl fun start hstart => (After.extend (.of_leaf (hstart.mono rfl)) fun ps h =>
      .bind rfl fun rest hrest => ?_).mono fun _ h => Dotted.one h
    exact .recast (fun m n ht => h.wrap hrest rfl ht) fun h => .pure h

instance moduleTail_yields : Yields src (moduleTail g) .several := by
  unfold moduleTail
  exact .mono rfl

instance namespaceDeclaration_yields : Yields src (namespaceDeclaration g) .one := by
  unfold namespaceDeclaration
  exact .mono rfl

instance namespaceStatement_yields : Yields src (namespaceStatement g) .one where
  after _ := .start rfl fun _ h => .orElse (.bind rfl fun _ hend => .wrap (h.append hend) rfl) (.pure h)

instance moduleDeclaration_yields : Yields src (moduleDeclaration g) .one := by
  unfold moduleDeclaration
  exact .mono rfl

instance importAlias_yields : Yields src (importAlias g) .one := by
  unfold importAlias
  exact .mono rfl

instance plainDeclaration_yields : Yields src (plainDeclaration g) .one where
  after _ := by
    refine .peek .nextWord fun w => ?_
    split
    · exact .grade rfl rfl
    · exact .grade rfl rfl
    · exact .grade rfl rfl
    · exact .grade rfl rfl
    · exact .grade rfl rfl
    · exact .grade rfl rfl
    · exact .grade rfl rfl
    · exact .grade rfl rfl
    · exact .grade rfl rfl
    · exact .grade rfl rfl
    · exact .grade rfl rfl
    · exact .fail

instance classDeclaration_yields : Yields src (classDeclaration g []) .one where
  after _ := classDeclaration_after (Grade.holds_nil.mono rfl)

instance ambientDeclaration_yields : Yields src (ambientDeclaration g) .one := by
  unfold ambientDeclaration
  exact .mono rfl

instance declaration_yields : Yields src (declaration g) .one where
  after _ := .choice_cons (.start rfl fun _ h => classDeclaration_after h)
    (.choice_cons (.grade rfl rfl) (.choice_cons (.grade rfl rfl) .choice_nil))

instance fromClause_yields : Yields src (fromClause g) Grade.several.still := by
  unfold fromClause
  exact .mono rfl

instance exportName_yields : Yields src (exportName g) Grade.one.still := by
  unfold exportName
  exact .mono rfl

instance typeMark_yields : Yields src (typeMark g) Grade.any.still := by
  unfold typeMark
  exact .mono rfl

omit [Sound src g] in
theorem renamed_yields {k : NodeKind} {target : Parser Pieces} [Yields src target Grade.one.still]
    (hk : k = .exportSpecifier ∨ k = .importSpecifier) :
    Yields src (renamed k g target) Grade.one.still := by
  rcases hk with rfl | rfl <;> unfold renamed <;> exact .mono rfl

instance exportClause_yields : Yields src (exportClause g) .one := by
  have : Yields src (renamed .exportSpecifier g (exportName g)) Grade.one.still := renamed_yields (.inl rfl)
  unfold exportClause
  exact .mono rfl

instance namedImports_yields : Yields src (namedImports g) Grade.one.still := by
  have : Yields src (name .identifier) Grade.one.still := .mono rfl
  have : Yields src (renamed .importSpecifier g (name .identifier)) Grade.one.still :=
    renamed_yields (.inr rfl)
  unfold namedImports
  exact .mono rfl

instance namespaceImport_yields : Yields src namespaceImport Grade.one.still := by
  unfold namespaceImport
  exact .mono rfl

instance importClause_yields : Yields src (importClause g) Grade.one.still := by
  unfold importClause
  exact .mono rfl

instance importAttribute_yields : Yields src (importAttribute g) { Grade.one with importing := true } := by
  unfold importAttribute
  exact .mono rfl

instance importRequire_yields : Yields src (importRequire g) Grade.one.still := by
  unfold importRequire
  exact .mono rfl

instance importStatement_yields : Yields src (importStatement g) .one := by
  unfold importStatement
  exact .mono rfl

theorem exportStatement_after {marks : Pieces} (h : Grade.any.Holds src marks) :
    After src marks (exportStatement g marks) (Grade.one.Holds src) :=
  .bind rfl fun _ hkeyword => .bind rfl fun _ hrest => .wrap ((h.append hkeyword).append hrest) rfl

instance elseClause_yields : Yields src (elseClause g) .one := by
  unfold elseClause
  exact .mono rfl

instance ifStatement_yields : Yields src (ifStatement g) .one := by
  unfold ifStatement
  exact .mono rfl

instance switchClause_yields : Yields src (switchClause g) .one := by
  unfold switchClause
  exact .mono rfl

instance switchStatement_yields : Yields src (switchStatement g) .one := by
  unfold switchStatement
  exact .mono rfl

instance forInHeader_yields : Yields src (forInHeader g) .several := by
  unfold forInHeader
  exact .mono rfl

instance emptyStatement_yields : Yields src emptyStatement .one := by
  unfold emptyStatement
  exact .mono rfl

instance forStatement_yields : Yields src (forStatement g) .one where
  after _ := .start rfl fun _ h => .orElse (.bind rfl fun _ hhead => .wrap (h.append hhead) rfl)
    (.bind rfl fun _ hhead => .wrap (h.append hhead) rfl)

instance tryStatement_yields : Yields src (tryStatement g) .one := by
  unfold tryStatement
  exact .mono rfl

omit [Sound src g] in
theorem jump_yields {k : NodeKind} {keyword : String} (hk : Grade.plain k = true)
    (hmark : isMark keyword = true) : Yields src (jump g k keyword) .one where
  after _ := by
    have hword : Yields src (word keyword) (.token keyword) := word_yields
    rw [Grade.token, hmark] at hword
    exact .node (a := .several) (.grade rfl rfl) (Grade.node_sound rfl hk)

instance returnStatement_yields : Yields src (returnStatement g) .one where
  after _ := by
    refine .start rfl fun keyword hkeyword => .peek .brokenHere fun v => .ite ?_ ?_
    · exact .bind rfl fun _ hvalue => .bind rfl fun _ hend => .wrap ((hkeyword.append hvalue).append hend) rfl
    · exact .bind rfl fun _ hvalue => .bind rfl fun _ hend => .wrap ((hkeyword.append hvalue).append hend) rfl

instance labeledStatement_yields : Yields src (labeledStatement g) .one := by
  unfold labeledStatement
  exact .mono rfl

instance expressionStatement_yields : Yields src (expressionStatement g) .one := by
  unfold expressionStatement
  exact .mono rfl

instance decoratedStatement_yields : Yields src (decoratedStatement g) .one where
  after _ := by
    have hmarks : Yields src (onlyAhead (sym "@") *> g.rule .decorators) .any :=
      ⟨fun _ => .peek (Still.check .ahead) fun _ => .grade rfl rfl⟩
    exact .start rfl fun _ h => .orElse (exportStatement_after h) (classDeclaration_after h)

instance wordStatement_yields {w : String} : Yields src (wordStatement g w) .one where
  after _ := by
    unfold wordStatement
    split
    · exact .grade rfl rfl
    · exact exportStatement_after (Grade.holds_nil.mono rfl)
    · exact .grade rfl rfl
    · exact .grade rfl rfl
    · exact .grade rfl rfl
    · exact .grade rfl rfl
    · exact .grade rfl rfl
    · exact .grade rfl rfl
    · exact .grade rfl rfl
    · exact (jump_yields rfl rfl).after rfl
    · exact (jump_yields rfl rfl).after rfl
    · exact .grade rfl rfl
    · exact .grade rfl rfl
    · exact .grade rfl rfl
    · exact .grade rfl rfl
    · exact .grade rfl rfl
    · exact .grade rfl rfl
    · exact .grade rfl rfl
    · exact .grade rfl rfl

instance statement_yields : Yields src (statement g) .one where
  after _ := by
    refine .peek .nextChars fun cs => ?_
    split
    · exact .fail
    · exact .grade rfl rfl
    · exact .fail
    · exact .grade rfl rfl
    · exact .grade rfl rfl
    · exact .ite .fail (.ite (.grade rfl rfl) (.grade rfl rfl))

end Statements

end OrmCodemod.Syntax.Grammar
