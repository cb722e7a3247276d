/-!
Kinds of syntax nodes, and the roles that children play in their parent. A node is either of one of
the named kinds of the grammar or a bare token, such as a brace or a keyword, whose kind is its own
text.
-/

namespace OrmCodemod.Syntax

/-- The named kinds of the grammar. -/
inductive NodeKind where
  | program | comment | hashBangLine | exportStatement | exportClause | exportSpecifier
  | namespaceExport | importStatement | importClause | importSpecifier | namespaceImport
  | namedImports | importAttribute | importRequireClause | importAlias | importCallee
  | expressionStatement | variableDeclaration | lexicalDeclaration | variableDeclarator
  | statementBlock | elseClause | ifStatement | switchStatement | switchBody | switchCase
  | switchDefault | forStatement | forInStatement | whileStatement | doStatement | tryStatement
  | catchClause | finallyClause | withStatement | breakStatement | continueStatement
  | debuggerStatement | returnStatement | throwStatement | emptyStatement | labeledStatement
  | statementIdentifier | functionDeclaration | generatorFunctionDeclaration
  | functionExpression | generatorFunction | functionSignature | arrowFunction
  | formalParameters | requiredParameter | optionalParameter | classExpr | classDeclaration
  | abstractClassDeclaration | classHeritage | extendsClause | implementsClause | classBody
  | decorator | methodDefinition | methodSignature | abstractMethodSignature
  | publicFieldDefinition | fieldDefinition | classStaticBlock | indexSignature
  | accessibilityModifier | overrideModifier | enumDeclaration | enumBody | enumAssignment
  | interfaceDeclaration | interfaceBody | extendsTypeClause | typeAliasDeclaration
  | ambientDeclaration | moduleDecl | internalModule | identifier | undefinedLiteral | thisExpr
  | superExpr | trueLiteral | falseLiteral | nullLiteral | numberLiteral | stringLiteral
  | stringFragment | escapeSequence | templateString | templateSubstitution | regexLiteral
  | regexPattern | regexFlags | object | pair | shorthandPropertyIdentifier | spreadElement
  | array | propertyIdentifier | privatePropertyIdentifier | computedPropertyName
  | objectPattern | arrayPattern | pairPattern | restPattern | assignmentPattern
  | objectAssignmentPattern | shorthandPropertyIdentifierPattern | parenthesizedExpression
  | sequenceExpression | assignmentExpression | augmentedAssignmentExpression | awaitExpression
  | unaryExpression | binaryExpression | ternaryExpression | updateExpression | newExpression
  | yieldExpression | callExpression | memberExpression | subscriptExpression | optionalChain
  | arguments | metaProperty | asExpression | satisfiesExpression | nonNullExpression
  | instantiationExpression | typeAssertion | typeAscription | typePredicate
  | typePredicateAscription | asserts | assertsAscription | addingTypeAscription
  | optingTypeAscription | omittingTypeAscription | typeIdentifier | predefinedType
  | genericType | nestedTypeIdentifier | nestedIdentifier | typeArguments | typeParameters
  | typeParameter | constraint | defaultType | literalType | thisType | unionType
  | intersectionType | arrayType | tupleType | optionalType | restType | lookupType
  | functionType | constructorType | conditionalType | inferType | readonlyType
  | parenthesizedType | objectType | propertySignature | callSignature | constructSignature
  | mappedTypeClause | typeQuery | indexTypeQuery | templateLiteralType | templateType
  | existentialType | jsxElement | jsxOpeningElement | jsxClosingElement
  | jsxSelfClosingElement | jsxAttribute | jsxExpression | jsxText | jsxNamespaceName
  | htmlCharacterReference
  deriving DecidableEq, Repr

def NodeKind.name : NodeKind → String
  | .program => "program"
  | .comment => "comment"
  | .hashBangLine => "hash_bang_line"
  | .exportStatement => "export_statement"
  | .exportClause => "export_clause"
  | .exportSpecifier => "export_specifier"
  | .namespaceExport => "namespace_export"
  | .importStatement => "import_statement"
  | .importClause => "import_clause"
  | .importSpecifier => "import_specifier"
  | .namespaceImport => "namespace_import"
  | .namedImports => "named_imports"
  | .importAttribute => "import_attribute"
  | .importRequireClause => "import_require_clause"
  | .importAlias => "import_alias"
  | .importCallee => "import"
  | .expressionStatement => "expression_statement"
  | .variableDeclaration => "variable_declaration"
  | .lexicalDeclaration => "lexical_declaration"
  | .variableDeclarator => "variable_declarator"
  | .statementBlock => "statement_block"
  | .elseClause => "else_clause"
  | .ifStatement => "if_statement"
  | .switchStatement => "switch_statement"
  | .switchBody => "switch_body"
  | .switchCase => "switch_case"
  | .switchDefault => "switch_default"
  | .forStatement => "for_statement"
  | .forInStatement => "for_in_statement"
  | .whileStatement => "while_statement"
  | .doStatement => "do_statement"
  | .tryStatement => "try_statement"
  | .catchClause => "catch_clause"
  | .finallyClause => "finally_clause"
  | .withStatement => "with_statement"
  | .breakStatement => "break_statement"
  | .continueStatement => "continue_statement"
  | .debuggerStatement => "debugger_statement"
  | .returnStatement => "return_statement"
  | .throwStatement => "throw_statement"
  | .emptyStatement => "empty_statement"
  | .labeledStatement => "labeled_statement"
  | .statementIdentifier => "statement_identifier"
  | .functionDeclaration => "function_declaration"
  | .generatorFunctionDeclaration => "generator_function_declaration"
  | .functionExpression => "function_expression"
  | .generatorFunction => "generator_function"
  | .functionSignature => "function_signature"
  | .arrowFunction => "arrow_function"
  | .formalParameters => "formal_parameters"
  | .requiredParameter => "required_parameter"
  | .optionalParameter => "optional_parameter"
  | .classExpr => "class"
  | .classDeclaration => "class_declaration"
  | .abstractClassDeclaration => "abstract_class_declaration"
  | .classHeritage => "class_heritage"
  | .extendsClause => "extends_clause"
  | .implementsClause => "implements_clause"
  | .classBody => "class_body"
  | .decorator => "decorator"
  | .methodDefinition => "method_definition"
  | .methodSignature => "method_signature"
  | .abstractMethodSignature => "abstract_method_signature"
  | .publicFieldDefinition => "public_field_definition"
  | .fieldDefinition => "field_definition"
  | .classStaticBlock => "class_static_block"
  | .indexSignature => "index_signature"
  | .accessibilityModifier => "accessibility_modifier"
  | .overrideModifier => "override_modifier"
  | .enumDeclaration => "enum_declaration"
  | .enumBody => "enum_body"
  | .enumAssignment => "enum_assignment"
  | .interfaceDeclaration => "interface_declaration"
  | .interfaceBody => "interface_body"
  | .extendsTypeClause => "extends_type_clause"
  | .typeAliasDeclaration => "type_alias_declaration"
  | .ambientDeclaration => "ambient_declaration"
  | .moduleDecl => "module"
  | .internalModule => "internal_module"
  | .identifier => "identifier"
  | .undefinedLiteral => "undefined"
  | .thisExpr => "this"
  | .superExpr => "super"
  | .trueLiteral => "true"
  | .falseLiteral => "false"
  | .nullLiteral => "null"
  | .numberLiteral => "number"
  | .stringLiteral => "string"
  | .stringFragment => "string_fragment"
  | .escapeSequence => "escape_sequence"
  | .templateString => "template_string"
  | .templateSubstitution => "template_substitution"
  | .regexLiteral => "regex"
  | .regexPattern => "regex_pattern"
  | .regexFlags => "regex_flags"
  | .object => "object"
  | .pair => "pair"
  | .shorthandPropertyIdentifier => "shorthand_property_identifier"
  | .spreadElement => "spread_element"
  | .array => "array"
  | .propertyIdentifier => "property_identifier"
  | .privatePropertyIdentifier => "private_property_identifier"
  | .computedPropertyName => "computed_property_name"
  | .objectPattern => "object_pattern"
  | .arrayPattern => "array_pattern"
  | .pairPattern => "pair_pattern"
  | .restPattern => "rest_pattern"
  | .assignmentPattern => "assignment_pattern"
  | .objectAssignmentPattern => "object_assignment_pattern"
  | .shorthandPropertyIdentifierPattern => "shorthand_property_identifier_pattern"
  | .parenthesizedExpression => "parenthesized_expression"
  | .sequenceExpression => "sequence_expression"
  | .assignmentExpression => "assignment_expression"
  | .augmentedAssignmentExpression => "augmented_assignment_expression"
  | .awaitExpression => "await_expression"
  | .unaryExpression => "unary_expression"
  | .binaryExpression => "binary_expression"
  | .ternaryExpression => "ternary_expression"
  | .updateExpression => "update_expression"
  | .newExpression => "new_expression"
  | .yieldExpression => "yield_expression"
  | .callExpression => "call_expression"
  | .memberExpression => "member_expression"
  | .subscriptExpression => "subscript_expression"
  | .optionalChain => "optional_chain"
  | .arguments => "arguments"
  | .metaProperty => "meta_property"
  | .asExpression => "as_expression"
  | .satisfiesExpression => "satisfies_expression"
  | .nonNullExpression => "non_null_expression"
  | .instantiationExpression => "instantiation_expression"
  | .typeAssertion => "type_assertion"
  | .typeAscription => "type_annotation"
  | .typePredicate => "type_predicate"
  | .typePredicateAscription => "type_predicate_annotation"
  | .asserts => "asserts"
  | .assertsAscription => "asserts_annotation"
  | .addingTypeAscription => "adding_type_annotation"
  | .optingTypeAscription => "opting_type_annotation"
  | .omittingTypeAscription => "omitting_type_annotation"
  | .typeIdentifier => "type_identifier"
  | .predefinedType => "predefined_type"
  | .genericType => "generic_type"
  | .nestedTypeIdentifier => "nested_type_identifier"
  | .nestedIdentifier => "nested_identifier"
  | .typeArguments => "type_arguments"
  | .typeParameters => "type_parameters"
  | .typeParameter => "type_parameter"
  | .constraint => "constraint"
  | .defaultType => "default_type"
  | .literalType => "literal_type"
  | .thisType => "this_type"
  | .unionType => "union_type"
  | .intersectionType => "intersection_type"
  | .arrayType => "array_type"
  | .tupleType => "tuple_type"
  | .optionalType => "optional_type"
  | .restType => "rest_type"
  | .lookupType => "lookup_type"
  | .functionType => "function_type"
  | .constructorType => "constructor_type"
  | .conditionalType => "conditional_type"
  | .inferType => "infer_type"
  | .readonlyType => "readonly_type"
  | .parenthesizedType => "parenthesized_type"
  | .objectType => "object_type"
  | .propertySignature => "property_signature"
  | .callSignature => "call_signature"
  | .constructSignature => "construct_signature"
  | .mappedTypeClause => "mapped_type_clause"
  | .typeQuery => "type_query"
  | .indexTypeQuery => "index_type_query"
  | .templateLiteralType => "template_literal_type"
  | .templateType => "template_type"
  | .existentialType => "existential_type"
  | .jsxElement => "jsx_element"
  | .jsxOpeningElement => "jsx_opening_element"
  | .jsxClosingElement => "jsx_closing_element"
  | .jsxSelfClosingElement => "jsx_self_closing_element"
  | .jsxAttribute => "jsx_attribute"
  | .jsxExpression => "jsx_expression"
  | .jsxText => "jsx_text"
  | .jsxNamespaceName => "jsx_namespace_name"
  | .htmlCharacterReference => "html_character_reference"

/-- The kind of a node: named, or a bare token with its text. -/
inductive Kind where
  | named (kind : NodeKind)
  | token (text : String)
  deriving DecidableEq, Repr

def Kind.name : Kind → String
  | .named kind => kind.name
  | .token text => text

def Kind.isNamed : Kind → Bool
  | .named _ => true
  | .token _ => false

/-- What a child is to its parent. -/
inductive Role where
  | callee | arguments | typeArguments | object | property | name | body | value | ascription
  | key | source | parameters | pattern | constructed
  deriving DecidableEq, Repr

end OrmCodemod.Syntax
