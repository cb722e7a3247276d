import OrmCodemod.Proofs.Described

/-! The string literals of a schema. Values that come from string literals of the source stand between
double quotes in the schema, as they are. `readLiteral` reads a literal of the schema, by the rules for
strings in JSON. It gives the value back exactly if no quote and no control character is in it. -/

namespace OrmCodemod

open Syntax Text Schema Pass

namespace Schema

def hexDigit (c : Char) : Option Nat :=
  if '0' ≤ c ∧ c ≤ '9' then some (c.toNat - '0'.toNat)
  else if 'a' ≤ c ∧ c ≤ 'f' then some (c.toNat - 'a'.toNat + 10)
  else if 'A' ≤ c ∧ c ≤ 'F' then some (c.toNat - 'A'.toNat + 10)
  else none

def hexUnit : List Char → Option Nat
  | a :: b :: c :: d :: _ => do
    let digits ← [a, b, c, d].mapM hexDigit
    return digits.foldl (fun n d => n * 16 + d) 0
  | _ => none

def shortEscapes : List (Char × Char) :=
  [('"', '"'), ('\\', '\\'), ('/', '/'), ('b', '\x08'), ('f', '\x0c'), ('n', '\n'), ('r', '\r'),
    ('t', '\t')]

/-- The character that an escape stands for, and how many characters it takes after its backslash. Two
surrogates stand for one character. -/
def escaped : List Char → Option (Char × Nat)
  | 'u' :: rest => do
    let unit ← hexUnit rest
    if unit < 0xd800 ∨ 0xdfff < unit then some (Char.ofNat unit, 5)
    else if 0xdbff < unit then none
    else match rest.drop 4 with
      | '\\' :: 'u' :: more => do
        let low ← hexUnit more
        if low < 0xdc00 ∨ 0xdfff < low then none
        else some (Char.ofNat (0x10000 + (unit - 0xd800) * 0x400 + (low - 0xdc00)), 11)
      | _ => none
  | c :: _ => (shortEscapes.lookup c).map fun c => (c, 1)
  | [] => none

def isControl (c : Char) : Bool := c.toNat < 0x20

/-- The value of a literal from behind its first quote to its last one, and what follows; so many
characters belong to an escape. -/
def readBody : Nat → List Char → Option (List Char × List Char)
  | _, [] => none
  | k + 1, _ :: rest => readBody k rest
  | 0, c :: rest =>
    if c = '"' then some ([], rest)
    else if c = '\\' then do
      let (c, k) ← escaped rest
      let (value, rest) ← readBody k rest
      return (c :: value, rest)
    else if isControl c then none
    else do
      let (value, rest) ← readBody 0 rest
      return (c :: value, rest)

def readLiteral (text : String) : Option String :=
  if text.toList.head? = some '"' then do
    let (value, rest) ← readBody 0 text.toList.tail
    if rest.isEmpty then return String.ofList value else none
  else none

example : readLiteral "\"a\\\"\\u0041\\ud83d\\ude00\"" = some "a\"A😀" := by decide

def quotedAttribute (head value : String) : String := head ++ "\"" ++ value ++ "\")"

/-- The argument of the attribute is one literal with this value. -/
def ReadsBack (head text value : String) : Prop :=
  ∃ literal, text = head ++ literal ++ ")" ∧ readLiteral literal = some value

/-- No character of the value is a quote or a control character. -/
def Clean (value : String) : Prop := ∀ c ∈ value.toList, c ≠ '"' ∧ isControl c = false

-- An instance by its name: one that tries every character there is must not be found here.
instance (value : String) : Decidable (Clean value) :=
  List.decidableBAll (fun c => c ≠ '"' ∧ isControl c = false) value.toList

theorem readBody_plain {cs : List Char} (h : '\\' ∉ cs) :
    readBody 0 (cs ++ ['"']) = some (cs, []) ↔ ∀ c ∈ cs, c ≠ '"' ∧ isControl c = false := by
  induction cs with
  | nil => simp [readBody]
  | cons c cs ih =>
    rw [List.mem_cons, not_or] at h
    rw [List.cons_append, readBody, if_neg (Ne.symm h.1), List.forall_mem_cons, ← ih h.2]
    by_cases hquote : c = '"'
    · simp [hquote]
    rw [if_neg hquote]
    cases hcontrol : isControl c with
    | true => simp
    | false =>
      cases readBody 0 (cs ++ ['"']) with
      | none => simp
      | some p => simp [hquote, Prod.ext_iff]

/-- A value without escapes is read back from its attribute exactly if it is clean. -/
theorem readsBack_iff {head value : String} (h : '\\' ∉ value.toList) :
    ReadsBack head (quotedAttribute head value) value ↔ Clean value := by
  have hread : readLiteral ("\"" ++ value ++ "\"") = some value ↔ Clean value := by
    have htext : ("\"" ++ value ++ "\"").toList = '"' :: (value.toList ++ ['"']) := by simp
    rw [Clean, ← readBody_plain h, readLiteral, htext, List.head?_cons, if_pos rfl, List.tail_cons]
    cases readBody 0 (value.toList ++ ['"']) with
    | none => simp
    | some p => simp [Prod.ext_iff, String.ext_iff, and_comm]
  have hwhole : quotedAttribute head value = head ++ ("\"" ++ value ++ "\"") ++ ")" := by
    rw [quotedAttribute, ← String.toList_inj]
    simp
  rw [← hread, hwhole]
  constructor
  · rintro ⟨literal, htext, hliteral⟩
    rwa [(String.append_right_inj head).1 ((String.append_left_inj ")").1 htext)]
  · exact fun hliteral => ⟨_, rfl, hliteral⟩

theorem infix_joinWith {s sep : String} {parts : List String} (h : s ∈ parts) :
    s.toList <:+: (joinWith sep parts).toList := by
  fun_induction joinWith sep parts with
  | case1 => simp at h
  | case2 t =>
    obtain rfl := List.mem_singleton.1 h
    exact List.infix_rfl
  | case3 t rest hne ih =>
    rw [String.toList_append, String.toList_append]
    rcases List.mem_cons.1 h with rfl | h
    · exact ((List.prefix_append _ _).trans (List.prefix_append _ _)).isInfix
    · exact (ih h).trans (List.suffix_append _ _).isInfix

theorem Model.infix_render {m : Model} {line : String}
    (h : line ∈ m.fields.map Field.render ++ [s!"  @@map(\"{m.table}\")"]) :
    line.toList <:+: m.render.toList := by
  unfold Model.render
  rw [String.toList_append]
  refine (infix_joinWith ?_).trans (List.prefix_append _ _).isInfix
  rcases List.mem_append.1 h with h | h
  · exact List.mem_append_left _ (List.mem_append_right _ h)
  · rw [List.mem_singleton.1 h]
    exact List.mem_append_right _ (by simp)

theorem Model.infix_render_table (m : Model) :
    (quotedAttribute "@@map(" m.table).toList <:+: m.render.toList := by
  refine List.IsInfix.trans ?_ (m.infix_render (List.mem_append_right _ List.mem_cons_self))
  refine ⟨[' ', ' '], [], ?_⟩
  simp [quotedAttribute, toString]

theorem Model.infix_render_of_attribute {m : Model} {f : Field} {text : String} (hf : f ∈ m.fields)
    (h : text ∈ f.attributes) : text.toList <:+: m.render.toList := by
  refine List.IsInfix.trans ?_ (m.infix_render (List.mem_append_left _ (List.mem_map_of_mem hf)))
  have hne : f.attributes.isEmpty = false := by
    rw [List.isEmpty_eq_false_iff_exists_mem]
    exact ⟨text, h⟩
  unfold Field.render
  simp only [hne, Bool.false_eq_true, if_false]
  rw [String.toList_append]
  exact (infix_joinWith h).trans (List.suffix_append _ _).isInfix

/-- The attribute is in the text of the model, and is read back exactly if its value is clean. -/
structure Renders (m : Model) (head value : String) : Prop where
  shown : (quotedAttribute head value).toList <:+: m.render.toList
  reads : ReadsBack head (quotedAttribute head value) value ↔ Clean value

theorem Renders.of_shown {m : Model} {head value : String} (h : '\\' ∉ value.toList)
    (hshown : (quotedAttribute head value).toList <:+: m.render.toList) : Renders m head value :=
  ⟨hshown, readsBack_iff h⟩

variable {f : Field} {value : String}

theorem Field.mapped_mem (h : f.mappedName = some value) (hne : value ≠ "") :
    quotedAttribute "@map(" value ∈ f.attributes := by
  have htext : s!"@map(\"{value}\")" = quotedAttribute "@map(" value := by
    rw [quotedAttribute, ← String.toList_inj]
    simp [toString]
  unfold Field.attributes
  simp [h, hne, ← htext]

theorem Field.default_mem (h : f.default = some ("\"" ++ value ++ "\"")) :
    quotedAttribute "@default(" value ∈ f.attributes := by
  have htext : "@default(" ++ ("\"" ++ value ++ "\"") ++ ")" = quotedAttribute "@default(" value := by
    rw [quotedAttribute, ← String.toList_inj]
    simp
  unfold Field.attributes
  rw [h]
  simp [toString, ← htext]

end Schema

namespace Entities

/-- The literal that names the table of an entity: the argument of its decorator, or the option. -/
def tableLiteral? (u : SourceUnit) (class_ : Place) : Option Tree := do
  let entity ← class_.decorators.find? fun d => d.decoratorName u.source == some entityDecorator
  let first ← entity.decoratorArguments.head?
  if first.is .stringLiteral then some first
  else if first.is .object then (first.findMember "name" u.source).bind Tree.memberValue
  else none

/-- A string literal of the source that is not empty and has no escapes, with its value. -/
def PlainLiteral (source : Bytes) (t : Tree) (value : String) : Prop :=
  t.is .stringLiteral = true ∧
  ((t.text source).toList = '\'' :: (value.toList ++ ['\'']) ∨
    (t.text source).toList = '"' :: (value.toList ++ ['"'])) ∧
  '\\' ∉ value.toList ∧ value ≠ ""

instance (source : Bytes) (t : Tree) (value : String) : Decidable (PlainLiteral source t value) :=
  inferInstanceAs (Decidable (_ ∧ (_ ∨ _) ∧ _ ∧ _))

variable {u : SourceUnit} {class_ : Place} {m : Model} {t : Tree} {value : String}

theorem PlainLiteral.stringValue {source : Bytes} (h : PlainLiteral source t value) :
    t.stringValue source = some value := by
  obtain ⟨his, hquoted, -⟩ := h
  obtain ⟨quote, htext⟩ : ∃ quote, (t.text source).toList = quote :: (value.toList ++ [quote]) :=
    hquoted.elim (fun h => ⟨_, h⟩) fun h => ⟨_, h⟩
  rw [Tree.stringValue, if_pos his, htext, List.drop_one, List.tail_cons, List.dropLast_concat,
    String.ofList_toList]

theorem Describes.table_eq (h : Describes u class_ m) (ht : t ∈ tableLiteral? u class_)
    (hvalue : PlainLiteral u.source t value) : m.table = value := by
  obtain ⟨d, hd, htable⟩ := h.table
  have hname : tableName d u.source = some value := by
    rw [Option.mem_def, tableLiteral?, hd, Option.bind_eq_bind, Option.bind_some] at ht
    obtain ⟨first, hfirst, ht⟩ := Option.bind_eq_some_iff.1 ht
    have hvalue' := hvalue.stringValue
    have hne := hvalue.2.2.2
    simp only [tableName, hfirst, Option.bind_eq_bind, Option.bind_some]
    split at ht
    · rename_i hstring
      cases ht
      simp [hstring, hvalue', hne]
    · rename_i hstring
      split at ht
      · rename_i hobject
        obtain ⟨member, hmember, ht⟩ := Option.bind_eq_some_iff.1 ht
        simp [hstring, hobject, hmember, ht, hvalue', hne]
      · cases ht
  rw [htable, hname, Option.getD_some]

namespace Scope

variable {s : Scope} {name : String} {options : List Tree} {f : Field}

theorem Shows.columned {node : Tree} {d : RoleDecorator} {fs : List Field}
    (h : s.Shows name node (some d) fs) (hrole : d.role = .plain) :
    ∃ f, fs = [f] ∧ s.IsColumn name (s.optionsOf d.node.decoratorArguments) f := by
  cases h with
  | identity _ role => simp [hrole] at role
  | column _ _ gives => exact ⟨_, rfl, (s.column_settles _ _ _).of_gives gives⟩
  | relation _ role => simp [hrole] at role
  | timestamp _ role => simp [hrole] at role

theorem IsColumn.mapped_mem (h : s.IsColumn name options f) (ht : t ∈ s.lastOption options "name")
    (hvalue : PlainLiteral s.unit.source t value) :
    quotedAttribute "@map(" value ∈ f.attributes := by
  refine f.mapped_mem ?_ hvalue.2.2.2
  rw [h.mappedName, Option.mem_def.1 ht, Option.bind_some, string?, hvalue.stringValue]

/-- A column that is of no enumeration has the default that its literal says. -/
theorem IsColumn.default_mem (h : s.IsColumn name options f) (ht : t ∈ s.lastOption options "default")
    (henum : (s.lastOption options "enum").bind (s.enumNamed name) = none)
    (hvalue : PlainLiteral s.unit.source t value) :
    quotedAttribute "@default(" value ∈ f.attributes := by
  refine f.default_mem ?_
  rw [h.default, Option.mem_def.1 ht, Option.bind_some, henum, defaultOf, if_pos hvalue.1, string?,
    hvalue.stringValue]
  rfl

end Scope

theorem Describes.literals {u : SourceUnit} {class_ : Place} {m : Model} (h : Describes u class_ m) :
    (∀ t ∈ tableLiteral? u class_, ∀ value, PlainLiteral u.source t value →
      m.table = value ∧ Renders m "@@map(" value) ∧
    ∀ member ∈ members u.source class_, ∀ d ∈ member.decorator? u.source, d.role = .plain →
      let s : Scope := ⟨u, m.name, declaredEnums u⟩
      let options := s.optionsOf d.node.decoratorArguments
      ∃ f ∈ m.fields, f.name = member.name ∧
        (∀ t ∈ s.lastOption options "name", ∀ value, PlainLiteral u.source t value →
          quotedAttribute "@map(" value ∈ f.attributes ∧ Renders m "@map(" value) ∧
        ∀ t ∈ s.lastOption options "default", ∀ value, PlainLiteral u.source t value →
          (s.lastOption options "enum").bind (s.enumNamed member.name) = none →
            quotedAttribute "@default(" value ∈ f.attributes ∧ Renders m "@default(" value := by
  refine ⟨fun t ht value hvalue => ?_, fun member hmember d hd hrole => ?_⟩
  · have htable := h.table_eq ht hvalue
    exact ⟨htable, .of_shown hvalue.2.2.1 (htable ▸ m.infix_render_table)⟩
  · obtain ⟨part, htells, hpart⟩ := h.part_of_member hmember
    rw [Scope.Tells, Option.mem_def.1 hd] at htells
    obtain ⟨f, rfl, hf⟩ := htells.columned hrole
    have hmem : f ∈ m.fields := hpart.subset List.mem_cons_self
    refine ⟨f, hmem, hf.named, fun t ht value hvalue => ?_, fun t ht value hvalue henum => ?_⟩
    · have hattribute := hf.mapped_mem ht hvalue
      exact ⟨hattribute, .of_shown hvalue.2.2.1 (m.infix_render_of_attribute hmem hattribute)⟩
    · have hattribute := hf.default_mem ht henum hvalue
      exact ⟨hattribute, .of_shown hvalue.2.2.1 (m.infix_render_of_attribute hmem hattribute)⟩

end Entities

open Entities

/-- A string literal without escapes that names a table or a column, or is the default of a column that
is of no enumeration, stands as it is between the quotes of an attribute of its model. What is read of
the attribute is the value of the literal exactly if no quote and no control character is in it. -/
theorem literals_read_back_iff {source language : String} {settings : Settings}
    {path : Option String} {o : Outcome}
    (h : (transform source language settings path).1 = .ok o) :
    ∃ dialect, Dialect.ofName language = .ok dialect ∧
      let u := SourceUnit.read dialect source settings
      ModelsOf u o.models ∧ ∀ class_ m, Describes u class_ m →
        (∀ t ∈ tableLiteral? u class_, ∀ value, PlainLiteral u.source t value →
          m.table = value ∧ Renders m "@@map(" value) ∧
        ∀ member ∈ members u.source class_, ∀ d ∈ member.decorator? u.source, d.role = .plain →
          let s : Scope := ⟨u, m.name, declaredEnums u⟩
          let options := s.optionsOf d.node.decoratorArguments
          ∃ f ∈ m.fields, f.name = member.name ∧
            (∀ t ∈ s.lastOption options "name", ∀ value, PlainLiteral u.source t value →
              quotedAttribute "@map(" value ∈ f.attributes ∧ Renders m "@map(" value) ∧
            ∀ t ∈ s.lastOption options "default", ∀ value, PlainLiteral u.source t value →
              (s.lastOption options "enum").bind (s.enumNamed member.name) = none →
                quotedAttribute "@default(" value ∈ f.attributes ∧ Renders m "@default(" value := by
  obtain ⟨dialect, hdialect, hmodels⟩ := transform_models h
  exact ⟨dialect, hdialect, hmodels, fun _ _ hm => hm.literals⟩

/-- The classes of a source are entities `A` of a table with this name, and have a column with this name
and this default, all three by literals without escapes. -/
def NamedBy (source table column default : String) : Prop :=
  let u := SourceUnit.read .typescript source {}
  let s : Scope := ⟨u, "A", declaredEnums u⟩
  ∀ class_ ∈ u.place.find Place.classKinds,
    (∃ t ∈ (tableLiteral? u class_).toList, PlainLiteral u.source t table) ∧
    ∃ member ∈ members u.source class_, ∃ d ∈ (member.decorator? u.source).toList, d.role = .plain ∧
      (∃ t ∈ (s.lastOption (s.optionsOf d.node.decoratorArguments) "name").toList,
        PlainLiteral u.source t column) ∧
      (∃ t ∈ (s.lastOption (s.optionsOf d.node.decoratorArguments) "default").toList,
        PlainLiteral u.source t default) ∧
      (s.lastOption (s.optionsOf d.node.decoratorArguments) "enum").bind
        (s.enumNamed member.name) = none

def wordsSample : String :=
  "@Entity('as') class A \x7b @Column(\x7b name: 'b', default: \"c\" \x7d) d; \x7d"

theorem wordsSample_named :
    Extracts wordsSample (·.map Model.name) ["A"] ∧ NamedBy wordsSample "as" "b" "c" := by
  unfold NamedBy
  decide +kernel

theorem literals_read_back_sample : ∃ o, (transform wordsSample "typescript" {} none).1 = .ok o ∧
    ∃ m ∈ o.models, ReadsBack "@@map(" (quotedAttribute "@@map(" m.table) "as" ∧
      ∃ f ∈ m.fields, quotedAttribute "@map(" "b" ∈ f.attributes ∧
        ReadsBack "@map(" (quotedAttribute "@map(" "b") "b" ∧
        quotedAttribute "@default(" "c" ∈ f.attributes ∧
        ReadsBack "@default(" (quotedAttribute "@default(" "c") "c" := by
  obtain ⟨hextracts, hnamed⟩ := wordsSample_named
  obtain ⟨o, ho, hnames⟩ := hextracts.exists_ok
  obtain ⟨dialect, hdialect, hmodels, hliterals⟩ := literals_read_back_iff ho
  cases hdialect
  obtain ⟨m, hm, hname⟩ := List.map_eq_singleton_iff.1 hnames
  have hmem : m ∈ o.models := by simp [hm]
  obtain ⟨class_, hclass, hd⟩ := hmodels.described hmem
  obtain ⟨⟨t, ht, htable⟩, member, hmember, d, hdecorator, hrole, ⟨tn, htn, hcolumn⟩,
    ⟨td, htd, hdefault⟩, henum⟩ := hnamed class_ hclass
  obtain ⟨htables, hcolumns⟩ := hliterals class_ m hd
  obtain ⟨htable, hrenders⟩ := htables t (Option.mem_toList.1 ht) _ htable
  obtain ⟨f, hf, -, hmapped, hdefaults⟩ :=
    hcolumns member hmember d (Option.mem_toList.1 hdecorator) hrole
  rw [hname] at hmapped hdefaults
  obtain ⟨hmap, hmaps⟩ := hmapped tn (Option.mem_toList.1 htn) _ hcolumn
  obtain ⟨hvalue, hvalues⟩ := hdefaults td (Option.mem_toList.1 htd) _ hdefault henum
  refine ⟨o, ho, m, hmem, ?_, f, hf, hmap, hmaps.reads.2 (by decide), hvalue,
    hvalues.reads.2 (by decide)⟩
  rw [htable]
  exact hrenders.reads.2 (by decide)

/-- An entity whose names and default have a quote of the other kind in them. -/
def quotesSample : String :=
  "@Entity('a\"b') class A \x7b @Column(\x7b name: 'c\"d', default: 'e\"f' \x7d) g: string; \x7d"

def quotesField : Field :=
  { name := "g", scalar := "String", role := .plain, default := some "\"e\"f\"",
    mappedName := some "c\"d" }

theorem quotesSample_named :
    Extracts quotesSample id [⟨"A", "a\"b", [quotesField]⟩] ∧
      NamedBy quotesSample "a\"b" "c\"d" "e\"f" := by
  unfold NamedBy
  decide +kernel

/-- Each of the three literals is in an attribute that does not read back. -/
theorem literals_broken_sample :
    (parse .typescript quotesSample).broken = false ∧ NamedBy quotesSample "a\"b" "c\"d" "e\"f" ∧
    ∃ o, (transform quotesSample "typescript" {} none).1 = .ok o ∧ ∃ m ∈ o.models,
      m.table = "a\"b" ∧ ¬ReadsBack "@@map(" (quotedAttribute "@@map(" m.table) "a\"b" ∧
      ∃ f ∈ m.fields, f.attributes = [quotedAttribute "@default(" "e\"f", quotedAttribute "@map(" "c\"d"] ∧
        ¬ReadsBack "@default(" (quotedAttribute "@default(" "e\"f") "e\"f" ∧
        ¬ReadsBack "@map(" (quotedAttribute "@map(" "c\"d") "c\"d" := by
  obtain ⟨hextracts, hnamed⟩ := quotesSample_named
  obtain ⟨o, ho, hmodels⟩ := hextracts.exists_ok
  rw [id] at hmodels
  refine ⟨hextracts.1, hnamed, o, ho, _, by rw [hmodels]; exact List.mem_cons_self, rfl, ?_,
    quotesField, List.mem_cons_self, by decide +kernel, ?_, ?_⟩
  · rw [readsBack_iff (by decide)]
    decide
  · rw [readsBack_iff (by decide)]
    decide
  · rw [readsBack_iff (by decide)]
    decide

end OrmCodemod
