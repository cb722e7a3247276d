import OrmCodemod.Proofs.Grammar.Parsed
import OrmCodemod.Proofs.NewArguments

/-! Whether new arguments are arguments. After a key stands an expression or a new object, and a new
object has members; what a row takes whole may also be spread, and then it cannot stand after a key. -/

namespace OrmCodemod

open Syntax Text

namespace Syntax.Tree

variable {t : Tree} {k : NodeKind}

theorem isExpression_of_is (h : t.is k = true) (hk : k ∈ expressionKinds) : t.isExpression = true :=
  List.any_eq_true.2 ⟨k, hk, h⟩

/-- An argument is an expression unless it is spread. -/
theorem isExpression_iff (h : t.isArgument = true) :
    t.isExpression = true ↔ t.is .spreadElement = false := by
  cases hs : t.is .spreadElement with
  | true => simp [isExpression, not_isAny_of_is hs (show NodeKind.spreadElement ∉ expressionKinds by decide)]
  | false => simpa [isArgument, hs] using h

theorem value_of_isMember (h : t.isMember = true) {v : Tree} (hv : t.memberValue = some v) :
    t.is .shorthandPropertyIdentifier = true ∨ v.isExpression = true := by
  cases hp : t.is .pair with
  | true =>
    rw [memberValue, if_pos hp] at hv
    have hkind := is_iff.1 hp
    exact .inr (by simpa [isMember, isAny, is, hkind, hv] using h)
  | false =>
    refine .inl ?_
    by_contra hcon
    simp [memberValue, hp, hcon] at hv

theorem memberValue_of_key {source : Bytes} {key : String} (h : t.isMember = true)
    (hk : t.memberKey source = some key) : t.memberValue.isSome := by
  cases hs : t.is .shorthandPropertyIdentifier with
  | true => simp [memberValue, is, is_iff.1 hs]
  | false =>
    cases hp : t.is .pair with
    | false => simp [memberKey, hs, hp] at hk
    | true =>
      have hkind := is_iff.1 hp
      have hany : (t.child? .value).any isExpression = true := by
        simpa [isMember, isAny, is, hkind] using h
      rw [memberValue, if_pos hp]
      exact Option.isSome_of_any hany

end Syntax.Tree

namespace Rules

namespace Part

mutual

def isValue : Part → Bool
  | node t => t.isExpression
  | value member => member.is .shorthandPropertyIdentifier || member.memberValue.any Tree.isExpression
  | pair _ _ => false
  | object entries => areEntries entries

def isEntry : Part → Bool
  | node t => t.isMember
  | value _ => false
  | pair _ part => isValue part
  | object _ => false

def areEntries : List Part → Bool
  | [] => true
  | part :: parts => isEntry part && areEntries parts

end

def isArgument : Part → Bool
  | node t => t.isArgument
  | part => part.isValue

theorem areEntries_iff {parts : List Part} :
    areEntries parts = true ↔ ∀ part ∈ parts, part.isEntry = true := by
  induction parts with
  | nil => simp [areEntries]
  | cons part parts ih => simp [areEntries, ih]

theorem areEntries_nodes {ts : List Tree} (h : ∀ t ∈ ts, t.isMember = true) :
    areEntries (ts.map node) = true := by
  simpa [areEntries_iff, isEntry] using h

theorem isValue_value {m : Tree} (h : m.isMember = true) (hv : m.memberValue.isSome) :
    (value m).isValue = true := by
  obtain ⟨v, hv⟩ := Option.isSome_iff_exists.1 hv
  rcases Tree.value_of_isMember h hv with h1 | h1 <;> simp [isValue, hv, h1]

end Part

variable {source : Bytes} {method : String} {args : List Tree} {parts : List Part}

theorem isEntry_optionPart {m : Tree} (h : m.isMember = true) :
    (optionPart (fun m => m.memberKey source) m).isEntry = true := by
  unfold optionPart
  split
  · exact Part.isValue_value h (Tree.memberValue_of_key h ‹_›)
  · exact h

theorem areEntries_options {members : List Tree} (h : ∀ m ∈ members, m.isMember = true) :
    Part.areEntries (members.map (optionPart fun m => m.memberKey source)) = true := by
  rw [Part.areEntries_iff]
  intro part hpart
  obtain ⟨m, hm, rfl⟩ := List.mem_map.1 hpart
  exact isEntry_optionPart (h m hm)

def keyedCount (method : String) : Nat := if method = "update" then 2 else 1

theorem take_keyedCount {first : Tree} {rest : List Tree} (hm : method ≠ "update") :
    (first :: rest).take (keyedCount method) = [first] := by
  rw [keyedCount, if_neg hm, List.take_succ_cons, List.take_zero]

theorem all_isArgument_iff {part : Part} (before : List Tree) {rest : List Tree}
    (hargs : Grammatical (before ++ rest)) :
    (∀ p ∈ part :: rest.map Part.node, p.isArgument = true) ↔ part.isArgument = true := by
  have hrest : ∀ a ∈ rest, a.isArgument = true := fun a ha =>
    hargs.arguments a (List.mem_append_right _ ha)
  simpa [Part.isArgument] using fun _ => hrest

/-- Where one argument is put after a key, it is the one that may not be spread. -/
theorem keyed_first {part : Part} {first : Tree} (rest : List Tree)
    (hargs : Grammatical (first :: rest)) (hm : method ≠ "update")
    (h : part.isArgument = true ↔ first.is .spreadElement = false) :
    (∀ p ∈ part :: rest.map Part.node, p.isArgument = true) ↔
      ∀ a ∈ (first :: rest).take (keyedCount method), a.is .spreadElement = false := by
  rw [all_isArgument_iff [first] hargs, take_keyedCount hm, h]
  simp

theorem not_spread_of_object {t : Tree} (h : t.is .object = true) : t.is .spreadElement = false := by
  simp [Tree.is, Tree.is_iff.1 h]

/-- New arguments are arguments exactly where what is put after keys is not spread. -/
theorem Layout.isArgument_iff (hargs : Grammatical args)
    (h : Layout (fun m => m.memberKey source) method args parts) :
    (∀ part ∈ parts, part.isArgument = true) ↔
      ∀ a ∈ args.take (keyedCount method), a.is .spreadElement = false := by
  have hspread := fun t ht => Tree.isExpression_iff (hargs.arguments t ht)
  have hobject : ∀ {t : Tree}, t.is .object = true → t.isExpression = true :=
    fun ho => Tree.isExpression_of_is ho (by decide)
  have hkinds : ∀ {k : NodeKind}, k ∈ identityKinds → k ∈ Tree.expressionKinds := by decide
  cases h with
  | @searched _ first rest hm =>
    refine keyed_first rest hargs (by rintro rfl; simp at hm) ?_
    simpa [Part.isArgument, Part.isValue, Part.areEntries, Part.isEntry] using hspread first (by simp)
  | @given options rest ho | @unfiltered options rest ho =>
    exact keyed_first rest hargs (by decide) (iff_of_true
      (areEntries_options (hargs.members options (by simp) ho)) (not_spread_of_object ho))
  | @gathered options rest ho =>
    have hmembers := hargs.members options (by simp) ho
    refine keyed_first rest hargs (by decide) (iff_of_true ?_ (not_spread_of_object ho))
    refine Part.areEntries_iff.2 fun part hpart => ?_
    rcases List.mem_append.1 hpart with hpart | hpart
    · exact Part.areEntries_iff.1 (areEntries_options fun m hm =>
        hmembers m (List.mem_of_mem_filter hm)) part hpart
    · obtain rfl := List.mem_singleton.1 hpart
      exact Part.areEntries_nodes fun m hm => hmembers m (List.mem_of_mem_filter hm)
  | @created only =>
    refine keyed_first [] hargs (by decide) ?_
    simpa [Part.isArgument, Part.isValue, Part.areEntries, Part.isEntry] using hspread only (by simp)
  | @saved object member before after ho hmembers hid =>
    have hall := hargs.members object (by simp) ho
    rw [hmembers] at hall
    have hvalue : (Part.value member).isValue = true := by
      simp only [isIdentity, Bool.and_eq_true] at hid
      exact Part.isValue_value (hall member (by simp)) (Option.isSome_of_any hid.2)
    have hdata : Part.areEntries ((before ++ after).map Part.node) = true :=
      Part.areEntries_nodes fun m hm => hall m (by
        rcases List.mem_append.1 hm with hm | hm <;> simp [hm])
    refine keyed_first [] hargs (by decide) (iff_of_true ?_ (not_spread_of_object ho))
    rw [Part.isValue, Bool.or_eq_true] at hvalue
    simpa [Part.isArgument, Part.isValue, Part.areEntries, Part.isEntry, hvalue] using hdata
  | @updated criteria data rest ho =>
    rw [all_isArgument_iff [criteria, data] hargs]
    simpa [Part.isArgument, Part.isValue, Part.areEntries, Part.isEntry, hobject ho, keyedCount,
      not_spread_of_object ho] using hspread data (by simp)
  | @updatedById id data rest ho =>
    rw [all_isArgument_iff [id, data] hargs]
    simpa [Part.isArgument, Part.isValue, Part.areEntries, Part.isEntry, keyedCount] using
      and_congr (hspread id (by simp)) (hspread data (by simp))
  | @deleted _ criteria rest hm ho =>
    refine keyed_first rest hargs (by rintro rfl; simp at hm) (iff_of_true ?_ (not_spread_of_object ho))
    simpa [Part.isArgument, Part.isValue, Part.areEntries, Part.isEntry] using hobject ho
  | @counted criteria rest ho =>
    refine keyed_first rest hargs (by decide) (iff_of_true ?_ (not_spread_of_object ho))
    simpa [Part.isArgument, Part.isValue, Part.areEntries, Part.isEntry] using hobject ho
  | @deletedById _ id rest hm hk =>
    obtain ⟨k, hk, his⟩ := List.any_eq_true.1 hk
    have hexpression := Tree.isExpression_of_is his (hkinds hk)
    refine keyed_first rest hargs (by rintro rfl; simp at hm)
      (iff_of_true ?_ ((hspread id (by simp)).1 hexpression))
    simpa [Part.isArgument, Part.isValue, Part.areEntries, Part.isEntry] using hexpression

/-- New arguments are nodes of the old ones and new objects; they are made as the grammar has it exactly
where none of the arguments that the row puts after a key (the first, for an update also the second) is
spread. -/
theorem new_arguments_grammatical_iff {method : String} {rule : Rule}
    (hrule : rule? method = some rule) {args : List Tree} (hargs : Grammatical args) (source : Bytes)
    (render : Render) {texts : List String}
    (hnew : rule.reshape args render (fun m => m.memberKey source) = some texts) :
    ∃ parts, Layout (fun m => m.memberKey source) method args parts ∧
      texts = parts.map (Part.text render fun m => m.memberKey source) ∧
      ((∀ part ∈ parts, part.isArgument = true) ↔
        ∀ a ∈ args.take (keyedCount method), a.is .spreadElement = false) := by
  obtain ⟨parts, hparts, htexts⟩ := (reshape_iff hrule hargs).1 hnew
  exact ⟨parts, hparts, htexts, hparts.isArgument_iff hargs⟩

/-- Criteria that are spread from a list, and criteria as an object. -/
def spreadSample : String := "[a.repository.findBy(...xs), a.repository.findBy(\x7b x \x7d, ...xs)]"

def spreadUnit : SourceUnit := ⟨encode spreadSample, (parse .typescript spreadSample).root, {}⟩

theorem spreadUnit_composed : spreadUnit.Composed :=
  (parse_sheltered .typescript spreadSample {}).toComposed

def searchByRow : Rule := { renamed "findMany" with reshape := wrapInWhere }

theorem spreadUnit_calls : spreadUnit.place.repositoryCalls.map (fun x =>
    (x.method.text spreadUnit.source, (x.receiver.child? .object).isSome,
      x.call.tree.callArguments.map (·.is .spreadElement),
      searchByRow.reshape x.call.tree.callArguments (·.text spreadUnit.source)
        fun m => m.memberKey spreadUnit.source)) =
    [("findBy", true, [true], some ["\x7bwhere: ...xs\x7d"]),
      ("findBy", true, [false, true], some ["\x7bwhere: \x7b x \x7d\x7d", "...xs"])] := by
  decide +kernel

theorem spreadUnit_pair : ∃ first second, spreadUnit.place.repositoryCalls = [first, second] ∧
    (∀ x ∈ [first, second], rule? (x.method.text spreadUnit.source) = some searchByRow ∧
      Grammatical x.call.tree.callArguments ∧ x.method.text spreadUnit.source = "findBy") ∧
    (first.call.tree.callArguments.map (·.is .spreadElement) = [true] ∧
      searchByRow.reshape first.call.tree.callArguments (·.text spreadUnit.source)
        (fun m => m.memberKey spreadUnit.source) = some ["\x7bwhere: ...xs\x7d"]) ∧
    second.call.tree.callArguments.map (·.is .spreadElement) = [false, true] ∧
      searchByRow.reshape second.call.tree.callArguments (·.text spreadUnit.source)
        (fun m => m.memberKey spreadUnit.source) = some ["\x7bwhere: \x7b x \x7d\x7d", "...xs"] := by
  have hcalls := spreadUnit_calls
  obtain ⟨first, second, hlist⟩ := List.length_eq_two.1 (by simpa using congrArg List.length hcalls)
  rw [hlist, List.map_cons, List.map_singleton, List.cons.injEq, List.singleton_inj] at hcalls
  simp only [Prod.mk.injEq] at hcalls
  obtain ⟨⟨hmethod, howner, hspread, htexts⟩, hmethod', howner', hspread', htexts'⟩ := hcalls
  refine ⟨first, second, hlist, fun x hx => ?_, ⟨hspread, htexts⟩, hspread', htexts'⟩
  obtain ⟨hm, ho⟩ : x.method.text spreadUnit.source = "findBy" ∧
      (x.receiver.child? .object).isSome = true := by
    rcases List.mem_pair.1 hx with rfl | rfl
    · exact ⟨hmethod, howner⟩
    · exact ⟨hmethod', howner'⟩
  have hrule : rule? (x.method.text spreadUnit.source) = some searchByRow := by
    rw [hm]
    rfl
  obtain ⟨owner, ho⟩ := Option.isSome_iff_exists.1 ho
  exact ⟨hrule, grammatical_arguments spreadUnit_composed
    (Calls.convertible_of_mem (hlist ▸ hx) hrule ho), hm⟩

theorem new_arguments_grammatical_sample : ∃ x ∈ spreadUnit.place.repositoryCalls, ∃ parts,
    Layout (fun m => m.memberKey spreadUnit.source) "findBy" x.call.tree.callArguments parts ∧
    parts.map (Part.text (·.text spreadUnit.source) fun m => m.memberKey spreadUnit.source) =
      ["\x7bwhere: \x7b x \x7d\x7d", "...xs"] ∧ ∀ part ∈ parts, part.isArgument = true := by
  obtain ⟨first, second, hlist, hboth, -, hspread, htexts⟩ := spreadUnit_pair
  obtain ⟨hrule, hargs, hmethod⟩ := hboth second (by simp)
  obtain ⟨parts, hparts, heq, hiff⟩ := new_arguments_grammatical_iff hrule hargs spreadUnit.source
    (·.text spreadUnit.source) htexts
  rw [hmethod] at hparts hiff
  obtain ⟨a, b, hargs⟩ := List.length_eq_two.1 (by simpa using congrArg List.length hspread)
  rw [hargs, List.map_cons, List.map_singleton, List.cons.injEq] at hspread
  refine ⟨second, hlist ▸ by simp, parts, hparts, heq.symm, hiff.2 ?_⟩
  rw [hargs, take_keyedCount (by decide)]
  simpa using hspread.1

/-- What is spread is no criteria: the new argument is none. -/
theorem spread_criteria_sample : ∃ x ∈ spreadUnit.place.repositoryCalls, ∃ spread,
    x.call.tree.callArguments = [spread] ∧ spread.is .spreadElement = true ∧ Grammatical [spread] ∧
    searchByRow.reshape [spread] (·.text spreadUnit.source) (fun m => m.memberKey spreadUnit.source) =
      some ["\x7bwhere: ...xs\x7d"] ∧
    ∀ parts, Layout (fun m => m.memberKey spreadUnit.source) "findBy" [spread] parts →
      ∃ part ∈ parts, part.isArgument = false := by
  obtain ⟨first, second, hlist, hboth, ⟨hspread, htexts⟩, -⟩ := spreadUnit_pair
  obtain ⟨-, hargs, -⟩ := hboth first (by simp)
  obtain ⟨spread, hone⟩ := List.length_eq_one_iff.1 (by simpa using congrArg List.length hspread)
  rw [hone] at hargs htexts hspread
  rw [List.map_singleton, List.singleton_inj] at hspread
  refine ⟨first, hlist ▸ by simp, spread, hone, hspread, hargs, htexts, fun parts hparts => ?_⟩
  by_contra hall
  push Not at hall
  have hnot := (hparts.isArgument_iff hargs).1 (by simpa using hall) spread
    (by simp [take_keyedCount])
  rw [hspread] at hnot
  cases hnot

end Rules
end OrmCodemod
