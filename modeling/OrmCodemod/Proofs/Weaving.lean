import OrmCodemod.Proofs.NewArguments
import OrmCodemod.Proofs.Strands

/-! Comments in composed texts. A call that is converted is put together from its owner and its
arguments, and leaves out nothing but tokens: what was put before a statement in one of its functions
comes out in its new text. So all strands around a tree come out in what is printed of it. -/

namespace OrmCodemod

open Syntax Text Pass

theorem flatMap_filter {α β : Type} {q : α → Bool} {f : α → List β} {xs : List α}
    (h : ∀ x ∈ xs, q x = false → f x = []) : xs.flatMap f = (xs.filter q).flatMap f := by
  induction xs with
  | nil => rfl
  | cons x xs ih =>
    rw [List.flatMap_cons, ih fun y hy => h y (by simp [hy])]
    cases hq : q x with
    | true => rw [List.filter_cons_of_pos hq, List.flatMap_cons]
    | false => rw [List.filter_cons_of_neg (by simp [hq]), h x (by simp) hq, List.nil_append]

section Statements

variable {u : SourceUnit} {strands : Nat → List Strand} {t : Tree}

def commentsWithin (strands : Nat → List Strand) (t : Tree) : List String :=
  commentsIn strands (t.start + 1) t.stop

/-- But at the head of the source, strands stand where statements start. -/
def AtStatements (u : SourceUnit) (strands : Nat → List Strand) : Prop :=
  ∀ p, p ≠ 0 → strands p ≠ [] → ∃ s, Calls.IsStatement u s ∧ s.start = p

/-- If strands stand in nodes only, the comments are those of the nodes. -/
theorem commentsIn_nodes {a b : Nat} {cs : List Tree} (h : Tree.inOrder a b cs = true)
    (hfree : ∀ p, a ≤ p → p < b → (∀ c ∈ cs, ¬(c.start < p ∧ p < c.stop)) → strands p = []) :
    commentsIn strands a b = cs.flatMap (commentsWithin strands) := by
  induction cs generalizing a with
  | nil => exact commentsIn_eq_nil fun p h1 h2 => hfree p h1 h2 (by simp)
  | cons c cs ih =>
    have hc := Tree.inOrder_mem h (t := c) (by simp)
    simp only [Tree.inOrder, Bool.and_eq_true, decide_eq_true_eq] at h
    obtain ⟨⟨h1, h2⟩, h3⟩ := h
    have hafter : ∀ d ∈ cs, c.stop ≤ d.start := fun d hd => (Tree.inOrder_mem h3 hd).1
    have hbefore : ∀ p, a ≤ p → p ≤ c.start → p < b → strands p = [] := by
      refine fun p hp1 hp2 hp3 => hfree p hp1 hp3 fun d hd => ?_
      rcases List.mem_cons.1 hd with rfl | hd
      · omega
      · have := hafter d hd
        omega
    have hself : commentsIn strands c.start c.stop = commentsWithin strands c := by
      rcases Nat.eq_or_lt_of_le h2 with he | hlt
      · rw [commentsWithin, commentsIn, commentsIn, he, Nat.sub_self, Nat.sub_eq_zero_of_le (by omega)]
        rfl
      · rw [commentsIn_cons _ hlt, hbefore c.start h1 le_rfl (by omega)]
        rfl
    have hrest : commentsIn strands c.stop b = cs.flatMap (commentsWithin strands) := by
      refine ih h3 fun p hp1 hp2 hf => hfree p (by omega) hp2 fun d hd => ?_
      rcases List.mem_cons.1 hd with rfl | hd
      · omega
      · exact hf d hd
    rw [← commentsIn_append _ (by omega : a ≤ c.start) (by omega : c.start ≤ b),
      ← commentsIn_append _ h2 hc.2.2,
      commentsIn_eq_nil fun p hp1 hp2 => hbefore p hp1 hp2.le (by omega), hself, hrest,
      List.nil_append, List.flatMap_cons]

namespace AtStatements

theorem blockless (h : AtStatements u strands) (hu : u.Nested) (ht : t.Within u.root)
    (hb : t.blockless = true) : commentsWithin strands t = [] := by
  refine commentsIn_eq_nil fun p h1 h2 => ?_
  by_contra hne
  obtain ⟨s, hs, rfl⟩ := h p (by omega) hne
  refine hs.not_inside hu ht (fun b hbt => ?_) ⟨by omega, h2⟩
  simpa only [Bool.not_eq_true'] using Tree.test_within hb hbt

/-- What stands in a node that has no statements of its own stands in its children. -/
theorem children (h : AtStatements u strands) (hu : u.Shaped) (ht : t.Within u.root)
    (hk : t.isAny (.program :: Tree.blockKinds) = false) :
    commentsWithin strands t = t.children.flatMap (commentsWithin strands) := by
  have ho := Tree.test_within hu.ordered ht
  rw [commentsWithin, ← commentsIn_hide, commentsIn_nodes ho fun p h1 h2 hfree => ?_]
  · refine List.flatMap_congr fun c hc => commentsIn_congr fun p h1 _ => ?_
    have := Tree.inOrder_mem ho hc
    exact Function.update_of_ne (by omega) _ _
  · by_cases hp : p = t.start
    · rw [hp, Function.update_self]
    rw [Function.update_of_ne hp]
    by_contra hne
    obtain ⟨s, hs, rfl⟩ := h p (by omega) hne
    rcases hs.cases hu ht h1 h2 with ⟨h3, -⟩ | ⟨hblock, -⟩ | ⟨d, hd, hin⟩
    · exact hp h3
    · rw [hk] at hblock
      cases hblock
    · exact hfree d hd hin

theorem flatMap_blockless (h : AtStatements u strands) (hu : u.Nested) (ht : t.Within u.root)
    {cs : List Tree} (hcs : ∀ c ∈ cs, c ∈ t.children ∧ c.blockless = true) :
    cs.flatMap (commentsWithin strands) = [] :=
  List.flatMap_eq_nil_iff.2 fun c hc =>
    h.blockless hu ((Tree.within_of_mem (hcs c hc).1).trans ht) (hcs c hc).2

/-- What stands in a node without other blocks stands in its child in the role. -/
theorem only (h : AtStatements u strands) (hu : u.Shaped) (ht : t.Within u.root)
    (hk : t.isAny (.program :: Tree.blockKinds) = false) {r : Role} (hbut : t.blocklessBut r = true) :
    commentsWithin strands t = (t.child? r).toList.flatMap (commentsWithin strands) := by
  rw [h.children hu ht hk]
  unfold Tree.blocklessBut at hbut
  rw [List.all_eq_true] at hbut
  unfold Tree.child?
  cases hf : t.children.find? fun c => c.role == some r with
  | none =>
    have hnone := List.find?_eq_none.1 hf
    rw [List.eraseP_of_forall_not hnone] at hbut
    exact h.flatMap_blockless hu.toNested ht fun c hc => ⟨hc, hbut c hc⟩
  | some c =>
    obtain ⟨hc, before, behind, hcs, hbefore⟩ := List.find?_eq_some_iff_append.1 hf
    have herase : (t.children.eraseP fun c => c.role == some r) = before ++ behind := by
      rw [hcs, List.eraseP_append_right _ fun d hd => by simpa using hbefore d hd]
      simp [hc]
    rw [herase] at hbut
    have hnil : ∀ cs, cs ⊆ before ++ behind → cs.flatMap (commentsWithin strands) = [] :=
      fun cs hsub => h.flatMap_blockless hu.toNested ht fun d hd => ⟨by
        rw [hcs]
        rcases List.mem_append.1 (hsub hd) with hd | hd <;> simp [hd], hbut d (hsub hd)⟩
    rw [hcs, List.flatMap_append, List.flatMap_cons, hnil before (by simp), hnil behind (by simp)]
    simp

/-- What stands in a node without statements of its own stands in its significant children. -/
theorem significant (h : AtStatements u strands) (hu : u.Shaped) (ht : t.Within u.root)
    (hk : t.isAny (.program :: Tree.blockKinds) = false) (hshelters : t.shelters = true) :
    commentsWithin strands t = t.significant.flatMap (commentsWithin strands) := by
  simp only [Tree.shelters, Bool.and_eq_true, List.all_eq_true, and_assoc] at hshelters
  rw [h.children hu ht hk, Tree.significant, Tree.namedChildren, List.filter_filter]
  refine flatMap_filter fun c hc hnot => h.blockless hu.toNested ((Tree.within_of_mem hc).trans ht) ?_
  have := hshelters.1 c hc
  rw [Bool.and_comm, hnot, Bool.false_or] at this
  exact this

end AtStatements

end Statements

namespace Rules

variable {keyOf : KeyOf} {method : String} {args : List Tree} {parts : List Part}

namespace Part

/-- Only of members with a key the values are taken alone. -/
inductive Keyed (keyOf : KeyOf) : Part → Prop where
  | node (t : Tree) : Keyed keyOf (.node t)
  | value {m : Tree} (h : (keyOf m).isSome) : Keyed keyOf (.value m)
  | pair {key : String} {part : Part} (h : Keyed keyOf part) : Keyed keyOf (.pair key part)
  | object {entries : List Part} (h : ∀ p ∈ entries, Keyed keyOf p) : Keyed keyOf (.object entries)

theorem nodesOf_eq (ps : List Part) : nodesOf ps = ps.flatMap nodes := by
  induction ps with
  | nil => rfl
  | cons p ps ih => rw [nodesOf, ih, List.flatMap_cons]

variable {r r' : Render} {inner : Tree → List String}

theorem woven_list {ps : List Part} (h : ∀ p ∈ ps, Woven (p.nodes.flatMap inner)
      (encode (p.text r keyOf)) (encode (p.text r' keyOf))) :
    Woven ((nodesOf ps).flatMap inner) (encode (joinWith ", " (ps.map (text r keyOf))))
      (encode (joinWith ", " (ps.map (text r' keyOf)))) := by
  rw [nodesOf_eq, List.flatMap_assoc]
  exact Woven.joinWith ", " h

theorem Keyed.woven {part : Part} (h : part.Keyed keyOf)
    (hnode : ∀ t ∈ part.nodes, Woven (inner t) (encode (r t)) (encode (r' t)))
    (hvalue : ∀ m ∈ part.nodes, (keyOf m).isSome →
      Woven (inner m) (encode (valueText r keyOf m)) (encode (valueText r' keyOf m))) :
    Woven (part.nodes.flatMap inner) (encode (part.text r keyOf)) (encode (part.text r' keyOf)) := by
  induction h with
  | node t => simpa [nodes, text] using hnode t (by simp [nodes])
  | @value m hm => simpa [nodes, text] using hvalue m (by simp [nodes]) hm
  | @pair key part _ ih =>
    have := (ih hnode hvalue).around (key ++ ": ") ""
    simpa [nodes, text] using this
  | @object entries _ ih =>
    have hmem : ∀ p ∈ entries, p.nodes ⊆ (Part.object entries).nodes := fun p hp t ht => by
      rw [nodes, nodesOf_eq]
      exact List.mem_flatMap_of_mem hp ht
    have hlist := woven_list fun p hp => ih p hp (fun t ht => hnode t (hmem p hp ht))
      fun m hm => hvalue m (hmem p hp hm)
    simpa [nodes, text, objectText] using hlist.around "\x7b" "\x7d"

end Part

theorem optionPart_keyed (m : Tree) : (optionPart keyOf m).Keyed keyOf := by
  unfold optionPart
  split
  · rename_i hk
    exact .pair (.value (by simp [hk]))
  · exact .node m

theorem keyed_nodes {p : Part} {ts : List Tree} (h : p ∈ ts.map Part.node) : p.Keyed keyOf := by
  obtain ⟨t, -, rfl⟩ := List.mem_map.1 h
  exact .node t

theorem keyed_options {p : Part} {ts : List Tree} (h : p ∈ ts.map (optionPart keyOf)) :
    p.Keyed keyOf := by
  obtain ⟨m, -, rfl⟩ := List.mem_map.1 h
  exact optionPart_keyed m

theorem Layout.keyed (h : Layout keyOf method args parts) : ∀ p ∈ parts, p.Keyed keyOf := by
  have hone : ∀ {key : String} {p : Part}, p.Keyed keyOf → (Part.object [.pair key p]).Keyed keyOf :=
    fun hp => .object fun q hq => List.mem_singleton.1 hq ▸ .pair hp
  have htwo : ∀ {k l : String} {p q : Part}, p.Keyed keyOf → q.Keyed keyOf →
      (Part.object [.pair k p, .pair l q]).Keyed keyOf := fun hp hq => .object fun r hr => by
    rcases List.mem_pair.1 hr with rfl | rfl
    · exact .pair hp
    · exact .pair hq
  cases h with
  | searched => exact List.forall_mem_cons.2 ⟨hone (.node _), fun _ => keyed_nodes⟩
  | given => exact List.forall_mem_cons.2 ⟨.object fun _ => keyed_options, fun _ => keyed_nodes⟩
  | unfiltered =>
    exact List.forall_mem_cons.2 ⟨.object fun _ => keyed_options, fun _ => keyed_nodes⟩
  | gathered =>
    refine List.forall_mem_cons.2 ⟨.object fun p hp => ?_, fun _ => keyed_nodes⟩
    rcases List.mem_append.1 hp with hp | hp
    · exact keyed_options hp
    · rw [List.mem_singleton.1 hp]
      exact .pair (.object fun _ => keyed_nodes)
  | created => exact List.forall_mem_singleton.2 (hone (.node _))
  | saved _ _ hid _ =>
    refine List.forall_mem_singleton.2 (htwo (hone (.value ?_)) (.object fun _ => keyed_nodes))
    simp only [isIdentity, Bool.and_eq_true, beq_iff_eq] at hid
    simp [hid.1]
  | updated => exact List.forall_mem_cons.2 ⟨htwo (.node _) (.node _), fun _ => keyed_nodes⟩
  | updatedById =>
    exact List.forall_mem_cons.2 ⟨htwo (hone (.node _)) (.node _), fun _ => keyed_nodes⟩
  | deleted => exact List.forall_mem_cons.2 ⟨hone (.node _), fun _ => keyed_nodes⟩
  | deletedById => exact List.forall_mem_cons.2 ⟨hone (hone (.node _)), fun _ => keyed_nodes⟩
  | counted => exact List.forall_mem_cons.2 ⟨hone (.node _), fun _ => keyed_nodes⟩

end Rules

namespace Calls

variable {u : SourceUnit} {K : List Place.RepositoryCall} {v w : View} {strands : Nat → List Strand}
  {t c : Tree}

theorem rendered_of_usesAll {args : List Tree} {parts : List Rules.Part} (h : Rules.UsesAll args parts)
    {m : Tree} (hm : m ∈ Rules.Part.nodesOf parts) : Rules.Rendered args m := by
  rcases h with rfl | ⟨object, rest, members, rfl, ho, hnodes, hperm⟩
  · exact .argument hm
  · rw [hnodes, List.mem_append] at hm
    rcases hm with hm | hm
    · exact .member (by simp) ho (hperm.mem_iff.1 hm)
    · exact .argument (by simp [hm])

theorem comments_parts (hs : AtStatements u strands) (hu : u.Sheltered) {args : Tree}
    (ha : args.Within u.root) (hk : args.is .arguments = true) {parts : List Rules.Part}
    (huse : Rules.UsesAll args.significant parts) :
    ((Rules.Part.nodesOf parts).flatMap (commentsWithin strands)).Perm
      (commentsWithin strands args) := by
  have hnode : ∀ n : Tree, n.Within u.root → n.isAny (.program :: Tree.blockKinds) = false →
      commentsWithin strands n = n.significant.flatMap (commentsWithin strands) := fun n hn hkn =>
    hs.significant hu.toShaped hn hkn (Tree.test_within hu.sheltered hn)
  rw [hnode args ha (Tree.not_isAny_of_is hk (by decide))]
  rcases huse with heq | ⟨object, rest, members, hargs, ho, hnodes, hperm⟩
  · rw [heq]
  · have hobject : object ∈ args.significant := hargs ▸ List.mem_cons_self
    rw [hnodes, hargs, List.flatMap_append, List.flatMap_cons,
      hnode object ((Tree.within_of_mem (Tree.significant_mem hobject)).trans ha)
        (Tree.not_isAny_of_is ho (by decide))]
    exact (hperm.flatMap_right _).append_right _

section Pieces

variable {inner inner' : Tree → Bytes} (hs : AtStatements u strands) (hu : u.Sheltered)

include hs hu

theorem valueText_woven {m : Tree} (hm : m.Within u.root) (hkey : (m.memberKey u.source).isSome)
    (hin : ∀ n : Tree, n.Within m → Woven (commentsWithin strands n) (inner n) (inner' n)) :
    Woven (commentsWithin strands m)
      (encode (Rules.valueText (Scene.render inner) (fun m => m.memberKey u.source) m))
      (encode (Rules.valueText (Scene.render inner') (fun m => m.memberKey u.source) m)) := by
  have hshelters := Tree.test_within hu.sheltered hm
  simp only [Tree.shelters, Bool.and_eq_true, and_assoc] at hshelters
  obtain ⟨-, -, hpair, hshort⟩ := hshelters
  unfold Rules.valueText
  cases hp : m.is .pair with
  | false =>
    have hshorthand : m.is .shorthandPropertyIdentifier = true := by
      by_contra hcon
      simp [Tree.memberKey, hp, hcon] at hkey
    rw [hshorthand, Bool.not_true, Bool.false_or] at hshort
    rw [hs.blockless hu.toNested hm hshort]
    exact .of_text _
  | true =>
    have hplain : ((m.child? .key).any (·.is .computedPropertyName)) = false := by
      rw [Bool.eq_false_iff]
      intro hcomputed
      obtain ⟨key, hk, hck⟩ := Option.any_eq_true .. |>.1 hcomputed
      rw [Tree.is_iff] at hp hck
      simp [Tree.memberKey, Tree.is, Tree.isAny, hp, hk, hck] at hkey
    rw [hp, hplain, Bool.not_true, Bool.false_or, Bool.false_or] at hpair
    rw [hs.only hu.toShaped hm (Tree.not_isAny_of_is hp (by decide)) hpair]
    cases hv : m.child? .value with
    | none => exact .of_text ""
    | some val => simpa using (hin val (Tree.within_of_mem (Tree.child?_mem hv))).render

theorem comments_object (ht : t.Within u.root) (hk : t.is .memberExpression = true) {o : Tree}
    (ho : t.child? .object = some o) : commentsWithin strands t = commentsWithin strands o := by
  have hshelters := Tree.test_within hu.sheltered ht
  simp only [Tree.shelters, Bool.and_eq_true, and_assoc] at hshelters
  obtain ⟨-, hmember, -⟩ := hshelters
  rw [hk, Bool.not_true, Bool.false_or] at hmember
  rw [hs.only hu.toShaped ht (Tree.not_isAny_of_is hk (by decide)) hmember, ho]
  simp

variable {k : Conversion} (hparts : k.site.Parts) (hcall : k.site.call.tree.Within u.root)

include hparts hcall

theorem calleeText_woven (howner : k.site.receiver.child? .object = some k.owner)
    (hin : Woven (commentsWithin strands k.owner) (inner k.owner) (inner' k.owner)) :
    Woven (commentsWithin strands k.site.callee)
      (encode (k.calleeText u (Scene.render inner))) (encode (k.calleeText u (Scene.render inner'))) := by
  have hcallee := (Tree.within_of_mem (Tree.child?_mem hparts.callee)).trans hcall
  have hreceiver := (Tree.within_of_mem (Tree.child?_mem hparts.receiver)).trans hcallee
  rw [comments_object hs hu hcallee hparts.calleeKind hparts.receiver,
    comments_object hs hu hreceiver hparts.receiverKind howner]
  have := hin.render.around "" (s!".{u.settings.clientMember}.{k.model}" ++ "." ++
    k.rule.method k.site.call.tree.callArguments fun m => m.memberKey u.source)
  simpa [Conversion.calleeText, toString, String.append_assoc] using this

theorem argumentsText_woven (hrule : Rules.rule? (k.site.method.text u.source) = some k.rule)
    (hin : ∀ m : Tree, m.Within k.site.arguments →
      Woven (commentsWithin strands m) (inner m) (inner' m)) :
    Woven (commentsWithin strands k.site.arguments)
      (((k.argumentsText u (Scene.render inner)).map encode).getD (inner k.site.arguments))
      (((k.argumentsText u (Scene.render inner')).map encode).getD (inner' k.site.arguments)) := by
  have hargs := (Tree.within_of_mem (Tree.child?_mem hparts.arguments)).trans hcall
  have hgrammar := Rules.grammatical_of_parts hu.toComposed hparts hcall
  unfold Conversion.argumentsText
  cases hnew : k.rule.reshape k.site.call.tree.callArguments (Scene.render inner)
      fun m => m.memberKey u.source with
  | none =>
    have hnone : k.rule.reshape k.site.call.tree.callArguments (Scene.render inner')
        (fun m => m.memberKey u.source) = none := by
      rw [← Option.isNone_iff_eq_none, ← Option.not_isSome,
        ← Rules.reshape_isSome hrule _ (Scene.render inner), hnew]
      rfl
    rw [hnone]
    exact hin _ .self
  | some texts =>
    obtain ⟨parts, hlayout, rfl⟩ := (Rules.reshape_iff hrule hgrammar).1 hnew
    rw [hlayout.reshape hrule hgrammar]
    have huse := hlayout.usesAll
    rw [Scene.callArguments_eq hparts] at huse
    have hwithin : ∀ m ∈ Rules.Part.nodesOf parts, m.Within k.site.arguments := fun m hm =>
      Scene.Rendered.within (rendered_of_usesAll huse hm)
    have hlist := Rules.Part.woven_list fun p (hp : p ∈ parts) => by
      have hsub : ∀ m ∈ p.nodes, m.Within k.site.arguments := fun m hm =>
        hwithin m (by rw [Rules.Part.nodesOf_eq]; exact List.mem_flatMap_of_mem hp hm)
      exact (hlayout.keyed p hp).woven (fun m hm => (hin m (hsub m hm)).render)
        fun m hm hkey => valueText_woven hs hu ((hsub m hm).trans hargs) hkey fun n hn =>
          hin n (hn.trans (hsub m hm))
    simpa using (hlist.perm (comments_parts hs hu hargs hparts.argumentsKind huse)).around "(" ")"

end Pieces

theorem piece_woven (hs : AtStatements u strands) (hu : u.Sheltered) (ht : t.Within u.root)
    (hc : c ∈ t.children) (hne : c.start < c.stop) {inner inner' : Tree → Bytes}
    (hin : ∀ m : Tree, m.Within c → Woven (commentsWithin strands m) (inner m) (inner' m)) :
    Woven (commentsWithin strands c) ((scene u v K).piece inner t c) ((scene u w K).piece inner' t c) := by
  have hconv : (scene u w K).conversion? t = (scene u v K).conversion? t :=
    Scene.conversion?_congr rfl rfl
  unfold Scene.piece
  rw [hconv]
  cases hk : (scene u v K).conversion? t with
  | none => exact hin c .self
  | some k =>
    obtain ⟨hcall, hparts, hrule, howner, -⟩ := Scene.conversion?_parts hk
    have htree : k.site.call.tree = t := by rw [hcall]
    have ho := Tree.test_within hu.ordered ht
    have hcallee := htree ▸ Tree.child?_mem hparts.callee
    have hargs := htree ▸ Tree.child?_mem hparts.arguments
    dsimp only
    by_cases h1 : Scene.sameRange c k.site.callee = true
    · obtain rfl := Scene.eq_of_sameRange ho hc hcallee hne h1
      rw [if_pos h1, if_pos h1]
      exact calleeText_woven hs hu hparts (htree ▸ ht) howner (hin _ (Scene.owner_within hparts howner))
    rw [if_neg h1, if_neg h1]
    by_cases h2 : Scene.sameRange c k.site.arguments = true
    · obtain rfl := Scene.eq_of_sameRange ho hc hargs hne h2
      rw [if_pos h2, if_pos h2]
      exact argumentsText_woven hs hu hparts (htree ▸ ht) hrule hin
    · rw [if_neg h2, if_neg h2]
      exact hin c .self

theorem text_woven (hw : Weave u.source strands v w) (hs : AtStatements u strands)
    (hu : u.Sheltered) : ∀ {t : Tree}, t.Within u.root →
      Woven (commentsWithin strands t) ((scene u v K).text t) ((scene u w K).text t) := by
  suffices ∀ n (t : Tree), t.size ≤ n → t.Within u.root →
      Woven (commentsWithin strands t) ((scene u v K).text t) ((scene u w K).text t) from
    fun {t} => this t.size t le_rfl
  intro n
  induction n with
  | zero =>
    intro t hn
    cases t
    simp only [Tree.size] at hn
    omega
  | succ n ih =>
    intro t hn ht
    have ho := Tree.test_within hu.ordered ht
    have haligned : ∀ m : Tree, m.Within u.root → m.aligned u.source = true := fun m hm =>
      Tree.test_within hu.aligned hm
    have hends := haligned t ht
    rw [Tree.aligned, Bool.and_eq_true] at hends
    rw [Scene.text_eq ho, Scene.text_eq ho, Scene.compose, Scene.compose, View.fill_hide,
      View.fill_hide, commentsWithin, ← commentsIn_hide]
    refine (hw.hide t.start).fill ho hends.1 hends.2
      (fun c hc => haligned c ((Tree.within_of_mem hc).trans ht)) fun c hc hne => ?_
    have hrange := Tree.inOrder_mem ho hc
    have hsame : commentsIn (Function.update strands t.start []) (c.start + 1) c.stop =
        commentsIn strands (c.start + 1) c.stop :=
      commentsIn_congr fun p hp _ => Function.update_of_ne (by omega) _ _
    rw [hsame]
    refine piece_woven hs hu ht hc hne fun m hm => ?_
    have h1 := hm.size_le
    have h2 := Tree.size_child hc
    exact ih m (by omega) ((hm.trans (Tree.within_of_mem hc)).trans ht)

theorem print_woven (hw : Weave u.source strands v w) (hs : AtStatements u strands)
    (hu : u.Sheltered) {source : String} (hsource : u.source = encode source) :
    Woven (commentsIn strands 0 (u.source.length + 1)) (scene u v K).print (scene u w K).print := by
  have hroot := hu.node .self
  have hin : Tree.inOrder 0 u.source.length [u.root] = true := by
    simp only [Tree.inOrder, Bool.and_eq_true, decide_eq_true_eq]
    omega
  have hzero : isBoundary u.source 0 = true := by
    rw [hsource, encode_eq]
    exact isBoundary_zero _
  rw [← commentsIn_append _ (Nat.zero_le _) (Nat.le_succ u.source.length)]
  refine Woven.append (hw.fill hin hzero (isBoundary_length _) (fun c hc => ?_) fun c hc _ => ?_) ?_
  · rw [List.mem_singleton.1 hc]
    exact Tree.test_within hu.aligned .self
  · rw [List.mem_singleton.1 hc]
    exact text_woven hw hs hu .self
  · rw [commentsIn_cons _ (Nat.lt_succ_self _), commentsIn_self, List.append_nil]
    exact hw.offset _

end Calls

end OrmCodemod
