import Mathlib.Tactic
import OrmCodemod.Syntax.Query

/-! What a node reads like, wherever it stands: its kind, its role and its text, and the same of its
children. Nodes of two sources that read alike give the same answers to all that is asked about them. -/

namespace OrmCodemod.Syntax

open Text

/-- A node without its position. -/
inductive Content where
  | node (kind : Kind) (role : Option Role) (text : Bytes) (children : List Content)

mutual

def Content.decEq : (x y : Content) → Decidable (x = y)
  | .node k r b xs, .node k' r' b' ys =>
    have := Content.decEqAll xs ys
    decidable_of_iff (k = k' ∧ r = r' ∧ b = b' ∧ xs = ys) (by simp)

def Content.decEqAll : (xs ys : List Content) → Decidable (xs = ys)
  | [], [] => .isTrue rfl
  | [], _ :: _ => .isFalse (by simp)
  | _ :: _, [] => .isFalse (by simp)
  | x :: xs, y :: ys =>
    have := Content.decEq x y
    have := Content.decEqAll xs ys
    decidable_of_iff (x = y ∧ xs = ys) (by simp)

end

instance : DecidableEq Content := Content.decEq

namespace Tree

mutual

def content (source : Bytes) : Tree → Content
  | node k r a b cs => .node k r (slice source a b) (contents source cs)

def contents (source : Bytes) : List Tree → List Content
  | [] => []
  | t :: ts => content source t :: contents source ts

end

theorem contents_eq (source : Bytes) (ts : List Tree) : contents source ts = ts.map (content source) := by
  induction ts with
  | nil => rfl
  | cons t ts ih => rw [contents, ih, List.map_cons]

/-- Two nodes read alike, each in its source. -/
def Reads (source source' : Bytes) (t t' : Tree) : Prop := t.content source = t'.content source'

variable {source source' : Bytes} {t t' : Tree} {ts ts' : List Tree}

theorem reads_iff : Reads source source' t t' ↔ t.kind = t'.kind ∧ t.role = t'.role ∧
    t.bytes source = t'.bytes source' ∧
    t.children.map (content source) = t'.children.map (content source') := by
  cases t
  cases t'
  simp only [Reads, content, contents_eq, Content.node.injEq, kind, role, bytes, start, stop, children]

section Lists

variable {α : Type} {f f' : Tree → α} {p p' : Tree → Bool}

theorem map_reads (h : ts.map (content source) = ts'.map (content source'))
    (hf : ∀ t t', Reads source source' t t' → f t = f' t') : ts.map f = ts'.map f' := by
  induction ts generalizing ts' with
  | nil =>
    cases ts' with
    | nil => rfl
    | cons => simp at h
  | cons t ts ih =>
    cases ts' with
    | nil => simp at h
    | cons t' ts' =>
      obtain ⟨h1, h2⟩ := List.cons_eq_cons.1 h
      rw [List.map_cons, List.map_cons, hf t t' h1, ih h2]

theorem findSome?_reads {f f' : Tree → Option α}
    (h : ts.map (content source) = ts'.map (content source'))
    (hf : ∀ t t', Reads source source' t t' → f t = f' t') : ts.findSome? f = ts'.findSome? f' := by
  have hmap := congrArg (List.findSome? id) (map_reads h hf)
  simpa only [List.findSome?_map, Function.id_comp] using hmap

theorem filter_reads (h : ts.map (content source) = ts'.map (content source'))
    (hp : ∀ t t', Reads source source' t t' → p t = p' t') :
    (ts.filter p).map (content source) = (ts'.filter p').map (content source') := by
  induction ts generalizing ts' with
  | nil =>
    cases ts' with
    | nil => rfl
    | cons => simp at h
  | cons t ts ih =>
    cases ts' with
    | nil => simp at h
    | cons t' ts' =>
      obtain ⟨h1, h2⟩ := List.cons_eq_cons.1 h
      rw [List.filter_cons, List.filter_cons, hp t t' h1]
      split
      · rw [List.map_cons, List.map_cons, h1, ih h2]
      · exact ih h2

theorem find?_reads (h : ts.map (content source) = ts'.map (content source'))
    (hp : ∀ t t', Reads source source' t t' → p t = p' t') :
    (ts.find? p).map (content source) = (ts'.find? p').map (content source') := by
  rw [← List.head?_filter, ← List.head?_filter, ← List.head?_map, ← List.head?_map,
    filter_reads h hp]

/-- Of lists that read alike up to the order of their nodes the same is told up to its order. -/
theorem filterMap_perm_reads {f f' : Tree → Option α}
    (h : (ts.map (content source)).Perm (ts'.map (content source')))
    (hf : ∀ t t', Reads source source' t t' → f t = f' t') :
    (ts.filterMap f).Perm (ts'.filterMap f') := by
  obtain ⟨us, hus, hperm⟩ := (congrFun₂ (List.eq_map_comp_perm (content source'))
    (ts.map (content source)) ts').mpr h
  have hmap := congrArg (List.filterMap id) (map_reads hus hf)
  rw [List.filterMap_map, List.filterMap_map, Function.id_comp, Function.id_comp] at hmap
  rw [hmap]
  exact hperm.filterMap f'

theorem bind_reads {o o' : Option Tree} {f f' : Tree → Option α}
    (h : o.map (content source) = o'.map (content source'))
    (hf : ∀ t t', Reads source source' t t' → f t = f' t') : o.bind f = o'.bind f' := by
  cases o with
  | none =>
    cases o' with
    | none => rfl
    | some => simp at h
  | some t =>
    cases o' with
    | none => simp at h
    | some t' => exact hf t t' (Option.some.inj h)

theorem option_map_reads {o o' : Option Tree} {f f' : Tree → α}
    (h : o.map (content source) = o'.map (content source'))
    (hf : ∀ t t', Reads source source' t t' → f t = f' t') : o.map f = o'.map f' := by
  rw [Option.map_eq_bind, Option.map_eq_bind]
  exact bind_reads h fun t t' ht => congrArg some (hf t t' ht)

theorem option_any_reads {o o' : Option Tree} {p p' : Tree → Bool}
    (h : o.map (content source) = o'.map (content source'))
    (hp : ∀ t t', Reads source source' t t' → p t = p' t') : o.any p = o'.any p' := by
  have hmap := congrArg (Option.any id) (option_map_reads h hp)
  simpa only [Option.any_map, id_eq] using hmap

end Lists

mutual

theorem Reads.size_eq : ∀ {t t' : Tree}, Reads source source' t t' → t.size = t'.size
  | node _ _ _ _ cs, node _ _ _ _ cs', h => by
    have hcs : cs.map (content source) = cs'.map (content source') := (reads_iff.1 h).2.2.2
    rw [size, size, sizeAll_reads hcs]

theorem sizeAll_reads : ∀ {ts ts' : List Tree},
    ts.map (content source) = ts'.map (content source') → sizeAll ts = sizeAll ts'
  | [], [], _ => rfl
  | [], _ :: _, h => by simp at h
  | _ :: _, [], h => by simp at h
  | t :: ts, t' :: ts', h => by
    obtain ⟨h1, h2⟩ := List.cons_eq_cons.1 h
    rw [sizeAll, sizeAll, Reads.size_eq h1, sizeAll_reads h2]

end

namespace Reads

variable (h : Reads source source' t t')

include h

theorem kind_eq : t.kind = t'.kind := (reads_iff.1 h).1

theorem is_eq (k : NodeKind) : t.is k = t'.is k := by rw [is, is, h.kind_eq]

theorem isAny_eq (ks : List NodeKind) : t.isAny ks = t'.isAny ks := by
  rw [isAny, isAny]
  exact congrArg _ (funext fun k => h.is_eq k)

theorem text_eq : t.text source = t'.text source' := by rw [text, text, (reads_iff.1 h).2.2.1]

theorem stringValue_eq : t.stringValue source = t'.stringValue source' := by
  rw [stringValue, stringValue, h.is_eq, h.text_eq]

theorem children : t.children.map (content source) = t'.children.map (content source') :=
  (reads_iff.1 h).2.2.2

theorem namedChildren : t.namedChildren.map (content source) = t'.namedChildren.map (content source') :=
  filter_reads h.children fun _ _ hc => by rw [hc.kind_eq]

theorem significant : t.significant.map (content source) = t'.significant.map (content source') :=
  filter_reads h.namedChildren fun _ _ hc => by rw [hc.is_eq]

theorem child? (r : Role) :
    (t.child? r).map (content source) = (t'.child? r).map (content source') :=
  find?_reads h.children fun _ _ hc => by rw [(reads_iff.1 hc).2.1]

theorem head?_significant :
    t.significant.head?.map (content source) = t'.significant.head?.map (content source') := by
  rw [← List.head?_map, ← List.head?_map, h.significant]

theorem annotatedType :
    t.annotatedType.map (content source) = t'.annotatedType.map (content source') := by
  unfold Tree.annotatedType
  simp only [Option.bind_eq_bind, Option.map_bind]
  refine bind_reads (h.child? _) fun c c' hc => ?_
  simp only [Function.comp, hc.is_eq]
  split
  · exact hc.head?_significant
  · exact congrArg some hc

theorem memberKey_eq : t.memberKey source = t'.memberKey source' := by
  unfold memberKey
  rw [h.is_eq, h.is_eq, h.text_eq]
  refine ite_congr rfl (fun _ => rfl) fun _ => ite_congr rfl (fun _ => ?_) fun _ => rfl
  have hkey := h.child? .key
  generalize t.child? .key = k at hkey
  generalize t'.child? .key = k' at hkey
  cases k with
  | none =>
    cases k' with
    | none => rfl
    | some => simp at hkey
  | some k =>
    cases k' with
    | none => simp at hkey
    | some k' =>
      have hread : Reads source source' k k' := Option.some.inj hkey
      dsimp only
      rw [hread.is_eq, hread.isAny_eq, hread.stringValue_eq, hread.text_eq]

theorem memberValue : t.memberValue.map (content source) = t'.memberValue.map (content source') := by
  unfold Tree.memberValue
  rw [h.is_eq, h.is_eq]
  split
  · exact h.child? _
  · split
    · exact congrArg some h
    · rfl

theorem genericArgument_eq (generic : String) :
    t.genericArgument generic source = t'.genericArgument generic source' := by
  unfold genericArgument
  rw [h.is_eq]
  split
  · rfl
  refine bind_reads (h.child? _) fun name name' hname => ?_
  rw [hname.text_eq]
  split
  · rfl
  refine bind_reads (h.child? _) fun args args' hargs => ?_
  refine bind_reads hargs.head?_significant fun first first' hfirst => ?_
  rw [hfirst.isAny_eq, hfirst.text_eq]

end Reads

end Tree

end OrmCodemod.Syntax
