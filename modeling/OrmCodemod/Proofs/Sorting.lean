import Mathlib.Tactic

/-! Sorting by insertion, as edits, calls and classes are sorted: every element goes before the
first one that has to come after it. The order only has to be total up to ties, and elements that
tie keep the order in which they came. -/

namespace OrmCodemod.Sorting

variable {α : Type} (lt : α → α → Bool)

def insertBy (e : α) : List α → List α
  | [] => [e]
  | x :: xs => if lt e x then e :: x :: xs else x :: insertBy e xs

def sortBy (es : List α) : List α := es.foldl (fun acc e => insertBy lt e acc) []

theorem insertBy_perm (e : α) (xs : List α) : (insertBy lt e xs).Perm (e :: xs) := by
  induction xs with
  | nil => exact List.Perm.refl _
  | cons x xs ih =>
    unfold insertBy
    split
    · exact List.Perm.refl _
    · exact (ih.cons x).trans (List.Perm.swap e x xs)

theorem foldl_insertBy_perm (es acc : List α) :
    (es.foldl (fun acc e => insertBy lt e acc) acc).Perm (acc ++ es) := by
  induction es generalizing acc with
  | nil => simp
  | cons e es ih =>
    refine (ih _).trans ?_
    refine ((insertBy_perm lt e acc).append_right es).trans ?_
    exact List.perm_middle.symm

theorem sortBy_perm (es : List α) : (sortBy lt es).Perm es := by
  simpa [sortBy] using foldl_insertBy_perm lt es []

/-- No later element has to precede an earlier one. -/
def Sorted (xs : List α) : Prop := xs.Pairwise fun a b => lt b a = false

/-- What an order has to satisfy: what must not come before is transitive, and of two elements one
must not come before the other. -/
structure Weak : Prop where
  trans : ∀ a b c, lt b a = false → lt c b = false → lt c a = false
  asymm : ∀ a b, lt a b = true → lt b a = false

variable {lt}

theorem insertBy_sorted (h : Weak lt) (e : α) {xs : List α} (hx : Sorted lt xs) :
    Sorted lt (insertBy lt e xs) := by
  induction xs with
  | nil => simp [insertBy, Sorted]
  | cons x xs ih =>
    obtain ⟨h1, h2⟩ := List.pairwise_cons.1 hx
    unfold insertBy
    split
    · rename_i hlt
      refine List.pairwise_cons.2 ⟨fun y hy => ?_, hx⟩
      rcases List.mem_cons.1 hy with rfl | hy
      · exact h.asymm _ _ hlt
      · exact h.trans _ _ _ (h.asymm _ _ hlt) (h1 y hy)
    · rename_i hlt
      refine List.pairwise_cons.2 ⟨fun y hy => ?_, ih h2⟩
      rcases List.mem_cons.1 ((insertBy_perm lt e xs).mem_iff.1 hy) with rfl | hy
      · simpa using hlt
      · exact h1 y hy

theorem sortBy_sorted (h : Weak lt) (es : List α) : Sorted lt (sortBy lt es) := by
  suffices ∀ acc, Sorted lt acc → Sorted lt (es.foldl (fun acc e => insertBy lt e acc) acc) by
    exact this [] List.Pairwise.nil
  induction es with
  | nil => exact fun acc hacc => hacc
  | cons e es ih => exact fun acc hacc => ih _ (insertBy_sorted h e hacc)

theorem filter_insertBy (h : Weak lt) (q : α → Bool) (e : α) {xs : List α} (hx : Sorted lt xs)
    (hq : q e = true → ∀ x ∈ xs, q x = true → lt e x = false) :
    (insertBy lt e xs).filter q = xs.filter q ++ [e].filter q := by
  induction xs with
  | nil => simp [insertBy]
  | cons x xs ih =>
    obtain ⟨h1, h2⟩ := List.pairwise_cons.1 hx
    unfold insertBy
    split
    · rename_i hlt
      cases he : q e with
      | false => simp [he]
      | true =>
        -- `e` precedes `x` and so all that follows, none of which can be a peer
        have hnone : ∀ y ∈ x :: xs, q y = false := by
          intro y hy
          by_contra hy'
          have hey := hq he y hy (by simpa using hy')
          rcases List.mem_cons.1 hy with rfl | hy
          · simp [hlt] at hey
          · have := h.trans _ _ _ (h1 y hy) hey
            simp [hlt] at this
        rw [List.filter_cons_of_pos he, List.filter_eq_nil_iff.2 (by simpa using hnone)]
        simp [he]
    · rw [List.filter_cons, List.filter_cons, ih h2 fun he y hy => hq he y (by simp [hy])]
      split <;> simp

theorem filter_sortBy (h : Weak lt) (q : α → Bool) {es : List α}
    (hq : es.Pairwise fun a b => q a = true → q b = true → lt b a = false) :
    (sortBy lt es).filter q = es.filter q := by
  suffices ∀ acc, Sorted lt acc → (∀ a ∈ acc, ∀ b ∈ es, q a = true → q b = true → lt b a = false) →
      (es.foldl (fun acc e => insertBy lt e acc) acc).filter q = acc.filter q ++ es.filter q by
    simpa [sortBy] using this [] List.Pairwise.nil (by simp)
  induction es with
  | nil => intro acc _ _; simp
  | cons e es ih =>
    intro acc hacc hpeers
    obtain ⟨h1, h2⟩ := List.pairwise_cons.1 hq
    rw [List.foldl_cons, ih h2 _ (insertBy_sorted h e hacc), filter_insertBy h q e hacc]
    · rw [List.append_assoc, ← List.filter_append, List.singleton_append]
    · exact fun he x hx hqx => hpeers x hx e (by simp) hqx he
    · intro a ha b hb
      rcases List.mem_cons.1 ((insertBy_perm lt e acc).mem_iff.1 ha) with rfl | ha
      · exact h1 b hb
      · exact hpeers a ha b (by simp [hb])

end OrmCodemod.Sorting
