import Mathlib.Algebra.GroupWithZero.Nat
import Mathlib.Algebra.Order.Group.Nat
import Mathlib.Algebra.Order.BigOperators.Group.List

/-!
# Running sums

Where the pieces of a sequence begin, given their sizes: `starts base sizes` lists, for each size,
the base plus all sizes before it.
-/

namespace RunningSum

def starts : Nat → List Nat → List Nat
  | _, [] => []
  | base, size :: rest => base :: starts (base + size) rest

@[simp] theorem starts_nil (base : Nat) : starts base [] = [] := rfl

theorem starts_cons (base size : Nat) (rest : List Nat) :
    starts base (size :: rest) = base :: starts (base + size) rest := rfl

@[simp] theorem length_starts (base : Nat) (sizes : List Nat) :
    (starts base sizes).length = sizes.length := by
  induction sizes generalizing base with
  | nil => rfl
  | cons size rest ih => rw [starts_cons, List.length_cons, ih, List.length_cons]

theorem starts_append (base : Nat) (xs ys : List Nat) :
    starts base (xs ++ ys) = starts base xs ++ starts (base + xs.sum) ys := by
  induction xs generalizing base with
  | nil => rfl
  | cons x xs ih =>
    rw [List.cons_append, starts_cons, starts_cons, ih, List.cons_append, List.sum_cons,
      Nat.add_assoc]

theorem getElem?_starts (base : Nat) {sizes : List Nat} {i : Nat} (hi : i < sizes.length) :
    (starts base sizes)[i]? = some (base + (sizes.take i).sum) := by
  induction sizes generalizing base i with
  | nil => exact absurd hi (Nat.not_lt_zero i)
  | cons size rest ih =>
    cases i with
    | zero => rfl
    | succ i =>
      rw [starts_cons, List.getElem?_cons_succ, ih (base + size) (by simpa using hi),
        List.take_succ_cons, List.sum_cons, Nat.add_assoc]

theorem le_of_mem_starts {base stop : Nat} {sizes : List Nat} (hstop : base + sizes.sum ≤ stop)
    {x : Nat} (hx : x ∈ starts base sizes ++ [stop]) : base ≤ x := by
  induction sizes generalizing base with
  | nil =>
    obtain rfl := List.mem_singleton.mp hx
    exact Nat.le_of_add_right_le hstop
  | cons size rest ih =>
    rw [List.sum_cons, ← Nat.add_assoc] at hstop
    rw [starts_cons, List.cons_append] at hx
    rcases List.mem_cons.mp hx with rfl | hx
    · exact Nat.le_refl _
    · exact Nat.le_of_add_right_le (ih hstop hx)

theorem pairwise_starts {base stop : Nat} {sizes : List Nat} (hstop : base + sizes.sum ≤ stop) :
    (starts base sizes ++ [stop]).Pairwise (· ≤ ·) := by
  induction sizes generalizing base with
  | nil => exact List.pairwise_singleton _ _
  | cons size rest ih =>
    rw [List.sum_cons, ← Nat.add_assoc] at hstop
    rw [starts_cons, List.cons_append, List.pairwise_cons]
    exact ⟨fun x hx => Nat.le_of_add_right_le (le_of_mem_starts hstop hx), ih hstop⟩

theorem getElem?_starts_end {sizes : List Nat} {i : Nat} (hi : i ≤ sizes.length) :
    (starts 0 sizes ++ [sizes.sum])[i]? = some (sizes.take i).sum := by
  rcases Nat.lt_or_eq_of_le hi with hlt | rfl
  · rw [List.getElem?_append_left (by rwa [length_starts]), getElem?_starts 0 hlt, Nat.zero_add]
  · rw [List.getElem?_append_right (Nat.le_of_eq (length_starts 0 sizes)), length_starts,
      Nat.sub_self, List.take_length]
    rfl

theorem sum_map_length {α : Type*} (pieces : List (List α)) :
    (pieces.map List.length).sum = pieces.flatten.length :=
  List.length_flatten.symm

theorem length_flatten_le {α : Type*} {pieces : List (List α)} {limit : Nat}
    (h : ∀ piece ∈ pieces, piece.length ≤ limit) :
    pieces.flatten.length ≤ pieces.length * limit := by
  have hsum : (pieces.map List.length).sum ≤ (pieces.map List.length).length * limit :=
    List.sum_le_card_nsmul _ _ (by
      intro n hn
      obtain ⟨piece, hpiece, rfl⟩ := List.mem_map.mp hn
      exact h piece hpiece)
  rwa [sum_map_length, List.length_map] at hsum

theorem le_length_flatten {α : Type*} {pieces : List (List α)} {size : Nat}
    (h : ∀ piece ∈ pieces, size ≤ piece.length) :
    pieces.length * size ≤ pieces.flatten.length := by
  have hsum : (pieces.map List.length).length * size ≤ (pieces.map List.length).sum :=
    List.card_nsmul_le_sum _ _ (by
      intro n hn
      obtain ⟨piece, hpiece, rfl⟩ := List.mem_map.mp hn
      exact h piece hpiece)
  rwa [sum_map_length, List.length_map] at hsum

end RunningSum
