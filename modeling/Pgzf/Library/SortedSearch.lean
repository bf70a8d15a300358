import Mathlib.Data.List.Basic
import Mathlib.Order.Lattice

/-!
# Looking up the last element that is not too large

A search in a sorted list may find any of several equal elements. Going one step back from the place
of a target that is not there leads to the last element below it; a match is the last element that
is not above it unless the next one is a match too. A search by halves that never stops at a match
finds the last one.
-/

namespace SortedSearch

variable {α : Type} [LinearOrder α] {xs : List α} {target : α}

/-- What a search for `target` may answer: the index of a match, or the place where it would have to
stand. -/
inductive Answer (xs : List α) (target : α) : Except Nat Nat → Prop
  | found {i : Nat} : xs[i]? = some target → Answer xs target (.ok i)
  | missing {i : Nat} : i ≤ xs.length → (∀ j x, xs[j]? = some x → j < i → x < target) →
      (∀ j x, xs[j]? = some x → i ≤ j → target < x) → Answer xs target (.error i)

def pick : Except Nat Nat → Nat
  | .ok i => i
  | .error i => i - 1

structure LastLe (xs : List α) (target : α) (i : Nat) : Prop where
  le : ∃ x, xs[i]? = some x ∧ x ≤ target
  lt : ∀ j x, i < j → xs[j]? = some x → target < x

theorem le_of_sorted (hsorted : xs.Pairwise (· ≤ ·)) {i j : Nat} {x y : α} (hx : xs[i]? = some x)
    (hy : xs[j]? = some y) (hij : i ≤ j) : x ≤ y := by
  obtain ⟨hi, rfl⟩ := List.getElem?_eq_some_iff.mp hx
  obtain ⟨hj, rfl⟩ := List.getElem?_eq_some_iff.mp hy
  rcases Nat.lt_or_eq_of_le hij with hlt | rfl
  · exact List.pairwise_iff_getElem.mp hsorted i j hi hj hlt
  · exact le_refl _

theorem Answer.pick_le {answer : Except Nat Nat} (h : Answer xs target answer) {first : α}
    (hfirst : xs[0]? = some first) (hle : first ≤ target) :
    ∃ x, xs[pick answer]? = some x ∧ x ≤ target := by
  cases h with
  | found hmatch => exact ⟨target, hmatch, le_refl _⟩
  | @missing i hlen hbelow habove =>
    have hpos : 0 < i := by
      by_contra hzero
      exact absurd (habove 0 first hfirst (Nat.le_of_not_lt hzero)) (not_lt.mpr hle)
    have hi : i - 1 < xs.length := by omega
    have hget : xs[i - 1]? = some xs[i - 1] := List.getElem?_eq_getElem hi
    exact ⟨xs[i - 1], hget, le_of_lt (hbelow (i - 1) _ hget (by omega))⟩

theorem Answer.pick_match {answer : Except Nat Nat} (h : Answer xs target answer) {i : Nat}
    (hi : xs[i]? = some target) :
    xs[pick answer]? = some target := by
  cases h with
  | found hmatch => exact hmatch
  | @missing j hlen hbelow habove =>
    rcases Nat.lt_or_ge i j with hij | hij
    · exact absurd (hbelow i target hi hij) (lt_irrefl _)
    · exact absurd (habove i target hi hij) (lt_irrefl _)

theorem Answer.lastLe {answer : Except Nat Nat} (h : Answer xs target answer)
    (hsorted : xs.Pairwise (· ≤ ·)) {first : α} (hfirst : xs[0]? = some first)
    (hle : first ≤ target) (honce : ∀ i, answer = .ok i → xs[i + 1]? ≠ some target) :
    LastLe xs target (pick answer) := by
  refine ⟨h.pick_le hfirst hle, ?_⟩
  cases h with
  | @found i hmatch =>
    intro j x hij hx
    have hnext : i + 1 < xs.length := by
      have hj := (List.getElem?_eq_some_iff.mp hx).1
      rw [pick] at hij
      omega
    have hy : xs[i + 1]? = some xs[i + 1] := List.getElem?_eq_getElem hnext
    have hne : target ≠ xs[i + 1] := fun heq => honce i rfl (by rw [hy, ← heq])
    have hlt : target < xs[i + 1] :=
      lt_of_le_of_ne (le_of_sorted hsorted hmatch hy (Nat.le_succ i)) hne
    exact lt_of_lt_of_le hlt (le_of_sorted hsorted hy hx hij)
  | @missing i hlen hbelow habove =>
    intro j x hij hx
    rw [pick] at hij
    exact habove j x hx (by omega)

/-! ### A search by halves -/

/-- Half of what is left is dropped in every turn, also at a match. -/
def narrow (xs : List α) (target : α) : Nat → Nat → Nat → Nat
  | 0, base, _ => base
  | turns + 1, base, size =>
    if 1 < size then
      let mid := base + size / 2
      narrow xs target turns (if xs[mid]?.any (target < ·) then base else mid) (size - size / 2)
    else
      base

def search (xs : List α) (target : α) : Except Nat Nat :=
  let base := narrow xs target xs.length 0 xs.length
  match xs[base]? with
  | none => .error base
  | some x => if x = target then .ok base else .error (if x < target then base + 1 else base)

/-- The last element that is not above the target is one of the `size` elements at `base`, where
there is one. -/
structure Narrowed (xs : List α) (target : α) (base size : Nat) : Prop where
  pos : 0 < size
  within : base + size ≤ xs.length
  below : base = 0 ∨ ∃ x, xs[base]? = some x ∧ x ≤ target
  above : ∀ j x, xs[j]? = some x → base + size ≤ j → target < x

/-- By induction on the turns. -/
theorem Narrowed.narrow (hsorted : xs.Pairwise (· ≤ ·)) {turns base size : Nat}
    (h : Narrowed xs target base size) (hturns : size ≤ turns + 1) :
    Narrowed xs target (SortedSearch.narrow xs target turns base size) 1 := by
  induction turns generalizing base size with
  | zero =>
    obtain rfl : size = 1 := by have := h.pos; omega
    exact h
  | succ turns ih =>
    rw [SortedSearch.narrow]
    by_cases hsize : 1 < size
    · have hwithin := h.within
      have hmid : xs[base + size / 2]? = some xs[base + size / 2] :=
        List.getElem?_eq_getElem (by omega)
      rw [if_pos hsize]
      dsimp only
      rw [hmid, Option.any_some]
      by_cases hlt : target < xs[base + size / 2]
      · rw [if_pos (decide_eq_true hlt)]
        refine ih ⟨by omega, by omega, h.below, fun j x hx hj => ?_⟩ (by omega)
        exact lt_of_lt_of_le hlt (le_of_sorted hsorted hmid hx (by omega))
      · rw [if_neg (by simpa using hlt)]
        exact ih ⟨by omega, by omega, .inr ⟨_, hmid, not_lt.mp hlt⟩,
          fun j x hx hj => h.above j x hx (by omega)⟩ (by omega)
    · obtain rfl : size = 1 := by have := h.pos; omega
      rw [if_neg (Nat.lt_irrefl 1)]
      exact h

theorem narrowed (hsorted : xs.Pairwise (· ≤ ·)) (hpos : 0 < xs.length) :
    Narrowed xs target (narrow xs target xs.length 0 xs.length) 1 := by
  refine Narrowed.narrow hsorted ⟨hpos, by omega, .inl rfl, fun j x hx hj => ?_⟩ (Nat.le_succ _)
  have hlt := (List.getElem?_eq_some_iff.mp hx).1
  omega

theorem search_answers (hsorted : xs.Pairwise (· ≤ ·)) : Answer xs target (search xs target) := by
  rw [search]
  rcases Nat.eq_zero_or_pos xs.length with hnil | hpos
  · obtain rfl := List.length_eq_zero_iff.mp hnil
    exact .missing (Nat.zero_le _) (fun j x hx => absurd hx (by simp)) fun j x hx =>
      absurd hx (by simp)
  have h := @narrowed _ _ xs target hsorted hpos
  generalize narrow xs target xs.length 0 xs.length = base at h ⊢
  have hwithin := h.within
  have hbase : xs[base]? = some xs[base] := List.getElem?_eq_getElem (by omega)
  simp only [hbase]
  by_cases heq : xs[base] = target
  · rw [if_pos heq]
    exact .found (hbase.trans (congrArg some heq))
  rw [if_neg heq]
  by_cases hlt : xs[base] < target
  · rw [if_pos hlt]
    refine .missing (by omega) (fun j x hx hj => ?_) fun j x hx hj => h.above j x hx hj
    exact lt_of_le_of_lt (le_of_sorted hsorted hx hbase (by omega)) hlt
  · have hgt : target < xs[base] := lt_of_le_of_ne (not_lt.mp hlt) (Ne.symm heq)
    rw [if_neg hlt]
    rcases h.below with rfl | ⟨x, hx, hle⟩
    · exact .missing (Nat.zero_le _) (fun j x _ hj => absurd hj (Nat.not_lt_zero j))
          fun j x hx hj =>
        lt_of_lt_of_le hgt (le_of_sorted hsorted hbase hx hj)
    · obtain rfl := Option.some.inj (hbase.symm.trans hx)
      exact absurd hgt (not_lt.mpr hle)

theorem search_last (hsorted : xs.Pairwise (· ≤ ·)) {i : Nat} (h : search xs target = .ok i) :
    xs[i + 1]? ≠ some target := by
  rw [search] at h
  rcases Nat.eq_zero_or_pos xs.length with hnil | hpos
  · obtain rfl := List.length_eq_zero_iff.mp hnil
    exact fun hx => absurd hx (by simp)
  have hnarrowed := @narrowed _ _ xs target hsorted hpos
  generalize narrow xs target xs.length 0 xs.length = base at h hnarrowed
  have hwithin := hnarrowed.within
  simp only [List.getElem?_eq_getElem (show base < xs.length by omega)] at h
  by_cases heq : xs[base] = target
  · rw [if_pos heq] at h
    obtain rfl := Except.ok.inj h
    exact fun hx => absurd (hnarrowed.above _ _ hx (Nat.le_refl _)) (lt_irrefl _)
  · rw [if_neg heq] at h
    exact absurd h (by simp)

end SortedSearch
