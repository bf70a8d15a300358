import Pgzf.Batch
import Pgzf.Index

/-!
# The ranges of a refill

`group_contiguous` cuts the indices that are to be read into the fewest ranges: between two of them
an index is missing, so there is no other way to list the same indices by ranges with gaps, and one
seek to each range is enough.
-/

namespace Pgzf

open PgzfReader Program

namespace PgzfReader

/-! ### Operations of the source -/

/-- The loop of `group_contiguous` with its sums in `usize`. -/
def groupContiguousLoopU64 {σ : Type} : List Nat → Nat → Nat → Prog σ (List (Nat × Nat))
  | [], start, prev => do
    return [(start, ← addU64 prev 1)]
  | idx :: rest, start, prev => do
    let next ← addU64 prev 1
    if idx = next then
      groupContiguousLoopU64 rest start idx
    else
      return (start, next) :: (← groupContiguousLoopU64 rest idx idx)

def groupContiguousU64 {σ : Type} : List Nat → Prog σ (List (Nat × Nat))
  | [] => return []
  | first :: rest => groupContiguousLoopU64 rest first first

end PgzfReader

/-- The ranges list these indices in order; none is
empty, and neighbours have a gap between them. -/
structure Grouping (indices : List Nat) (ranges : List (Nat × Nat)) : Prop where
  elements : ranges.flatMap rangeIndices = indices
  nonempty : ∀ range ∈ ranges, range.1 < range.2
  gaps : ranges.IsChain fun range next => range.2 < next.1

/-! ### The sums -/

theorem groupContiguousLoopU64_eq {σ : Type} {rest : List Nat} {prev : Nat}
    (hrest : ∀ idx ∈ rest, idx < 2 ^ 64 - 1) (hprev : prev < 2 ^ 64 - 1) (start : Nat) (s : σ) :
    (groupContiguousLoopU64 rest start prev : Prog σ (List (Nat × Nat))) s =
      .ok (groupContiguousLoop rest start prev) s := by
  have hsum : prev + 1 < 2 ^ 64 := by omega
  induction rest generalizing start prev with
  | nil =>
    rw [groupContiguousLoopU64, bind_ok (addU64_of_lt hsum s)]
    rfl
  | cons idx rest ih =>
    have hidx := hrest idx List.mem_cons_self
    have hloop := fun start => ih (fun i hi => hrest i (List.mem_cons_of_mem _ hi)) hidx start
      (by omega)
    rw [groupContiguousLoopU64, bind_ok (addU64_of_lt hsum s), groupContiguousLoop]
    by_cases hnext : idx = prev + 1
    · rw [if_pos hnext, if_pos hnext]
      exact hloop start
    · rw [if_neg hnext, if_neg hnext, bind_ok (hloop idx)]
      rfl

theorem groupContiguousU64_eq {σ : Type} {indices : List Nat}
    (h : ∀ idx ∈ indices, idx < 2 ^ 64 - 1) (s : σ) :
    (groupContiguousU64 indices : Prog σ (List (Nat × Nat))) s =
      .ok (groupContiguous indices) s := by
  cases indices with
  | nil => rfl
  | cons first rest =>
    exact groupContiguousLoopU64_eq (fun i hi => h i (List.mem_cons_of_mem _ hi))
      (h first List.mem_cons_self) first s

/-! ### The gaps -/

theorem le_of_mem_groupContiguousLoop {rest : List Nat} {start prev : Nat}
    (hsorted : (prev :: rest).Pairwise (· < ·)) (hle : start ≤ prev) :
    ∀ range ∈ groupContiguousLoop rest start prev, start ≤ range.1 := by
  induction rest generalizing start prev with
  | nil =>
    intro range hrange
    rw [List.mem_singleton.mp hrange]
  | cons idx rest ih =>
    obtain ⟨hprev, htail⟩ := List.pairwise_cons.mp hsorted
    have hlt := hprev idx List.mem_cons_self
    intro range hrange
    rw [groupContiguousLoop] at hrange
    split at hrange
    · exact ih htail (by omega) range hrange
    · rcases List.mem_cons.mp hrange with rfl | hrange
      · exact Nat.le_refl _
      · have := ih htail (Nat.le_refl _) range hrange
        omega

theorem pairwise_groupContiguousLoop {rest : List Nat} {start prev : Nat}
    (hsorted : (prev :: rest).Pairwise (· < ·)) :
    (groupContiguousLoop rest start prev).Pairwise fun range later => range.2 < later.1 := by
  induction rest generalizing start prev with
  | nil => exact List.pairwise_singleton _ _
  | cons idx rest ih =>
    obtain ⟨hprev, htail⟩ := List.pairwise_cons.mp hsorted
    have hlt := hprev idx List.mem_cons_self
    rw [groupContiguousLoop]
    split
    · exact ih htail
    · rename_i hgap
      rw [List.pairwise_cons]
      refine ⟨?_, ih htail⟩
      intro later hlater
      have := le_of_mem_groupContiguousLoop htail (Nat.le_refl _) later hlater
      omega

theorem pairwise_groupContiguous {indices : List Nat} (hsorted : indices.Pairwise (· < ·)) :
    (groupContiguous indices).Pairwise fun range later => range.2 < later.1 := by
  cases indices with
  | nil => exact .nil
  | cons first rest => exact pairwise_groupContiguousLoop hsorted

theorem grouping_groupContiguous {indices : List Nat} (hsorted : indices.Pairwise (· < ·)) :
    Grouping indices (groupContiguous indices) :=
  ⟨groupContiguous_indices indices, fun _ hrange => groupContiguous_lt hrange,
    (pairwise_groupContiguous hsorted).isChain⟩

theorem end_not_mem {indices : List Nat} (hsorted : indices.Pairwise (· < ·)) {range : Nat × Nat}
    (hrange : range ∈ groupContiguous indices) : range.2 ∉ indices := by
  intro hmem
  rw [← groupContiguous_indices indices] at hmem
  obtain ⟨other, hother, hin⟩ := List.mem_flatMap.mp hmem
  obtain ⟨hfrom, hto⟩ := List.mem_range'_1.mp hin
  have hpairs := List.pairwise_iff_getElem.mp (pairwise_groupContiguous hsorted)
  have hlt := groupContiguous_lt hrange
  obtain ⟨i, hi, rfl⟩ := List.getElem_of_mem hrange
  obtain ⟨j, hj, rfl⟩ := List.getElem_of_mem hother
  rcases Nat.lt_trichotomy i j with hij | rfl | hji
  · have := hpairs i j hi hj hij
    omega
  · omega
  · have := hpairs j i hj hi hji
    omega

/-! ### The only grouping -/

theorem groupContiguousLoop_range (count : Nat) {start prev : Nat} {tail : List Nat}
    (hgap : prev + 1 + count ∉ tail.head?) :
    groupContiguousLoop (List.range' (prev + 1) count ++ tail) start prev =
      (start, prev + 1 + count) :: groupContiguous tail := by
  induction count generalizing prev with
  | zero =>
    cases tail with
    | nil => rfl
    | cons idx rest =>
      have hne : idx ≠ prev + 1 := fun heq => hgap (by rw [heq]; rfl)
      rw [List.range'_zero, List.nil_append, groupContiguousLoop, if_neg hne]
      rfl
  | succ count ih =>
    have hsame : prev + 1 + (count + 1) = prev + 1 + 1 + count := by omega
    rw [hsame] at hgap
    rw [List.range'_succ, List.cons_append, groupContiguousLoop, if_pos rfl, ih hgap, hsame]

theorem groupContiguous_flatMap {ranges : List (Nat × Nat)}
    (hne : ∀ range ∈ ranges, range.1 < range.2)
    (hgaps : ranges.IsChain fun range next => range.2 < next.1) :
    groupContiguous (ranges.flatMap rangeIndices) = ranges := by
  induction ranges with
  | nil => rfl
  | cons range rest ih =>
    have hlt := hne range List.mem_cons_self
    have hrest := ih (fun r hr => hne r (List.mem_cons_of_mem _ hr)) hgaps.of_cons
    obtain ⟨count, hcount⟩ : ∃ count, range.2 = range.1 + 1 + count := Nat.exists_eq_add_of_le hlt
    have hindices : rangeIndices range = range.1 :: List.range' (range.1 + 1) count := by
      rw [rangeIndices, hcount, Nat.add_assoc, Nat.add_sub_cancel_left,
        Nat.add_comm 1, List.range'_succ]
    have hgap : range.1 + 1 + count ∉ (rest.flatMap rangeIndices).head? := by
      cases rest with
      | nil => exact fun hhead => absurd hhead (by simp)
      | cons next others =>
        have hnext := (List.isChain_cons_cons.mp hgaps).1
        have hpos := hne next (List.mem_cons_of_mem _ List.mem_cons_self)
        obtain ⟨width, hwidth⟩ : ∃ width, next.2 = next.1 + 1 + width :=
          Nat.exists_eq_add_of_le hpos
        have hhead : ((next :: others).flatMap rangeIndices).head? = some next.1 := by
          rw [List.flatMap_cons, rangeIndices, hwidth, Nat.add_assoc, Nat.add_sub_cancel_left,
            Nat.add_comm 1, List.range'_succ]
          rfl
        rw [hhead]
        intro heq
        have := Option.some.inj heq
        omega
    rw [List.flatMap_cons, hindices, List.cons_append, groupContiguous,
      groupContiguousLoop_range count hgap, hrest, ← hcount]

/-- Increasing indices below `usize::MAX` are grouped without overflow into the only ranges that
list them with gaps. -/
theorem groupContiguous_exact {indices : List Nat} (hsorted : indices.Pairwise (· < ·))
    (hbelow : ∀ idx ∈ indices, idx < 2 ^ 64 - 1) :
    (∀ (σ : Type) (s : σ), groupContiguousU64 indices s = .ok (groupContiguous indices) s) ∧
      Grouping indices (groupContiguous indices) ∧
        (∀ range ∈ groupContiguous indices, range.2 ∉ indices) ∧
        ∀ ranges, Grouping indices ranges → ranges = groupContiguous indices := by
  refine ⟨fun _ => groupContiguousU64_eq hbelow, grouping_groupContiguous hsorted, fun _ hrange =>
    end_not_mem hsorted hrange, ?_⟩
  intro ranges hgrouping
  rw [← hgrouping.elements, groupContiguous_flatMap hgrouping.nonempty hgrouping.gaps]

theorem groupContiguous_exact_sample : Grouping [0, 1, 2, 5, 6, 9] [(0, 3), (5, 7), (9, 10)] :=
  (@groupContiguous_exact [0, 1, 2, 5, 6, 9] (by decide) (by decide)).2.1

end Pgzf
