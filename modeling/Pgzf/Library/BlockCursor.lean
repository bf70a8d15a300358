import Mathlib.Data.List.Basic

/-!
# A cursor over a sequence of blocks

The concatenation of `blocks` is read through a position. One read stays inside the block the
position is in: it returns what the caller asked for or what is left of that block, whichever is
less, and moves the position past it. Whatever such a read returns is the content at the position,
and it is empty only at the end.
-/

namespace BlockCursor

variable {α : Type}

/-- What is left, at a position, of the block the position is in. -/
def segment : List (List α) → Nat → List α
  | [], _ => []
  | block :: rest, pos =>
    if pos < block.length then block.drop pos else segment rest (pos - block.length)

def read (blocks : List (List α)) (pos n : Nat) : List α × Nat :=
  let out := (segment blocks pos).take n
  (out, pos + out.length)

def offset (blocks : List (List α)) (i : Nat) : Nat := (blocks.take i).flatten.length

@[simp] theorem offset_zero (blocks : List (List α)) : offset blocks 0 = 0 := rfl

theorem offset_succ {blocks : List (List α)} {i : Nat} (hi : i < blocks.length) :
    offset blocks (i + 1) = offset blocks i + blocks[i].length := by
  rw [offset, offset, List.take_succ_eq_append_getElem hi, List.flatten_append, List.length_append,
    List.flatten_cons, List.flatten_nil, List.append_nil]

theorem offset_length (blocks : List (List α)) :
    offset blocks blocks.length = blocks.flatten.length := by
  rw [offset, List.take_length]

theorem offset_of_length_le {blocks : List (List α)} {i : Nat} (hi : blocks.length ≤ i) :
    offset blocks i = blocks.flatten.length := by
  rw [offset, List.take_of_length_le hi]

theorem offset_add_drop (blocks : List (List α)) (i : Nat) :
    offset blocks i + (blocks.drop i).flatten.length = blocks.flatten.length := by
  rw [offset, ← List.length_append, ← List.flatten_append, List.take_append_drop]

theorem offset_le_length (blocks : List (List α)) (i : Nat) :
    offset blocks i ≤ blocks.flatten.length := by
  have := offset_add_drop blocks i
  omega

theorem offset_le_succ (blocks : List (List α)) (i : Nat) :
    offset blocks i ≤ offset blocks (i + 1) := by
  by_cases hi : i < blocks.length
  · rw [offset_succ hi]
    omega
  · exact Nat.le_of_eq (by rw [offset_of_length_le (by omega), offset_of_length_le (by omega)])

theorem offset_mono (blocks : List (List α)) {i j : Nat} (h : i ≤ j) :
    offset blocks i ≤ offset blocks j := by
  induction h with
  | refl => exact Nat.le_refl _
  | step _ ih => exact Nat.le_trans ih (offset_le_succ blocks _)

theorem segment_of_block {blocks : List (List α)} {i k : Nat} (hi : i < blocks.length)
    (hk : k < blocks[i].length) : segment blocks (offset blocks i + k) = blocks[i].drop k := by
  induction blocks generalizing i with
  | nil => exact absurd hi (Nat.not_lt_zero i)
  | cons block rest ih =>
    cases i with
    | zero =>
      rw [List.getElem_cons_zero] at hk ⊢
      rw [offset_zero, Nat.zero_add, segment, if_pos hk]
    | succ i =>
      rw [List.getElem_cons_succ] at hk ⊢
      have hoffset : offset (block :: rest) (i + 1) = block.length + offset rest i := by
        rw [offset, offset, List.take_succ_cons, List.flatten_cons, List.length_append]
      rw [segment, if_neg (by omega),
        show offset (block :: rest) (i + 1) + k - block.length = offset rest i + k by omega]
      exact ih (by simpa using hi) hk

theorem segment_of_length_le {blocks : List (List α)} {pos : Nat}
    (h : blocks.flatten.length ≤ pos) :
    segment blocks pos = [] := by
  induction blocks generalizing pos with
  | nil => rfl
  | cons block rest ih =>
    rw [List.flatten_cons, List.length_append] at h
    rw [segment, if_neg (by omega)]
    exact ih (by omega)

theorem segment_prefix_drop (blocks : List (List α)) (pos : Nat) :
    segment blocks pos <+: blocks.flatten.drop pos := by
  induction blocks generalizing pos with
  | nil => simp [segment]
  | cons block rest ih =>
    rw [segment, List.flatten_cons]
    split
    · rename_i hpos
      rw [List.drop_append_of_le_length (by omega)]
      exact List.prefix_append _ _
    · rename_i hpos
      rw [List.drop_append, List.drop_eq_nil_of_le (by omega), List.nil_append]
      exact ih _

theorem segment_ne_nil {blocks : List (List α)} {pos : Nat} (h : pos < blocks.flatten.length) :
    segment blocks pos ≠ [] := by
  induction blocks generalizing pos with
  | nil => exact absurd h (Nat.not_lt_zero pos)
  | cons block rest ih =>
    rw [List.flatten_cons, List.length_append] at h
    rw [segment]
    split
    · rename_i hpos
      rw [ne_eq, List.drop_eq_nil_iff]
      omega
    · exact ih (by omega)

theorem read_fst (blocks : List (List α)) (pos n : Nat) :
    (read blocks pos n).1 = (blocks.flatten.drop pos).take (read blocks pos n).1.length := by
  have hprefix : (read blocks pos n).1 <+: blocks.flatten.drop pos :=
    (List.take_prefix n _).trans (segment_prefix_drop blocks pos)
  exact List.prefix_iff_eq_take.mp hprefix

theorem read_snd (blocks : List (List α)) (pos n : Nat) :
    (read blocks pos n).2 = pos + (read blocks pos n).1.length := rfl

theorem read_fst_eq_nil_iff {blocks : List (List α)} {pos n : Nat} (hn : 0 < n) :
    (read blocks pos n).1 = [] ↔ blocks.flatten.length ≤ pos := by
  constructor
  · intro h
    by_contra hlt
    have hne := segment_ne_nil (by omega : pos < blocks.flatten.length)
    rcases List.take_eq_nil_iff.mp h with hzero | hnil
    · omega
    · exact hne hnil
  · intro h
    rw [read, segment_of_length_le h, List.take_nil]

theorem read_snd_le {blocks : List (List α)} {pos : Nat} (n : Nat)
    (h : pos ≤ blocks.flatten.length) :
    (read blocks pos n).2 ≤ blocks.flatten.length := by
  have hprefix : (read blocks pos n).1 <+: blocks.flatten.drop pos :=
    (List.take_prefix n _).trans (segment_prefix_drop blocks pos)
  have hlen := hprefix.length_le
  rw [List.length_drop] at hlen
  rw [read_snd]
  omega

/-! ### Reads one after another -/

/-- Reads of at most `sizes` elements, one after another. -/
def readAll (blocks : List (List α)) : Nat → List Nat → List (List α)
  | _, [] => []
  | pos, n :: sizes => (read blocks pos n).1 :: readAll blocks (read blocks pos n).2 sizes

theorem read_append_drop (blocks : List (List α)) (pos n : Nat) :
    (read blocks pos n).1 ++ blocks.flatten.drop (read blocks pos n).2 =
      blocks.flatten.drop pos := by
  conv_rhs => rw [← List.take_append_drop (read blocks pos n).1.length (blocks.flatten.drop pos),
    ← read_fst, List.drop_drop, ← read_snd]

theorem flatten_readAll (blocks : List (List α)) (pos : Nat) (sizes : List Nat) :
    (readAll blocks pos sizes).flatten <+: blocks.flatten.drop pos := by
  induction sizes generalizing pos with
  | nil => exact List.nil_prefix
  | cons n sizes ih =>
    rw [readAll, List.flatten_cons, ← read_append_drop blocks pos n]
    exact (List.prefix_append_right_inj _).mpr (ih _)

/-- A read returns nothing exactly when everything has been delivered before it. -/
theorem readAll_eq_nil_iff {blocks : List (List α)} {pos : Nat} {sizes : List Nat}
    (hsizes : ∀ n ∈ sizes, 0 < n) {k : Nat} {out : List α}
    (hout : (readAll blocks pos sizes)[k]? = some out) :
    out = [] ↔ ((readAll blocks pos sizes).take k).flatten = blocks.flatten.drop pos := by
  induction sizes generalizing pos k with
  | nil => exact absurd hout (by simp [readAll])
  | cons n sizes ih =>
    rw [readAll] at hout ⊢
    cases k with
    | zero =>
      rw [List.getElem?_cons_zero, Option.some.injEq] at hout
      rw [← hout, read_fst_eq_nil_iff (hsizes n List.mem_cons_self), List.take_zero,
        List.flatten_nil, eq_comm, List.drop_eq_nil_iff]
    | succ k =>
      rw [List.getElem?_cons_succ] at hout
      rw [ih (fun m hm => hsizes m (List.mem_cons_of_mem _ hm)) hout, List.take_succ_cons,
        List.flatten_cons, ← read_append_drop blocks pos n, List.append_cancel_left_eq]

/-- As many reads as there are elements left deliver them all. -/
theorem flatten_readAll_of_length_le {blocks : List (List α)} {pos : Nat} {sizes : List Nat}
    (hsizes : ∀ n ∈ sizes, 0 < n) (hlen : (blocks.flatten.drop pos).length ≤ sizes.length) :
    (readAll blocks pos sizes).flatten = blocks.flatten.drop pos := by
  induction sizes generalizing pos with
  | nil => rw [readAll, List.flatten_nil, List.length_eq_zero_iff.mp (Nat.le_zero.mp hlen)]
  | cons n sizes ih =>
    have hsplit := read_append_drop blocks pos n
    have hrest : (blocks.flatten.drop (read blocks pos n).2).length ≤ sizes.length := by
      by_cases hnil : (read blocks pos n).1 = []
      · have hend := (read_fst_eq_nil_iff (hsizes n List.mem_cons_self)).mp hnil
        have hle : pos ≤ (read blocks pos n).2 := by
          rw [read_snd]
          omega
        rw [List.drop_eq_nil_of_le (Nat.le_trans hend hle)]
        exact Nat.zero_le _
      · have hpos := List.length_pos_iff.mpr hnil
        have hlenSplit := congrArg List.length hsplit
        rw [List.length_append] at hlenSplit
        rw [List.length_cons] at hlen
        omega
    rw [readAll, List.flatten_cons, ih (fun m hm => hsizes m (List.mem_cons_of_mem _ hm)) hrest,
      hsplit]

end BlockCursor
