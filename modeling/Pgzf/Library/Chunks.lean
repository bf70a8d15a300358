import Mathlib.Data.List.Basic
import Mathlib.Tactic.Ring

/-!
# Cutting a list into chunks

`chunks n xs` cuts `xs` into consecutive pieces of `n` elements, the last one possibly shorter. The
development uses it three times: a payload is cut into blocks, the blocks into groups, and the
blocks of a group into compression batches. What carries the incremental proofs is `chunks_append`:
pieces that are already full stay where they are, whatever follows.
-/

namespace Chunks

variable {α : Type*}

def chunksFuel (n : Nat) : Nat → List α → List (List α)
  | 0, _ => []
  | _ + 1, [] => []
  | fuel + 1, x :: xs => (x :: xs).take n :: chunksFuel n fuel ((x :: xs).drop n)

/-- Consecutive pieces of `n` elements, the last one possibly shorter. -/
def chunks (n : Nat) (xs : List α) : List (List α) := chunksFuel n xs.length xs

variable {n : Nat}

theorem chunksFuel_eq (hn : 0 < n) {fuel m : Nat} {xs : List α} (h : xs.length ≤ fuel)
    (h' : xs.length ≤ m) : chunksFuel n fuel xs = chunksFuel n m xs := by
  induction fuel generalizing xs m with
  | zero =>
    have : xs = [] := List.length_eq_zero_iff.mp (by omega)
    subst this
    cases m <;> rfl
  | succ fuel ih =>
    cases xs with
    | nil => cases m <;> rfl
    | cons x xs =>
      cases m with
      | zero => simp only [List.length_cons] at h'; omega
      | succ m =>
        have hlen : ((x :: xs).drop n).length ≤ xs.length := by
          rw [List.length_drop, List.length_cons]
          omega
        simp only [List.length_cons] at h h'
        rw [chunksFuel, chunksFuel, ih (m := m) (by omega) (by omega)]

@[simp] theorem chunks_nil (n : Nat) : chunks n ([] : List α) = [] := rfl

theorem chunks_of_ne_nil (hn : 0 < n) {xs : List α} (h : xs ≠ []) :
    chunks n xs = xs.take n :: chunks n (xs.drop n) := by
  cases xs with
  | nil => exact absurd rfl h
  | cons x xs =>
    have hlen : ((x :: xs).drop n).length ≤ xs.length := by
      rw [List.length_drop, List.length_cons]
      omega
    rw [chunks, List.length_cons, chunksFuel, chunks, chunksFuel_eq hn hlen (Nat.le_refl _)]

theorem chunks_cons (hn : 0 < n) {piece : List α} (hpiece : piece.length = n) (rest : List α) :
    chunks n (piece ++ rest) = piece :: chunks n rest := by
  have hne : piece ++ rest ≠ [] := by
    intro h
    have := congrArg List.length h
    simp only [List.length_append, List.length_nil] at this
    omega
  rw [chunks_of_ne_nil hn hne, ← hpiece, List.take_left, List.drop_left]

/-- Full pieces stay where they are, whatever follows. -/
theorem chunks_append (hn : 0 < n) {pieces : List (List α)} (hpieces : ∀ p ∈ pieces, p.length = n)
    (rest : List α) : chunks n (pieces.flatten ++ rest) = pieces ++ chunks n rest := by
  induction pieces with
  | nil => rfl
  | cons piece pieces ih =>
    rw [List.flatten_cons, List.append_assoc, chunks_cons hn (hpieces piece List.mem_cons_self),
      ih fun p hp => hpieces p (List.mem_cons_of_mem _ hp), List.cons_append]

theorem chunks_of_length_le (hn : 0 < n) {xs : List α} (hne : xs ≠ []) (h : xs.length ≤ n) :
    chunks n xs = [xs] := by
  rw [chunks_of_ne_nil hn hne, List.take_of_length_le h, List.drop_eq_nil_of_le h, chunks_nil]

/-- Strong induction along the chunks of a list. -/
theorem chunks_induction (hn : 0 < n) {P : List α → Prop} (nil : P [])
    (step : ∀ xs, xs ≠ [] → P (xs.drop n) → P xs) (xs : List α) : P xs := by
  induction hlen : xs.length using Nat.strong_induction_on generalizing xs with
  | _ len ih =>
    by_cases hxs : xs = []
    · rw [hxs]
      exact nil
    · have hpos := List.length_pos_iff.mpr hxs
      exact step xs hxs (ih (xs.drop n).length (by rw [List.length_drop]; omega) _ rfl)

theorem flatten_chunks (hn : 0 < n) (xs : List α) : (chunks n xs).flatten = xs := by
  induction xs using chunks_induction hn with
  | nil => rfl
  | step xs hxs ih => rw [chunks_of_ne_nil hn hxs, List.flatten_cons, ih, List.take_append_drop]

theorem ne_nil_of_mem_chunks (hn : 0 < n) {xs piece : List α} (h : piece ∈ chunks n xs) :
    piece ≠ [] := by
  induction xs using chunks_induction hn with
  | nil => exact absurd h List.not_mem_nil
  | step xs hxs ih =>
    rw [chunks_of_ne_nil hn hxs, List.mem_cons] at h
    rcases h with rfl | h
    · rw [← List.length_pos_iff, List.length_take]
      have := List.length_pos_iff.mpr hxs
      omega
    · exact ih h

theorem length_le_of_mem_chunks (hn : 0 < n) {xs piece : List α} (h : piece ∈ chunks n xs) :
    piece.length ≤ n := by
  induction xs using chunks_induction hn with
  | nil => exact absurd h List.not_mem_nil
  | step xs hxs ih =>
    rw [chunks_of_ne_nil hn hxs, List.mem_cons] at h
    rcases h with rfl | h
    · exact List.length_take_le n xs
    · exact ih h

theorem length_chunks (hn : 0 < n) (xs : List α) :
    (chunks n xs).length = (xs.length + n - 1) / n := by
  induction xs using chunks_induction hn with
  | nil =>
    rw [chunks_nil, List.length_nil, Nat.div_eq_of_lt (by simp only [List.length_nil]; omega)]
  | step xs hxs ih =>
    have hpos := List.length_pos_iff.mpr hxs
    rw [chunks_of_ne_nil hn hxs, List.length_cons, ih, List.length_drop]
    by_cases hle : xs.length ≤ n
    · rw [Nat.div_eq_of_lt (by omega), show xs.length + n - 1 = (xs.length - 1) + n by omega,
        Nat.add_div_right _ hn, Nat.div_eq_of_lt (by omega)]
    · rw [show xs.length + n - 1 = (xs.length - n + n - 1) + n by omega, Nat.add_div_right _ hn]

theorem chunks_ne_nil (hn : 0 < n) {xs : List α} (h : xs ≠ []) : chunks n xs ≠ [] := by
  rw [chunks_of_ne_nil hn h]
  exact List.cons_ne_nil _ _

/-- The piece at position `j` is the window of `n` elements that starts at `j * n`. -/
theorem getElem?_chunks (hn : 0 < n) (xs : List α) (j : Nat) (hj : j < (chunks n xs).length) :
    (chunks n xs)[j]? = some ((xs.drop (j * n)).take n) := by
  induction xs using chunks_induction hn generalizing j with
  | nil => exact absurd hj (Nat.not_lt_zero j)
  | step xs hxs ih =>
    rw [chunks_of_ne_nil hn hxs] at hj ⊢
    cases j with
    | zero => rw [List.getElem?_cons_zero, Nat.zero_mul, List.drop_zero]
    | succ j =>
      rw [List.length_cons] at hj
      rw [List.getElem?_cons_succ, ih j (by omega), List.drop_drop, Nat.succ_mul, Nat.add_comm n]

theorem lt_length_chunks (hn : 0 < n) (xs : List α) (j : Nat) :
    j < (chunks n xs).length ↔ j * n < xs.length := by
  rw [length_chunks hn, ← Nat.succ_le_iff, Nat.le_div_iff_mul_le hn, Nat.succ_mul]
  omega

theorem flatten_take_chunks (hn : 0 < n) (xs : List α) (j : Nat) :
    ((chunks n xs).take j).flatten = xs.take (j * n) := by
  induction xs using chunks_induction hn generalizing j with
  | nil => simp
  | step xs hxs ih =>
    cases j with
    | zero => rw [List.take_zero, List.flatten_nil, Nat.zero_mul, List.take_zero]
    | succ j =>
      rw [chunks_of_ne_nil hn hxs, List.take_succ_cons, List.flatten_cons, ih, Nat.succ_mul,
        Nat.add_comm, List.take_add]

/-- The element at position `i` is in the piece `i / n`, at the place `i % n`. -/
theorem getElem?_chunks_div (hn : 0 < n) {xs : List α} {i : Nat} (hi : i < xs.length) :
    ∃ piece, (chunks n xs)[i / n]? = some piece ∧ piece[i % n]? = xs[i]? ∧
      ((chunks n xs).take (i / n)).flatten.length = i / n * n := by
  have hle : i / n * n ≤ i := Nat.div_mul_le_self i n
  have hmod : i / n * n + i % n = i := by
    rw [Nat.mul_comm]
    exact Nat.div_add_mod i n
  have hpiece : i / n < (chunks n xs).length := (lt_length_chunks hn xs _).mpr (by omega)
  refine ⟨_, getElem?_chunks hn xs _ hpiece, ?_, ?_⟩
  · rw [List.getElem?_take_of_lt (Nat.mod_lt i hn), List.getElem?_drop, hmod]
  · rw [flatten_take_chunks hn, List.length_take]
    omega

theorem getElem?_of_chunks (hn : 0 < n) {xs piece : List α} {g j : Nat} {x : α}
    (hpiece : (chunks n xs)[g]? = some piece) (hx : piece[j]? = some x) :
    xs[g * n + j]? = some x ∧ j < n := by
  have hg := (List.getElem?_eq_some_iff.mp hpiece).1
  rw [getElem?_chunks hn xs g hg, Option.some.injEq] at hpiece
  subst hpiece
  have hj := (List.getElem?_eq_some_iff.mp hx).1
  rw [List.length_take] at hj
  rw [List.getElem?_take_of_lt (by omega), List.getElem?_drop] at hx
  exact ⟨hx, by omega⟩

/-- The longest piece has the length of the piece size or of the whole list, and it is the first
one. -/
theorem length_le_min_of_mem_chunks (hn : 0 < n) {xs piece : List α} (h : piece ∈ chunks n xs) :
    piece.length ≤ min n xs.length := by
  have hlen := congrArg List.length (flatten_chunks hn xs)
  have hle := (List.sublist_flatten_of_mem h).length_le
  have hpiece := length_le_of_mem_chunks hn h
  omega

theorem mem_chunks_take (hn : 0 < n) {xs : List α} (hne : xs ≠ []) : xs.take n ∈ chunks n xs := by
  rw [chunks_of_ne_nil hn hne]
  exact List.mem_cons_self

theorem length_getElem_chunks (hn : 0 < n) (xs : List α) (j : Nat)
    (hj : j + 1 < (chunks n xs).length) :
    ((chunks n xs)[j]).length = n := by
  have hget := getElem?_chunks hn xs j (by omega)
  rw [List.getElem?_eq_getElem (by omega), Option.some.injEq] at hget
  rw [hget, List.length_take, List.length_drop]
  rw [length_chunks hn] at hj
  have := (Nat.le_div_iff_mul_le hn).mp hj
  have hsucc : (j + 1 + 1) * n = j * n + n + n := by ring
  rw [Nat.succ_eq_add_one, hsucc] at this
  rw [Nat.min_eq_left (by omega)]

/-! ### Full pieces -/

def fulls (n : Nat) (xs : List α) : List (List α) :=
  (chunks n xs).filter fun piece => piece.length = n

def leftover (n : Nat) (xs : List α) : List α := xs.drop ((fulls n xs).length * n)

theorem fulls_of_length_lt (hn : 0 < n) {xs : List α} (h : xs.length < n) : fulls n xs = [] := by
  rw [fulls, List.filter_eq_nil_iff]
  intro piece hpiece
  have hle := length_le_min_of_mem_chunks hn hpiece
  rw [decide_eq_true_eq]
  omega

theorem leftover_of_length_lt (hn : 0 < n) {xs : List α} (h : xs.length < n) :
    leftover n xs = xs := by
  rw [leftover, fulls_of_length_lt hn h, List.length_nil, Nat.zero_mul, List.drop_zero]

@[simp] theorem leftover_nil (n : Nat) : leftover n ([] : List α) = [] := List.drop_nil

theorem fulls_cons (hn : 0 < n) {piece : List α} (hpiece : piece.length = n) (rest : List α) :
    fulls n (piece ++ rest) = piece :: fulls n rest := by
  rw [fulls, chunks_cons hn hpiece]
  exact List.filter_cons_of_pos (decide_eq_true hpiece)

theorem leftover_cons (hn : 0 < n) {piece : List α} (hpiece : piece.length = n) (rest : List α) :
    leftover n (piece ++ rest) = leftover n rest := by
  rw [leftover, fulls_cons hn hpiece, List.length_cons, Nat.succ_mul, Nat.add_comm,
    ← List.drop_drop, List.drop_left' hpiece, leftover]

theorem fulls_of_length_eq (hn : 0 < n) {piece : List α} (hpiece : piece.length = n) :
    fulls n piece = [piece] ∧ leftover n piece = [] := by
  have hfulls := fulls_cons hn hpiece []
  have hleftover := leftover_cons hn hpiece []
  rw [List.append_nil] at hfulls hleftover
  rw [leftover_nil] at hleftover
  exact ⟨hfulls, hleftover⟩

theorem fulls_induction (hn : 0 < n) {P : List α → Prop} (short : ∀ xs, xs.length < n → P xs)
    (step : ∀ piece rest, piece.length = n → P rest → P (piece ++ rest)) (xs : List α) : P xs := by
  induction xs using chunks_induction hn with
  | nil => exact short [] hn
  | step xs _ ih =>
    rcases Nat.lt_or_ge xs.length n with hlt | hge
    · exact short xs hlt
    · have hpiece : (xs.take n).length = n := by
        rw [List.length_take]
        omega
      rw [← List.take_append_drop n xs]
      exact step _ _ hpiece ih

theorem length_leftover_lt (hn : 0 < n) (xs : List α) : (leftover n xs).length < n := by
  induction xs using fulls_induction hn with
  | short xs h => rwa [leftover_of_length_lt hn h]
  | step piece rest hpiece ih => rwa [leftover_cons hn hpiece]

theorem flatten_fulls_append_leftover (hn : 0 < n) (xs : List α) :
    (fulls n xs).flatten ++ leftover n xs = xs := by
  induction xs using fulls_induction hn with
  | short xs h =>
    rw [fulls_of_length_lt hn h, leftover_of_length_lt hn h, List.flatten_nil, List.nil_append]
  | step piece rest hpiece ih =>
    rw [fulls_cons hn hpiece, leftover_cons hn hpiece, List.flatten_cons, List.append_assoc, ih]

theorem fulls_append (hn : 0 < n) (xs ys : List α) :
    fulls n (xs ++ ys) = fulls n xs ++ fulls n (leftover n xs ++ ys) := by
  induction xs using fulls_induction hn with
  | short xs h => rw [fulls_of_length_lt hn h, leftover_of_length_lt hn h, List.nil_append]
  | step piece rest hpiece ih =>
    rw [List.append_assoc, fulls_cons hn hpiece, fulls_cons hn hpiece, leftover_cons hn hpiece, ih,
      List.cons_append]

theorem leftover_append (hn : 0 < n) (xs ys : List α) :
    leftover n (xs ++ ys) = leftover n (leftover n xs ++ ys) := by
  induction xs using fulls_induction hn with
  | short xs h => rw [leftover_of_length_lt hn h]
  | step piece rest hpiece ih =>
    rw [List.append_assoc, leftover_cons hn hpiece, leftover_cons hn hpiece, ih]

theorem chunks_eq_fulls (hn : 0 < n) (xs : List α) :
    chunks n xs = fulls n xs ++ if leftover n xs = [] then [] else [leftover n xs] := by
  induction xs using fulls_induction hn with
  | short xs h =>
    rw [fulls_of_length_lt hn h, leftover_of_length_lt hn h, List.nil_append]
    by_cases hnil : xs = []
    · rw [if_pos hnil, hnil, chunks_nil]
    · rw [if_neg hnil, chunks_of_length_le hn hnil (Nat.le_of_lt h)]
  | step piece rest hpiece ih =>
    rw [chunks_cons hn hpiece, fulls_cons hn hpiece, leftover_cons hn hpiece, ih, List.cons_append]

end Chunks
