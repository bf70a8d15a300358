import Mathlib.Algebra.GroupWithZero.Nat
import Mathlib.Algebra.BigOperators.Group.List.Basic
import Mathlib.Data.List.Nodup
import Pgzf.Library.Lru

/-!
# Keys in the order of their last use

A list of uses, the latest first, puts its keys in an order: each at its latest use. A
least-recently-used map with room for some entries holds the keys at the front of this order, so
what it does to its entries is compared with what a use does to the order.
-/

namespace Recency

variable {K V : Type}

def keys (entries : List (K × V)) : List K := entries.map Prod.fst

theorem keys_cons (k : K) (v : V) (rest : List (K × V)) : keys ((k, v) :: rest) = k :: keys rest :=
  rfl

def weight (w : V → Nat) (entries : List (K × V)) : Nat := (entries.map fun entry => w entry.2).sum

@[simp] theorem weight_nil (w : V → Nat) : weight w ([] : List (K × V)) = 0 := rfl

theorem weight_cons (w : V → Nat) (k : K) (v : V) (rest : List (K × V)) :
    weight w ((k, v) :: rest) = w v + weight w rest :=
  List.sum_cons

theorem weight_append (w : V → Nat) (front back : List (K × V)) :
    weight w (front ++ back) = weight w front + weight w back := by
  rw [weight, List.map_append, List.sum_append]
  rfl

variable [DecidableEq K]

/-! ### The order -/

def byUse : List K → List K
  | [] => []
  | k :: earlier => k :: (byUse earlier).filter (· ≠ k)

theorem nodup_byUse (uses : List K) : (byUse uses).Nodup := by
  induction uses with
  | nil => exact List.nodup_nil
  | cons k earlier ih =>
    rw [byUse, List.nodup_cons]
    exact ⟨fun h => absurd rfl (of_decide_eq_true (List.mem_filter.mp h).2), ih.filter _⟩

theorem length_le_filter_ne {keys : List K} (h : keys.Nodup) (k : K) :
    keys.length ≤ (keys.filter (· ≠ k)).length + 1 := by
  by_cases hk : k ∈ keys
  · have hlen := List.length_erase_of_mem hk
    rw [h.erase_eq_filter k] at hlen
    have hsame : keys.filter (· != k) = keys.filter (· ≠ k) := List.filter_congr fun j _ => by
      rw [Bool.eq_iff_iff, bne_iff_ne, decide_eq_true_eq]
    rw [hsame] at hlen
    omega
  · have hall : keys.filter (· ≠ k) = keys :=
      List.filter_eq_self.mpr fun j hj => decide_eq_true fun heq => hk (heq ▸ hj)
    rw [hall]
    exact Nat.le_succ _

theorem mem_moved {j k : K} {keys : List K} : j ∈ k :: keys.filter (· ≠ k) ↔ j = k ∨ j ∈ keys := by
  rw [List.mem_cons, List.mem_filter, decide_eq_true_eq]
  by_cases hkey : j = k
  · exact iff_of_true (.inl hkey) (.inl hkey)
  · simp only [hkey, false_or, ne_eq, not_false_eq_true, and_true]

theorem length_moved {keys : List K} (h : keys.Nodup) {k : K} (hk : k ∈ keys) :
    (k :: keys.filter (· ≠ k)).length = keys.length := by
  have hle := length_le_filter_ne h k
  have hlt : (keys.filter (· ≠ k)).length < keys.length :=
    List.length_filter_lt_length_iff_exists.mpr ⟨k, hk, by simp⟩
  rw [List.length_cons]
  omega

/-! ### What a use does to the entries -/

theorem find_eq_none_iff_keys {k : K} {entries : List (K × V)} :
    find k entries = none ↔ k ∉ keys entries := by
  rw [find_eq_none_iff, keys, List.mem_map]
  constructor
  · rintro h ⟨entry, hentry, hkey⟩
    exact h entry hentry hkey
  · exact fun h entry hentry hkey => h ⟨entry, hentry, hkey⟩

theorem mem_keys_of_find {k : K} {v : V} {entries : List (K × V)} (h : find k entries = some v) :
    k ∈ keys entries := by
  by_contra hnot
  rw [find_eq_none_iff_keys.mpr hnot] at h
  exact absurd h (by simp)

theorem keys_erase (k : K) (entries : List (K × V)) :
    keys (erase k entries) = (keys entries).filter (· ≠ k) := by
  rw [keys, keys, erase, List.filter_map]
  rfl

theorem keys_touch {k : K} {v : V} {entries : List (K × V)} (h : find k entries = some v) :
    keys (touch k entries) = k :: (keys entries).filter (· ≠ k) := by
  rw [touch, h, keys_cons, keys_erase]

theorem weight_erase (w : V → Nat) {k : K} {v : V} {entries : List (K × V)}
    (hnodup : (keys entries).Nodup) (h : find k entries = some v) :
    weight w (erase k entries) + w v = weight w entries := by
  induction entries with
  | nil => exact absurd h (by simp)
  | cons entry rest ih =>
    obtain ⟨j, u⟩ := entry
    rw [keys_cons, List.nodup_cons] at hnodup
    rw [find_cons] at h
    by_cases hkey : j = k
    · obtain rfl := hkey
      rw [if_pos rfl] at h
      obtain rfl := Option.some.inj h
      have hskip : erase j ((j, u) :: rest) = rest := by
        rw [erase, List.filter_cons_of_neg (by simp)]
        exact erase_of_find_none (find_eq_none_iff_keys.mpr hnodup.1)
      rw [hskip, weight_cons, Nat.add_comm]
    · rw [if_neg hkey] at h
      have hkeep : erase k ((j, u) :: rest) = (j, u) :: erase k rest := by
        rw [erase, List.filter_cons_of_pos (by simpa using hkey), erase]
      rw [hkeep, weight_cons, weight_cons, Nat.add_assoc, ih hnodup.2 h]

theorem weight_touch (w : V → Nat) (k : K) {entries : List (K × V)}
    (hnodup : (keys entries).Nodup) :
    weight w (touch k entries) = weight w entries := by
  cases h : find k entries with
  | none => rw [touch_of_find_none h]
  | some v => rw [touch, h, weight_cons, Nat.add_comm, weight_erase w hnodup h]

end Recency
