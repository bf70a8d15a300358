import Mathlib.Data.List.Basic
import Mathlib.Data.List.Perm.Lattice

/-!
# Least-recently-used maps

The content of such a map is the list of its entries, the most recently used first. `Lru` states the
interface of an implementation: the operations, and what each of them does to that list. An
implementation that breaks a rule cannot be built, so the laws need no hypotheses where they are
used.
-/

namespace Recency

variable {K V : Type} [DecidableEq K]

def find (k : K) : List (K × V) → Option V
  | [] => none
  | entry :: rest => if entry.1 = k then some entry.2 else find k rest

def erase (k : K) (entries : List (K × V)) : List (K × V) := entries.filter fun entry => entry.1 ≠ k

/-- The entry of `k`, if there is one, moved to the front. -/
def touch (k : K) (entries : List (K × V)) : List (K × V) :=
  match find k entries with
  | none => entries
  | some v => (k, v) :: erase k entries

@[simp] theorem find_nil (k : K) : find k ([] : List (K × V)) = none := rfl

theorem find_cons (k : K) (entry : K × V) (rest : List (K × V)) :
    find k (entry :: rest) = if entry.1 = k then some entry.2 else find k rest := rfl

theorem mem_of_find {k : K} {v : V} {entries : List (K × V)} (h : find k entries = some v) :
    (k, v) ∈ entries := by
  induction entries with
  | nil => exact absurd h (by simp)
  | cons entry rest ih =>
    rw [find_cons] at h
    split at h
    · rename_i hkey
      obtain rfl := hkey
      obtain rfl := Option.some.inj h
      exact List.mem_cons_self
    · exact List.mem_cons_of_mem _ (ih h)

theorem find_eq_none_iff {k : K} {entries : List (K × V)} :
    find k entries = none ↔ ∀ entry ∈ entries, entry.1 ≠ k := by
  induction entries with
  | nil => simp
  | cons entry rest ih =>
    rw [find_cons, List.forall_mem_cons, ← ih]
    split <;> simp_all

theorem mem_erase {k : K} {entry : K × V} {entries : List (K × V)} :
    entry ∈ erase k entries ↔ entry ∈ entries ∧ entry.1 ≠ k := by
  simp only [erase, List.mem_filter, ne_eq, decide_eq_true_eq]

theorem mem_of_mem_touch {k : K} {entry : K × V} {entries : List (K × V)}
    (h : entry ∈ touch k entries) :
    entry ∈ entries := by
  unfold touch at h
  split at h
  · exact h
  · rename_i v hfind
    rcases List.mem_cons.mp h with rfl | h
    · exact mem_of_find hfind
    · exact (mem_erase.mp h).1

theorem touch_of_find_none {k : K} {entries : List (K × V)} (h : find k entries = none) :
    touch k entries = entries := by
  rw [touch, h]

theorem erase_of_find_none {k : K} {entries : List (K × V)} (h : find k entries = none) :
    erase k entries = entries := by
  rw [erase, List.filter_eq_self]
  intro entry hentry
  simpa using find_eq_none_iff.mp h entry hentry

theorem find_erase_ne {j k : K} (hne : j ≠ k) (entries : List (K × V)) :
    find j (erase k entries) = find j entries := by
  induction entries with
  | nil => rfl
  | cons entry rest ih =>
    by_cases hkey : entry.1 = k
    · have hskip : erase k (entry :: rest) = erase k rest := by
        rw [erase, List.filter_cons_of_neg (by simpa using hkey), erase]
      rw [hskip, ih, find_cons, if_neg (fun h => hne (h.symm.trans hkey))]
    · have hkeep : erase k (entry :: rest) = entry :: erase k rest := by
        rw [erase, List.filter_cons_of_pos (by simpa using hkey), erase]
      rw [hkeep, find_cons, find_cons, ih]

theorem find_touch (j k : K) (entries : List (K × V)) :
    find j (touch k entries) = find j entries := by
  unfold touch
  split
  · rfl
  · rename_i v hfind
    rw [find_cons]
    split
    · rename_i hkey
      obtain rfl := hkey
      exact hfind.symm
    · rename_i hkey
      exact find_erase_ne (fun h => hkey h.symm) entries

end Recency

open Recency

/-- An implementation of a least-recently-used map: its operations, and what each does to the list
of entries, most recently used first. -/
structure Lru (K V : Type) [DecidableEq K] where
  Cache : Type
  new : Nat → Cache
  get : Cache → K → Option V × Cache
  put : Cache → K → V → Cache
  pop : Cache → K → Option V × Cache
  popLru : Cache → Option (K × V) × Cache
  len : Cache → Nat
  recency : Cache → List (K × V)
  cap : Cache → Nat
  recency_new : ∀ n, recency (new n) = []
  cap_new : ∀ n, cap (new n) = n
  get_fst : ∀ c k, (get c k).1 = find k (recency c)
  recency_get : ∀ c k, recency (get c k).2 = touch k (recency c)
  cap_get : ∀ c k, cap (get c k).2 = cap c
  recency_put : ∀ c k v, recency (put c k v) = ((k, v) :: erase k (recency c)).take (cap c)
  cap_put : ∀ c k v, cap (put c k v) = cap c
  pop_fst : ∀ c k, (pop c k).1 = find k (recency c)
  recency_pop : ∀ c k, recency (pop c k).2 = erase k (recency c)
  cap_pop : ∀ c k, cap (pop c k).2 = cap c
  popLru_fst : ∀ c, (popLru c).1 = (recency c).getLast?
  recency_popLru : ∀ c, recency (popLru c).2 = (recency c).dropLast
  cap_popLru : ∀ c, cap (popLru c).2 = cap c
  len_eq : ∀ c, len c = (recency c).length

namespace Lru

variable {K V : Type} [DecidableEq K]

/-- The implementation that stores the recency list itself, with the capacity beside it. -/
def ofList (K V : Type) [DecidableEq K] : Lru K V where
  Cache := List (K × V) × Nat
  new n := ([], n)
  get c k := (find k c.1, touch k c.1, c.2)
  put c k v := (((k, v) :: erase k c.1).take c.2, c.2)
  pop c k := (find k c.1, erase k c.1, c.2)
  popLru c := (c.1.getLast?, c.1.dropLast, c.2)
  len c := c.1.length
  recency := Prod.fst
  cap := Prod.snd
  recency_new _ := rfl
  cap_new _ := rfl
  get_fst _ _ := rfl
  recency_get _ _ := rfl
  cap_get _ _ := rfl
  recency_put _ _ _ := rfl
  cap_put _ _ _ := rfl
  pop_fst _ _ := rfl
  recency_pop _ _ := rfl
  cap_pop _ _ := rfl
  popLru_fst _ := rfl
  recency_popLru _ := rfl
  cap_popLru _ := rfl
  len_eq _ := rfl

end Lru
