import Pgzf.Batch
import Pgzf.CacheContents

/-!
# What the cache weighs

`insert` accounts for every entry with its length. Storing the blocks of a file from the first one
on leaves the most recent ones, as many as the cache may hold, and the account is what they weigh.
-/

namespace Pgzf

open PgzfReader Recency

variable {D : Deps}

namespace BlockCache

/-- The cache holds `entries` and accounts for each of them; it has no memory limit. -/
structure Holds (cache : BlockCache D) (capacity : Nat) (entries : List (Nat × CacheEntry)) :
    Prop where
  capacity_eq : cache.capacity = capacity
  maxMemoryBytes : cache.maxMemoryBytes = none
  lruCap : D.lru.cap cache.entries = max capacity 1
  entryList_eq : cache.entryList = entries
  memory : cache.currentMemoryBytes = (entries.map fun entry => entry.2.size).sum

variable {cache : BlockCache D} {capacity : Nat} {entries : List (Nat × CacheEntry)}

theorem holds_iff : cache.Holds capacity entries ↔ cache.Contents capacity none entries :=
  ⟨fun h => ⟨h.capacity_eq, h.maxMemoryBytes, h.lruCap, h.entryList_eq, h.memory⟩,
    fun h => ⟨h.capacity_eq, h.limit_eq, h.lruCap, h.entryList_eq, h.memory⟩⟩

theorem Holds.lookup_of_absent (h : cache.Holds capacity entries) {i : Nat}
    (habsent : find i entries = none) :
    cache.lookup i = none := by
  rw [lookup_eq, h.entryList_eq, habsent]
  split <;> rfl

theorem Holds.get_of_absent (h : cache.Holds capacity entries)
    (hnodup : (Recency.keys entries).Nodup) {i : Nat} (habsent : find i entries = none) :
    (cache.get i).2.Holds capacity entries := by
  by_cases hzero : capacity = 0
  · rw [get, if_pos (h.capacity_eq.trans hzero)]
    exact h
  · have htouched := ((holds_iff.mp h).get (Nat.pos_of_ne_zero hzero) i).2 hnodup
    rw [touch_of_find_none habsent] at htouched
    exact holds_iff.mpr htouched

theorem Holds.cacheLookups_of_absent (h : cache.Holds capacity entries)
    (hnodup : (Recency.keys entries).Nodup) {batch : List Nat}
    (habsent : ∀ i ∈ batch, find i entries = none) :
    (cacheLookups batch cache).2.Holds capacity entries := by
  induction batch generalizing cache with
  | nil => exact h
  | cons i rest ih =>
    exact ih (h.get_of_absent hnodup (habsent i List.mem_cons_self)) fun j hj =>
      habsent j (List.mem_cons_of_mem _ hj)

/-- Storing a new entry: without a memory limit, all others stay for which there is room. -/
theorem Holds.insert_of_absent (h : cache.Holds capacity entries) (hpos : 0 < capacity)
    (hnodup : (Recency.keys entries).Nodup) {i : Nat} (habsent : find i entries = none)
    (data : Bytes) :
    (cache.insert i data).Holds capacity
      ((i, ⟨data, data.length⟩) :: entries.take (capacity - 1)) := by
  obtain ⟨kept, -, -, hinserted, -, hkept, -⟩ := (holds_iff.mp h).insert hpos hnodup i data
  rw [hkept rfl, erase_of_find_none habsent] at hinserted
  exact holds_iff.mpr hinserted

/-! ### Storing the blocks of a file in order -/

/-- The cache after the first `n` blocks have been
stored in order: the latest ones, the last first. -/
def latest (blocks : List Bytes) (capacity n : Nat) : List (Nat × CacheEntry) :=
  ((List.range n).reverse.take capacity).map fun i =>
    (i, (⟨blocks.getD i [], (blocks.getD i []).length⟩ : CacheEntry))

theorem holds_latest_zero (D : Deps) (blocks : List Bytes) (capacity : Nat) :
    (new D capacity).Holds capacity (latest blocks capacity 0) := by
  have hnil : latest blocks capacity 0 = [] := by
    rw [latest, List.range_zero, List.reverse_nil, List.take_nil, List.map_nil]
  rw [hnil]
  exact ⟨rfl, rfl, D.lru.cap_new _, entryList_new capacity, rfl⟩

theorem length_latest (blocks : List Bytes) (capacity n : Nat) :
    (latest blocks capacity n).length = min n capacity := by
  rw [latest, List.length_map, List.length_take, List.length_reverse, List.length_range,
    Nat.min_comm]

theorem find_latest (blocks : List Bytes) {capacity n i : Nat} (hi : n ≤ i) :
    find i (latest blocks capacity n) = none := by
  apply find_eq_none_iff.mpr
  intro entry hentry
  obtain ⟨j, hj, rfl⟩ := List.mem_map.mp hentry
  have hlt := List.mem_range.mp (List.mem_reverse.mp (List.mem_of_mem_take hj))
  exact Nat.ne_of_lt (Nat.lt_of_lt_of_le hlt hi)

theorem nodup_keys_latest (blocks : List Bytes) (capacity n : Nat) :
    (Recency.keys (latest blocks capacity n)).Nodup := by
  have hkeys : Recency.keys (latest blocks capacity n) = (List.range n).reverse.take capacity := by
    rw [Recency.keys, latest, List.map_map]
    exact List.map_id' _
  rw [hkeys]
  exact (List.nodup_reverse.mpr List.nodup_range).sublist (List.take_sublist _ _)

theorem latest_succ (blocks : List Bytes) {capacity : Nat} (hpos : 0 < capacity) (n : Nat) :
    latest blocks capacity (n + 1) =
      (n, ⟨blocks.getD n [], (blocks.getD n []).length⟩) :: (latest blocks capacity n).take
        (capacity - 1) := by
  obtain ⟨c, rfl⟩ : ∃ c, capacity = c + 1 := ⟨capacity - 1, by omega⟩
  rw [latest, List.range_succ, List.reverse_append, List.reverse_singleton, List.singleton_append,
    List.take_succ_cons,
    List.map_cons, latest, ← List.map_take, List.take_take, Nat.add_sub_cancel,
      Nat.min_eq_left (Nat.le_succ c)]

theorem Holds.insert_next {blocks : List Bytes} {n : Nat}
    (h : cache.Holds capacity (latest blocks capacity n)) :
    (cache.insert n (blocks.getD n [])).Holds capacity (latest blocks capacity (n + 1)) := by
  by_cases hzero : capacity = 0
  · subst hzero
    rw [insert_of_capacity_zero h.capacity_eq]
    exact h
  · have hpos := Nat.pos_of_ne_zero hzero
    rw [latest_succ blocks hpos]
    exact h.insert_of_absent hpos (nodup_keys_latest blocks capacity n)
      (find_latest blocks (Nat.le_refl n)) _

theorem Holds.insertAll_next {blocks : List Bytes} {n : Nat}
    (h : cache.Holds capacity (latest blocks capacity n)) (count : Nat) :
    (insertAll blocks cache (List.range' n count)).Holds capacity
      (latest blocks capacity (n + count)) := by
  induction count generalizing cache n with
  | zero => exact h
  | succ count ih =>
    rw [List.range'_succ, ← Nat.add_assoc, Nat.add_right_comm]
    exact ih h.insert_next

theorem Holds.refillCache {blocks : List Bytes} {n stop : Nat}
    (h : cache.Holds capacity (latest blocks capacity n)) (hstop : n ≤ stop) :
    (Pgzf.refillCache blocks cache n stop).Holds capacity (latest blocks capacity stop) := by
  have habsent : ∀ i ∈ List.range' n (stop - n), find i (latest blocks capacity n) = none :=
    fun i hi =>
      find_latest blocks (List.mem_range'_1.mp hi).1
  have hnodup := nodup_keys_latest blocks capacity n
  have hstored :=
    ((h.cacheLookups_of_absent hnodup habsent).cacheLookups_of_absent hnodup habsent).insertAll_next
      (stop - n)
  rw [Nat.add_sub_cancel' hstop] at hstored
  rw [Pgzf.refillCache, missing_of_ahead fun i hi => h.lookup_of_absent (find_latest blocks hi)]
  exact hstored

theorem Holds.memoryUsage_eq {blocks : List Bytes} {n size : Nat}
    (h : cache.Holds capacity (latest blocks capacity n))
    (hfull : ∀ i < n, (blocks.getD i []).length = size) :
    cache.memoryUsage = min n capacity * size := by
  have hsizes : (latest blocks capacity n).map (fun entry => entry.2.size) = List.replicate
      (min n capacity) size := by
    refine List.eq_replicate_iff.mpr ⟨by rw [List.length_map, length_latest], ?_⟩
    intro b hb
    obtain ⟨entry, hentry, rfl⟩ := List.mem_map.mp hb
    obtain ⟨i, hi, rfl⟩ := List.mem_map.mp hentry
    exact hfull i (List.mem_range.mp (List.mem_reverse.mp (List.mem_of_mem_take hi)))
  rw [memoryUsage, h.memory, hsizes, List.sum_replicate_nat]

end BlockCache

end Pgzf
