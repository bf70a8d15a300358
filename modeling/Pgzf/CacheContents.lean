import Pgzf.Cached
import Pgzf.Library.UseOrder

/-!
# The entries of the cache

What each operation of the cache does to the list of its entries, and that the byte counter is what
they weigh. So no subtraction from the counter goes below zero, and the eviction loops come to their
ends.
-/

namespace Pgzf

open Recency

variable {D : Deps}

namespace BlockCache

/-! ### Operations of the source -/

def subUsize (a b : Nat) : Except Fault Nat :=
  if b ≤ a then .ok (a - b) else .error (.panic "attempt to subtract with overflow")

def evictOneChecked (cache : BlockCache D) : Except Fault (BlockCache D) :=
  match D.lru.popLru cache.entries with
  | (some (_, entry), entries) => do
    let memory ← subUsize cache.currentMemoryBytes entry.size
    return { cache with entries := entries, currentMemoryBytes := memory }
  | (none, entries) => return { cache with entries := entries }

/-- The loop of `evictForMemory`; it gets one turn for each entry and one to stop. -/
def evictForMemoryChecked (maxBytes size : Nat) : Nat → BlockCache D → Except Fault (BlockCache D)
  | 0, _ => .error .diverges
  | fuel + 1, cache =>
    if cache.currentMemoryBytes + size > maxBytes ∧ cache.len ≠ 0 then do
      evictForMemoryChecked maxBytes size fuel (← cache.evictOneChecked)
    else
      return cache

def evictForCapacityChecked : Nat → BlockCache D → Except Fault (BlockCache D)
  | 0, _ => .error .diverges
  | fuel + 1, cache =>
    if cache.len ≥ cache.capacity then do
      evictForCapacityChecked fuel (← cache.evictOneChecked)
    else
      return cache

def removeExistingChecked (cache : BlockCache D) (blockIndex : Nat) : Except Fault (BlockCache D) :=
  match D.lru.pop cache.entries blockIndex with
  | (some old, entries) => do
    let memory ← subUsize cache.currentMemoryBytes old.size
    return { cache with entries := entries, currentMemoryBytes := memory }
  | (none, entries) => return { cache with entries := entries }

/-- `insert`, where a subtraction below zero is a panic
and a loop that does not come to its end diverges. -/
def insertChecked (cache : BlockCache D) (blockIndex : Nat) (data : Bytes) :
    Except Fault (BlockCache D) :=
  if cache.capacity = 0 then
    return cache
  else do
    let size := data.length
    let cache ← cache.removeExistingChecked blockIndex
    let cache ← match cache.maxMemoryBytes with
      | some maxBytes => evictForMemoryChecked maxBytes size (cache.len + 1) cache
      | none => pure cache
    let cache ← evictForCapacityChecked (cache.len + 1) cache
    return { cache with
      entries := D.lru.put cache.entries blockIndex ⟨data, size⟩
      currentMemoryBytes := cache.currentMemoryBytes + size }

theorem subUsize_of_le {a b : Nat} (h : b ≤ a) : subUsize a b = .ok (a - b) := if_pos h

/-! ### Contents -/

structure Contents (cache : BlockCache D) (capacity : Nat) (limit : Option Nat)
    (entries : List (Nat × CacheEntry)) : Prop where
  capacity_eq : cache.capacity = capacity
  limit_eq : cache.maxMemoryBytes = limit
  lruCap : D.lru.cap cache.entries = max capacity 1
  entryList_eq : cache.entryList = entries
  memory : cache.currentMemoryBytes = weight CacheEntry.size entries

variable {cache : BlockCache D} {capacity : Nat} {limit : Option Nat}
  {entries : List (Nat × CacheEntry)}

theorem Contents.len_eq (h : cache.Contents capacity limit entries) :
    cache.len = entries.length := by
  rw [len, D.lru.len_eq, ← h.entryList_eq]
  rfl

theorem contents_new (D : Deps) (capacity : Nat) : (new D capacity).Contents capacity none [] :=
  ⟨rfl, rfl, D.lru.cap_new _, entryList_new capacity, rfl⟩

theorem Contents.withMemoryLimit (h : cache.Contents capacity limit entries) (maxBytes : Nat) :
    (cache.withMemoryLimit maxBytes).Contents capacity (some maxBytes) entries :=
  ⟨h.capacity_eq, rfl, h.lruCap, h.entryList_eq, h.memory⟩

/-- Evicting drops the entry used longest ago, and its size from the counter. -/
theorem Contents.evictOne (h : cache.Contents capacity limit entries) :
    cache.evictOne.Contents capacity limit entries.dropLast ∧
      cache.evictOneChecked = .ok cache.evictOne := by
  have hlist : D.lru.recency cache.entries = entries := h.entryList_eq
  have hlast := D.lru.popLru_fst cache.entries
  have hrecency := D.lru.recency_popLru cache.entries
  have hcap := D.lru.cap_popLru cache.entries
  rw [hlist] at hlast hrecency
  rw [h.lruCap] at hcap
  rw [BlockCache.evictOne, evictOneChecked]
  cases hpop : D.lru.popLru cache.entries with
  | mk found rest =>
    rw [hpop] at hlast hrecency hcap
    cases found with
    | none =>
      have hnil := List.getLast?_eq_none_iff.mp hlast.symm
      refine ⟨⟨h.capacity_eq, h.limit_eq, hcap, hrecency, ?_⟩, rfl⟩
      rw [h.memory, hnil, List.dropLast_nil]
    | some found =>
      obtain ⟨key, entry⟩ := found
      have hmemory := h.memory
      rw [← List.dropLast_append_getLast? _ (Option.mem_def.mpr hlast.symm), weight_append,
        weight_cons, weight_nil] at hmemory
      have hsize : entry.size ≤ cache.currentMemoryBytes := by omega
      simp only [subUsize_of_le hsize]
      refine ⟨⟨h.capacity_eq, h.limit_eq, hcap, hrecency, ?_⟩, rfl⟩
      simp only
      omega

theorem Contents.removeExisting (h : cache.Contents capacity limit entries)
    (hnodup : (keys entries).Nodup) (k : Nat) :
    (cache.removeExisting k).Contents capacity limit (erase k entries) ∧
      cache.removeExistingChecked k = .ok (cache.removeExisting k) := by
  have hlist : D.lru.recency cache.entries = entries := h.entryList_eq
  have hfind := D.lru.pop_fst cache.entries k
  have hrecency := D.lru.recency_pop cache.entries k
  have hcap := D.lru.cap_pop cache.entries k
  rw [hlist] at hfind hrecency
  rw [h.lruCap] at hcap
  rw [BlockCache.removeExisting, removeExistingChecked]
  cases hpop : D.lru.pop cache.entries k with
  | mk found rest =>
    rw [hpop] at hfind hrecency hcap
    cases found with
    | none =>
      refine ⟨⟨h.capacity_eq, h.limit_eq, hcap, hrecency, ?_⟩, rfl⟩
      rw [h.memory, erase_of_find_none hfind.symm]
    | some old =>
      have hweight := weight_erase CacheEntry.size hnodup hfind.symm
      have hmemory := h.memory
      have hsize : old.size ≤ cache.currentMemoryBytes := by omega
      simp only [subUsize_of_le hsize]
      refine ⟨⟨h.capacity_eq, h.limit_eq, hcap, hrecency, ?_⟩, rfl⟩
      simp only
      omega

/-! ### The loops -/

/-- The loop over the memory limit keeps the most
recent entries, as many as fit beside the new one. -/
theorem Contents.evictForMemory (h : cache.Contents capacity limit entries) (maxBytes size : Nat)
    {fuel : Nat} (hfuel : entries.length ≤ fuel) :
    ∃ kept, kept <+: entries ∧ (weight CacheEntry.size kept + size ≤ maxBytes ∨ kept = []) ∧
      (evictForMemory maxBytes size fuel cache).Contents capacity limit kept ∧
        evictForMemoryChecked maxBytes size (fuel + 1) cache =
          .ok (evictForMemory maxBytes size fuel cache) := by
  induction fuel generalizing cache entries with
  | zero =>
    obtain rfl := List.length_eq_zero_iff.mp (Nat.le_zero.mp hfuel)
    refine ⟨[], List.prefix_rfl, .inr rfl, h, ?_⟩
    rw [evictForMemoryChecked, if_neg (fun hfull => hfull.2 h.len_eq)]
    rfl
  | succ fuel ih =>
    rw [BlockCache.evictForMemory, evictForMemoryChecked]
    by_cases hfull : cache.currentMemoryBytes + size > maxBytes ∧ cache.len ≠ 0
    · obtain ⟨hevicted, hchecked⟩ := h.evictOne
      have hshorter : entries.dropLast.length ≤ fuel := by
        rw [List.length_dropLast]
        omega
      obtain ⟨kept, hfront, hfits, hkept, hloop⟩ := ih hevicted hshorter
      rw [if_pos hfull, if_pos hfull, hchecked]
      exact ⟨kept, hfront.trans (List.dropLast_prefix entries), hfits, hkept, hloop⟩
    · rw [if_neg hfull, if_neg hfull]
      refine ⟨entries, List.prefix_rfl, ?_, h, rfl⟩
      rw [h.memory, h.len_eq, not_and_or, not_not, List.length_eq_zero_iff] at hfull
      exact hfull.imp_left Nat.not_lt.mp

/-- The loop over the capacity leaves room for one entry. -/
theorem Contents.evictForCapacity (h : cache.Contents capacity limit entries) (hpos : 0 < capacity)
    {fuel : Nat} (hfuel : entries.length ≤ fuel) :
    (evictForCapacity fuel cache).Contents capacity limit (entries.take (capacity - 1)) ∧
      evictForCapacityChecked (fuel + 1) cache = .ok (evictForCapacity fuel cache) := by
  induction fuel generalizing cache entries with
  | zero =>
    obtain rfl := List.length_eq_zero_iff.mp (Nat.le_zero.mp hfuel)
    have hroom : ¬ cache.len ≥ cache.capacity := by
      rw [h.len_eq, h.capacity_eq]
      exact Nat.not_le.mpr hpos
    rw [List.take_nil, evictForCapacityChecked, if_neg hroom]
    exact ⟨h, rfl⟩
  | succ fuel ih =>
    rw [BlockCache.evictForCapacity, evictForCapacityChecked]
    by_cases hfull : cache.len ≥ cache.capacity
    · obtain ⟨hevicted, hchecked⟩ := h.evictOne
      have hshorter : entries.dropLast.length ≤ fuel := by
        rw [List.length_dropLast]
        omega
      have hsame : entries.dropLast.take (capacity - 1) = entries.take (capacity - 1) := by
        rw [h.len_eq, h.capacity_eq] at hfull
        rw [List.dropLast_eq_take, List.take_take, Nat.min_eq_left (by omega)]
      have hloop := ih hevicted hshorter
      rw [hsame] at hloop
      rw [if_pos hfull, if_pos hfull, hchecked]
      exact hloop
    · rw [if_neg hfull, if_neg hfull]
      rw [h.len_eq, h.capacity_eq] at hfull
      rw [List.take_of_length_le (by omega)]
      exact ⟨h, rfl⟩

/-! ### Calls -/

theorem Contents.get (h : cache.Contents capacity limit entries) (hpos : 0 < capacity) (k : Nat) :
    (cache.get k).1 = (find k entries).map CacheEntry.data ∧
      ((keys entries).Nodup → (cache.get k).2.Contents capacity limit (touch k entries)) := by
  have hlist : D.lru.recency cache.entries = entries := h.entryList_eq
  have hcapacity : cache.capacity ≠ 0 := by
    rw [h.capacity_eq]
    exact Nat.ne_of_gt hpos
  rw [BlockCache.get, if_neg hcapacity]
  constructor
  · rw [← hlist]
    exact congrArg (Option.map CacheEntry.data) (D.lru.get_fst cache.entries k)
  · intro hnodup
    refine ⟨h.capacity_eq, h.limit_eq, (D.lru.cap_get _ _).trans h.lruCap, ?_, ?_⟩
    · rw [← hlist]
      exact D.lru.recency_get cache.entries k
    · rw [weight_touch _ _ hnodup]
      exact h.memory

/-- The entries after an insertion: the new one in
front of the most recent others, as many as fit. -/
theorem Contents.insert (h : cache.Contents capacity limit entries) (hpos : 0 < capacity)
    (hnodup : (keys entries).Nodup) (k : Nat) (data : Bytes) :
    ∃ kept, kept <+: erase k entries ∧ kept.length < capacity ∧
      (cache.insert k data).Contents capacity limit ((k, ⟨data, data.length⟩) :: kept) ∧
        cache.insertChecked k data = .ok (cache.insert k data) ∧
          (limit = none → kept = (erase k entries).take (capacity - 1)) ∧
            ∀ maxBytes, limit = some maxBytes →
              weight CacheEntry.size kept + data.length ≤ maxBytes ∨ kept = [] := by
  have hcapacity : cache.capacity ≠ 0 := by
    rw [h.capacity_eq]
    exact Nat.ne_of_gt hpos
  obtain ⟨hremoved, hchecked⟩ := h.removeExisting hnodup k
  -- whatever the loop over the memory limit has kept, the rest is the same
  have hput : ∀ {c : BlockCache D} {kept : List (Nat × CacheEntry)}, kept <+: erase k entries →
      c.Contents capacity limit kept →
      ({ BlockCache.evictForCapacity c.len c with
          entries := D.lru.put (BlockCache.evictForCapacity c.len c).entries k ⟨data, data.length⟩
          currentMemoryBytes :=
            (BlockCache.evictForCapacity c.len c).currentMemoryBytes + data.length } :
        BlockCache D).Contents capacity limit
          ((k, ⟨data, data.length⟩) :: kept.take (capacity - 1)) ∧
      evictForCapacityChecked (c.len + 1) c = .ok (BlockCache.evictForCapacity c.len c) := by
    intro c kept hfront hc
    obtain ⟨hroom, hloop⟩ := hc.evictForCapacity hpos (Nat.le_of_eq hc.len_eq.symm)
    have hlist : D.lru.recency (BlockCache.evictForCapacity c.len c).entries =
      kept.take (capacity - 1) := hroom.entryList_eq
    have habsent : find k (kept.take (capacity - 1)) = none := by
      apply find_eq_none_iff.mpr
      intro entry hentry
      exact (mem_erase.mp (hfront.subset (List.mem_of_mem_take hentry))).2
    refine ⟨⟨hroom.capacity_eq, hroom.limit_eq, (D.lru.cap_put _ _ _).trans hroom.lruCap, ?_,
      ?_⟩, hloop⟩
    · rw [entryList, D.lru.recency_put, hlist, hroom.lruCap, erase_of_find_none habsent]
      apply List.take_of_length_le
      rw [List.length_cons, List.length_take]
      omega
    · rw [weight_cons, hroom.memory, Nat.add_comm]
  have hshort : ∀ kept : List (Nat × CacheEntry), (kept.take (capacity - 1)).length < capacity := by
    intro kept
    rw [List.length_take]
    omega
  have hlimit : (cache.removeExisting k).maxMemoryBytes = limit := hremoved.limit_eq
  rw [BlockCache.insert, if_neg hcapacity, insertChecked, if_neg hcapacity, hchecked]
  cases limit with
  | none =>
    obtain ⟨hcontents, hloop⟩ := hput List.prefix_rfl hremoved
    refine ⟨_, List.take_prefix _ _, hshort _, ?_, ?_, fun _ => rfl, fun _ hsome =>
      absurd hsome (by simp)⟩
    · simp only [hlimit]
      exact hcontents
    · simp only [hlimit]
      simp only [bind, Except.bind, pure, Except.pure, hlimit, hloop]
  | some maxBytes =>
    obtain ⟨kept, hfront, hfits, hkept, hmemory⟩ :=
      hremoved.evictForMemory maxBytes data.length (Nat.le_of_eq hremoved.len_eq.symm)
    obtain ⟨hcontents, hloop⟩ := hput hfront hkept
    refine ⟨_, (List.take_prefix _ _).trans hfront, hshort _, ?_, ?_, fun hnone =>
      absurd hnone (by simp), ?_⟩
    · simp only [hlimit]
      exact hcontents
    · simp only [bind, Except.bind, pure, Except.pure, hlimit, hmemory, hloop]
    · intro m hm
      obtain rfl := Option.some.inj hm
      rcases hfits with hfits | rfl
      · refine .inl (Nat.le_trans (Nat.add_le_add_right ?_ _) hfits)
        have hsplit :=
          weight_append CacheEntry.size (kept.take (capacity - 1)) (kept.drop (capacity - 1))
        rw [List.take_append_drop] at hsplit
        omega
      · exact .inr List.take_nil

end BlockCache

end Pgzf
