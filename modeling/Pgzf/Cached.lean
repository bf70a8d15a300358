import Pgzf.Reader

/-!
# What the cache holds

`lookup` is what `get` would answer; getting a block changes no answer. A cache is `Sound` for a
list of blocks when everything in it is one of them, under its own index. Storing the right block
keeps it so, whatever is evicted to make room.
-/

namespace Pgzf

open Recency

variable {D : Deps}

namespace BlockCache

def lookup (cache : BlockCache D) (blockIndex : Nat) : Option Bytes := (cache.get blockIndex).1

def entryList (cache : BlockCache D) : List (Nat × CacheEntry) := D.lru.recency cache.entries

theorem lookup_eq (cache : BlockCache D) (i : Nat) :
    cache.lookup i = if cache.capacity = 0 then none
      else (find i cache.entryList).map CacheEntry.data := by
  rw [lookup, get]
  split
  · rfl
  · exact congrArg (Option.map CacheEntry.data) (D.lru.get_fst cache.entries i)

theorem lookup_of_nil {cache : BlockCache D} (h : cache.entryList = []) (i : Nat) :
    cache.lookup i = none := by
  rw [lookup_eq, h]
  split <;> rfl

theorem lookup_of_capacity_zero {cache : BlockCache D} (h : cache.capacity = 0) (i : Nat) :
    cache.lookup i = none := by
  rw [lookup_eq, if_pos h]

theorem insert_of_capacity_zero {cache : BlockCache D} (h : cache.capacity = 0) (i : Nat)
    (data : Bytes) :
    cache.insert i data = cache := by
  rw [insert, if_pos h]

theorem entryList_new (capacity : Nat) : (new D capacity).entryList = [] := D.lru.recency_new _

@[simp] theorem capacity_get (cache : BlockCache D) (i : Nat) :
    (cache.get i).2.capacity = cache.capacity := by
  rw [get]
  split <;> rfl

theorem memoryUsage_get (cache : BlockCache D) (i : Nat) :
    (cache.get i).2.memoryUsage = cache.memoryUsage := by
  rw [get]
  split <;> rfl

theorem lookup_get (cache : BlockCache D) (i j : Nat) :
    (cache.get i).2.lookup j = cache.lookup j := by
  rw [lookup_eq, lookup_eq, capacity_get]
  by_cases hzero : cache.capacity = 0
  · rw [if_pos hzero, if_pos hzero]
  · have hentries : (cache.get i).2.entryList = touch i cache.entryList := by
      rw [get, if_neg hzero]
      exact D.lru.recency_get _ _
    rw [if_neg hzero, if_neg hzero, hentries, find_touch]

/-! ### Entries that an operation leaves -/

def Within (cache' cache : BlockCache D) : Prop :=
  ∀ entry ∈ cache'.entryList, entry ∈ cache.entryList

theorem Within.trans {c₁ c₂ c₃ : BlockCache D} (h : Within c₁ c₂) (h' : Within c₂ c₃) :
    Within c₁ c₃ :=
  fun entry hentry => h' entry (h entry hentry)

theorem within_get (cache : BlockCache D) (i : Nat) : Within (cache.get i).2 cache := by
  intro entry hentry
  rw [get] at hentry
  split at hentry
  · exact hentry
  · have hmem : entry ∈ D.lru.recency (D.lru.get cache.entries i).2 := hentry
    rw [D.lru.recency_get] at hmem
    exact mem_of_mem_touch hmem

theorem within_evictOne (cache : BlockCache D) : Within cache.evictOne cache := by
  intro entry hentry
  have hmem : entry ∈ D.lru.recency (D.lru.popLru cache.entries).2 := by
    rw [evictOne] at hentry
    split at hentry
    · rename_i heq
      rw [heq]
      exact hentry
    · rename_i heq
      rw [heq]
      exact hentry
  rw [D.lru.recency_popLru] at hmem
  exact List.dropLast_subset _ hmem

theorem within_evictForMemory (maxBytes size fuel : Nat) (cache : BlockCache D) :
    Within (evictForMemory maxBytes size fuel cache) cache := by
  induction fuel generalizing cache with
  | zero => exact fun _ h => h
  | succ fuel ih =>
    rw [evictForMemory]
    split
    · exact (ih cache.evictOne).trans (within_evictOne cache)
    · exact fun _ h => h

theorem within_evictForCapacity (fuel : Nat) (cache : BlockCache D) :
    Within (evictForCapacity fuel cache) cache := by
  induction fuel generalizing cache with
  | zero => exact fun _ h => h
  | succ fuel ih =>
    rw [evictForCapacity]
    split
    · exact (ih cache.evictOne).trans (within_evictOne cache)
    · exact fun _ h => h

theorem within_removeExisting (cache : BlockCache D) (i : Nat) :
    Within (cache.removeExisting i) cache := by
  intro entry hentry
  have hmem : entry ∈ D.lru.recency (D.lru.pop cache.entries i).2 := by
    rw [removeExisting] at hentry
    split at hentry
    · rename_i heq
      rw [heq]
      exact hentry
    · rename_i heq
      rw [heq]
      exact hentry
  rw [D.lru.recency_pop] at hmem
  exact (mem_erase.mp hmem).1

theorem mem_insert {cache : BlockCache D} {i : Nat} {data : Bytes} {entry : Nat × CacheEntry}
    (h : entry ∈ (cache.insert i data).entryList) :
    entry = (i, ⟨data, data.length⟩) ∨ entry ∈ cache.entryList := by
  rw [insert] at h
  split at h
  · exact .inr h
  · have hput : ∀ c : BlockCache D, Within c cache →
        entry ∈ D.lru.recency (D.lru.put c.entries i ⟨data, data.length⟩) →
        entry = (i, ⟨data, data.length⟩) ∨ entry ∈ cache.entryList := by
      intro c hc hmem
      rw [D.lru.recency_put] at hmem
      rcases List.mem_cons.mp (List.mem_of_mem_take hmem) with rfl | hmem
      · exact .inl rfl
      · exact .inr (hc entry (mem_erase.mp hmem).1)
    refine hput _ ?_ h
    apply (within_evictForCapacity _ _).trans
    cases (cache.removeExisting i).maxMemoryBytes with
    | none => exact within_removeExisting cache i
    | some maxBytes => exact (within_evictForMemory _ _ _ _).trans (within_removeExisting cache i)

theorem capacity_evictOne (cache : BlockCache D) : cache.evictOne.capacity = cache.capacity := by
  rw [evictOne]
  split <;> rfl

theorem capacity_evictForMemory (maxBytes size fuel : Nat) (cache : BlockCache D) :
    (evictForMemory maxBytes size fuel cache).capacity = cache.capacity := by
  induction fuel generalizing cache with
  | zero => rfl
  | succ fuel ih =>
    rw [evictForMemory]
    split
    · rw [ih, capacity_evictOne]
    · rfl

theorem capacity_evictForCapacity (fuel : Nat) (cache : BlockCache D) :
    (evictForCapacity fuel cache).capacity = cache.capacity := by
  induction fuel generalizing cache with
  | zero => rfl
  | succ fuel ih =>
    rw [evictForCapacity]
    split
    · rw [ih, capacity_evictOne]
    · rfl

theorem capacity_removeExisting (cache : BlockCache D) (i : Nat) :
    (cache.removeExisting i).capacity = cache.capacity := by
  rw [removeExisting]
  split <;> rfl

@[simp] theorem capacity_insert (cache : BlockCache D) (i : Nat) (data : Bytes) :
    (cache.insert i data).capacity = cache.capacity := by
  rw [insert]
  split
  · rfl
  · simp only [capacity_evictForCapacity]
    split
    · rw [capacity_evictForMemory, capacity_removeExisting]
    · exact capacity_removeExisting cache i

/-! ### Soundness -/

def Sound (cache : BlockCache D) (blocks : List Bytes) : Prop :=
  ∀ entry ∈ cache.entryList, blocks[entry.1]? = some entry.2.data

theorem sound_new (capacity : Nat) (blocks : List Bytes) : (new D capacity).Sound blocks := by
  intro entry hentry
  rw [entryList_new] at hentry
  exact absurd hentry List.not_mem_nil

variable {cache : BlockCache D} {blocks : List Bytes}

theorem Sound.withMemoryLimit (h : cache.Sound blocks) (maxBytes : Nat) :
    (cache.withMemoryLimit maxBytes).Sound blocks := h

theorem Sound.get (h : cache.Sound blocks) (i : Nat) : (cache.get i).2.Sound blocks :=
  fun entry hentry => h entry (within_get cache i entry hentry)

theorem Sound.insert (h : cache.Sound blocks) {i : Nat} {data : Bytes}
    (hdata : blocks[i]? = some data) :
    (cache.insert i data).Sound blocks := by
  intro entry hentry
  rcases mem_insert hentry with rfl | hentry
  · exact hdata
  · exact h entry hentry

theorem Sound.lookup (h : cache.Sound blocks) {i : Nat} {data : Bytes}
    (hlookup : cache.lookup i = some data) :
    blocks[i]? = some data := by
  rw [lookup_eq] at hlookup
  split at hlookup
  · exact absurd hlookup (by simp)
  · obtain ⟨entry, hfind, rfl⟩ := Option.map_eq_some_iff.mp hlookup
    exact h _ (mem_of_find hfind)

/-- Which indices are cached: nothing appears but by an insertion. -/
theorem lookup_insert_ne_none {i j : Nat} {data : Bytes}
    (h : (cache.insert i data).lookup j ≠ none) :
    j = i ∨ cache.lookup j ≠ none := by
  obtain ⟨found, hfound⟩ := Option.ne_none_iff_exists'.mp h
  rw [lookup_eq] at hfound
  by_cases hzero : cache.capacity = 0
  · rw [insert_of_capacity_zero hzero, if_pos hzero] at hfound
    exact absurd hfound (by simp)
  · split at hfound
    · exact absurd hfound (by simp)
    · obtain ⟨entry, hfind, -⟩ := Option.map_eq_some_iff.mp hfound
      rcases mem_insert (mem_of_find hfind) with heq | hmem
      · exact .inl (congrArg Prod.fst heq)
      · refine .inr ?_
        rw [lookup_eq, if_neg hzero, ne_eq, Option.map_eq_none_iff, find_eq_none_iff]
        exact fun hnone => hnone _ hmem rfl

/-! ### Looking up a batch -/

theorem cacheLookups_fst (batch : List Nat) (cache : BlockCache D) :
    (PgzfReader.cacheLookups batch cache).1 = batch.map cache.lookup := by
  induction batch generalizing cache with
  | nil => rfl
  | cons i rest ih =>
    have hrest : rest.map (cache.get i).2.lookup = rest.map cache.lookup :=
      List.map_congr_left fun j _ => lookup_get cache i j
    simp only [PgzfReader.cacheLookups, ih, hrest, List.map_cons]
    rfl

theorem lookup_cacheLookups (batch : List Nat) (cache : BlockCache D) (j : Nat) :
    (PgzfReader.cacheLookups batch cache).2.lookup j = cache.lookup j := by
  induction batch generalizing cache with
  | nil => rfl
  | cons i rest ih =>
    simp only [PgzfReader.cacheLookups, ih]
    exact lookup_get cache i j

theorem Sound.cacheLookups (h : cache.Sound blocks) (batch : List Nat) :
    (PgzfReader.cacheLookups batch cache).2.Sound blocks := by
  induction batch generalizing cache with
  | nil => exact h
  | cons i rest ih => exact ih (h.get i)

@[simp] theorem capacity_cacheLookups (batch : List Nat) (cache : BlockCache D) :
    (PgzfReader.cacheLookups batch cache).2.capacity = cache.capacity := by
  induction batch generalizing cache with
  | nil => rfl
  | cons i rest ih =>
    simp only [PgzfReader.cacheLookups, ih]
    exact capacity_get cache i

end BlockCache

end Pgzf
