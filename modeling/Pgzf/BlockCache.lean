import Pgzf.Compress

/-!
# The block cache (`block_cache.rs`)

The loops of `insert` stop when the cache is empty at the latest, so they get one turn per entry.
-/

namespace Pgzf

variable (D : Deps)

structure BlockCache where
  entries : D.lru.Cache
  capacity : Nat
  maxMemoryBytes : Option Nat
  currentMemoryBytes : Nat

namespace BlockCache

def new (capacity : Nat) : BlockCache D := ⟨D.lru.new (max capacity 1), capacity, none, 0⟩

variable {D}

def withMemoryLimit (cache : BlockCache D) (maxBytes : Nat) : BlockCache D :=
  { cache with maxMemoryBytes := some maxBytes }

def get (cache : BlockCache D) (blockIndex : Nat) : Option Bytes × BlockCache D :=
  if cache.capacity = 0 then
    (none, cache)
  else
    let (entry, entries) := D.lru.get cache.entries blockIndex
    (entry.map CacheEntry.data, { cache with entries := entries })

/-- Evict the least recently used entry. -/
def evictOne (cache : BlockCache D) : BlockCache D :=
  match D.lru.popLru cache.entries with
  | (some (_, entry), entries) =>
    { cache with entries := entries, currentMemoryBytes := cache.currentMemoryBytes - entry.size }
  | (none, entries) => { cache with entries := entries }

def len (cache : BlockCache D) : Nat := D.lru.len cache.entries

def memoryUsage (cache : BlockCache D) : Nat := cache.currentMemoryBytes

/-- `while self.current_memory_bytes + size > max_bytes && !self.entries.is_empty()`. -/
def evictForMemory (maxBytes size : Nat) : Nat → BlockCache D → BlockCache D
  | 0, cache => cache
  | fuel + 1, cache =>
    if cache.currentMemoryBytes + size > maxBytes ∧ cache.len ≠ 0 then
      evictForMemory maxBytes size fuel cache.evictOne
    else
      cache

/-- `while self.entries.len() >= self.capacity`. -/
def evictForCapacity : Nat → BlockCache D → BlockCache D
  | 0, cache => cache
  | fuel + 1, cache =>
    if cache.len ≥ cache.capacity then evictForCapacity fuel cache.evictOne else cache

/-- Drop the entry of `blockIndex`, if there is one. -/
def removeExisting (cache : BlockCache D) (blockIndex : Nat) : BlockCache D :=
  match D.lru.pop cache.entries blockIndex with
  | (some old, entries) =>
    { cache with entries := entries, currentMemoryBytes := cache.currentMemoryBytes - old.size }
  | (none, entries) => { cache with entries := entries }

def insert (cache : BlockCache D) (blockIndex : Nat) (data : Bytes) : BlockCache D :=
  if cache.capacity = 0 then
    cache
  else
    let size := data.length
    let cache := cache.removeExisting blockIndex
    let cache := match cache.maxMemoryBytes with
      | some maxBytes => evictForMemory maxBytes size cache.len cache
      | none => cache
    let cache := evictForCapacity cache.len cache
    { cache with
      entries := D.lru.put cache.entries blockIndex ⟨data, size⟩
      currentMemoryBytes := cache.currentMemoryBytes + size }

end BlockCache

end Pgzf
