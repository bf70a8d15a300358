import Pgzf.CacheOrder

/-!
# The memory limit of the cache

The eviction loop stops when the new block fits or nothing is left to evict, and the block is stored
in both cases. So a block above the limit is the one thing that breaks it.
-/

namespace Pgzf

open Recency

variable {D : Deps} {capacity m : Nat} {history : CacheHistory} {cache : BlockCache D}
  {entries : List (Nat × CacheEntry)}

theorem runCacheCalls_append (calls later : List CacheCall) (state : CacheHistory × BlockCache D) :
    runCacheCalls (calls ++ later) state = runCacheCalls later (runCacheCalls calls state) := by
  induction calls generalizing state with
  | nil => rfl
  | cons call rest ih => exact ih _

theorem Recent.memoryUsage_insert (h : Recent capacity (some m) history cache entries)
    (hpos : 0 < capacity) (k : Nat) (data : Bytes) :
    ∃ others, (cache.insert k data).memoryUsage = data.length + others ∧
      (others + data.length ≤ m ∨ others = 0) := by
  obtain ⟨kept, hinserted, hfits⟩ := h.insert hpos k data
  refine ⟨weight CacheEntry.size kept, ?_, ?_⟩
  · rw [BlockCache.memoryUsage, hinserted.contents.memory, weight_cons]
  · rcases hfits m rfl with hfits | rfl
    · exact .inl hfits
    · exact .inr rfl

theorem Recent.step_le (h : Recent capacity (some m) history cache entries)
    (hle : cache.memoryUsage ≤ m) {call : CacheCall}
    (hcall : capacity = 0 ∨ ∀ k data, call = .insert k data → data.length ≤ m) :
    (call.run cache).2.memoryUsage ≤ m := by
  cases call with
  | get k => exact Nat.le_trans (Nat.le_of_eq (BlockCache.memoryUsage_get cache k)) hle
  | insert k data =>
    rw [CacheCall.run]
    by_cases hzero : capacity = 0
    · rw [BlockCache.insert_of_capacity_zero (h.contents.capacity_eq.trans hzero)]
      exact hle
    · obtain ⟨others, husage, hfits⟩ := h.memoryUsage_insert (Nat.pos_of_ne_zero hzero) k data
      have hdata := hcall.resolve_left hzero k data rfl
      simp only
      omega

theorem Recent.run_le {calls : List CacheCall} (h : Recent capacity (some m) history cache entries)
    (hle : cache.memoryUsage ≤ m)
    (hcalls : capacity = 0 ∨ ∀ k data, CacheCall.insert k data ∈ calls → data.length ≤ m) :
    (runCacheCalls calls (history, cache)).2.memoryUsage ≤ m := by
  induction calls generalizing history cache entries with
  | nil => exact hle
  | cons call rest ih =>
    obtain ⟨entries', hstep⟩ := h.step call
    apply ih hstep
    · exact h.step_le hle (hcalls.imp_right fun hall k data heq =>
        hall k data (heq ▸ List.mem_cons_self))
    · exact hcalls.imp_right fun hall k data hmem => hall k data (List.mem_cons_of_mem _ hmem)

/-- The limit is respected after every call exactly when no call stores a block above it. -/
theorem limit_respected_iff (D : Deps) (capacity m : Nat) (calls : List CacheCall) :
    (∀ n, (runCacheCalls (calls.take n) ([],
      BlockCache.limited D capacity (some m))).2.memoryUsage ≤ m) ↔
      capacity = 0 ∨ ∀ k data, CacheCall.insert k data ∈ calls → data.length ≤ m := by
  constructor
  · intro hrespected
    by_cases hzero : capacity = 0
    · exact .inl hzero
    · refine .inr fun k data hmem => ?_
      obtain ⟨before, after, rfl⟩ := List.append_of_mem hmem
      have htake : (before ++ .insert k data :: after).take (before.length + 1) = before ++
          [.insert k data] := by
        rw [List.take_length_add_append]
        rfl
      have hle := hrespected (before.length + 1)
      rw [htake, runCacheCalls_append] at hle
      obtain ⟨entries, hrecent⟩ := (recent_limited D capacity (some m)).run before
      obtain ⟨others, husage, -⟩ := hrecent.memoryUsage_insert (Nat.pos_of_ne_zero hzero) k data
      exact Nat.le_trans (Nat.le_add_right _ _) (Nat.le_trans (Nat.le_of_eq husage.symm) hle)
  · intro hcalls n
    apply (recent_limited D capacity (some m)).run_le (Nat.zero_le _)
    exact hcalls.imp_right fun hall k data hmem => hall k data (List.mem_of_mem_take hmem)

end Pgzf
