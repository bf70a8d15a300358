import Mathlib.Data.List.Dedup
import Pgzf.CacheContents

/-!
# The cache as an LRU map

Any sequence of lookups and insertions, with its answers, is a history. The keys ever inserted, in
the order of their last use, are read off the history alone, and the cache holds the first of them,
with what was inserted last.
-/

namespace Pgzf

open Recency

variable {D : Deps}

inductive CacheCall where
  | get (blockIndex : Nat)
  | insert (blockIndex : Nat) (data : Bytes)
  deriving DecidableEq, Repr

def CacheCall.run (cache : BlockCache D) : CacheCall → Option Bytes × BlockCache D
  | .get blockIndex => cache.get blockIndex
  | .insert blockIndex data => (none, cache.insert blockIndex data)

abbrev CacheHistory := List (CacheCall × Option Bytes)

def runCacheCalls : List CacheCall → CacheHistory × BlockCache D → CacheHistory × BlockCache D
  | [], state => state
  | call :: rest, (history, cache) =>
    let (answer, cache) := call.run cache
    runCacheCalls rest ((call, answer) :: history, cache)

def BlockCache.limited (D : Deps) (capacity : Nat) (limit : Option Nat) : BlockCache D :=
  match limit with
  | none => .new D capacity
  | some maxBytes => (BlockCache.new D capacity).withMemoryLimit maxBytes

namespace CacheHistory

def used : CacheCall × Option Bytes → Option Nat
  | (.insert blockIndex _, _) => some blockIndex
  | (.get blockIndex, answer) => answer.map fun _ => blockIndex

def inserted : CacheCall × Option Bytes → Option Nat
  | (.insert blockIndex _, _) => some blockIndex
  | (.get _, _) => none

def order (history : CacheHistory) : List Nat := byUse (history.filterMap used)

def insertedKeys (history : CacheHistory) : List Nat := history.filterMap inserted

def lastInserted (k : Nat) : CacheHistory → Option Bytes
  | [] => none
  | (.insert blockIndex data, _) :: earlier =>
    if blockIndex = k then some data else lastInserted k earlier
  | (.get _, _) :: earlier => lastInserted k earlier

end CacheHistory

open CacheHistory

def BlockCache.keys (cache : BlockCache D) : List Nat := Recency.keys cache.entryList

/-- The cache behaves as an LRU map with the given limits on this history: the order lists the keys
ever inserted, and the cache holds the first of them. Its next insertion subtracts nothing below
zero and comes to its end. -/
structure IsLru (capacity : Nat) (limit : Option Nat) (history : CacheHistory)
    (cache : BlockCache D) : Prop where
  order_inserted : (order history).Nodup ∧ ∀ k, k ∈ order history ↔ k ∈ insertedKeys history
  keys_eq : cache.keys = (order history).take cache.len
  get_eq : ∀ k, (cache.get k).1 = if k ∈ cache.keys then lastInserted k history else none
  len_le : cache.len ≤ capacity
  memory : cache.memoryUsage = (cache.entryList.map fun entry => entry.2.data.length).sum
  insert_ok : ∀ k data, cache.insertChecked k data = .ok (cache.insert k data)
  unlimited : limit = none → cache.len = min capacity (insertedKeys history).dedup.length

/-! ### The invariant -/

structure Recent (capacity : Nat) (limit : Option Nat) (history : CacheHistory)
    (cache : BlockCache D) (entries : List (Nat × CacheEntry)) : Prop where
  contents : cache.Contents capacity limit entries
  front : keys entries <+: order history
  data : ∀ entry ∈ entries, lastInserted entry.1 history = some entry.2.data ∧
    entry.2.size = entry.2.data.length
  length_le : entries.length ≤ capacity
  inserted_iff : ∀ k, k ∈ order history ↔ k ∈ insertedKeys history
  full : limit = none → entries.length = min capacity (order history).length

variable {capacity : Nat} {limit : Option Nat} {history : CacheHistory} {cache : BlockCache D}
  {entries : List (Nat × CacheEntry)}

theorem nodup_order (history : CacheHistory) : (order history).Nodup := nodup_byUse _

theorem inserted_iff_insert (h : ∀ j, j ∈ order history ↔ j ∈ insertedKeys history) (k : Nat)
    (data : Bytes) :
    ∀ j, j ∈ order ((.insert k data, none) :: history) ↔
      j ∈ insertedKeys ((.insert k data, none) :: history) := by
  intro j
  have horder : order ((.insert k data, none) :: history) = k :: (order history).filter (· ≠ k) :=
    rfl
  have hinserted : insertedKeys ((.insert k data, none) :: history) = k :: insertedKeys history :=
    rfl
  rw [horder, hinserted, mem_moved, List.mem_cons, h]

theorem length_keys (entries : List (Nat × CacheEntry)) : (keys entries).length = entries.length :=
  List.length_map _

theorem recent_limited (D : Deps) (capacity : Nat) (limit : Option Nat) :
    Recent capacity limit [] (BlockCache.limited D capacity limit) [] := by
  have hcontents : (BlockCache.limited D capacity limit).Contents capacity limit [] := by
    cases limit with
    | none => exact BlockCache.contents_new D capacity
    | some maxBytes => exact (BlockCache.contents_new D capacity).withMemoryLimit maxBytes
  exact ⟨hcontents, List.nil_prefix, fun entry hentry => absurd hentry List.not_mem_nil,
    Nat.zero_le _, fun _ => Iff.rfl, fun _ => (Nat.min_zero _).symm⟩

namespace Recent

theorem nodup (h : Recent capacity limit history cache entries) : (keys entries).Nodup :=
  h.front.sublist.nodup (nodup_byUse _)

theorem mem_order (h : Recent capacity limit history cache entries) {k : Nat} {entry : CacheEntry}
    (hfind : find k entries = some entry) : k ∈ order history :=
  h.front.subset (mem_keys_of_find hfind)

theorem eq_nil (h : Recent capacity limit history cache entries) (hzero : capacity = 0) :
    entries = [] :=
  List.length_eq_zero_iff.mp (Nat.le_zero.mp (hzero ▸ h.length_le))

theorem miss (h : Recent capacity limit history cache entries) {cache' : BlockCache D}
    (hcontents : cache'.Contents capacity limit entries) (k : Nat) :
    Recent capacity limit ((.get k, none) :: history) cache' entries :=
  ⟨hcontents, h.front, h.data, h.length_le, h.inserted_iff, h.full⟩

theorem hit (h : Recent capacity limit history cache entries) {cache' : BlockCache D} {k : Nat}
    {entry : CacheEntry} (hfind : find k entries = some entry)
    (hcontents : cache'.Contents capacity limit (touch k entries)) :
    Recent capacity limit ((.get k, some entry.data) :: history) cache' (touch k entries) := by
  have hk := h.mem_order hfind
  have horder : order ((.get k, some entry.data) :: history) = k :: (order history).filter
    (· ≠ k) := rfl
  have hsame : (touch k entries).length = entries.length := by
    rw [← length_keys, keys_touch hfind, length_moved h.nodup (mem_keys_of_find hfind), length_keys]
  refine ⟨hcontents, ?_, ?_, ?_, ?_, ?_⟩
  · rw [keys_touch hfind, horder]
    exact (List.prefix_cons_inj k).mpr (h.front.filter _)
  · exact fun entry hentry => h.data entry (mem_of_mem_touch hentry)
  · rw [hsame]
    exact h.length_le
  · intro j
    rw [horder, mem_moved, h.inserted_iff]
    exact or_iff_right_of_imp fun hkey => (h.inserted_iff j).mp (hkey ▸ hk)
  · intro hnone
    rw [hsame, horder, length_moved (nodup_order history) hk]
    exact h.full hnone

/-- The order after an insertion, where nothing else is left out. -/
theorem insert (h : Recent capacity limit history cache entries) (hpos : 0 < capacity) (k : Nat)
    (data : Bytes) :
    ∃ kept, Recent capacity limit ((.insert k data, none) :: history) (cache.insert k data)
      ((k, ⟨data, data.length⟩) :: kept) ∧
        ∀ maxBytes, limit = some maxBytes → weight CacheEntry.size kept + data.length ≤ maxBytes ∨
          kept = [] := by
  obtain ⟨kept, hkept, hroom, hcontents, -, hunlimited, hlimited⟩ :=
    h.contents.insert hpos h.nodup k data
  have horder : order ((.insert k data, none) :: history) = k :: (order history).filter (· ≠ k) :=
    rfl
  have hfront : keys (erase k entries) <+: (order history).filter (· ≠ k) := by
    rw [keys_erase]
    exact h.front.filter _
  refine ⟨kept, ⟨hcontents, ?_, ?_, hroom, ?_, ?_⟩, hlimited⟩
  · rw [keys_cons, horder]
    exact (List.prefix_cons_inj k).mpr ((hkept.map Prod.fst).trans hfront)
  · intro entry hentry
    rcases List.mem_cons.mp hentry with rfl | hentry
    · exact ⟨if_pos rfl, rfl⟩
    · obtain ⟨hmem, hne⟩ := mem_erase.mp (hkept.subset hentry)
      obtain ⟨hlast, hsize⟩ := h.data entry hmem
      exact ⟨(if_neg (Ne.symm hne)).trans hlast, hsize⟩
  · exact inserted_iff_insert h.inserted_iff k data
  · intro hnone
    have hlen : kept.length = min (capacity - 1) (erase k entries).length := by
      rw [hunlimited hnone, List.length_take]
    have hfull := h.full hnone
    have hlost := length_le_filter_ne h.nodup k
    have hlost' := length_le_filter_ne (nodup_order history) k
    have hlength : (erase k entries).length = ((keys entries).filter (· ≠ k)).length := by
      rw [← keys_erase, length_keys]
    rw [length_keys] at hlost
    rw [horder, List.length_cons, List.length_cons, hlen]
    -- either the cache holds all keys, or it is full before and behind
    by_cases hall : (order history).length ≤ capacity
    · have hsame : keys entries = order history := by
        apply h.front.eq_of_length
        rw [length_keys, hfull, Nat.min_eq_right hall]
      rw [hlength, hsame]
      omega
    · omega

theorem step (h : Recent capacity limit history cache entries) (call : CacheCall) :
    ∃ entries', Recent capacity limit ((call, (call.run cache).1) :: history)
      (call.run cache).2 entries' := by
  by_cases hzero : capacity = 0
  · have hcapacity : cache.capacity = 0 := h.contents.capacity_eq.trans hzero
    obtain rfl := h.eq_nil hzero
    cases call with
    | get k =>
      have hget : cache.get k = (none, cache) := if_pos hcapacity
      rw [CacheCall.run, hget]
      exact ⟨[], h.miss h.contents k⟩
    | insert k data =>
      have hinsert : cache.insert k data = cache :=
        BlockCache.insert_of_capacity_zero hcapacity k data
      rw [CacheCall.run, hinsert]
      refine ⟨[], h.contents, List.nil_prefix, fun entry hentry => absurd hentry List.not_mem_nil,
        Nat.zero_le _, ?_, ?_⟩
      · exact inserted_iff_insert h.inserted_iff k data
      · intro _
        rw [hzero, Nat.zero_min, List.length_nil]
  · have hpos := Nat.pos_of_ne_zero hzero
    cases call with
    | get k =>
      obtain ⟨hanswer, hcontents⟩ := h.contents.get hpos k
      have hcontents := hcontents h.nodup
      rw [CacheCall.run, hanswer]
      cases hfind : find k entries with
      | none =>
        rw [touch_of_find_none hfind] at hcontents
        exact ⟨entries, h.miss hcontents k⟩
      | some entry => exact ⟨touch k entries, h.hit hfind hcontents⟩
    | insert k data =>
      obtain ⟨kept, hinserted, -⟩ := h.insert hpos k data
      exact ⟨_, hinserted⟩

theorem run (calls : List CacheCall) (h : Recent capacity limit history cache entries) :
    ∃ entries', Recent capacity limit (runCacheCalls calls (history, cache)).1
      (runCacheCalls calls (history, cache)).2
      entries' := by
  induction calls generalizing history cache entries with
  | nil => exact ⟨entries, h⟩
  | cons call rest ih =>
    obtain ⟨entries', hstep⟩ := h.step call
    exact ih hstep

/-! ### What follows between calls -/

theorem insertChecked_eq (h : Recent capacity limit history cache entries) (k : Nat)
    (data : Bytes) :
    cache.insertChecked k data = .ok (cache.insert k data) := by
  by_cases hzero : capacity = 0
  · have hcapacity : cache.capacity = 0 := h.contents.capacity_eq.trans hzero
    rw [BlockCache.insertChecked, if_pos hcapacity, BlockCache.insert_of_capacity_zero hcapacity]
    rfl
  · obtain ⟨_, -, -, -, hchecked, -⟩ := h.contents.insert (Nat.pos_of_ne_zero hzero) h.nodup k data
    exact hchecked

theorem get_eq (h : Recent capacity limit history cache entries) (k : Nat) :
    (cache.get k).1 = if k ∈ keys entries then lastInserted k history else none := by
  by_cases hzero : capacity = 0
  · have hcapacity : cache.capacity = 0 := h.contents.capacity_eq.trans hzero
    rw [BlockCache.get, if_pos hcapacity, h.eq_nil hzero, if_neg]
    exact List.not_mem_nil
  · rw [(h.contents.get (Nat.pos_of_ne_zero hzero) k).1]
    cases hfind : find k entries with
    | none => rw [if_neg (find_eq_none_iff_keys.mp hfind), Option.map_none]
    | some entry =>
      rw [if_pos (mem_keys_of_find hfind), Option.map_some, (h.data _ (mem_of_find hfind)).1]

theorem weight_eq (h : Recent capacity limit history cache entries) :
    weight CacheEntry.size entries = (entries.map fun entry => entry.2.data.length).sum :=
  congrArg List.sum (List.map_congr_left fun entry hentry => (h.data entry hentry).2)

theorem isLru (h : Recent capacity limit history cache entries) :
    IsLru capacity limit history cache := by
  have hkeys : cache.keys = keys entries := congrArg keys h.contents.entryList_eq
  constructor
  · exact ⟨nodup_order history, h.inserted_iff⟩
  · rw [hkeys, h.contents.len_eq, ← length_keys]
    exact List.prefix_iff_eq_take.mp h.front
  · intro k
    rw [hkeys]
    exact h.get_eq k
  · rw [h.contents.len_eq]
    exact h.length_le
  · rw [BlockCache.memoryUsage, h.contents.memory, h.weight_eq, h.contents.entryList_eq]
  · exact h.insertChecked_eq
  · intro hnone
    have hcount : (order history).length = (insertedKeys history).dedup.length := by
      apply List.Perm.length_eq
      rw [List.perm_ext_iff_of_nodup (nodup_order history) (List.nodup_dedup _)]
      intro k
      rw [List.mem_dedup, h.inserted_iff]
    rw [h.contents.len_eq, h.full hnone, hcount]

end Recent

/-- After any sequence of calls, whatever the limits. -/
theorem cache_is_lru (D : Deps) (capacity : Nat) (limit : Option Nat) (calls : List CacheCall) :
    IsLru capacity limit (runCacheCalls calls ([], BlockCache.limited D capacity limit)).1
      (runCacheCalls calls ([], BlockCache.limited D capacity limit)).2 := by
  obtain ⟨entries, hrecent⟩ := (recent_limited D capacity limit).run calls
  exact hrecent.isLru

end Pgzf
