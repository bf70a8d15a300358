import Pgzf.Limits

/-!
# Random access

Any sequence of seeks and reads, on a reader of a written file. Without a cache, the reader is a
cursor over the payload. With a cache it is the same cursor as long as every refill it makes is a
safe one; a refill whose last block is cached while an earlier one is not leaves the reader behind
its own queue, and what follows is delivered twice or in the wrong order.
-/

namespace Pgzf

open PgzfReader

variable {D : Deps}

inductive ReaderCall where
  | seekToByte (offset : Nat)
  | read (n : Nat)
  deriving DecidableEq, Repr

def ReaderCall.run : ReaderCall → Prog (PgzfReader D) (Option Bytes)
  | .seekToByte offset => do
    PgzfReader.seekToByte offset
    return none
  | .read n => do return some (← PgzfReader.read n)

/-! ### The cursor -/

/-- The answers of a cursor over `payload` that starts at a position:
a seek moves it, and a read returns a window of the payload at the
position, no longer than its buffer, and empty only at the end. -/
inductive CursorRun (payload : Bytes) : Nat → List ReaderCall → List (Option Bytes) → Prop
  | nil (pos : Nat) : CursorRun payload pos [] []
  | seekToByte {pos offset : Nat} {calls : List ReaderCall} {answers : List (Option Bytes)} :
    CursorRun payload offset calls answers →
      CursorRun payload pos (.seekToByte offset :: calls) (none :: answers)
  | read {pos n : Nat} {out : Bytes} {calls : List ReaderCall} {answers : List (Option Bytes)} :
    out = (payload.drop pos).take out.length → out.length ≤ n →
      (0 < n → out = [] → pos = payload.length) →
      CursorRun payload (pos + out.length) calls answers →
        CursorRun payload pos (.read n :: calls) (some out :: answers)

def ReaderCall.step (blocks : List Bytes) (pos : Nat) : ReaderCall → Option Bytes × Nat
  | .seekToByte offset => (none, offset)
  | .read n => (some (BlockCursor.read blocks pos n).1, (BlockCursor.read blocks pos n).2)

def ReaderCall.inRange (total : Nat) : ReaderCall → Bool
  | .seekToByte offset => offset ≤ total
  | .read _ => true

theorem cursorRun_trace {blocks : List Bytes} {calls : List ReaderCall}
    (hcalls : ∀ call ∈ calls, call.inRange blocks.flatten.length) {pos : Nat}
    (hpos : pos ≤ blocks.flatten.length) :
    CursorRun blocks.flatten pos calls (Program.trace (ReaderCall.step blocks) pos calls) := by
  induction calls generalizing pos with
  | nil => exact .nil pos
  | cons call calls ih =>
    have hrest : ∀ c ∈ calls, c.inRange blocks.flatten.length :=
      fun c hc => hcalls c (List.mem_cons_of_mem _ hc)
    cases call with
    | seekToByte offset =>
      exact .seekToByte (ih hrest (of_decide_eq_true (hcalls _ List.mem_cons_self)))
    | read n =>
      refine .read (BlockCursor.read_fst blocks pos n) (List.length_take_le n _) ?_
        (ih hrest (BlockCursor.read_snd_le n hpos))
      intro hn hnil
      have hend := (BlockCursor.read_fst_eq_nil_iff hn).mp hnil
      omega

/-! ### Safe refills -/

/-- A refill the next read may need starts and ends a batch: its arithmetic fits into 64 bits, and
either the whole batch is cached or its last block is not. -/
def SafeRefill (r : PgzfReader D) : Prop :=
  ∀ index, r.index = some index → ∀ start, refillStart index r = some start →
    start < index.blockCount → start + r.readaheadSize < 2 ^ 64 ∧
      (missing r.blockCache start (min index.blockCount (start + r.readaheadSize)) = [] ∨
        r.blockCache.lookup (min index.blockCount (start + r.readaheadSize) - 1) = none)

def SafeCall (r : PgzfReader D) (call : ReaderCall) : Prop :=
  ∀ n, call = .read n → 0 < n → SafeRefill r

instance (r : PgzfReader D) : Decidable (SafeRefill r) :=
  match h : r.index.bind fun index => (refillStart index r).map fun start => (index, start) with
  | none => .isTrue fun index hindex start hstart => by simp [hindex, hstart] at h
  | some (index, start) =>
    decidable_of_iff (start < index.blockCount → start + r.readaheadSize < 2 ^ 64 ∧
      (missing r.blockCache start (min index.blockCount (start + r.readaheadSize)) = [] ∨
        r.blockCache.lookup (min index.blockCount (start + r.readaheadSize) - 1) = none)) <| by
      simp only [Option.bind_eq_some_iff, Option.map_eq_some_iff] at h
      obtain ⟨index', hindex, start', hstart, heq⟩ := h
      obtain ⟨rfl, rfl⟩ := Prod.mk.inj heq
      refine ⟨fun hsafe i hi s hs => ?_, fun hsafe => hsafe _ hindex _ hstart⟩
      obtain rfl := Option.some.inj (hindex.symm.trans hi)
      obtain rfl := Option.some.inj (hstart.symm.trans hs)
      exact hsafe

instance (r : PgzfReader D) : ∀ call, Decidable (SafeCall r call)
  | .seekToByte _ => .isTrue fun n hn => absurd hn (by simp)
  | .read n => decidable_of_iff (0 < n → SafeRefill r) (by simp [SafeCall])

section Session

variable {file : Bytes} {index : PgzfIndex} {blocks : List Bytes}

structure InSession (file : Bytes) (index : PgzfIndex) (blocks : List Bytes) (r : PgzfReader D)
    (pos : Nat) :
    Prop where
  tracks : Tracks file index blocks r pos
  unlimited : r.readaheadMemoryLimit = none

theorem InSession.cleanRefill (hd : Describes D file index blocks) {r : PgzfReader D} {pos : Nat}
    (h : InSession file index blocks r pos) (hsafe : SafeRefill r) :
    CleanRefill index blocks r := by
  intro start hstart hlt
  have hbelow : BelowLimit r := fun limit hlimit => absurd (h.unlimited.symm.trans hlimit) (by simp)
  obtain ⟨hfit, hbatch⟩ := hsafe index h.tracks.index_eq start hstart (by rwa [hd.blockCount])
  rw [hd.blockCount] at hbatch
  exact ⟨hbelow, hfit, hbatch⟩

/-- A call of a session is answered as the cursor
answers it; a disabled cache and the settings stay. -/
theorem InSession.call (hd : Describes D file index blocks) {r : PgzfReader D} {pos : Nat}
    (h : InSession file index blocks r pos) {call : ReaderCall}
    (hcall : call.inRange blocks.flatten.length) (hsafe : SafeCall r call) :
    ∃ r', call.run r = .ok (call.step blocks pos).1 r' ∧
      InSession file index blocks r' (call.step blocks pos).2 ∧
      r'.blockCache.capacity = r.blockCache.capacity ∧ r'.readaheadSize = r.readaheadSize := by
  cases call with
  | seekToByte offset =>
    obtain ⟨r', hseek, htracks, hsize, hlimit, hcache⟩ :=
      seekToByte_tracks h.tracks (of_decide_eq_true hcall)
    refine ⟨r', ?_, ⟨htracks, hlimit.trans h.unlimited⟩, by rw [hcache], hsize⟩
    rw [ReaderCall.run, Program.bind_ok hseek, Program.pure_apply]
    rfl
  | read n =>
    by_cases hn : n = 0
    · subst hn
      have hnil : BlockCursor.read blocks pos 0 = ([], pos) := by
        rw [BlockCursor.read, List.take_zero, List.length_nil, Nat.add_zero]
      refine ⟨r, ?_, ?_, rfl, rfl⟩
      · rw [ReaderCall.run, Program.bind_ok (read_zero r), Program.pure_apply,
          ReaderCall.step, hnil]
      · rw [ReaderCall.step, hnil]
        exact h
    · have hclean := h.cleanRefill hd (hsafe n rfl (Nat.pos_of_ne_zero hn))
      obtain ⟨r', hread, htracks, hframe⟩ := read_tracks hd h.tracks hclean hn
      refine ⟨r', ?_, ⟨htracks, hframe.readaheadMemoryLimit.trans h.unlimited⟩, hframe.capacity,
        hframe.readaheadSize⟩
      rw [ReaderCall.run, Program.bind_ok hread, Program.pure_apply]
      rfl

theorem inSession_configured (D : Deps) (file : Bytes) (index : PgzfIndex) (blocks : List Bytes)
    (size capacity : Nat) (cacheLimit : Option Nat) :
    InSession file index blocks ((fresh D file index).configured size capacity cacheLimit) 0 := by
  refine ⟨tracks_configured D file index blocks size capacity cacheLimit, ?_⟩
  cases cacheLimit <;> rfl

theorem session_eq_trace (hd : Describes D file index blocks) {calls : List ReaderCall}
    (hcalls : ∀ call ∈ calls, call.inRange blocks.flatten.length) {r : PgzfReader D} {pos : Nat}
    (h : InSession file index blocks r pos)
    (hsafe : Program.AllSteps ReaderCall.run SafeCall r calls) :
    ∃ r', (calls.mapM ReaderCall.run) r =
      .ok (Program.trace (ReaderCall.step blocks) pos calls) r' := by
  induction calls generalizing r pos with
  | nil => exact ⟨r, rfl⟩
  | cons call calls ih =>
    obtain ⟨hnow, hlater⟩ := hsafe
    obtain ⟨mid, hrun, hmid, -⟩ := h.call hd (hcalls call List.mem_cons_self) hnow
    obtain ⟨r', hrest⟩ :=
      ih (fun c hc => hcalls c (List.mem_cons_of_mem _ hc)) hmid (hlater _ _ hrun)
    refine ⟨r', ?_⟩
    rw [Program.mapM_cons_apply, hrun]
    simp only [hrest, Program.trace]

/-! ### Without a cache -/

theorem safeRefill_of_lookup_none {r : PgzfReader D} (hnone : ∀ i, r.blockCache.lookup i = none)
    (hfit : ∀ index, r.index = some index → index.blockCount + r.readaheadSize < 2 ^ 64) :
    SafeRefill r := by
  intro index hindex start _ hlt
  have := hfit index hindex
  exact ⟨by omega, .inr (hnone _)⟩

structure Uncached (blocks : List Bytes) (r : PgzfReader D) : Prop where
  capacity : r.blockCache.capacity = 0
  fits : blocks.length + r.readaheadSize < 2 ^ 64

theorem Uncached.safeRefill (hd : Describes D file index blocks) {r : PgzfReader D}
    (h : Uncached blocks r) (hindex : r.index = some index) : SafeRefill r := by
  apply safeRefill_of_lookup_none (fun i => BlockCache.lookup_of_capacity_zero h.capacity i)
  intro index' hindex'
  obtain rfl := Option.some.inj (hindex.symm.trans hindex')
  rw [hd.blockCount]
  exact h.fits

theorem uncached_configured {size : Nat} (hsize : 0 < size) (hfit : blocks.length + size < 2 ^ 64)
    (cacheLimit : Option Nat) :
    Uncached blocks ((fresh D file index).configured size 0 cacheLimit) := by
  have hmax : max size 1 = size := by omega
  cases cacheLimit <;> exact ⟨rfl, by rwa [← hmax] at hfit⟩

theorem Uncached.session (hd : Describes D file index blocks) {calls : List ReaderCall}
    (hcalls : ∀ call ∈ calls, call.inRange blocks.flatten.length) {r : PgzfReader D} {pos : Nat}
    (h : InSession file index blocks r pos) (hr : Uncached blocks r) :
    ∃ r', (calls.mapM ReaderCall.run) r =
      .ok (Program.trace (ReaderCall.step blocks) pos calls) r' := by
  apply session_eq_trace hd hcalls h
  induction calls generalizing r pos with
  | nil => trivial
  | cons call calls ih =>
    have hsafe := hr.safeRefill hd h.tracks.index_eq
    refine ⟨fun _ _ _ => hsafe, ?_⟩
    intro a s' hrun
    obtain ⟨mid, hmidRun, hmid, hcapacity, hsize⟩ :=
      h.call hd (hcalls call List.mem_cons_self) fun _ _ _ => hsafe
    obtain ⟨-, rfl⟩ := EStateM.Result.ok.inj (hrun.symm.trans hmidRun)
    exact ih (fun c hc => hcalls c (List.mem_cons_of_mem _ hc)) hmid
      ⟨hcapacity.trans hr.capacity, by rw [hsize]; exact hr.fits⟩

end Session

variable {config : PgzfConfig} {bufs : List Bytes}

/-- Without a cache, the reader of a written file is a
cursor over the payload, whatever the seeks and reads. -/
theorem random_access_refines_cursor (hlimits : WithinLimits D (2 ^ 30) config bufs.flatten)
    (hcodec : Codec D config bufs.flatten) (hne : bufs.flatten ≠ []) (cacheLimit : Option Nat)
    {size : Nat} (hsize : 0 < size) (hfit : (config.blocksOf bufs.flatten).length + size < 2 ^ 64) :
    ∃ reader, Opens D config bufs reader ∧ (∀ r : PgzfReader D, PgzfReader.read 0 r = .ok [] r) ∧
      ∀ calls : List ReaderCall, (∀ call ∈ calls, call.inRange bufs.flatten.length) →
        ∃ answers r', (calls.mapM ReaderCall.run) (reader.configured size 0 cacheLimit) =
          .ok answers r' ∧
          CursorRun bufs.flatten 0 calls answers := by
  have hd := describes_written hlimits hcodec
  have hpayload := flatten_blocksOf hlimits.blockSize_pos bufs.flatten
  refine ⟨_, opens_written hlimits (by omega) hcodec.compresses hne, fun r => read_zero r, ?_⟩
  intro calls hcalls
  rw [← hpayload] at hcalls
  obtain ⟨r', hrun⟩ := (uncached_configured hsize hfit cacheLimit).session hd hcalls
    (inSession_configured _ _ _ _ _ _ _)
  refine ⟨_, r', hrun, ?_⟩
  have htrace := cursorRun_trace hcalls (Nat.zero_le _)
  rwa [hpayload] at htrace

theorem random_access_refines_cursor_sample :
    ∃ reader, Opens Stored.deps Stored.sampleConfig Stored.sampleBufs reader ∧
      ∃ answers r', ([.seekToByte 6, .read 3, .seekToByte 1, .read 0, .read 4].mapM ReaderCall.run)
          (reader.configured 2 0 none) = .ok answers r' ∧
        CursorRun Stored.sampleBufs.flatten 0
          [.seekToByte 6, .read 3, .seekToByte 1, .read 0, .read 4] answers := by
  obtain ⟨reader, hopens, -, hcalls⟩ :=
    random_access_refines_cursor Stored.sample_withinLimits Stored.sample_codec
      (by decide) none (show 0 < 2 by decide) (by decide)
  exact ⟨reader, hopens, hcalls _ (by decide)⟩

/-! ### With a cache -/

/-- As long as every refill is safe, a reader with a
cache answers every call as the reader without one. -/
theorem cache_transparent_of_safe (hlimits : WithinLimits D (2 ^ 30) config bufs.flatten)
    (hcodec : Codec D config bufs.flatten) (hne : bufs.flatten ≠ []) {reader : PgzfReader D}
    (hopens : Opens D config bufs reader) (size capacity : Nat) (cacheLimit : Option Nat)
    {calls : List ReaderCall} (hcalls : ∀ call ∈ calls, call.inRange bufs.flatten.length)
    (hcached : Program.AllSteps ReaderCall.run SafeCall
      (reader.configured size capacity cacheLimit) calls)
    (huncached : Program.AllSteps ReaderCall.run SafeCall (reader.configured size 0 none) calls) :
    ∃ answers r' r'', (calls.mapM ReaderCall.run) (reader.configured size capacity cacheLimit) =
      .ok answers r' ∧
      (calls.mapM ReaderCall.run) (reader.configured size 0 none) = .ok answers r'' := by
  have hd := describes_written hlimits hcodec
  obtain rfl := hopens.unique (opens_written hlimits (by omega) hcodec.compresses hne)
  rw [← flatten_blocksOf hlimits.blockSize_pos bufs.flatten] at hcalls
  obtain ⟨r', hrun⟩ := session_eq_trace hd hcalls (inSession_configured _ _ _ _ _ _ _) hcached
  obtain ⟨r'', hrun'⟩ := session_eq_trace hd hcalls (inSession_configured _ _ _ _ _ _ _) huncached
  exact ⟨_, r', r'', hrun, hrun'⟩

def Stored.rewindConfig : PgzfConfig := ⟨1, 4, 0, none, none, 1000⟩

def Stored.rewindBufs : List Bytes := [[97, 98, 99, 100]]

theorem Stored.rewind_withinLimits : WithinLimits deps (2 ^ 30) rewindConfig rewindBufs.flatten :=
  ⟨by decide, by decide, by decide, by decide, by decide +kernel, by decide +kernel,
    by decide +kernel⟩

theorem Stored.rewind_codec : Codec deps rewindConfig rewindBufs.flatten :=
  codec_of_length_lt (by decide)

def Stored.againCalls : List ReaderCall :=
  [.read 1, .seekToByte 0, .read 1, .read 1, .read 1, .read 1, .seekToByte 1, .read 1, .read
    1, .read 1, .read 1]

/-- Of the first batch behind a seek the first block is cached, and behind the other seek there is
one that is cached as a whole. -/
theorem cache_transparent_of_safe_sample :
    ∃ reader, Opens Stored.deps Stored.rewindConfig Stored.rewindBufs reader ∧
      (∃ answers r' r'', (Stored.againCalls.mapM ReaderCall.run) (reader.configured 2 64 none) =
        .ok answers r' ∧
        (Stored.againCalls.mapM ReaderCall.run) (reader.configured 2 0 none) = .ok answers r'') ∧
      (∃ answers mid, ((Stored.againCalls.take 3).mapM ReaderCall.run)
        (reader.configured 2 64 none) = .ok answers mid ∧
        (mid.index.bind fun index => refillStart index mid) = some 1 ∧
          missing mid.blockCache 1 3 = [2]) ∧
      ∃ answers mid, ((Stored.againCalls.take 8).mapM ReaderCall.run)
        (reader.configured 2 64 none) = .ok answers mid ∧
        (mid.index.bind fun index => refillStart index mid) = some 2 ∧
          missing mid.blockCache 2 4 = [] := by
  have hopens := opens_written Stored.rewind_withinLimits (by omega) Stored.rewind_codec.compresses
    (by decide)
  refine ⟨_, hopens, ?_, Program.Post.exists_ok (by decide +kernel),
    Program.Post.exists_ok (by decide +kernel)⟩
  exact cache_transparent_of_safe Stored.rewind_withinLimits Stored.rewind_codec
    (by decide) hopens 2 64 none (by decide) (by decide +kernel) (by decide +kernel)

/-! ### A refill that is not safe -/

def Stored.rewindCalls : List ReaderCall :=
  [.seekToByte 2, .read 1, .seekToByte 1, .read 1, .read 1, .read 1, .read 1]

/-- Within the limits of the format the reader with the cache delivers the third block twice. -/
theorem cache_not_transparent :
    WithinLimits Stored.deps (2 ^ 30) Stored.rewindConfig Stored.rewindBufs.flatten ∧
      Codec Stored.deps Stored.rewindConfig Stored.rewindBufs.flatten ∧
      (∀ call ∈ Stored.rewindCalls, call.inRange Stored.rewindBufs.flatten.length) ∧
      ∃ reader, Opens Stored.deps Stored.rewindConfig Stored.rewindBufs reader ∧
        (∃ r', (Stored.rewindCalls.mapM ReaderCall.run) (reader.configured 2 64 none) =
          .ok [none, some [99], none, some [98], some [99], some [99], some [100]] r') ∧
        ∃ r', (Stored.rewindCalls.mapM ReaderCall.run) (reader.configured 2 0 none) =
          .ok [none, some [99], none, some [98], some [99], some [100], some []] r' := by
  have hopens := opens_written Stored.rewind_withinLimits (by omega) Stored.rewind_codec.compresses
    (by decide)
  refine ⟨Stored.rewind_withinLimits, Stored.rewind_codec, by decide, _, hopens, ?_, ?_⟩
  · exact Program.exists_of_outcome (by decide +kernel)
  · exact Program.exists_of_outcome (by decide +kernel)

end Pgzf
