import Pgzf.Elsewhere
import Pgzf.Reachable

/-!
# What `-d` writes

The reader of a decompression is moved once at most, by `-s`, and then only goes forward. So the
copy loop writes the window of the payload that was asked for, or it stops at a write that fails.
-/

namespace Pgzf

open Program PgzfReader PgzfWriter BlockCursor

variable {D : Deps} {file : Bytes} {index : PgzfIndex} {blocks : List Bytes} {world world' : World}
  {input output : Option Path}

/-! ### Going forward -/

/-- The reader has only gone forward, or it has been moved before its first refill. -/
structure Onward (file : Bytes) (index : PgzfIndex) (blocks : List Bytes) (r : PgzfReader D)
    (pos : Nat) : Prop where
  tracks : Tracks file index blocks r pos
  unlimited : r.readaheadMemoryLimit = none
  cached : (r.pendingSeek = none ∧ ∀ i, r.blockCache.lookup i ≠ none → i < r.nextBlockIndex) ∨
    ∀ i, r.blockCache.lookup i = none
  fits : blocks.length + r.readaheadSize < 2 ^ 64

theorem Onward.cleanRefill {r : PgzfReader D} {pos : Nat} (h : Onward file index blocks r pos) :
    CleanRefill index blocks r := by
  have hbelow : BelowLimit r := fun limit hlimit => absurd (h.unlimited.symm.trans hlimit) (by simp)
  rcases h.cached with ⟨hnone, hahead⟩ | hnone
  · exact cleanRefill_of_ahead index hnone h.tracks.readaheadSize hahead hbelow h.fits
  · intro start _ hlt
    have := h.fits
    exact ⟨hbelow, by omega, .inr (hnone _)⟩

theorem Onward.read (hd : Describes D file index blocks) {r : PgzfReader D} {pos : Nat}
    (h : Onward file index blocks r pos) {n : Nat} (hn : 0 < n) :
    ∃ r', PgzfReader.read n r = .ok (BlockCursor.read blocks pos n).1 r' ∧
      Onward file index blocks r' (BlockCursor.read blocks pos n).2 := by
  obtain ⟨r', hread, htracks, hframe⟩ := read_tracks hd h.tracks h.cleanRefill (Nat.ne_of_gt hn)
  refine ⟨r', hread, htracks, hframe.readaheadMemoryLimit.trans h.unlimited,
    .inl ⟨hframe.pendingSeek, fun i hi => ?_⟩, ?_⟩
  · rcases hframe.cached i hi with hlt | hcached
    · exact hlt
    · rcases h.cached with ⟨hnone, hahead⟩ | hnone
      · exact Nat.lt_of_lt_of_le (hahead i hcached) (hframe.forward hnone)
      · exact absurd (hnone i) hcached
  · rw [hframe.readaheadSize]
    exact h.fits

theorem onward_withReadahead {threads : Nat} (hfit : blocks.length + max threads 1 < 2 ^ 64) :
    Onward file index blocks ((fresh D file index).withReadahead threads) 0 := by
  have htracks := tracks_configured D file index blocks threads defaultBlockCacheCapacity none
  have hlookup := lookup_configured (fresh D file index) threads defaultBlockCacheCapacity none
  exact ⟨htracks, rfl, .inr hlookup, hfit⟩

theorem Onward.seekToByte {r : PgzfReader D} {pos target : Nat} (h : Onward file index blocks r pos)
    (hnone : ∀ i, r.blockCache.lookup i = none) (htarget : target ≤ blocks.flatten.length) :
    ∃ r', PgzfReader.seekToByte target r = .ok () r' ∧ Onward file index blocks r' target := by
  obtain ⟨r', hseek, htracks, hsize, hlimit, hcache⟩ := seekToByte_tracks h.tracks htarget
  refine ⟨r', hseek, htracks, hlimit.trans h.unlimited, .inr fun i => by rw [hcache, hnone], ?_⟩
  rw [hsize]
  exact h.fits

/-! ### The window that is wanted -/

/-- What is wanted of `data`, of which `done` bytes have been written before. -/
def window : Option Nat → Nat → Bytes → Bytes
  | some limit, done, data => data.take (limit - done)
  | none, _, data => data

theorem window_nil (limit : Option Nat) (done : Nat) : window limit done [] = [] := by
  cases limit with
  | none => rfl
  | some limit => exact List.take_nil

theorem window_of_wanted_none {limit : Option Nat} {done : Nat} (h : wanted limit done = none)
    (data : Bytes) :
    window limit done data = [] := by
  cases limit with
  | none => exact absurd h (by simp [wanted])
  | some limit =>
    have hzero : limit - done = 0 := by
      by_contra hne
      rw [wanted, if_pos (by omega)] at h
      exact absurd h (by simp)
    rw [window, hzero, List.take_zero]

theorem wanted_pos {limit : Option Nat} {done n : Nat} (h : wanted limit done = some n) :
    0 < n := by
  cases limit with
  | none =>
    obtain rfl := Option.some.inj h
    decide
  | some limit =>
    rw [wanted] at h
    split at h
    · obtain rfl := Option.some.inj h
      omega
    · exact absurd h (by simp)

theorem window_append {limit : Option Nat} {done n : Nat} (h : wanted limit done = some n)
    {out : Bytes} (hout : out.length ≤ n) (rest : Bytes) :
    window limit done (out ++ rest) = out ++ window limit (done + out.length) rest := by
  cases limit with
  | none => rfl
  | some limit =>
    rw [wanted] at h
    split at h
    · obtain rfl := Option.some.inj h
      rw [window, window, List.take_append, List.take_of_length_le (by omega), Nat.sub_sub]
    · exact absurd h (by simp)

/-! ### Operations -/

structure Feeds (world : World) (input : Option Path) (file : Bytes) : Prop where
  content : ∀ path, input = some path → world.files path = some file
  faults : world.inputFaults = []

theorem Feeds.onReader_ok (h : Feeds world input file) {α : Type} (exit : Fault → Exit)
    {m : Prog (PgzfReader D) α} {r r' : PgzfReader D} {a : α} (hin : ∃ p, r.inner = ⟨file, p, []⟩)
    (hin' : ∃ p, r'.inner = ⟨file, p, []⟩) (hrun : m r = .ok a r') :
    onReader input exit r m world = .ok (a, r') world := by
  obtain ⟨p, hin⟩ := hin
  obtain ⟨p', hin'⟩ := hin'
  have hattached : world.attached input r = r := by
    cases input with
    | none => rfl
    | some path =>
      rw [World.attached, World.content, h.content path rfl, h.faults, Option.getD_some]
      obtain ⟨s, rest⟩ := r
      obtain rfl : s = ⟨file, p, []⟩ := hin
      rfl
  have hconsumed : world.consumed input r'.inner = world := by
    cases input with
    | none => rfl
    | some path =>
      rw [World.consumed, hin', ← h.faults]
  rw [onReader, hattached, hrun]
  exact congrArg _ hconsumed

def World.written (world : World) : Option Path → Bytes
  | some path => world.content (some path)
  | none => world.stdout

/-- From one world to the next, `data` has been written, and nothing else has changed. -/
structure Wrote (world : World) (output : Option Path) (data : Bytes) (world' : World) : Prop where
  written : world'.written output = world.written output ++ data
  present : ∀ path, output = some path → (world.files path).isSome → (world'.files path).isSome
  inputFaults : world'.inputFaults = world.inputFaults
  outputFaults : world'.outputFaults <:+ world.outputFaults
  elsewhere : Elsewhere world output world'

theorem Wrote.refl (world : World) (output : Option Path) : Wrote world output [] world :=
  ⟨(List.append_nil _).symm, fun _ _ h => h, rfl, List.suffix_refl _, .refl world output⟩

theorem Wrote.trans {world₁ world₂ : World} {data data' : Bytes}
    (h : Wrote world output data world₁) (h' : Wrote world₁ output data' world₂) :
    Wrote world output (data ++ data') world₂ :=
  ⟨by rw [h'.written, h.written, List.append_assoc], fun path hpath hfile =>
    h'.present path hpath (h.present path hpath hfile), h'.inputFaults.trans h.inputFaults,
    h'.outputFaults.trans h.outputFaults, h.elsewhere.trans h'.elsewhere⟩

theorem Feeds.wrote (h : Feeds world input file)
    (hapart : ∀ path, input = some path → output ≠ some path) {data : Bytes}
    (hwrote : Wrote world output data world') : Feeds world' input file :=
  ⟨fun path hpath => (hwrote.elsewhere.files path (hapart path hpath)).trans (h.content path hpath),
    hwrote.inputFaults.trans h.faults⟩

theorem put_wrote {done : Nat}
    (hdone : ∀ path, output = some path → (world.written output).length = done) {mid : World}
    (hmid : world.Spends mid) (data : Bytes) :
    Wrote world output data (mid.put output done data) := by
  obtain ⟨faults, rfl, hsuffix⟩ := hmid
  cases output with
  | none =>
    exact ⟨rfl, fun _ hpath => absurd hpath (by simp), rfl, hsuffix, ⟨fun _ _ => rfl, rfl, rfl⟩⟩
  | some path =>
    refine ⟨?_, ?_, rfl, hsuffix, ⟨?_, rfl, rfl⟩⟩
    · have hlength := hdone path rfl
      subst hlength
      show (Function.update world.files path (some (overwrite _ _ data)) path).getD [] = _
      rw [Function.update_self, Option.getD_some]
      exact overwrite_end _ data
    · intro other hother _
      obtain rfl := Option.some.inj hother
      show (Function.update world.files path _ path).isSome
      rw [Function.update_self, Option.isSome_some]
    · intro other hne
      exact Function.update_of_ne (fun heq => hne (by rw [heq])) _ _

/-- A write goes to the end of the file, or fails as the
pattern says and leaves the front of its bytes there. -/
theorem writeOutput_wrote {done : Nat}
    (hdone : ∀ path, output = some path → (world.written output).length = done) (data : Bytes) :
    Post (fun _ world' => Wrote world output data world')
      (fun _ world' => Broken world.outputFaults ∧ ∃ part, part <+: data ∧
        Wrote world output part world')
      (writeOutput output done data world) := by
  apply (writeOutput_ends output done data world).mono
  · rintro _ _ ⟨mid, hmid, rfl⟩
    exact put_wrote hdone hmid data
  · rintro _ _ ⟨-, hbroken, mid, part, hmid, hpart, rfl⟩
    exact ⟨hbroken, part, hpart, put_wrote hdone hmid part⟩

/-! ### Copying -/

/-- The copy loop writes what is wanted of what is left, unless the turns do not last or a write
fails. By induction on the turns. -/
theorem copyOut_ends (hd : Describes D file index blocks) {limit : Option Nat}
    {turns done pos : Nat} {r : PgzfReader D} (h : Onward file index blocks r pos)
    (hfeeds : Feeds world input file) (hapart : ∀ path, input = some path → output ≠ some path)
    (hdone : ∀ path, output = some path → (world.written output).length = done) :
    Post (fun _ world' => Wrote world output (window limit done (blocks.flatten.drop pos)) world')
      (fun e _ => Broken world.outputFaults ∨ e = .diverges ∧
        turns ≤ (window limit done (blocks.flatten.drop pos)).length)
      (copyOut limit input output turns done r world) := by
  induction turns generalizing world done pos r with
  | zero => exact .inr ⟨rfl, Nat.zero_le _⟩
  | succ turns ih =>
    rw [copyOut]
    cases hwanted : wanted limit done with
    | none =>
      rw [window_of_wanted_none hwanted]
      exact .refl world output
    | some n =>
      obtain ⟨r', hread, hforward⟩ := h.read hd (wanted_pos hwanted)
      have hreader := hfeeds.onReader_ok .ofIo h.tracks.inner hforward.tracks.inner hread
      have hsplit := window_append hwanted (List.length_take_le n (segment blocks pos))
        (blocks.flatten.drop (pos + (BlockCursor.read blocks pos n).1.length))
      rw [show (segment blocks pos).take n = (BlockCursor.read blocks pos n).1 from rfl, ← read_snd,
        read_append_drop] at hsplit
      simp only [bind_ok hreader]
      by_cases hnil : (BlockCursor.read blocks pos n).1 = []
      · have hend := (read_fst_eq_nil_iff (wanted_pos hwanted)).mp hnil
        simp only [hnil, List.isEmpty_nil, if_true]
        rw [List.drop_eq_nil_of_le hend, window_nil]
        exact .refl world output
      · have hempty : (BlockCursor.read blocks pos n).1.isEmpty = false := by simpa using hnil
        have hpos := List.length_pos_iff.mpr hnil
        simp only [hempty, Bool.false_eq_true, if_false]
        rw [hsplit]
        apply ((writeOutput_wrote hdone _).mono (fun _ _ h => h) fun _ _ h => .inl h.1).bind
        intro _ mid hwrote
        apply (ih hforward (hfeeds.wrote hapart hwrote) ?_).mono
        · intro _ _ hrest
          exact hwrote.trans hrest
        · intro e _ hrest
          apply hrest.imp (fun hbroken => hbroken.of_suffix hwrote.outputFaults)
          intro hdiverges
          refine ⟨hdiverges.1, ?_⟩
          rw [List.length_append]
          have := hdiverges.2
          omega
        · intro path hpath
          rw [hwrote.written, List.length_append, hdone path hpath]

/-! ### A whole decompression -/

/-- `data` is what the output holds, or what has been printed, and nothing else has changed. -/
structure Extracted (world : World) (output : Option Path) (data : Bytes) (world' : World) :
    Prop where
  file : ∀ path, output = some path → world'.files path = some data
  printed : output = none → world'.stdout = world.stdout ++ data
  inputFaults : world'.inputFaults = world.inputFaults
  outputFaults : world'.outputFaults <:+ world.outputFaults
  elsewhere : Elsewhere world output world'

structure Created (world : World) (output : Option Path) (world' : World) : Prop where
  empty : ∀ path, output = some path → world'.files path = some []
  stdout : output = none → world'.stdout = world.stdout
  inputFaults : world'.inputFaults = world.inputFaults
  outputFaults : world'.outputFaults <:+ world.outputFaults
  elsewhere : Elsewhere world output world'

def World.Refuses (world : World) (output : Option Path) : Prop :=
  Broken world.outputFaults ∨ ∃ path, output = some path ∧ ¬ world.Creatable path

theorem not_refuses {path : Path} (hquiet : ¬ Broken world.outputFaults)
    (hcreatable : world.Creatable path) :
    ¬ world.Refuses (some path) := by
  rintro (hbroken | ⟨other, hother, hnot⟩)
  · exact hquiet hbroken
  · exact hnot (Option.some.inj hother ▸ hcreatable)

theorem broken_of_refuses (h : world.Refuses none) : Broken world.outputFaults :=
  h.resolve_right fun ⟨_, hpath, _⟩ => absurd hpath (by simp)

theorem createOutput_ends (output : Option Path) (world : World) :
    Post (fun _ world' => Created world output world') (fun _ _ => world.Refuses output)
      (createOutput output world) := by
  cases output with
  | none =>
    exact ⟨fun _ hpath => absurd hpath (by simp), fun _ => rfl, rfl, List.suffix_refl _,
      .refl world none⟩
  | some path =>
    apply (createFile_ends path world).mono
    · rintro _ _ ⟨-, mid, ⟨faults, rfl, hsuffix⟩, rfl⟩
      refine ⟨?_, fun hnone => absurd hnone (by simp), rfl, hsuffix, ⟨?_, rfl, rfl⟩⟩
      · intro other hother
        obtain rfl := Option.some.inj hother
        exact Function.update_self _ _ _
      · intro other hne
        exact Function.update_of_ne (fun heq => hne (by rw [heq])) _ _
    · exact fun _ _ h => h.2.2.imp_right fun hnot => ⟨path, rfl, hnot⟩

theorem Created.length (h : Created world output world') (path : Path)
    (hpath : output = some path) :
    (world'.written output).length = 0 := by
  subst hpath
  rw [World.written, World.content, h.empty path rfl]
  rfl

theorem Created.extracted {mid : World} (h : Created world output mid) {data : Bytes}
    (hwrote : Wrote mid output data world') :
    Extracted world output data world' := by
  refine ⟨fun path hpath => ?_, fun hout => ?_, hwrote.inputFaults.trans h.inputFaults,
    hwrote.outputFaults.trans h.outputFaults, h.elsewhere.trans hwrote.elsewhere⟩
  · have hwritten := hwrote.written
    have hpresent := hwrote.present path hpath (by rw [h.empty path hpath]; rfl)
    obtain ⟨content, hcontent⟩ := Option.isSome_iff_exists.mp hpresent
    subst hpath
    rw [World.written, World.written, World.content, World.content, h.empty path rfl, hcontent]
      at hwritten
    rw [hcontent]
    exact congrArg some hwritten
  · subst hout
    have hwritten := hwrote.written
    rw [World.written, World.written, h.stdout rfl] at hwritten
    exact hwritten

theorem Onward.seekFirst {r : PgzfReader D} (h : Onward file index blocks r 0)
    (hnone : ∀ i, r.blockCache.lookup i = none) (hfeeds : Feeds world input file)
    {seekByte : Option Nat} (hseek : seekByte.getD 0 ≤ blocks.flatten.length) :
    ∃ r', seekFirst input r seekByte world = .ok r' world ∧
      Onward file index blocks r' (seekByte.getD 0) := by
  cases seekByte with
  | none => exact ⟨r, rfl, h⟩
  | some offset =>
    obtain ⟨r', hrun, hforward⟩ := h.seekToByte hnone hseek
    have hreader := hfeeds.onReader_ok .ofPgzf h.tracks.inner hforward.tracks.inner hrun
    refine ⟨r', ?_, hforward⟩
    exact (bind_ok hreader).trans (pure_apply _ _)

def extract (seekByte limit : Option Nat) (payload : Bytes) : Bytes :=
  window limit 0 (payload.drop (seekByte.getD 0))

theorem decompressStream_ends (hd : Describes D file index blocks) {r : PgzfReader D}
    (h : Onward file index blocks r 0) (hnone : ∀ i, r.blockCache.lookup i = none)
    (hfeeds : Feeds world input file) (hapart : ∀ path, input = some path → output ≠ some path)
    {seekByte : Option Nat} (hseek : seekByte.getD 0 ≤ blocks.flatten.length) (limit : Option Nat)
    (turns : Nat) :
    Post (fun _ world' => Extracted world output (extract seekByte limit blocks.flatten) world')
      (fun e _ => world.Refuses output ∨ e = .diverges ∧
        turns ≤ (extract seekByte limit blocks.flatten).length)
      (decompressStream turns input r output seekByte limit world) := by
  obtain ⟨r', hrun, hforward⟩ := h.seekFirst hnone hfeeds hseek
  rw [decompressStream, bind_ok hrun]
  apply ((createOutput_ends output world).mono (fun _ _ h => h) fun _ _ hbroken =>
    .inl hbroken).bind
  intro _ mid hmid
  have hfeeds' : Feeds mid input file :=
    ⟨fun path hpath => (hmid.elsewhere.files path (hapart path hpath)).trans
      (hfeeds.content path hpath), hmid.inputFaults.trans hfeeds.faults⟩
  apply (copyOut_ends hd hforward hfeeds' hapart hmid.length).mono
  · exact fun _ _ hwrote => hmid.extracted hwrote
  · exact fun _ _ hrest => hrest.imp_left fun hbroken => .inl (hbroken.of_suffix hmid.outputFaults)

/-! ### Archives -/

variable (D) in
def Unpacks (file payload : Bytes) : Prop :=
  ∃ index blocks, PgzfReader.new D ⟨file, 0, []⟩ = .ok (fresh D file index) ⟨file, 0, []⟩ ∧
    Describes D file index blocks ∧ blocks.flatten = payload ∧ blocks.length < 2 ^ 63

theorem Written.unpacks {config : PgzfConfig} {calls : List WriteCall}
    (hw : Written D config calls file) (hne : calls.flatMap WriteCall.bytes ≠ []) :
    Unpacks D file (calls.flatMap WriteCall.bytes) := by
  have hlimits := hw.withinLimits
  have hnew := new_written hlimits (by decide) hne 0
  have hd : Describes D _ _ ((config.fitted (calls.flatMap WriteCall.bytes)).blocksOf
      [calls.flatMap WriteCall.bytes].flatten) :=
    describes_written (by rwa [List.flatten_singleton])
      (by rw [List.flatten_singleton]; exact hw.fitted.codec)
  rw [List.flatten_singleton, blocksOf_fitted hw.blockSize_pos] at hd
  rw [groupsOf_fitted hw.blockSize_pos] at hnew hd
  have hfile : fileBytes D (config.fitted (calls.flatMap WriteCall.bytes)).compressionLevel
      (config.groupsOf (calls.flatMap WriteCall.bytes)) = file := hw.file_eq.symm
  rw [hfile] at hnew hd
  obtain ⟨index, raws, -, -, hlen⟩ := Reachable.written hw ⟨_, _, hnew, .refl⟩
  exact ⟨_, _, hnew, hd, flatten_blocksOf hw.blockSize_pos _, hlen⟩

theorem openFile_apply {path : Path} (hfile : world.files path = some file)
    (hfaults : world.inputFaults = []) :
    openFile path world = .ok () world := by
  have htick : tickInput world = .ok () world := by rw [tickInput, hfaults]
  rw [openFile, bind_ok htick, bind_ok (get_apply world), hfile]
  rfl

theorem Feeds.newReader_eq {index : PgzfIndex} (h : Feeds world input file)
    (hcontent : world.content input = file)
    (hnew : PgzfReader.new D ⟨file, 0, []⟩ = .ok (fresh D file index) ⟨file, 0, []⟩) :
    newReader D input world = .ok (fresh D file index) world := by
  have hfaults : (if input.isSome then world.inputFaults else []) = [] := by rw [h.faults, ite_self]
  have hconsumed : world.consumed input ⟨file, 0, []⟩ = world := by
    cases input with
    | none => rfl
    | some path => rw [World.consumed, ← h.faults]
  rw [newReader, hcontent, hfaults, hnew]
  exact congrArg _ hconsumed

/-- A file that unpacks is decompressed to any other place: the window that was asked for is written
there, unless a write fails or the turns do not last. -/
theorem decompressFile_ends {payload : Bytes} (hunpacks : Unpacks D file payload) {path : Path}
    (hfile : world.files path = some file) (hfaults : world.inputFaults = [])
    (hapart : output ≠ some path) {seekByte : Option Nat} (hseek : seekByte.getD 0 ≤ payload.length)
    (limit : Option Nat) {threads : Nat} (hthreads : threads < 2 ^ 63) (turns : Nat) :
    Post (fun _ world' => Extracted world output (extract seekByte limit payload) world')
      (fun e _ => world.Refuses output ∨ e = .diverges ∧
        turns ≤ (extract seekByte limit payload).length)
      (decompressFile D turns path output seekByte limit threads world) := by
  obtain ⟨index, blocks, hnew, hd, rfl, hlen⟩ := hunpacks
  have hfeeds : Feeds world (some path) file :=
    ⟨fun other hother => by rw [← Option.some.inj hother, hfile], hfaults⟩
  have hcontent : world.content (some path) = file := by rw [World.content, hfile, Option.getD_some]
  rw [decompressFile, bind_ok (openFile_apply hfile hfaults),
    bind_ok (hfeeds.newReader_eq hcontent hnew)]
  apply decompressStream_ends hd _ _ hfeeds _ hseek limit turns
  · apply onward_withReadahead
    have hmax : max threads 1 < 2 ^ 63 := by omega
    omega
  · exact lookup_configured (fresh D file index) threads defaultBlockCacheCapacity none
  · intro other hother heq
    exact hapart (heq.trans hother.symm)

end Pgzf
