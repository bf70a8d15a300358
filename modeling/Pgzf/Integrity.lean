import Pgzf.CacheUse
import Pgzf.FailedRanges
import Pgzf.Fields

/-!
# Nothing but what a checksum vouches for

Any bytes may be given to a reader for a file, and its source may fail. What it holds and delivers
is still data that a CRC32 in the file vouches for, and it holds no more blocks than its settings
allow.
-/

namespace Pgzf

open PgzfReader Program Recency CacheHistory

variable {D : Deps} {file : Bytes} {r r' : PgzfReader D}

/-- The file has a deflate stream of the data in it, and behind it their CRC32 and a number that
limits their length. -/
def Vouched (D : Deps) (file data : Bytes) : Prop :=
  ∃ stream size, stream ++ u32Bytes (D.hash data) ++ u32Bytes size <:+: file ∧
    decompressBlock D stream (max size.toNat 1) = .ok data

def Genuine (D : Deps) (file data : Bytes) : Prop := data = [] ∨ Vouched D file data

/-! ### The decoders -/

theorem u32Bytes_readU32Le {bytes : Bytes} (hlen : bytes.length = 4) :
    u32Bytes (readU32Le bytes) = bytes := by
  rw [u32Bytes, readU32Le, List.take_of_length_le (Nat.le_of_eq hlen), UInt32.toNat_ofNat',
    ← LittleEndian.encode_mod]
  have hsame := LittleEndian.encode_decode bytes
  rw [hlen] at hsame
  rw [show (256 : Nat) ^ 4 = 2 ^ 32 from rfl, Nat.mod_mod, show (2 : Nat) ^ 32 = 256 ^ 4 from rfl,
    LittleEndian.encode_mod, hsame]

theorem slice_append_slice {buf : Bytes} {a b c : Nat} (hab : a ≤ b) (hbc : b ≤ c) :
    slice buf a b ++ slice buf b c = slice buf a c := by
  rw [slice, slice, slice]
  have hfront : (buf.take b).drop a = ((buf.take c).drop a).take (b - a) := by
    rw [List.take_drop, List.take_take, Nat.add_sub_cancel' hab, Nat.min_eq_left hbc]
  have hback : (buf.take c).drop b = ((buf.take c).drop a).drop (b - a) := by
    rw [List.drop_drop, Nat.add_sub_cancel' hab]
  rw [hfront, hback, List.take_append_drop]

theorem isInfix_slice (buf : Bytes) (a b : Nat) : slice buf a b <:+: buf :=
  (List.drop_suffix _ _).isInfix.trans (List.take_prefix _ _).isInfix

theorem length_slice {buf : Bytes} {a b : Nat} (hb : b ≤ buf.length) :
    (slice buf a b).length = b - a := by
  rw [slice, List.length_drop, List.length_take, Nat.min_eq_left hb]

theorem vouched_of_checked {stream crc isize data : Bytes} {n : Nat}
    (hfile : stream ++ crc ++ isize <:+: file) (hcrc : crc.length = 4) (hisize : isize.length = 4)
    (hn : n = max (readU32Le isize).toNat 1) (hdata : decompressBlock D stream n = .ok data)
    (hhash : D.hash data = readU32Le crc) : Vouched D file data := by
  refine ⟨stream, readU32Le isize, ?_, hn ▸ hdata⟩
  rwa [hhash, u32Bytes_readU32Le hcrc, u32Bytes_readU32Le hisize]

/-- What a raw block of the file decompresses to. -/
theorem genuine_of_raw {raw data : Bytes} {headerSize : Nat} (hraw : raw <:+: file)
    (h : decompressRawBlockWith D raw headerSize = .ok data) : Genuine D file data := by
  have htail : pgzfTailSize = 8 := rfl
  rw [decompressRawBlockWith] at h
  by_cases hshort : raw.length < pgzfTailSize + headerSize
  · rw [if_pos hshort] at h
    exact .inl (Except.ok.inj h).symm
  · rw [if_neg hshort] at h
    simp only at h
    split at h
    · exact .inl (Except.ok.inj h).symm
    · rename_i hsize
      split at h
      · exact absurd h (by simp)
      · rename_i output hout
        by_cases hhash : D.hash output =
          readU32Le (slice raw (raw.length - pgzfTailSize) (raw.length - pgzfTailSize + 4))
        · rw [if_neg (not_not_intro hhash)] at h
          obtain rfl := Except.ok.inj h
          have hjoined : slice raw headerSize (raw.length - pgzfTailSize) ++
              slice raw (raw.length - pgzfTailSize) (raw.length - pgzfTailSize + 4) ++
                slice raw (raw.length - pgzfTailSize + 4)
                    (raw.length - pgzfTailSize + 8) <:+: file := by
            rw [slice_append_slice (by omega) (by omega), slice_append_slice (by omega) (by omega)]
            exact (isInfix_slice raw _ _).trans hraw
          have hcrc :
              (slice raw (raw.length - pgzfTailSize) (raw.length - pgzfTailSize + 4)).length =
              raw.length - pgzfTailSize + 4 - (raw.length - pgzfTailSize) := length_slice (by omega)
          have hisize :
              (slice raw (raw.length - pgzfTailSize + 4) (raw.length - pgzfTailSize + 8)).length =
              raw.length - pgzfTailSize + 8 - (raw.length - pgzfTailSize + 4) :=
                length_slice (by omega)
          refine .inr (vouched_of_checked hjoined (by omega) (by omega) ?_ hout hhash)
          exact (Nat.max_eq_left (Nat.one_le_iff_ne_zero.mpr hsize)).symm
        · rw [if_pos hhash] at h
          exact absurd h (by simp)

/-! ### Sources that fail -/

/-- A read that succeeds returns the next bytes; one
that fails has come to the end, or is made to fail. -/
theorem readExact_at (s : Source) (n : Nat) :
    Post (fun out s' => s.Later s' ∧ n ≤ s.bytes.length - s.pos ∧
      out = (s.bytes.drop s.pos).take n ∧
        s'.pos = s.pos + n)
      (fun fault s' => s.Later s' ∧ (s.bytes.length - s.pos < n ∨
        ∃ e, fault = .error (.io e) ∧ some e ∈ s.faults)) (Source.readExact n s) := by
  have htick : Post (fun _ s' => s.Later s' ∧ s'.pos = s.pos)
      (fun fault s' => s.Later s' ∧ (s.bytes.length - s.pos < n ∨ ∃ e, fault = .error (.io e) ∧
        some e ∈ s.faults))
      (Source.tick s) := by
    obtain ⟨bytes, p, faults⟩ := s
    cases faults with
    | nil => exact ⟨.refl _, rfl⟩
    | cons fault rest =>
      cases fault with
      | none => exact ⟨⟨rfl, List.suffix_cons _ _⟩, rfl⟩
      | some e => exact ⟨⟨rfl, List.suffix_cons _ _⟩, .inr ⟨e, rfl, List.mem_cons_self⟩⟩
  apply htick.bind
  rintro - mid ⟨hlater, hpos⟩
  rw [bind_ok (get_apply _), hlater.bytes_eq, hpos]
  refine Post.ite (fun hroom => ?_) fun hshort => ?_
  · rw [bind_ok (set_apply _ _)]
    exact ⟨⟨rfl, hlater.faults_suffix⟩, hroom, rfl, rfl⟩
  · rw [bind_ok (set_apply _ _)]
    exact ⟨⟨rfl, hlater.faults_suffix⟩, .inl (Nat.not_le.mp hshort)⟩

theorem readExact_chunk (s : Source) (n : Nat) :
    Post (fun out s' => s.Later s' ∧ out <+: s.bytes.drop s.pos ∧ s'.pos = s.pos + out.length ∧
      out.length = n)
      (fun _ s' => s.Later s') (Source.readExact n s) := by
  apply (readExact_at s n).mono _ fun _ _ h => h.1
  rintro _ s' ⟨hlater, hroom, rfl, hpos⟩
  have hlen : ((s.bytes.drop s.pos).take n).length = n := by
    rw [List.length_take, List.length_drop, Nat.min_eq_left hroom]
  exact ⟨hlater, List.take_prefix _ _, hlen.symm ▸ hpos, hlen⟩

theorem append_prefix_drop {bytes a b : Bytes} {p : Nat} (ha : a <+: bytes.drop p)
    (hb : b <+: bytes.drop (p + a.length)) :
    a ++ b <+: bytes.drop p := by
  obtain ⟨rest, hrest⟩ := ha
  rw [← List.drop_drop, ← hrest, List.drop_left] at hb
  rw [← hrest]
  exact (List.prefix_append_right_inj a).mpr hb

def Walked (r r' : PgzfReader D) : Prop :=
  ∃ s next, r.inner.Later s ∧ r' = { r with inner := s, nextBlockIndex := next }

theorem Walked.refl (r : PgzfReader D) : Walked r r := ⟨r.inner, r.nextBlockIndex, .refl _, rfl⟩

theorem Walked.trans {r₁ r₂ r₃ : PgzfReader D} (h : Walked r₁ r₂) (h' : Walked r₂ r₃) :
    Walked r₁ r₃ := by
  obtain ⟨s, next, hs, rfl⟩ := h
  obtain ⟨s', next', hs', rfl⟩ := h'
  exact ⟨s', next', hs.trans hs', rfl⟩

theorem Walked.bytes_eq (h : Walked r r') : r'.inner.bytes = r.inner.bytes := by
  obtain ⟨s, next, hs, rfl⟩ := h
  exact hs.bytes_eq

theorem Walked.faults_suffix (h : Walked r r') : r'.inner.faults <:+ r.inner.faults := by
  obtain ⟨s, next, hs, rfl⟩ := h
  exact hs.faults_suffix

theorem Walked.readahead_eq (h : Walked r r') : r'.readahead = r.readahead := by
  obtain ⟨s, next, -, rfl⟩ := h
  rfl

theorem onInner_seekStart_at (r : PgzfReader D) (offset : Nat) :
    Post (fun _ r' => Walked r r' ∧ r'.inner.pos = offset) (fun _ r' => Walked r r')
      (onInner (Source.seekStart offset) r) := by
  have hseek : Post (fun _ s => r.inner.Later s ∧ s.pos = offset) (fun _ s => r.inner.Later s)
      (Source.seekStart offset r.inner) :=
    (tick_later r.inner).bind fun _ _ h => ⟨⟨h.bytes_eq, h.faults_suffix⟩, rfl⟩
  exact hseek.onPart (fun _ s hs => ⟨⟨s, r.nextBlockIndex, hs.1, rfl⟩, hs.2⟩)
    fun _ s hs => ⟨s, r.nextBlockIndex, hs, rfl⟩

theorem onInner_seekStart_walked (r : PgzfReader D) (offset : Nat) :
    Post (fun _ r' => Walked r r') (fun _ r' => Walked r r')
      (onInner (Source.seekStart offset) r) :=
  (onInner_seekStart_at r offset).mono (fun _ _ h => h.1) fun _ _ h => h

theorem onInner_readExact_at {mid : PgzfReader D} (hmid : Walked r mid) (n : Nat) :
    Post (fun out r' => Walked r r' ∧ n ≤ r.inner.bytes.length - mid.inner.pos ∧
        out = (r.inner.bytes.drop mid.inner.pos).take n ∧ r'.inner.pos = mid.inner.pos + n ∧
          r'.nextBlockIndex = mid.nextBlockIndex)
      (fun fault r' => Walked r r' ∧ (r.inner.bytes.length - mid.inner.pos < n ∨
        ∃ e, fault = .error (.io e) ∧ some e ∈ r.inner.faults))
          (onInner (Source.readExact n) mid) := by
  have hwalked : ∀ s, mid.inner.Later s → Walked r { mid with inner := s } := fun s hs =>
    hmid.trans ⟨s, mid.nextBlockIndex, hs, rfl⟩
  have hfaults : ∀ e, some e ∈ mid.inner.faults → some e ∈ r.inner.faults :=
    fun e he => hmid.faults_suffix.mem he
  have hread := readExact_at mid.inner n
  rw [hmid.bytes_eq] at hread
  refine hread.onPart ?_ ?_
  · rintro out s ⟨hs, hroom, hout, hpos⟩
    exact ⟨hwalked s hs, hroom, hout, hpos, rfl⟩
  · rintro fault s ⟨hs, hshort | ⟨e, he, hmem⟩⟩
    · exact ⟨hwalked s hs, .inl hshort⟩
    · exact ⟨hwalked s hs, .inr ⟨e, he, hfaults e hmem⟩⟩

def Cut (faults : List (Option IoError)) : Prop := ∃ e, some e ∈ faults ∧ e.kind = .unexpectedEof

theorem Cut.of_suffix {faults faults' : List (Option IoError)} (h : Cut faults')
    (hsuffix : faults' <:+ faults) :
    Cut faults :=
  h.imp fun _ he => he.imp_left fun hmem => hsuffix.mem hmem

/-- A raw read finds the whole member where the source stands, or what it takes for the end. -/
theorem readOneRawBlock_at (r : PgzfReader D) :
    Post (fun found r' => Walked r r' ∧ match found with
        | none => EndsAt r.inner.bytes r.inner.pos ∨ Cut r.inner.faults
        | some block => WholeAt r.inner.bytes r.inner.pos ∧
          block.raw = (r.inner.bytes.drop r.inner.pos).take (zcAt r.inner.bytes r.inner.pos) ∧
          block.headerSize = headerSizeAt r.inner.bytes r.inner.pos ∧
          block.blockType = (tagsAt r.inner.bytes r.inner.pos).blockType ∧
          r'.inner.pos = r.inner.pos + zcAt r.inner.bytes r.inner.pos ∧
          r'.nextBlockIndex = if block.blockType = .idx then r.nextBlockIndex
            else r.nextBlockIndex + 1)
      (fun _ r' => Walked r r') (PgzfReader.readOneRawBlock r) := by
  rw [PgzfReader.readOneRawBlock]
  have hheader := onInner_readExact_at (.refl r) gzipFixedHeaderSize
  generalize hfile : r.inner.bytes = file at *
  generalize hp : r.inner.pos = p at *
  refine Post.bind (Q := fun found mid => Walked r mid ∧
    ((∃ e, found = .error e ∧
        (file.length - p < gzipFixedHeaderSize ∨ ∃ e', e = .io e' ∧ some e' ∈ r.inner.faults)) ∨
      found = .ok ((file.drop p).take gzipFixedHeaderSize) ∧ gzipFixedHeaderSize ≤ file.length - p ∧
        mid.inner.pos = p + gzipFixedHeaderSize ∧ mid.nextBlockIndex = r.nextBlockIndex)) ?_ ?_
  · refine (Prog.post_attempt hheader (fun _ _ h =>
      ⟨h.1, .inr ⟨congrArg _ h.2.2.1, h.2.1, h.2.2.2⟩⟩) ?_).mono (fun _ _ h => h) fun _ _ h => h.1
    rintro e mid ⟨hmid, hshort | ⟨e', he, hmem⟩⟩
    · exact ⟨hmid, .inl ⟨e, rfl, .inl hshort⟩⟩
    · exact ⟨hmid, .inl ⟨e, rfl, .inr ⟨e', Fault.error.inj he, hmem⟩⟩⟩
  rintro _ mid ⟨hmid, ⟨e, rfl, hfound⟩ | ⟨rfl, hbase, hpos, hnext⟩⟩
  case inl =>
    cases e with
    | io e =>
      refine Post.ite (fun heof => ⟨hmid, ?_⟩) fun _ => hmid
      rcases hfound with hshort | ⟨e', he, hmem⟩
      · exact .inl (.inl hshort)
      · exact .inr ⟨e', hmem, PgzfError.io.inj he ▸ heof⟩
    | _ => exact hmid
  case inr =>
    have hxlen := onInner_readExact_at hmid 2
    rw [hpos, hfile] at hxlen
    refine (hxlen.mono (fun _ _ h => h) fun _ _ h => h.1).bind ?_
    rintro xlenBuf r₁ ⟨h₁, hroom₁, rfl, hpos₁, hnext₁⟩
    have hextra := onInner_readExact_at h₁ (xlenAt file p)
    rw [hpos₁, hfile] at hextra
    refine (hextra.mono (fun _ _ h => h) fun _ _ h => h.1).bind ?_
    rintro extra r₂ ⟨h₂, hroom₂, rfl, hpos₂, hnext₂⟩
    rw [bind_ok (get_apply _)]
    have hfixed : gzipFixedHeaderSize = 10 := rfl
    have hthere : HeaderThere file p := by
      rw [HeaderThere, headerSizeAt]
      omega
    have hcounted : ∀ next, Walked r { r₂ with nextBlockIndex := next } := fun next =>
      h₂.trans ⟨r₂.inner, next, .refl _, rfl⟩
    have htags : rawTags ((file.drop (p + gzipFixedHeaderSize + 2)).take (xlenAt file p)) =
      tagsAt file p := rfl
    have hpieces := take_pieces file p (xlenAt file p)
    rw [htags, counted_apply]
    generalize hnext₃ : (if (tagsAt file p).blockType = .idx then r₂.nextBlockIndex
      else r₂.nextBlockIndex + 1) = next
    refine Post.ite (fun hzero => ⟨hcounted next, .inl (.inr ⟨hthere, UInt32.toNat_inj.mpr hzero⟩)⟩)
      fun _ => ?_
    refine Post.ite (fun _ => hcounted next) fun hlarge =>
      Post.ite (fun _ => hcounted next) fun hheader => ?_
    have hrest :=
      onInner_readExact_at (hcounted next) ((tagsAt file p).zc.toNat - headerSizeAt file p)
    rw [hpos₂, hfile] at hrest
    refine (hrest.mono (fun _ _ h => h) fun _ _ h => h.1).bind ?_
    rintro rest r₃ ⟨h₃, hroom₃, rfl, hpos₃, hnext₄⟩
    have hzc : (tagsAt file p).zc.toNat = zcAt file p := rfl
    have hsize : headerSizeAt file p = gzipFixedHeaderSize + 2 + xlenAt file p := rfl
    have hwhole : headerSizeAt file p ≤ (tagsAt file p).zc.toNat := Nat.not_lt.mp hheader
    rw [hzc] at hroom₃ hpos₃ hlarge hwhole ⊢
    refine ⟨h₃, ⟨by omega, by omega, by omega⟩, ?_, rfl, rfl, by omega, ?_⟩
    · simp only [hpieces, hsize]
      exact congrArg (fun size => (file.drop p).take size) (by omega)
    · rw [hnext₄, ← hnext₃, hnext₂, hnext₁, hnext]

theorem readOneRawBlock_walked (r : PgzfReader D) :
    Post (fun found r' => Walked r r' ∧ ∀ block, found = some block → block.raw <:+: r.inner.bytes)
      (fun _ r' => Walked r r')
      (PgzfReader.readOneRawBlock r) := by
  apply (readOneRawBlock_at r).mono _ fun _ _ h => h
  rintro found r' ⟨hwalked, hfound⟩
  refine ⟨hwalked, fun block hblock => ?_⟩
  subst hblock
  rw [hfound.2.1]
  exact (List.take_prefix _ _).isInfix.trans (List.drop_suffix _ _).isInfix

/-- What the sequential decoder finds in the file. -/
theorem readPgzfBlock_genuine (s : Source) :
    Post (fun found s' => s.Later s' ∧ ∀ data blockType zc, found = some (data, blockType, zc) →
      Genuine D s.bytes data)
      (fun _ s' => s.Later s') (readPgzfBlock D s) := by
  have hread : ∀ {mid : Source}, s.Later mid → ∀ n,
      Post (fun _ s' => s.Later s') (fun _ s' => s.Later s') (Source.readExact n mid) :=
    fun h n => (readExact_later _ n).mono (fun _ _ h' => h.trans h') fun _ _ h' => h.trans h'
  have hexcept : ∀ {α : Type} {mid : Source}, s.Later mid → ∀ result : Except PgzfError α,
      Post (fun a s' => result = .ok a ∧ s' = mid) (fun _ s' => s.Later s')
          (Prog.ofExcept result mid) :=
    fun h result => (Prog.post_ofExcept result h).mono (fun _ _ h' => h') fun _ _ h' => h'.2
  rw [readPgzfBlock]
  refine Post.bind (Q := fun _ mid => s.Later mid) ?_ ?_
  · exact Prog.post_attempt (hread (.refl s) _) (fun _ _ h => h) fun _ _ h => h
  intro found mid hmid
  cases found with
  | error e =>
    cases e with
    | io e =>
      exact Post.ite (fun _ => ⟨hmid, fun _ _ _ hsome => absurd hsome (by simp)⟩) fun _ => hmid
    | _ => exact hmid
  | ok headerBuf =>
    refine (hexcept hmid _).bind ?_
    rintro ⟨flg, xfl⟩ _ ⟨-, rfl⟩
    refine (hread hmid 2).bind fun xlenBuf s₁ h₁ => (hread h₁ _).bind fun extra s₂ h₂ =>
      (hexcept h₂ _).bind ?_
    rintro field _ ⟨-, rfl⟩
    refine Post.ite (fun _ => h₂) fun _ =>
      Post.bind ((readExact_chunk _ _).mono (fun _ _ h => h) fun _ _ h => h₂.trans h) ?_
    rintro stream s₃ ⟨h₃, hstream, hpos₃, -⟩
    refine Post.bind ((readExact_chunk s₃ _).mono (fun _ _ h => h) fun _ _ h =>
      (h₂.trans h₃).trans h) ?_
    rintro trailer s₄ ⟨h₄, htrailer, -, hlen⟩
    have hlast : s.Later s₄ := (h₂.trans h₃).trans h₄
    refine Post.ite (fun _ => ⟨hlast, ?_⟩) fun _ => (hexcept hlast _).bind ?_
    · rintro data ty zc hsome
      obtain ⟨rfl, -⟩ := Prod.mk.inj (Option.some.inj hsome)
      exact .inl rfl
    rintro output _ ⟨houtput, rfl⟩
    refine Post.ite (fun _ => hlast) fun hhash => ⟨hlast, ?_⟩
    rintro data ty zc hsome
    obtain ⟨rfl, -⟩ := Prod.mk.inj (Option.some.inj hsome)
    have htail : trailer.length = 8 := hlen
    have hjoined : stream ++ trailer <:+: s.bytes := by
      rw [h₃.bytes_eq, hpos₃] at htrailer
      have hboth := append_prefix_drop hstream htrailer
      rw [h₂.bytes_eq] at hboth
      exact hboth.isInfix.trans (List.drop_suffix _ _).isInfix
    have hsplit : stream ++ slice trailer 0 4 ++ slice trailer 4 8 <:+: s.bytes := by
      rw [List.append_assoc, slice_append_slice (by decide) (by decide), slice, List.drop_zero,
        List.take_of_length_le (Nat.le_of_eq htail)]
      exact hjoined
    exact .inr (vouched_of_checked hsplit (length_slice (by omega))
      (length_slice (by omega)) rfl houtput (not_not.mp hhash))

/-! ### The cache -/

/-- All that has been stored since the limits were set is genuine. -/
def FilledWith (D : Deps) (file : Bytes) (cache : BlockCache D) : Prop :=
  ∃ limit history entries, Recent cache.capacity limit history cache entries ∧
    ∀ k data answer, (CacheCall.insert k data, answer) ∈ history → Genuine D file data

theorem mem_of_lastInserted {k : Nat} {data : Bytes} {history : CacheHistory}
    (h : lastInserted k history = some data) :
    ∃ answer, (CacheCall.insert k data, answer) ∈ history := by
  induction history with
  | nil => exact absurd h (by simp [lastInserted])
  | cons first rest ih =>
    obtain ⟨call, answer⟩ := first
    cases call with
    | get j =>
      obtain ⟨answer', hmem⟩ := ih h
      exact ⟨answer', List.mem_cons_of_mem _ hmem⟩
    | insert j data' =>
      rw [lastInserted] at h
      split at h
      · rename_i hkey
        obtain rfl := Option.some.inj h
        exact ⟨answer, hkey ▸ List.mem_cons_self⟩
      · obtain ⟨answer', hmem⟩ := ih h
        exact ⟨answer', List.mem_cons_of_mem _ hmem⟩

section Cache

variable {cache : BlockCache D}

theorem filledWith_limited (D : Deps) (file : Bytes) (capacity : Nat) (limit : Option Nat) :
    FilledWith D file (BlockCache.limited D capacity limit) := by
  have hrecent := recent_limited D capacity limit
  refine ⟨limit, [], [], ?_, fun k data answer hmem => absurd hmem List.not_mem_nil⟩
  rwa [hrecent.contents.capacity_eq]

theorem FilledWith.step (h : FilledWith D file cache) (call : CacheCall)
    (hcall : ∀ k data, call = .insert k data → Genuine D file data) :
    FilledWith D file (call.run cache).2 := by
  obtain ⟨limit, history, entries, hrecent, hgenuine⟩ := h
  obtain ⟨entries', hnext⟩ := hrecent.step call
  refine ⟨limit, _, entries', hnext.contents.capacity_eq.symm ▸ hnext, ?_⟩
  intro k data answer hmem
  rcases List.mem_cons.mp hmem with heq | hmem
  · exact hcall k data (Prod.mk.inj heq).1.symm
  · exact hgenuine k data answer hmem

theorem FilledWith.get (h : FilledWith D file cache) (k : Nat) :
    FilledWith D file (cache.get k).2 :=
  h.step (.get k) fun _ _ hcall => absurd hcall (by simp)

theorem FilledWith.insert (h : FilledWith D file cache) (k : Nat) {data : Bytes}
    (hdata : Genuine D file data) :
    FilledWith D file (cache.insert k data) := by
  refine h.step (.insert k data) fun j data' hcall => ?_
  obtain ⟨-, rfl⟩ := CacheCall.insert.inj hcall
  exact hdata

theorem FilledWith.cacheLookups (batch : List Nat) (h : FilledWith D file cache) :
    FilledWith D file (PgzfReader.cacheLookups batch cache).2 := by
  induction batch generalizing cache with
  | nil => exact h
  | cons i rest ih => exact ih (h.get i)

theorem FilledWith.lookup (h : FilledWith D file cache) {k : Nat} {data : Bytes}
    (hlookup : cache.lookup k = some data) :
    Genuine D file data := by
  obtain ⟨limit, history, entries, hrecent, hgenuine⟩ := h
  rw [BlockCache.lookup, hrecent.get_eq] at hlookup
  split at hlookup
  · obtain ⟨answer, hmem⟩ := mem_of_lastInserted hlookup
    exact hgenuine k data answer hmem
  · exact absurd hlookup (by simp)

theorem FilledWith.len_le (h : FilledWith D file cache) : cache.len ≤ cache.capacity := by
  obtain ⟨limit, history, entries, hrecent, -⟩ := h
  exact hrecent.contents.len_eq.trans_le hrecent.length_le

theorem FilledWith.memoryUsage_le (h : FilledWith D file cache) {bound : Nat}
    (hbound : ∀ data, Genuine D file data → data.length ≤ bound) :
    cache.memoryUsage ≤ cache.capacity * bound := by
  obtain ⟨limit, history, entries, hrecent, hgenuine⟩ := h
  have hlengths : ∀ n ∈ entries.map fun entry => entry.2.data.length, n ≤ bound := by
    intro n hn
    obtain ⟨entry, hentry, rfl⟩ := List.mem_map.mp hn
    obtain ⟨answer, hmem⟩ := mem_of_lastInserted (hrecent.data entry hentry).1
    exact hbound _ (hgenuine _ _ answer hmem)
  have hsum : (entries.map fun entry => entry.2.data.length).sum ≤ entries.length * bound := by
    rw [← List.length_map fun entry : Nat × CacheEntry => entry.2.data.length]
    exact List.sum_le_card_nsmul _ bound hlengths
  rw [hrecent.isLru.memory, hrecent.contents.entryList_eq]
  exact hsum.trans (Nat.mul_le_mul_right bound hrecent.length_le)

end Cache

/-! ### What a reader holds -/

/-- All data the reader holds are genuine, and there are at most `room` blocks in its queue. -/
structure Trusted (file : Bytes) (most room : Nat) (r : PgzfReader D) : Prop where
  bytes_eq : r.inner.bytes = file
  current : Genuine D file r.currentBlock
  queued : ∀ data ∈ r.readahead, Genuine D file data
  cache : FilledWith D file r.blockCache
  size_le : r.readaheadSize ≤ most
  length_le : r.readahead.length ≤ room

variable {most room : Nat}

theorem genuine_nil (D : Deps) (file : Bytes) : Genuine D file [] := .inl rfl

theorem Trusted.widen (h : Trusted file most room r) {more : Nat} (hroom : room ≤ more) :
    Trusted file most more r :=
  ⟨h.bytes_eq, h.current, h.queued, h.cache, h.size_le, h.length_le.trans hroom⟩

theorem Trusted.withReadahead (h : Trusted file most room r) {size more : Nat}
    (hsize : max size 1 ≤ more) :
    Trusted file more room (r.withReadahead size) :=
  ⟨h.bytes_eq, h.current, h.queued, h.cache, hsize, h.length_le⟩

theorem Trusted.of_walked (h : Trusted file most room r) (hwalked : Walked r r') :
    Trusted file most room r' := by
  have hbytes := hwalked.bytes_eq
  obtain ⟨s, next, -, rfl⟩ := hwalked
  exact ⟨hbytes.trans h.bytes_eq, h.current, h.queued, h.cache, h.size_le, h.length_le⟩

theorem Trusted.seekStart (h : Trusted file most room r) (offset : Nat) :
    Stays (Trusted file most room) (onInner (Source.seekStart offset) r) :=
  (onInner_seekStart_walked r offset).mono (fun _ _ h' => h.of_walked h') fun _ _ h' =>
    h.of_walked h'

/-! ### Raw reads -/

theorem walkInvariant_of_walked {P : PgzfReader D → Prop}
    (hwalked : ∀ {r r'}, P r → Walked r r' → P r') (hbytes : ∀ {r}, P r → r.inner.bytes = file) :
    WalkInvariant P fun raw _ => raw <:+: file where
  raw {r} h := (readOneRawBlock_walked r).mono
    (fun _ _ h' => ⟨hwalked h h'.1, fun block hblock _ => hbytes h ▸ h'.2 block hblock⟩)
      fun _ _ h' => hwalked h h'
  seekStart {r} offset h :=
    (onInner_seekStart_walked r offset).mono (fun _ _ h' => hwalked h h') fun _ _ h' => hwalked h h'
  counted {r} next h := hwalked h ⟨r.inner, next, .refl _, rfl⟩

/-! ### Refills -/

theorem genuine_decompressAll {allRaw : List (Nat × Bytes × Nat)} {datas : List (Nat × Bytes)}
    (hraw : ∀ entry ∈ allRaw, entry.2.1 <:+: file) (h : decompressAll D allRaw = .ok datas) :
    ∀ entry ∈ datas, Genuine D file entry.2 := by
  intro entry hentry
  obtain ⟨⟨i, raw, headerSize⟩, hmem, hdata⟩ := mem_of_mapM_except_ok h entry hentry
  simp only at hdata
  split at hdata
  · rename_i data hok
    obtain rfl := Except.ok.inj hdata
    exact genuine_of_raw (hraw _ hmem) hok
  · exact absurd hdata (by simp)

def AllGenuine (D : Deps) (file : Bytes) (results : List (Option Bytes)) : Prop :=
  ∀ data, some data ∈ results → Genuine D file data

theorem Trusted.storeBlocks (h : Trusted file most room r) (start : Nat)
    {datas : List (Nat × Bytes)} (hdatas : ∀ entry ∈ datas, Genuine D file entry.2)
    {results : List (Option Bytes)} (hresults : AllGenuine D file results) :
    Post (fun results' r' => Trusted file most room r' ∧ r'.readahead = r.readahead ∧
      results'.length = results.length ∧
      AllGenuine D file results') (fun _ r' => Trusted file most room r')
        (PgzfReader.storeBlocks start datas results r) := by
  induction datas generalizing r results with
  | nil => exact ⟨h, rfl, rfl, hresults⟩
  | cons entry rest ih =>
    obtain ⟨i, data⟩ := entry
    have hdata : Genuine D file data := hdatas _ List.mem_cons_self
    rw [PgzfReader.storeBlocks, bind_ok (modify_apply _ _)]
    have hstored : Trusted file most room { r with blockCache := r.blockCache.insert i data } :=
      ⟨h.bytes_eq, h.current, h.queued, h.cache.insert i hdata, h.size_le, h.length_le⟩
    have hset : AllGenuine D file (results.set (i - start) (some data)) := by
      intro data' hmem
      rcases List.mem_or_eq_of_mem_set hmem with hmem | heq
      · exact hresults data' hmem
      · exact Option.some.inj heq ▸ hdata
    refine Post.ite (fun _ => hstored) fun _ =>
      (ih hstored (fun e he => hdatas e (List.mem_cons_of_mem _ he)) hset).mono ?_ fun _ _ h' => h'
    rintro results' r' ⟨htrusted, hqueue, hlen, hall⟩
    exact ⟨htrusted, hqueue, hlen.trans (List.length_set ..), hall⟩

theorem Trusted.assemble (h : Trusted file most room r) (hempty : r.readahead = [])
    (index : PgzfIndex) (stop : Nat) {results : List (Option Bytes)}
    (hresults : AllGenuine D file results) {full : Nat} (hlen : results.length ≤ full)
    (hitEof : Bool) :
    Post (fun _ r' => Trusted file most full r') (fun _ r' => Trusted file most room r')
      (Pgzf.assemble index stop results hitEof r) := by
  have hqueued :
      Trusted file most full { r with readahead := r.readahead ++ results.filterMap id } := by
    refine ⟨h.bytes_eq, h.current, ?_, h.cache, h.size_le, ?_⟩
    · intro data hmem
      obtain ⟨found, hfound, rfl⟩ :=
        List.mem_filterMap.mp ((List.mem_append.mp hmem).resolve_left (by simp [hempty]))
      exact hresults _ hfound
    · rw [hempty, List.nil_append]
      exact (List.length_filterMap_le _ _).trans hlen
  rw [Pgzf.assemble, bind_ok (modify_apply _ _), bind_ok (get_apply _)]
  refine Post.ite (fun _ => ?_) fun _ => hqueued
  exact ⟨hqueued.bytes_eq, hqueued.current, hqueued.queued, hqueued.cache, hqueued.size_le,
    hqueued.length_le⟩

theorem Trusted.fetchBatch (h : Trusted file most room r) (hempty : r.readahead = [])
    (index : PgzfIndex) {start stop full : Nat} (hlen : stop - start ≤ full) :
    Post (fun _ r' => Trusted file most full r') (fun _ r' => Trusted file most room r')
      (PgzfReader.fetchBatch index start stop r) := by
  have hlooked : FilledWith D file (lookedUp r.blockCache start stop) :=
    (h.cache.cacheLookups _).cacheLookups _
  have hfound : AllGenuine D file ((List.range' start (stop - start)).map r.blockCache.lookup) := by
    intro data hmem
    obtain ⟨i, -, hlookup⟩ := List.mem_map.mp hmem
    exact h.cache.lookup hlookup
  have hcount : ((List.range' start (stop - start)).map r.blockCache.lookup).length ≤ full := by
    rwa [List.length_map, List.length_range']
  rw [fetchBatch_apply]
  split
  · refine Trusted.assemble ?_ ?_ index stop hfound hcount false
    · exact ⟨h.bytes_eq, h.current, h.queued, hlooked, h.size_le, h.length_le⟩
    · exact hempty
  · rw [fetchMissing]
    have hset : Trusted file most room { r with blockCache := lookedUp r.blockCache start stop } :=
      ⟨h.bytes_eq, h.current, h.queued, hlooked, h.size_le, h.length_le⟩
    have hidles : WalkInvariant (fun r' : PgzfReader D => Trusted file most room r' ∧
        r'.readahead = []) fun raw _ => raw <:+: file :=
      walkInvariant_of_walked (fun h' hwalked => ⟨h'.1.of_walked hwalked,
        hwalked.readahead_eq.trans h'.2⟩) fun h' => h'.1.bytes_eq
    refine Post.bind
      ((hidles.readRanges ⟨hset, hempty⟩ _ fun entry hentry => absurd hentry List.not_mem_nil).mono
      (fun _ _ h' => h') fun _ _ h' => h'.1) ?_
    rintro ⟨allRaw, ended⟩ mid ⟨⟨hmid, hidle⟩, hraws⟩
    refine Post.bind ((Prog.post_ofExcept (decompressAll D allRaw) hmid).mono (fun _ _ h' => h')
      fun _ _ h' => h'.2) ?_
    rintro datas _ ⟨hdatas, rfl⟩
    refine (hmid.storeBlocks start (genuine_decompressAll hraws hdatas) hfound).bind ?_
    rintro results last ⟨hlast, hqueue, hsame, hall⟩
    have hsought : ∀ offset, Post (fun _ r' => Trusted file most room r' ∧ r'.readahead = [])
        (fun _ r' => Trusted file most room r') (onInner (Source.seekStart offset) last) :=
          fun offset =>
      (onInner_seekStart_walked last offset).mono
        (fun _ _ hwalked => ⟨hlast.of_walked hwalked,
          hwalked.readahead_eq.trans (hqueue.trans hidle)⟩)
        fun _ _ hwalked => hlast.of_walked hwalked
    refine (Prog.post_intoIo_state (hsought _)).bind ?_
    rintro - behind ⟨hbehind, hstill⟩
    rw [bind_ok (modify_apply _ _)]
    refine Trusted.assemble ?_ ?_ index stop hall (hsame.trans_le hcount) ended
    · exact ⟨hbehind.bytes_eq, hbehind.current, hbehind.queued, hbehind.cache, hbehind.size_le,
        hbehind.length_le⟩
    · exact hstill

/-- A refill fills the queue up to the size that is set; one that fails leaves it as it is. -/
theorem Trusted.fillReadahead (h : Trusted file (room + 1) room r) :
    Post (fun _ r' => Trusted file (room + 1) (room + 1) r') (fun _ r' =>
      Trusted file (room + 1) room r')
      (PgzfReader.fillReadahead r) := by
  have hwide : Trusted file (room + 1) (room + 1) r := h.widen (Nat.le_succ _)
  rw [PgzfReader.fillReadahead, bind_ok (get_apply _)]
  refine Post.ite (fun _ => hwide) fun _ => Post.ite (fun _ => hwide) fun hqueue =>
    Post.ite (fun _ => hwide) fun _ => ?_
  have hempty : r.readahead = [] := by simpa using hqueue
  cases r.index with
  | none => exact hwide
  | some index =>
    refine Post.ite (fun _ => ?_) fun _ =>
      Post.bind (Q := fun limit mid => mid = r ∧ limit = r.nextBlockIndex + r.readaheadSize) ?_ ?_
    · exact ⟨hwide.bytes_eq, hwide.current, hwide.queued, hwide.cache, hwide.size_le,
        hwide.length_le⟩
    · rw [addU64]
      exact Post.ite (fun _ => ⟨rfl, rfl⟩) fun _ => h
    · rintro limit _ ⟨rfl, rfl⟩
      have hsize := h.size_le
      exact h.fetchBatch hempty index (by omega)

/-! ### Calls -/

def Window (D : Deps) (file out : Bytes) : Prop :=
  out = [] ∨ ∃ data, Vouched D file data ∧ out <:+: data

theorem Genuine.window {data out : Bytes} (h : Genuine D file data) (hout : out <:+: data) :
    Window D file out := by
  rcases h with rfl | hdata
  · exact .inl (List.infix_nil.mp hout)
  · exact .inr ⟨data, hdata, hout⟩

theorem Trusted.executePendingSeek (h : Trusted file (room + 1) room r) :
    Stays (Trusted file (room + 1) room) (PgzfReader.executePendingSeek r) := by
  rw [PgzfReader.executePendingSeek, bind_ok (get_apply _)]
  cases r.pendingSeek with
  | none => exact h
  | some target =>
    simp only
    rw [bind_ok (set_apply _ _)]
    cases r.index with
    | none => exact ⟨h.bytes_eq, h.current, h.queued, h.cache, h.size_le, h.length_le⟩
    | some index =>
      simp only
      cases index.seekByte D target with
      | error e => exact ⟨h.bytes_eq, h.current, h.queued, h.cache, h.size_le, h.length_le⟩
      | ok found =>
        obtain ⟨i, skip⟩ := found
        have hnone : ∀ data ∈ ([] : List Bytes), Genuine D file data :=
          fun data hdata => absurd hdata List.not_mem_nil
        have hgot := h.cache.get i
        have hlookup : ∀ data, (r.blockCache.get i).1 = some data → Genuine D file data :=
          fun data hdata => h.cache.lookup hdata
        simp only
        rw [bind_ok (modify_apply _ _), bind_ok (get_apply _)]
        simp only
        rw [bind_ok (set_apply _ _)]
        cases hcached : (r.blockCache.get i).1 with
        | some data =>
          simp only
          rw [bind_ok (modify_apply _ _)]
          refine (Trusted.seekStart ?_ _).bind fun _ mid hmid => ?_
          · exact ⟨h.bytes_eq, hlookup data hcached, hnone, hgot, h.size_le, Nat.zero_le _⟩
          · exact ⟨hmid.bytes_eq, hmid.current, hmid.queued, hmid.cache, hmid.size_le,
              hmid.length_le⟩
        | none =>
          simp only
          cases index.compressedOffset i with
          | none => exact ⟨h.bytes_eq, genuine_nil D file, hnone, hgot, h.size_le, Nat.zero_le _⟩
          | some offset =>
            simp only
            refine (Trusted.seekStart ?_ _).bind fun _ front hfront => ?_
            · exact ⟨h.bytes_eq, genuine_nil D file, hnone, hgot, h.size_le, Nat.zero_le _⟩
            rw [bind_ok (modify_apply _ _)]
            refine (Trusted.fillReadahead ?_).bind fun _ mid hmid => ?_
            · exact ⟨hfront.bytes_eq, hfront.current, hfront.queued, hfront.cache, hfront.size_le,
                hfront.length_le⟩
            rw [bind_ok (get_apply _)]
            have hlength := hmid.length_le
            have hqueued := hmid.queued
            cases hqueue : mid.readahead with
            | nil =>
              exact ⟨hmid.bytes_eq, hmid.current, hnone, hmid.cache, hmid.size_le, Nat.zero_le _⟩
            | cons buf rest =>
              rw [hqueue] at hlength hqueued
              exact ⟨hmid.bytes_eq, hqueued buf List.mem_cons_self, fun data hdata =>
                hqueued data (List.mem_cons_of_mem _ hdata),
                hmid.cache, hmid.size_le, Nat.le_of_succ_le_succ hlength⟩

theorem Trusted.serveNext (h : Trusted file most (room + 1) r) (n : Nat) :
    Post (fun found r' => Trusted file most room r' ∧ ∀ out, found = some out → Window D file out)
      (fun _ r' => Trusted file most room r') (PgzfReader.serveNext n r) := by
  have hqueued := h.queued
  have hlength := h.length_le
  cases hqueue : r.readahead with
  | nil =>
    rw [serveNext_nil hqueue]
    refine ⟨⟨h.bytes_eq, h.current, hqueued, h.cache, h.size_le, ?_⟩, fun _ hout =>
      absurd hout (by simp)⟩
    rw [hqueue]
    exact Nat.zero_le _
  | cons next rest =>
    rw [hqueue] at hqueued hlength
    have hnext := hqueued next List.mem_cons_self
    rw [serveNext_cons hqueue]
    refine ⟨⟨h.bytes_eq, hnext, fun data hdata => hqueued data (List.mem_cons_of_mem _ hdata),
      h.cache, h.size_le, Nat.le_of_succ_le_succ hlength⟩, fun out hout => ?_⟩
    obtain rfl := Option.some.inj hout
    exact hnext.window (List.take_prefix _ _).isInfix

theorem Trusted.advanceSequentialLoop (h : Trusted file most room r) (fuel : Nat) :
    Stays (Trusted file most room) (PgzfReader.advanceSequentialLoop fuel r) := by
  induction fuel generalizing r with
  | zero => exact h
  | succ fuel ih =>
    have hblock : Post (fun found r' => Trusted file most room r' ∧
        ∀ data blockType zc, found = some (data, blockType, zc) → Genuine D file data) (fun _ r' =>
          Trusted file most room r') (onInner (readPgzfBlock D) r) := by
      refine (readPgzfBlock_genuine r.inner).onPart ?_ ?_
      · rintro found s ⟨hs, hfound⟩
        rw [h.bytes_eq] at hfound
        exact ⟨⟨hs.bytes_eq.trans h.bytes_eq, h.current, h.queued, h.cache, h.size_le,
          h.length_le⟩, hfound⟩
      · intro fault s hs
        exact ⟨hs.bytes_eq.trans h.bytes_eq, h.current, h.queued, h.cache, h.size_le, h.length_le⟩
    rw [PgzfReader.advanceSequentialLoop]
    refine (Prog.post_intoIo_state hblock).bind ?_
    rintro found mid ⟨hmid, hfound⟩
    cases found with
    | none =>
      exact ⟨hmid.bytes_eq, hmid.current, hmid.queued, hmid.cache, hmid.size_le, hmid.length_le⟩
    | some found =>
      obtain ⟨data, blockType, zc⟩ := found
      have hdata := hfound data blockType zc rfl
      refine Post.ite (fun _ => ih hmid) fun _ => Post.ite (fun _ => ?_) fun _ => ?_
      · exact ⟨hmid.bytes_eq, hmid.current, hmid.queued, hmid.cache, hmid.size_le, hmid.length_le⟩
      · exact ⟨hmid.bytes_eq, hdata, hmid.queued, hmid.cache, hmid.size_le, hmid.length_le⟩

abbrev AnswersTrusted (file : Bytes) (room : Nat)
    (result : EStateM.Result Fault (PgzfReader D) Bytes) : Prop :=
  Post (fun out r' => Trusted file (room + 1) room r' ∧ Window D file out) (fun _ r' =>
    Trusted file (room + 1) room r') result

theorem Trusted.readNextBlock (h : Trusted file (room + 1) room r) (n : Nat) :
    AnswersTrusted file room (PgzfReader.readNextBlock n r) := by
  have hfull : Trusted file (room + 1) (room + 1) r := h.widen (Nat.le_succ _)
  rw [PgzfReader.readNextBlock, bind_ok (get_apply _)]
  refine Post.ite (fun _ => (hfull.serveNext n).bind ?_) fun _ => ?_
  · rintro found mid ⟨hmid, hfound⟩
    cases found with
    | some out => exact ⟨hmid, hfound out rfl⟩
    | none =>
      refine hmid.fillReadahead.bind fun _ filled hfilled => (hfilled.serveNext n).bind ?_
      rintro found last ⟨hlast, hfound⟩
      cases found with
      | some out => exact ⟨hlast, hfound out rfl⟩
      | none =>
        exact ⟨⟨hlast.bytes_eq, hlast.current, hlast.queued, hlast.cache, hlast.size_le,
          hlast.length_le⟩, .inl rfl⟩
  · rw [advanceToNextBlockSequential]
    refine Post.bind (Q := fun _ r' => Trusted file (room + 1) room r') ?_ fun _ mid hmid => ?_
    · rw [bind_ok (get_apply _)]
      exact h.advanceSequentialLoop _
    · rw [bind_ok (get_apply _)]
      refine Post.ite (fun _ => ⟨hmid, .inl rfl⟩) fun _ =>
        ⟨?_, hmid.current.window (List.take_prefix _ _).isInfix⟩
      exact ⟨hmid.bytes_eq, hmid.current, hmid.queued, hmid.cache, hmid.size_le, hmid.length_le⟩

theorem Trusted.read (h : Trusted file (room + 1) room r) (n : Nat) :
    AnswersTrusted file room (PgzfReader.read n r) := by
  rw [PgzfReader.read]
  refine Post.ite (fun _ => ⟨h, .inl rfl⟩) fun _ => h.executePendingSeek.bind fun _ mid hmid => ?_
  rw [bind_ok (get_apply _)]
  refine Post.ite (fun _ => ⟨?_, ?_⟩) fun _ => Post.ite (fun _ => ⟨hmid, .inl rfl⟩) fun _ =>
    hmid.readNextBlock n
  · exact ⟨hmid.bytes_eq, hmid.current, hmid.queued, hmid.cache, hmid.size_le, hmid.length_le⟩
  · exact hmid.current.window ((List.take_prefix _ _).isInfix.trans (List.drop_suffix _ _).isInfix)

theorem callInvariant_trusted (D : Deps) (file : Bytes) (room : Nat) :
    CallInvariant (D := D) (Trusted file (room + 1) room) fun raw _ => raw <:+: file where
  toWalkInvariant := walkInvariant_of_walked (fun h hwalked => h.of_walked hwalked) fun h =>
    h.bytes_eq
  cleared _ _ _ h := ⟨h.bytes_eq, genuine_nil D file, fun _ hdata => absurd hdata List.not_mem_nil,
    h.cache, h.size_le, Nat.zero_le _⟩
  read n h := (h.read n).mono (fun _ _ h' => h'.1) fun _ _ h' => h'

theorem Trusted.readBlocks (h : Trusted file (room + 1) room r) (start count : Nat) :
    Post (fun out r' => Trusted file (room + 1) room r' ∧
        ∃ datas : List Bytes, out = datas.flatten ∧ ∀ data ∈ datas, Genuine D file data)
      (fun _ r' => Trusted file (room + 1) room r') (PgzfReader.readBlocks start count r) := by
  apply ((callInvariant_trusted D file room).readBlocks h start count).mono _ fun _ _ h' => h'
  rintro out r' ⟨h', datas, rfl, hdatas⟩
  refine ⟨h', datas, rfl, fun data hdata => ?_⟩
  obtain ⟨raw, headerSize, hraw, hdecoded⟩ := hdatas data hdata
  exact genuine_of_raw hraw hdecoded

theorem Trusted.call (h : Trusted file (room + 1) room r) (call : BlockCall) :
    Stays (Trusted file (room + 1) room) (call.run r) :=
  (callInvariant_trusted D file room).call h call

theorem Trusted.setting (h : Trusted file most room r) (hstep : SettingStep r r')
    (hsize : r'.readaheadSize ≤ most) :
    Trusted file most room r' := by
  cases hstep with
  | withReadahead => exact ⟨h.bytes_eq, h.current, h.queued, h.cache, hsize, h.length_le⟩
  | withReadaheadMemoryLimit maxBytes =>
    exact ⟨h.bytes_eq, h.current, h.queued, h.cache, hsize, h.length_le⟩
  | withBlockCache capacity =>
    exact ⟨h.bytes_eq, h.current, h.queued, filledWith_limited D file capacity none, hsize,
      h.length_le⟩
  | withBlockCacheMemoryLimit capacity maxBytes =>
    exact ⟨h.bytes_eq, h.current, h.queued, filledWith_limited D file capacity (some maxBytes),
      hsize, h.length_le⟩

/-! ### The scan -/

section Scan

variable (s : Source)

theorem keeps_seekStart_later (offset : Nat) : Keeps s.Later (Source.seekStart offset) :=
  fun t ht =>
    (seekStart_later t offset).mono (fun _ _ h => ht.trans h) fun _ _ h => ht.trans h

theorem keeps_readExact_later (n : Nat) : Keeps s.Later (Source.readExact n) := fun t ht =>
  (readExact_later t n).mono (fun _ _ h => ht.trans h) fun _ _ h => ht.trans h

theorem keeps_streamPosition_later : Keeps s.Later Source.streamPosition := by
  have htick : Keeps s.Later Source.tick := fun t ht =>
    (tick_later t).mono (fun _ _ h => ht.trans h) fun _ _ h => ht.trans h
  exact htick.bind fun _ => (keeps_get _).bind fun _ => keeps_pure _ _

theorem keeps_scanIdx_later (idxStart : Nat) (acc : PgzfIndex.Scan) :
    Keeps s.Later (PgzfIndex.scanIdx idxStart acc) := by
  refine (keeps_seekStart_later s _).bind fun _ => (keeps_readExact_later s _).bind fun idxFixed =>
    (keeps_ofExcept _ _).bind fun header => ?_
  simp only
  split
  · exact keeps_throw _ _
  · split
    · exact keeps_throw _ _
    · exact (keeps_readExact_later s _).bind fun _ => (keeps_addU64 _ _ _).bind fun _ =>
          (keeps_seekStart_later s _).bind fun _ =>
        keeps_pure _ _

theorem keeps_buildLoop_later (fuel : Nat) (acc : PgzfIndex.Scan) :
    Keeps s.Later (PgzfIndex.buildLoop fuel acc) := by
  have hgroup : ∀ groupStart begBuf acc,
      Keeps s.Later (PgzfIndex.scanGroup groupStart begBuf acc) := by
    intro groupStart begBuf acc
    refine (keeps_ofExcept _ _).bind fun header => ?_
    simp only
    split
    · exact keeps_throw _ _
    · split
      · exact keeps_pure _ _
      · exact (keeps_addU64 _ _ _).bind fun _ => (keeps_scanIdx_later s _ _).bind fun _ =>
          keeps_pure _ _
  induction fuel generalizing acc with
  | zero => exact keeps_throw _ _
  | succ fuel ih =>
    refine (keeps_attempt (keeps_streamPosition_later s)).bind fun position => ?_
    split
    · exact keeps_pure _ _
    · refine (keeps_attempt (keeps_readExact_later s _)).bind fun header => ?_
      split
      · split
        · exact keeps_pure _ _
        · exact keeps_throw _ _
      · exact keeps_throw _ _
      · refine (hgroup _ _ _).bind fun next => ?_
        split
        · exact keeps_pure _ _
        · exact ih _

theorem keeps_build_later : Keeps s.Later PgzfIndex.build :=
  (keeps_seekStart_later s 0).bind fun _ => (keeps_get _).bind fun _ =>
    (keeps_buildLoop_later s _ _).bind fun _ => keeps_pure _ _

end Scan

def Unmarked (file : Bytes) : Prop :=
  gzipFixedHeaderSize ≤ file.length ∧
    ∃ flg xfl, validateGzipHeader (file.take gzipFixedHeaderSize) = .ok (flg, xfl) ∧
    isPgzfMember flg xfl = false

/-- A new reader stands at the front, and has no index where there is no marker. -/
theorem new_opened (D : Deps) (s : Source) :
    Post (fun (r : PgzfReader D) s' => ∃ index, r = opened D s' index ∧ s.Later s' ∧ s'.pos = 0 ∧
      (index = none → Unmarked s.bytes)) (fun _ _ => True) (new D s) := by
  have hseek : ∀ {mid : Source}, s.Later mid →
      Post (fun _ s' => s.Later s' ∧ s'.pos = 0) (fun _ _ => True)
      (Source.seekStart 0 mid) := fun {mid} hmid =>
    Post.bind ((tick_later mid).mono (fun _ _ h => h) fun _ _ _ => trivial) fun _ _ h =>
      ⟨hmid.trans ⟨h.bytes_eq, h.faults_suffix⟩, rfl⟩
  rw [new]
  refine (hseek (.refl s)).bind ?_
  rintro - s₁ ⟨h₁, hpos₁⟩
  have hread := readExact_at s₁ gzipFixedHeaderSize
  rw [h₁.bytes_eq, hpos₁] at hread
  refine (hread.mono (fun _ _ h => h) fun _ _ _ => trivial).bind ?_
  rintro header s₂ ⟨h₂, hroom, rfl, -⟩
  cases hheader : validateGzipHeader ((s.bytes.drop 0).take gzipFixedHeaderSize) with
  | error e => exact trivial
  | ok header =>
    obtain ⟨flg, xfl⟩ := header
    rw [bind_ok (Prog.ofExcept_ok _ _)]
    refine Post.ite (fun hmarker => ?_) fun hplain => ?_
    · refine (hseek (h₁.trans h₂)).bind fun _ s₃ h₃ => Post.bind (Q := fun _ s₄ => s.Later s₄)
        (((keeps_build_later s).post h₃.1).mono (fun _ _ h => h) fun _ _ _ => trivial)
          fun index s₄ h₄ => ?_
      rw [bind_ok (pure_apply _ _)]
      refine (hseek h₄).bind fun _ s₅ h₅ => ?_
      refine ⟨some index, ?_, h₅.1, h₅.2, fun hnone => absurd hnone (by simp)⟩
      simp only [hmarker]
      rfl
    · rw [bind_ok (pure_apply _ _)]
      refine (hseek (h₁.trans h₂)).bind fun _ s₃ h₃ => ?_
      have hmarker : isPgzfMember flg xfl = false := by simpa using hplain
      refine ⟨none, ?_, h₃.1, h₃.2, fun _ => ⟨hroom, flg, xfl, hheader, hmarker⟩⟩
      simp only [hmarker]
      rfl

theorem new_trusted (D : Deps) (s : Source) :
    Post (fun (r : PgzfReader D) _ => Trusted s.bytes defaultReadahead 0 r) (fun _ _ => True)
      (new D s) := by
  apply (new_opened D s).mono _ fun _ _ h => h
  rintro _ s' ⟨index, rfl, hlater, -⟩
  exact ⟨hlater.bytes_eq, genuine_nil D _, fun _ hdata => absurd hdata List.not_mem_nil,
    filledWith_limited D _ defaultBlockCacheCapacity none, Nat.le_refl _, Nat.zero_le _⟩

/-! ### Sessions -/

/-- The states of a session that opens the source and never sets a readahead size above `most`. A
call may end any way it likes, and the session goes on. -/
inductive Session (s : Source) (most : Nat) : PgzfReader D → Prop
  | opened {reader : PgzfReader D} {s' : Source} (size : Nat) : new D s = .ok reader s' →
    max size 1 ≤ most →
      Session s most (reader.withReadahead size)
  | setting {r r' : PgzfReader D} : Session s most r → SettingStep r r' → r'.readaheadSize ≤ most →
    Session s most r'
  | returns {r r' : PgzfReader D} (call : BlockCall) : Session s most r → call.run r = .ok () r' →
    Session s most r'
  | fails {r r' : PgzfReader D} (call : BlockCall) (fault : Fault) : Session s most r →
    call.run r = .error fault r' →
      Session s most r'

theorem Session.trusted {s : Source} (h : Session s (room + 1) r) :
    Trusted s.bytes (room + 1) room r := by
  induction h with
  | opened size hnew hsize =>
    have hpost := new_trusted D s
    rw [hnew] at hpost
    exact (hpost.withReadahead hsize).widen (Nat.zero_le _)
  | setting _ hstep hsize ih => exact ih.setting hstep hsize
  | returns call _ hrun ih =>
    have hpost := ih.call call
    rw [hrun] at hpost
    exact hpost
  | fails call fault _ hrun ih =>
    have hpost := ih.call call
    rw [hrun] at hpost
    exact hpost

theorem Session.most_pos {s : Source} (h : Session s most r) : 0 < most := by
  induction h with
  | opened size _ hsize =>
    exact Nat.lt_of_lt_of_le (Nat.lt_of_lt_of_le Nat.one_pos (Nat.le_max_right size 1)) hsize
  | setting _ _ _ ih => exact ih
  | returns _ _ _ ih => exact ih
  | fails _ _ _ _ ih => exact ih

theorem Vouched.length_lt {data : Bytes} (h : Vouched D file data) : data.length < 2 ^ 32 := by
  obtain ⟨stream, size, -, hdata⟩ := h
  have hle := length_decompressBlock_le hdata
  have hsize := size.toNat_lt
  omega

/-- The memory in use, where no data that are vouched for are longer than `bound`. -/
theorem Trusted.totalMemoryUsage_le (h : Trusted file (room + 1) room r) {bound : Nat}
    (hbound : ∀ data, Vouched D file data → data.length ≤ bound) :
    r.totalMemoryUsage ≤ (r.blockCache.capacity + (room + 1)) * bound := by
  have hgenuine : ∀ data, Genuine D file data → data.length ≤ bound := by
    rintro data (rfl | hdata)
    · exact Nat.zero_le _
    · exact hbound data hdata
  have hcache := h.cache.memoryUsage_le hgenuine
  have hqueue : r.readaheadMemoryUsage ≤ r.readahead.length * bound := by
    rw [readaheadMemoryUsage, ← List.length_map List.length]
    refine List.sum_le_card_nsmul _ bound fun n hn => ?_
    obtain ⟨data, hdata, rfl⟩ := List.mem_map.mp hn
    exact hgenuine data (h.queued data hdata)
  have hroom := Nat.mul_le_mul_right bound h.length_le
  have hcurrent := hgenuine _ h.current
  rw [totalMemoryUsage, Nat.add_mul, Nat.add_mul, Nat.one_mul]
  omega

/-- Whatever bytes and failures the source has, and whatever calls a session has made: a read
delivers a window of data that a checksum in the file vouches for, a range is made of such data, a
raw block is a piece of the file, and no more blocks are held in memory than the cache has room for
and one refill reads. -/
theorem session_vouched {s : Source} {most : Nat} {r : PgzfReader D} (h : Session s most r) :
    (∀ n out r', PgzfReader.read n r = .ok out r' → Window D s.bytes out) ∧
      (∀ start count out r', PgzfReader.readBlocks start count r = .ok out r' →
        ∃ datas : List Bytes, out = datas.flatten ∧ ∀ data ∈ datas, Genuine D s.bytes data) ∧
        (∀ block r', PgzfReader.readOneRawBlock r = .ok (some block) r' → block.raw <:+: s.bytes) ∧
          r.blockCache.len + r.readahead.length + 1 ≤ r.blockCache.capacity + most ∧
            ∀ bound, (∀ data, Vouched D s.bytes data → data.length ≤ bound) →
              r.totalMemoryUsage ≤ (r.blockCache.capacity + most) * bound := by
  obtain ⟨room, rfl⟩ := Nat.exists_eq_succ_of_ne_zero h.most_pos.ne'
  have htrusted := h.trusted
  refine ⟨fun n out r' hread => ?_, fun start count out r' hrange => ?_,
    fun block r' hraw => ?_, ?_, fun bound hbound => htrusted.totalMemoryUsage_le hbound⟩
  · have hpost := htrusted.read n
    rw [hread] at hpost
    exact hpost.2
  · have hpost := htrusted.readBlocks start count
    rw [hrange] at hpost
    exact hpost.2
  · have hpost := readOneRawBlock_walked r
    rw [hraw] at hpost
    exact htrusted.bytes_eq ▸ hpost.2 block rfl
  · have hcache := htrusted.cache.len_le
    have hqueue := htrusted.length_le
    omega

/-- Behind a read that fails in a file with a damaged block, the next one delivers the data of a
block that is not. -/
theorem session_vouched_sample :
    ∃ e r r', PgzfReader.read 2 Stored.badCrcReader = .error (.error e) r ∧
    PgzfReader.read 2 r = .ok [101, 102] r' ∧ Window Stored.deps Stored.badCrc [101, 102] ∧
      r.blockCache.len + r.readahead.length + 1 ≤ r.blockCache.capacity + 2 ∧
        r.totalMemoryUsage ≤ (r.blockCache.capacity + 2) * 2 ^ 32 := by
  have hcrc : outcome (sessionThenReads [] 2 Stored.badCrcReader) =
      .ok (0, .error (.io ⟨.invalidData,
      "CRC32 mismatch: expected 0x45d68f00, computed 0x45d68fda"⟩), [101, 102]) := by decide +kernel
  obtain ⟨answers, start, r, r', hsession, -, hfirst, hsecond⟩ := of_sessionThenReads hcrc
  obtain ⟨-, rfl⟩ := EStateM.Result.ok.inj hsession
  obtain ⟨s, hnew⟩ := Stored.new_badCrc
  have hstart : Session ⟨Stored.badCrc,
      0, []⟩ 2 ((fresh Stored.deps Stored.badCrc Stored.sampleIndex).withReadahead 2) :=
    .opened 2 hnew (by decide)
  have hfailed : Session ⟨Stored.badCrc, 0, []⟩ 2 r := .fails (.read 2) _ hstart (bind_error hfirst)
  obtain ⟨hreads, -, -, hcount, hmemory⟩ := session_vouched hfailed
  exact ⟨_, r, r', hfirst, hsecond, hreads 2 _ r' hsecond, hcount, hmemory _ fun data hdata =>
    Nat.le_of_lt hdata.length_lt⟩

end Pgzf
