import Pgzf.Answers
import Pgzf.Bounds
import Pgzf.Drift

/-!
# No input makes the reader panic, but for two kinds

`new` follows the `GC` of each group and the `ZC` of each index member, in sums of 64 bits that are
checked; `Scans` are the groups it comes to. Where these sums fit, and where no call meets a short
member, every call of a session is answered with a value or with an error of the crate.
-/

namespace Pgzf

open PgzfReader PgzfIndex Program

variable {D : Deps} {file : Bytes}

/-! ### The scan of `new` -/

/-- The `GC` of the group at `p`, where the scan takes it for one. -/
def groupAt (file : Bytes) (p : Nat) : Option Nat :=
  let header := (file.drop p).take begHeaderSize
  let gc := readU64Le (slice header gcValueOffset (gcValueOffset + 8))
  match validateGzipHeader header with
  | .error _ => none
  | .ok (flg, xfl) =>
    if begHeaderSize ≤ file.length - p ∧ isPgzfMember flg xfl = true ∧
      gc ≠ 0 then some gc.toNat else none

/-- The table of the index member at `p` and its `ZC`, where the scan takes it for one. -/
def tableAt (file : Bytes) (p : Nat) : Option (List IndexEntry × Nat) :=
  let fixed := (file.drop p).take idxHeaderBaseSize
  let xlen := (readU16Le (slice fixed 10 12)).toNat
  match validateGzipHeader fixed with
  | .error _ => none
  | .ok (_, xfl) =>
    if idxHeaderBaseSize + (xlen - (8 + 4)) ≤ file.length - p ∧ xfl = pgzfXflMarker ∧
        8 + 4 ≤ xlen then
      some (parseEntries ((file.drop (p + idxHeaderBaseSize)).take (xlen - (8 + 4))),
        (readU32Le (slice fixed zcValueOffset (zcValueOffset + 4))).toNat)
    else
      none

/-- The scan comes to a group at `p`, after blocks and index
members of `c` bytes in all, with `u` bytes of data. -/
inductive Scans (file : Bytes) : Nat → Nat → Nat → Prop
  | start : Scans file 0 0 0
  | group {p c u gc zc : Nat} {entries : List IndexEntry} : Scans file p c u →
    groupAt file p = some gc →
      tableAt file (p + gc) = some (entries, zc) →
        Scans file (p + gc + zc) (c + (entries.map fun e => e.compressedSize.toNat).sum + zc)
          (u + (entries.map fun e => e.uncompressedSize.toNat).sum)

/-- The positions and the sums of the scan fit into 64 bits. -/
def ScanFits (file : Bytes) : Prop :=
  ∀ p c u gc, Scans file p c u → groupAt file p = some gc → p + gc < 2 ^ 64 ∧
    ∀ entries zc, tableAt file (p + gc) = some (entries, zc) → p + gc + zc < 2 ^ 64 ∧
      c + (entries.map fun e => e.compressedSize.toNat).sum + zc < 2 ^ 64 ∧
        u + (entries.map fun e => e.uncompressedSize.toNat).sum < 2 ^ 64

theorem Scans.lt (hfits : ScanFits file) {p c u : Nat} (h : Scans file p c u) :
    c < 2 ^ 64 ∧ u < 2 ^ 64 := by
  cases h with
  | start => exact ⟨by decide, by decide⟩
  | group hscan hgroup htable => exact ((hfits _ _ _ _ hscan hgroup).2 _ _ htable).2

structure PgzfIndex.Scan.Sums (acc : Scan) (c u : Nat) : Prop where
  offsets : acc.compressedOffsets.length = acc.blocks.length
  cumC : acc.cumC = c
  cumU : acc.cumU = u

theorem PgzfIndex.Scan.Sums.push {acc : Scan} {c u : Nat} (h : acc.Sums c u) (ixData : Bytes)
    (indices : List Nat) :
    (indices.foldl (Scan.push ixData) acc).Sums
      (c + (indices.map fun i => (entryAt ixData (i * 8)).compressedSize.toNat).sum)
      (u + (indices.map fun i => (entryAt ixData (i * 8)).uncompressedSize.toNat).sum) := by
  induction indices generalizing acc c u with
  | nil => exact h
  | cons i rest ih =>
    rw [List.foldl_cons, List.map_cons, List.map_cons, List.sum_cons, List.sum_cons,
      ← Nat.add_assoc, ← Nat.add_assoc]
    apply ih
    refine ⟨?_, ?_, ?_⟩
    · simp only [Scan.push, List.length_append, h.offsets, List.length_cons, List.length_nil]
    · rw [Scan.push, h.cumC]
    · rw [Scan.push, h.cumU]

theorem PgzfIndex.Scan.Sums.table {acc : Scan} {c u : Nat} (h : acc.Sums c u) (ixData : Bytes) :
    ((List.range (ixData.length / 8)).foldl (Scan.push ixData) acc).Sums
      (c + ((parseEntries ixData).map fun e => e.compressedSize.toNat).sum)
      (u + ((parseEntries ixData).map fun e => e.uncompressedSize.toNat).sum) := by
  have hpush := h.push ixData (List.range (ixData.length / 8))
  rwa [parseEntries, List.map_map, List.map_map]

/-! ### Reading an index member -/

/-- What is read of an index member is its table. -/
theorem readIdx_some {p q : Nat} {entries : List IndexEntry} {zc : Nat}
    (htable : tableAt file p = some (entries, zc)) :
    ∃ ixData idxZc q', readIdx p ⟨file, q, []⟩ = .ok (ixData, ixData.length / 8, idxZc)
      ⟨file, q', []⟩ ∧
      parseEntries ixData = entries ∧ idxZc.toNat = zc := by
  rw [tableAt] at htable
  generalize hfixed : (file.drop p).take idxHeaderBaseSize = fixed at htable
  cases hvalid : validateGzipHeader fixed with
  | error e =>
    rw [hvalid] at htable
    exact absurd htable (by simp)
  | ok header =>
    rw [hvalid] at htable
    obtain ⟨flg, xfl⟩ := header
    simp only at htable
    generalize hxlen : (readU16Le (slice fixed 10 12)).toNat = xlen at htable
    by_cases hthere : idxHeaderBaseSize + (xlen - (8 + 4)) ≤ file.length - p ∧ xfl = pgzfXflMarker ∧
      8 + 4 ≤ xlen
    · rw [if_pos hthere] at htable
      obtain ⟨hroom, rfl, hmin⟩ := hthere
      obtain ⟨rfl, rfl⟩ := Prod.mk.inj (Option.some.inj htable)
      have hlen : ((file.drop (p + idxHeaderBaseSize)).take (xlen - (8 + 4))).length = xlen -
          (8 + 4) := by
        rw [List.length_take, List.length_drop]
        omega
      refine ⟨_, _, p + idxHeaderBaseSize + (xlen - (8 + 4)), ?_, rfl, rfl⟩
      rw [readIdx, bind_ok (Source.seekStart_apply _ _ _), bind_ok (Source.readExact_ok (by omega)),
        hfixed, hvalid, bind_ok (Prog.ofExcept_ok _ _)]
      simp only [ne_eq, not_true, if_false, hxlen]
      rw [if_neg (Nat.not_lt.mpr hmin), bind_ok (Source.readExact_ok (by omega)), hlen]
      rfl
    · rw [if_neg hthere] at htable
      exact absurd htable (by simp)

theorem readIdx_none {p q : Nat} (htable : tableAt file p = none) :
    ∃ e q', readIdx p ⟨file, q, []⟩ = .error (.error e) ⟨file, q', []⟩ := by
  have hpost : Post (fun _ _ => False) (SourceFailed file) (readIdx p ⟨file, q, []⟩) := by
    rw [readIdx, bind_ok (Source.seekStart_apply _ _ _)]
    apply (readExact_post file _ _).bind
    rintro idxFixed s ⟨hroom, rfl, rfl⟩
    apply (ofExcept_post _ file _).bind
    rintro ⟨flg, xfl⟩ s ⟨hvalid, rfl⟩
    refine Post.ite (fun _ => ⟨⟨_, rfl⟩, _, rfl⟩) fun hmarker => ?_
    refine Post.ite (fun _ => ⟨⟨_, rfl⟩, _, rfl⟩) fun hxlen => ?_
    refine (readExact_post file _ _).bind ?_
    rintro ixData s ⟨hdata, -, -⟩
    rw [tableAt] at htable
    simp only [hvalid] at htable
    rw [if_pos ⟨by omega, not_not.mp hmarker, Nat.not_lt.mp hxlen⟩] at htable
    exact absurd htable (by simp)
  cases hrun : readIdx p ⟨file, q, []⟩ with
  | ok a s =>
    rw [hrun] at hpost
    exact hpost.elim
  | error fault s =>
    rw [hrun] at hpost
    obtain ⟨⟨e, rfl⟩, q', rfl⟩ := hpost
    exact ⟨e, q', rfl⟩

/-! ### The turns of the scan -/

theorem scanIdx_post {p gc : Nat}
    (hfits : ∀ entries zc, tableAt file (p + gc) = some (entries, zc) → p + gc + zc < 2 ^ 64)
    {acc : Scan} {c u : Nat} (hacc : acc.Sums c u) (q : Nat) :
    Post (fun acc' s => ∃ entries zc, tableAt file (p + gc) = some (entries, zc) ∧
      s = ⟨file, p + gc + zc, []⟩ ∧
        acc'.Sums (c + (entries.map fun e => e.compressedSize.toNat).sum + zc)
          (u + (entries.map fun e => e.uncompressedSize.toNat).sum))
      (SourceFailed file) (scanIdx (p + gc) acc ⟨file, q, []⟩) := by
  rw [scanIdx_eq]
  cases htable : tableAt file (p + gc) with
  | none =>
    obtain ⟨e, q', hread⟩ := readIdx_none (q := q) htable
    rw [bind_error hread]
    exact ⟨⟨e, rfl⟩, q', rfl⟩
  | some table =>
    obtain ⟨entries, zc⟩ := table
    obtain ⟨ixData, idxZc, q', hread, rfl, rfl⟩ := readIdx_some (q := q) htable
    have hsums := hacc.table ixData
    rw [bind_ok hread]
    simp only
    rw [bind_ok (addU64_of_lt (hfits _ _ htable) _), bind_ok (Source.seekStart_apply _ _ _)]
    exact ⟨_, _, rfl, rfl, hsums.offsets, congrArg (· + _) hsums.cumC, hsums.cumU⟩

theorem scanGroup_post {p : Nat} (hroom : begHeaderSize ≤ file.length - p)
    (hfits : ∀ gc, groupAt file p = some gc → p + gc < 2 ^ 64 ∧ ∀ entries zc,
      tableAt file (p + gc) = some (entries, zc) → p + gc + zc < 2 ^ 64)
    {acc : Scan} {c u : Nat} (hacc : acc.Sums c u) (q : Nat) :
    Post (fun found s => (∃ q, s = ⟨file, q, []⟩) ∧ ∀ acc', found = some acc' → ∃ gc entries zc,
        groupAt file p = some gc ∧ 0 < gc ∧ tableAt file (p + gc) = some (entries, zc) ∧
          s = ⟨file, p + gc + zc, []⟩ ∧
          acc'.Sums (c + (entries.map fun e => e.compressedSize.toNat).sum + zc)
            (u + (entries.map fun e => e.uncompressedSize.toNat).sum))
      (SourceFailed file) (scanGroup p ((file.drop p).take begHeaderSize) acc ⟨file, q, []⟩) := by
  rw [scanGroup]
  apply (ofExcept_post _ file _).bind
  rintro ⟨flg, xfl⟩ s ⟨hvalid, rfl⟩
  refine Post.ite (fun _ => ⟨⟨_, rfl⟩, _, rfl⟩) fun hmember => ?_
  refine Post.ite (fun _ => ⟨⟨_, rfl⟩, fun acc' hacc' => absurd hacc' (by simp)⟩) fun hgc => ?_
  have hgroup : groupAt file p =
      some (readU64Le (slice ((file.drop p).take begHeaderSize) gcValueOffset
          (gcValueOffset + 8))).toNat := by
    rw [groupAt]
    simp only [hvalid]
    rw [if_pos ⟨hroom, by simpa using hmember, hgc⟩]
  obtain ⟨hidx, hnext⟩ := hfits _ hgroup
  rw [bind_ok (addU64_of_lt hidx _)]
  apply (scanIdx_post hnext hacc q).bind
  rintro acc' s ⟨entries, zc, htable, rfl, hsums⟩
  refine ⟨⟨_, rfl⟩, ?_⟩
  intro acc'' hsame
  obtain rfl := Option.some.inj hsame
  exact ⟨_, entries, zc, hgroup, Nat.pos_of_ne_zero fun hzero => hgc (UInt64.toNat_inj.mp hzero),
    htable, rfl, hsums⟩

/-- Where its sums fit the scan ends, and without a panic. -/
theorem buildLoop_post (hfits : ScanFits file) {fuel p c u : Nat} (hscan : Scans file p c u)
    (hfuel : file.length - p < fuel) {acc : Scan} (hacc : acc.Sums c u) :
    Post (fun acc' s => (∃ p' c' u', Scans file p' c' u' ∧ acc'.Sums c' u') ∧ ∃ q,
      s = ⟨file, q, []⟩) (SourceFailed file)
      (buildLoop fuel acc ⟨file, p, []⟩) := by
  induction fuel generalizing p c u acc with
  | zero => exact absurd hfuel (Nat.not_lt_zero _)
  | succ fuel ih =>
    rw [buildLoop, bind_ok (Prog.attempt_ok (Source.streamPosition_apply _ _))]
    simp only
    refine (Prog.post_attempt (S := fun result s => ∃ q, s = ⟨file, q, []⟩ ∧ ∀ out,
      result = .ok out →
      begHeaderSize ≤ file.length - p ∧ out = (file.drop p).take begHeaderSize)
        (readExact_post file p begHeaderSize)
      ?_ ?_).bind ?_
    · rintro out s ⟨hroom, rfl, rfl⟩
      exact ⟨_, rfl, fun out' hout => ⟨hroom, (Except.ok.inj hout).symm⟩⟩
    · rintro e s ⟨-, q, rfl⟩
      exact ⟨q, rfl, fun out hout => absurd hout (by simp)⟩
    rintro result s ⟨q, rfl, hfound⟩
    cases result with
    | error e =>
      cases e with
      | io e =>
        exact Post.ite (fun _ => ⟨⟨p, c, u, hscan, hacc⟩, q, rfl⟩) fun _ => ⟨⟨_, rfl⟩, q, rfl⟩
      | _ => exact ⟨⟨_, rfl⟩, q, rfl⟩
    | ok begBuf =>
      obtain ⟨hroom, rfl⟩ := hfound begBuf rfl
      simp only
      refine (scanGroup_post hroom (fun gc hgroup => ?_) hacc q).bind ?_
      · obtain ⟨hgc, htable⟩ := hfits p c u gc hscan hgroup
        exact ⟨hgc, fun entries zc hat => (htable entries zc hat).1⟩
      · rintro found s ⟨⟨q', rfl⟩, hnext⟩
        cases found with
        | none => exact ⟨⟨p, c, u, hscan, hacc⟩, q', rfl⟩
        | some acc' =>
          obtain ⟨gc, entries, zc, hgroup, hpos, htable, hs, hsums⟩ := hnext acc' rfl
          rw [hs]
          apply ih (hscan.group hgroup htable) _ hsums
          rw [begHeaderSize] at hroom
          omega

/-- An index with an offset for each block and one behind them, and no sum that overflows. -/
structure PgzfIndex.Fits (index : PgzfIndex) : Prop where
  offsets : index.compressedOffsets.length = index.blockCount + 1
  compressed : index.totalCompressed < 2 ^ 64
  uncompressed : index.totalUncompressed < 2 ^ 64

theorem build_post (hfits : ScanFits file) (q : Nat) :
    Post (fun entries s => entries.Fits ∧ ∃ q, s = ⟨file, q, []⟩)
      (SourceFailed file) (build ⟨file, q, []⟩) := by
  rw [build, bind_ok (Source.seekStart_apply _ _ _), bind_ok (get_apply _)]
  refine (buildLoop_post hfits .start (Nat.lt_succ_of_le (Nat.sub_le _ _))
    (show Scan.Sums ⟨[], [], [], 0, 0, 0⟩ 0 0 from ⟨rfl, rfl, rfl⟩)).bind ?_
  rintro acc s ⟨⟨p', c', u', hscan, hacc⟩, q', rfl⟩
  obtain ⟨hc, hu⟩ := hscan.lt hfits
  refine ⟨⟨?_, ?_, ?_⟩, q', rfl⟩
  · rw [PgzfIndex.blockCount, ← hacc.offsets, List.length_append, List.length_singleton]
  · rwa [PgzfIndex.totalCompressed, List.getLast?_concat, Option.getD_some, hacc.cumC]
  · rwa [PgzfIndex.totalUncompressed, List.getLast?_concat, Option.getD_some, hacc.cumU]

theorem new_post (D : Deps) (hfits : ScanFits file) (q : Nat) :
    Post (fun reader _ => reader.inner = ⟨file, 0, []⟩ ∧
      (reader.isPgzf = true → reader.index.isSome) ∧
        ∀ entries, reader.index = some entries → entries.Fits)
      (SourceFailed file) (new D ⟨file, q, []⟩) := by
  rw [new, bind_ok (Source.seekStart_apply _ _ _)]
  apply (readExact_post file _ _).bind
  rintro header s ⟨-, -, rfl⟩
  apply (ofExcept_post _ file _).bind
  rintro ⟨flg, xfl⟩ s ⟨-, rfl⟩
  simp only
  cases hpgzf : isPgzfMember flg xfl with
  | false =>
    simp only [Bool.false_eq_true, if_false]
    rw [bind_ok (pure_apply _ _), bind_ok (Source.seekStart_apply _ _ _), bind_ok (get_apply _)]
    exact ⟨rfl, fun h => absurd h (by simp), fun entries h => absurd h (by simp)⟩
  | true =>
    simp only [if_true]
    rw [bind_ok (Source.seekStart_apply _ _ _)]
    apply (build_post hfits 0).bind
    rintro entries s ⟨hentries, q', rfl⟩
    rw [bind_ok (pure_apply _ _), bind_ok (Source.seekStart_apply _ _ _), bind_ok (get_apply _)]
    refine ⟨rfl, fun _ => rfl, fun entries' h => ?_⟩
    obtain rfl := Option.some.inj h
    exact hentries

/-! ### Sessions -/

inductive InputCall where
  | read (n : Nat)
  | seekToByte (offset : Nat)
  | readBlocks (start count : Nat)
  | readOneRawBlock
  deriving DecidableEq, Repr

/-- A call, with the raw block it may return. -/
def InputCall.run : InputCall → Prog (PgzfReader D) (Option RawBlock)
  | .read n => do
    let _ ← PgzfReader.read n
    return none
  | .seekToByte offset => do
    PgzfReader.seekToByte offset
    return none
  | .readBlocks start count => do
    let _ ← PgzfReader.readBlocks start count
    return none
  | .readOneRawBlock => PgzfReader.readOneRawBlock

def InputCall.InRange : InputCall → Prop
  | .readBlocks start count => start + count < 2 ^ 64
  | _ => True

/-- The call meets no short member: neither where the source stands, nor on the way through the
blocks it asks for, nor in the batches it refills from. -/
def Passes (file : Bytes) (r : PgzfReader D) : InputCall → Prop
  | .read n =>
    0 < n → PassesSeek file r ∧ ∀ mid, executePendingSeek r = .ok () mid → PassesServe file mid
  | .seekToByte _ => True
  | .readBlocks start count => ∀ entries, r.index = some entries → start < entries.blockCount →
    NoShort file ((entries.compressedOffset start).getD 0)
      (min entries.blockCount (start + count) - start)
  | .readOneRawBlock => ¬ ShortMember file r.inner.pos

section Session

variable {isPgzf : Bool} {index : Option PgzfIndex} {size : Nat} {r : PgzfReader D}

theorem InputCall.run_post (hs : Scanned isPgzf index size) (h : Opened file isPgzf index size r)
    {call : InputCall} (hrange : call.InRange) (hpass : Passes file r call) :
    Post (fun found r' => Opened file isPgzf index size r' ∧ ∀ block, found = some block →
      WellSized block)
      (Failed file isPgzf index size) (call.run r) := by
  have hdone : ∀ r' : PgzfReader D, Opened file isPgzf index size r' →
      Post (fun found r' => Opened file isPgzf index size r' ∧ ∀ block, found = some block →
        WellSized block)
        (Failed file isPgzf index size) ((pure none : Prog (PgzfReader D) (Option RawBlock)) r') :=
    fun r' h' => ⟨h', fun block hblock => absurd hblock (by simp)⟩
  cases call with
  | read n =>
    exact (read_post hs h (fun hn => (hpass hn).1) fun hn => (hpass hn).2).bind fun _ r' h' =>
      hdone r' h'
  | seekToByte offset => exact (seekToByte_post h offset).bind fun _ r' h' => hdone r' h'
  | readBlocks start count =>
    exact (readBlocks_post hs h hrange hpass).bind fun _ r' h' => hdone r' h'
  | readOneRawBlock =>
    obtain ⟨p, hin⟩ := h.inner
    rw [Passes, hin] at hpass
    refine (readOneRawBlock_post h hin hpass).mono ?_ fun _ _ hfailed => hfailed
    rintro found r' ⟨h', hfound⟩
    exact ⟨h', fun block hblock => wellSized_of_memberAt (hfound block hblock).1⟩

theorem InputCall.attempt_post (hs : Scanned isPgzf index size)
    (h : Opened file isPgzf index size r) {call : InputCall} (hrange : call.InRange)
    (hpass : Passes file r call) :
    Post (fun answer r' => Opened file isPgzf index size r' ∧ ∀ block, answer = .ok (some block) →
      WellSized block)
      (fun _ _ => False) (Prog.attempt call.run r) := by
  have hrun := InputCall.run_post hs h hrange hpass
  rw [Prog.attempt]
  cases hcase : call.run r with
  | ok found r' =>
    rw [hcase] at hrun
    exact ⟨hrun.1, fun block hblock => hrun.2 block (Except.ok.inj hblock)⟩
  | error fault r' =>
    rw [hcase] at hrun
    obtain ⟨⟨e, rfl⟩, h'⟩ := hrun
    exact ⟨h', fun block hblock => absurd hblock (by simp)⟩

/-- Every call of a session answers, whatever errors the calls in front of it have ended with. -/
theorem session_answers (hs : Scanned isPgzf index size) (h : Opened file isPgzf index size r)
    {calls : List InputCall} (hrange : ∀ call ∈ calls, call.InRange)
    (hpass : AllSteps (fun call => Prog.attempt (InputCall.run call)) (Passes file) r calls) :
    ∃ answers r', (calls.mapM fun call => Prog.attempt (InputCall.run call)) r = .ok answers r' ∧
      ∀ answer ∈ answers, ∀ block, answer = .ok (some block) → WellSized block := by
  induction calls generalizing r with
  | nil => exact ⟨[], r, rfl, fun answer hanswer => absurd hanswer List.not_mem_nil⟩
  | cons call rest ih =>
    obtain ⟨hcall, hrest⟩ := hpass
    have hpost := InputCall.attempt_post hs h (hrange call List.mem_cons_self) hcall
    cases hcase : Prog.attempt (call.run) r with
    | error fault r' =>
      rw [hcase] at hpost
      exact absurd hpost id
    | ok answer r' =>
      rw [hcase] at hpost
      obtain ⟨h', hsized⟩ := hpost
      obtain ⟨answers, last, hrun, hall⟩ :=
        ih h' (fun c hc => hrange c (List.mem_cons_of_mem _ hc)) (hrest _ _ hcase)
      refine ⟨answer :: answers, last, ?_, ?_⟩
      · rw [List.mapM_cons, bind_ok hcase, bind_ok hrun, pure_apply]
      · intro other hother
        rcases List.mem_cons.mp hother with rfl | hother
        · exact hsized
        · exact hall other hother

theorem opened_configured (hin : r.inner = ⟨file, 0, []⟩) (size capacity : Nat)
    (cacheLimit memoryLimit : Option Nat) :
    Opened file r.isPgzf r.index (max size 1) { r.configured size capacity cacheLimit with
      readaheadMemoryLimit := memoryLimit } := by
  cases cacheLimit with
  | none => exact ⟨⟨0, hin⟩, rfl, rfl, rfl⟩
  | some maxBytes => exact ⟨⟨0, hin⟩, rfl, rfl, rfl⟩

end Session

/-- Whatever the bytes: `new` is answered where the sums of its scan fit, every call of a session
where it meets no short member, and a raw block has the length its `ZC` says. -/
theorem reader_answers (D : Deps) (file : Bytes) (hfits : ScanFits file) (q : Nat) :
    SlicesInBounds D ∧ ((∃ e s, new D ⟨file, q, []⟩ = .error (.error e) s) ∨
      ∃ reader s, new D ⟨file, q, []⟩ = .ok reader s ∧
        (∀ entries, reader.index = some entries → entries.Fits) ∧
        ∀ (size capacity : Nat) (cacheLimit memoryLimit : Option Nat) (calls : List InputCall),
          (∀ entries, reader.index = some entries → entries.blockCount + max size 1 < 2 ^ 64) →
          (∀ call ∈ calls, call.InRange) →
          AllSteps (fun call => Prog.attempt (InputCall.run call)) (Passes file)
            { reader.configured size capacity cacheLimit with readaheadMemoryLimit :=
              memoryLimit } calls →
          ∃ answers r', (calls.mapM fun call => Prog.attempt (InputCall.run call))
              { reader.configured size capacity cacheLimit with readaheadMemoryLimit :=
                memoryLimit } = .ok answers r' ∧
            ∀ answer ∈ answers, ∀ block, answer = .ok (some block) → WellSized block) := by
  refine ⟨slicesInBounds D, ?_⟩
  have hnew := new_post D hfits q
  cases hcase : new D ⟨file, q, []⟩ with
  | error fault s =>
    rw [hcase] at hnew
    obtain ⟨⟨e, rfl⟩, -⟩ := hnew
    exact .inl ⟨e, s, rfl⟩
  | ok reader s =>
    rw [hcase] at hnew
    obtain ⟨hin, hsome, hentries⟩ := hnew
    refine .inr ⟨reader, s, rfl, hentries, ?_⟩
    intro size capacity cacheLimit memoryLimit calls hfit hrange hpass
    exact session_answers ⟨hsome, fun entries h => (hentries entries h).offsets, hfit⟩
      (opened_configured hin size capacity cacheLimit memoryLimit) hrange hpass

/-! ### Files that are laid out as their index says -/

section Laid

variable {entries : PgzfIndex} {raws blocks : List Bytes}

theorem memberAt_of_shortMember {p : Nat} (h : ShortMember file p) :
    ∃ fault, memberAt file p = .error fault := by
  obtain ⟨hroom, hpos, hlt⟩ := h
  rw [xlenAt] at hroom hlt
  rw [zcAt, xlenAt] at hpos hlt
  rw [memberAt]
  have hfixed : gzipFixedHeaderSize = 10 := rfl
  simp only
  split_ifs with hbase hxlen hextra hzero hlarge
  · omega
  · exact ⟨_, rfl⟩
  · exact ⟨_, rfl⟩
  · rw [hzero] at hpos
    exact absurd hpos (Nat.lt_irrefl _)
  · exact ⟨_, rfl⟩
  · exact ⟨_, rfl⟩

/-- A walk over members that stand as listed meets no short one. -/
theorem Stands.noShort {p : Nat} {offsets : List Nat} (h : Stands D file p raws blocks offsets)
    {count : Nat} (hcount : count ≤ blocks.length) : NoShort file p count := by
  intro q left hwalk
  generalize hwanted : left + 1 = wanted at hwalk
  induction hwalk generalizing raws blocks offsets with
  | here p count =>
    subst hwanted
    intro hshort
    obtain ⟨fault, hfault⟩ := memberAt_of_shortMember hshort
    rcases h.memberAt with ⟨rfl, -⟩ | ⟨raw, headerSize, hat, -⟩ | ⟨raw, headerSize, ty, _, _, _,
      _, hat, -⟩
    · exact absurd hcount (by simp)
    · exact absurd (hat.symm.trans hfault) (by simp)
    · exact absurd (hat.symm.trans hfault) (by simp)
  | idx hidx _ ih =>
    rcases h.memberAt with ⟨rfl, -⟩ | ⟨raw, headerSize, hat, hrest⟩ | ⟨raw, headerSize, ty, _, _, _,
      _, hat, hty, -⟩
    · exact absurd hcount (by simp)
    · obtain ⟨rfl, -⟩ := Prod.mk.inj (Option.some.inj (Except.ok.inj (hat.symm.trans hidx)))
      exact ih hrest hcount hwanted
    · have hsame := Prod.mk.inj (Option.some.inj (Except.ok.inj (hat.symm.trans hidx)))
      exact absurd (Prod.mk.inj hsame.2).2 hty
  | data hdata hty _ ih =>
    rcases h.memberAt with ⟨rfl, -⟩ | ⟨raw, headerSize, hat, -⟩ |
      ⟨raw, headerSize, ty, raws', data, blocks', offsets', hat, -, -, rfl, -, hrest⟩
    · exact absurd hcount (by simp)
    · have hsame := Prod.mk.inj (Option.some.inj (Except.ok.inj (hat.symm.trans hdata)))
      exact absurd (Prod.mk.inj hsame.2).2.symm hty
    · obtain ⟨rfl, -⟩ := Prod.mk.inj (Option.some.inj (Except.ok.inj (hat.symm.trans hdata)))
      exact ih hrest (by simpa using hcount) hwanted

theorem Laid.noShort (hl : Laid D file entries raws blocks) {start count : Nat}
    (hle : start + count ≤ blocks.length) :
    NoShort file ((entries.compressedOffset start).getD 0) count := by
  obtain ⟨q, hq, hstands⟩ := hl.stands.drop (show start ≤ blocks.length by omega)
  rw [PgzfIndex.compressedOffset, hq, Option.getD_some]
  apply hstands.noShort
  rw [List.length_drop]
  omega

theorem Laid.safeRanges (hl : Laid D file entries raws blocks) {ranges : List (Nat × Nat)}
    (hranges : ∀ range ∈ ranges, range.1 < range.2 ∧ range.2 ≤ blocks.length) :
    SafeRanges file entries ranges := by
  induction ranges with
  | nil => trivial
  | cons range rest ih =>
    obtain ⟨hlt, hle⟩ := hranges range List.mem_cons_self
    exact ⟨hl.noShort (by omega), fun _ => ih fun other hother =>
      hranges other (List.mem_cons_of_mem _ hother)⟩

theorem Laid.cleanBatch (hl : Laid D file entries raws blocks) (r : PgzfReader D) (start : Nat) :
    CleanBatch file entries r start := by
  apply hl.safeRanges
  intro range hrange
  obtain ⟨-, hlt, hstop⟩ := groupContiguous_missing hrange
  rw [hl.described.blockCount] at hstop
  exact ⟨hlt, by omega⟩

variable {isPgzf : Bool} {size : Nat} {r : PgzfReader D}

/-- On such a file a session without raw reads meets no short member. -/
theorem Laid.passes (hl : Laid D file entries raws blocks) (hs : Scanned isPgzf (some entries) size)
    (h : Opened file isPgzf (some entries) size r) {calls : List InputCall}
    (hcalls : ∀ call ∈ calls, call.InRange ∧ call ≠ .readOneRawBlock) :
    AllSteps (fun call => Prog.attempt (InputCall.run call)) (Passes file) r calls := by
  induction calls generalizing r with
  | nil => trivial
  | cons call rest ih =>
    obtain ⟨hrange, hraw⟩ := hcalls call List.mem_cons_self
    have hsame : ∀ {mid : PgzfReader D}, Opened file isPgzf (some entries) size mid →
        ∀ other, mid.index = some other →
        other = entries :=
          fun hmid other hother => (Option.some.inj (hmid.index_eq.symm.trans hother)).symm
    have hpass : Passes file r call := by
      cases call with
      | read n =>
        intro _
        have hseek : PassesSeek file r := by
          intro _ other i _ _ hother _ _ _ _
          obtain rfl := hsame h other hother
          exact hl.cleanBatch r i
        refine ⟨hseek, ?_⟩
        intro mid hmid other hother _ _ _ _ _
        have hpost := executePendingSeek_post hs h hseek
        rw [hmid] at hpost
        obtain rfl := hsame hpost other hother
        exact hl.cleanBatch mid _
      | seekToByte offset => trivial
      | readBlocks start count =>
        intro other hother hlt
        obtain rfl := hsame h other hother
        apply hl.noShort
        rw [← hl.described.blockCount]
        omega
      | readOneRawBlock => exact absurd rfl hraw
    refine ⟨hpass, ?_⟩
    intro answer mid hmid
    have hpost := InputCall.attempt_post hs h hrange hpass
    rw [show Prog.attempt call.run r = .ok answer mid from hmid] at hpost
    exact ih hpost.1 fun c hc => hcalls c (List.mem_cons_of_mem _ hc)

/-- A raw read in front of it meets none either, where the
source stands in front of a member that is not short. -/
theorem Laid.passes_raw (hl : Laid D file entries raws blocks)
    (hs : Scanned isPgzf (some entries) size) (h : Opened file isPgzf (some entries) size r)
    (hfront : ¬ ShortMember file r.inner.pos) {calls : List InputCall}
    (hcalls : ∀ call ∈ calls, call.InRange ∧ call ≠ .readOneRawBlock) :
    AllSteps (fun call => Prog.attempt (InputCall.run call)) (Passes file) r
      (.readOneRawBlock :: calls) := by
  refine ⟨hfront, ?_⟩
  intro answer mid hmid
  have hpost :=
    InputCall.attempt_post hs h (show InputCall.InRange .readOneRawBlock from trivial) hfront
  rw [show Prog.attempt InputCall.readOneRawBlock.run r = .ok answer mid from hmid] at hpost
  exact hl.passes hs hpost.1 hcalls

end Laid

/-! ### Samples -/

namespace Stored

theorem sample_groups :
    groupAt sampleFile 0 = some 82 ∧ tableAt sampleFile 82 = some ([⟨47, 2⟩, ⟨35, 2⟩], 53) ∧
    groupAt sampleFile 135 = some 81 ∧ tableAt sampleFile 216 = some ([⟨47, 2⟩, ⟨34, 1⟩], 53) ∧
      groupAt sampleFile 269 = none := by
  decide +kernel

theorem sample_scans {p c u : Nat} (h : Scans sampleFile p c u) :
    (p = 0 ∧ c = 0 ∧ u = 0) ∨ (p = 135 ∧ c = 135 ∧ u = 4) ∨ p = 269 := by
  obtain ⟨hgroup₁, htable₁, hgroup₂, htable₂, hend⟩ := sample_groups
  induction h with
  | start => exact .inl ⟨rfl, rfl, rfl⟩
  | group _ hgroup htable ih =>
    rcases ih with ⟨rfl, rfl, rfl⟩ | ⟨rfl, rfl, rfl⟩ | rfl
    · obtain rfl := Option.some.inj (hgroup.symm.trans hgroup₁)
      obtain ⟨rfl, rfl⟩ := Prod.mk.inj (Option.some.inj (htable.symm.trans htable₁))
      exact .inr (.inl ⟨rfl, rfl, rfl⟩)
    · obtain rfl := Option.some.inj (hgroup.symm.trans hgroup₂)
      obtain ⟨rfl, rfl⟩ := Prod.mk.inj (Option.some.inj (htable.symm.trans htable₂))
      exact .inr (.inr rfl)
    · rw [hend] at hgroup
      exact absurd hgroup (by simp)

theorem sample_scanFits : ScanFits sampleFile := by
  obtain ⟨hgroup₁, htable₁, hgroup₂, htable₂, hend⟩ := sample_groups
  intro p c u gc hscan hgroup
  rcases sample_scans hscan with ⟨rfl, rfl, rfl⟩ | ⟨rfl, rfl, rfl⟩ | rfl
  · obtain rfl := Option.some.inj (hgroup.symm.trans hgroup₁)
    refine ⟨by decide, fun entries zc htable => ?_⟩
    obtain ⟨rfl, rfl⟩ := Prod.mk.inj (Option.some.inj (htable.symm.trans htable₁))
    decide
  · obtain rfl := Option.some.inj (hgroup.symm.trans hgroup₂)
    refine ⟨by decide, fun entries zc htable => ?_⟩
    obtain ⟨rfl, rfl⟩ := Prod.mk.inj (Option.some.inj (htable.symm.trans htable₂))
    decide
  · rw [hend] at hgroup
    exact absurd hgroup (by simp)

theorem sample_laid : ∃ raws blocks, Laid deps sampleFile sampleIndex raws blocks := by
  obtain ⟨out, w, s', hrun, hbytes, hnew⟩ := sample_written
  obtain ⟨index, raws, hreader, hl, -⟩ := laid_written sample_withinLimits sample_codec hrun hnew
  have hindex := congrArg PgzfReader.index hreader
  obtain rfl : sampleIndex = index := Option.some.inj hindex
  rw [hbytes] at hl
  exact ⟨raws, _, hl⟩

def mixedCalls : List InputCall := [.readOneRawBlock, .seekToByte 3, .read 2, .readBlocks 1 2]

/-- The sample file with a `ZC` of 5 in its first member: less than the header it stands in. -/
def shortZc : Bytes := sampleFile.take 16 ++ [5, 0, 0, 0] ++ sampleFile.drop 20

def hugeGc : Bytes := sampleFile.take 159 ++ List.replicate 8 255 ++ sampleFile.drop 167

end Stored

theorem reader_answers_sample :
    ∃ s, new Stored.deps ⟨Stored.sampleFile,
      0, []⟩ = .ok (fresh Stored.deps Stored.sampleFile Stored.sampleIndex) s ∧
      ∃ answers r',
        (Stored.mixedCalls.mapM fun call => Prog.attempt (InputCall.run call)) Stored.sampleReader =
          .ok answers r' ∧ ∀ answer ∈ answers, ∀ block, answer = .ok (some block) →
            WellSized block := by
  obtain ⟨out, w, s', hrun, hbytes, hnew⟩ := Stored.sample_written
  obtain ⟨raws, blocks, hl⟩ := Stored.sample_laid
  rw [hbytes] at hnew
  have hanswers := (reader_answers Stored.deps Stored.sampleFile Stored.sample_scanFits 0).2
  rw [hnew] at hanswers
  rcases hanswers with ⟨e, s, herror⟩ | ⟨reader, s, hok, -, hsession⟩
  · exact absurd herror (by simp)
  obtain ⟨rfl, rfl⟩ := EStateM.Result.ok.inj hok
  refine ⟨_, hnew, hsession 1 64 none none Stored.mixedCalls ?_
    (by simp [Stored.mixedCalls, InputCall.InRange]) ?_⟩
  · intro entries hentries
    obtain rfl := Option.some.inj hentries
    decide +kernel
  have hs : Scanned true (some Stored.sampleIndex) 1 := by
    refine ⟨fun _ => rfl, fun entries h => ?_, fun entries h => ?_⟩
    all_goals
      obtain rfl := Option.some.inj h
      decide +kernel
  have hstart : Opened Stored.sampleFile true (some Stored.sampleIndex) 1 Stored.sampleReader :=
    ⟨⟨0, rfl⟩, rfl, rfl, rfl⟩
  apply hl.passes_raw hs hstart (by decide +kernel)
  simp [InputCall.InRange]

/-- A short member makes every kind of call panic
that reads it, and a huge `GC` makes `new` panic. -/
theorem hostile_input_panics :
    (∃ s, new Stored.deps ⟨Stored.shortZc,
      0, []⟩ = .ok (fresh Stored.deps Stored.shortZc Stored.sampleIndex) s) ∧
      (∀ call ∈ [InputCall.read 1, .readBlocks 0 1, .readOneRawBlock], ∃ message r',
        call.run (fresh Stored.deps Stored.shortZc Stored.sampleIndex) =
          .error (.panic message) r') ∧
      ∃ message s, new Stored.deps ⟨Stored.hugeGc, 0, []⟩ = .error (.panic message) s := by
  have hbuild : outcome (build ⟨Stored.shortZc, 0, []⟩) = .ok Stored.sampleIndex := by
    decide +kernel
  refine ⟨⟨_, new_eq (by decide +kernel) (build_of_outcome hbuild) 0⟩, ?_, ?_⟩
  · have hpanics : ∀ call ∈ [InputCall.read 1, .readBlocks 0 1, .readOneRawBlock],
        outcome (call.run (fresh Stored.deps Stored.shortZc Stored.sampleIndex)) =
          .error (.panic "range end index out of range for slice") := by
      decide +kernel
    intro call hcall
    exact ⟨_, exists_of_outcome_error (hpanics call hcall)⟩
  · have hoverflow : outcome (build ⟨Stored.hugeGc, 0, []⟩) =
        .error (.panic "attempt to add with overflow") := by
      decide +kernel
    obtain ⟨s, hpanic⟩ := exists_of_outcome_error hoverflow
    exact ⟨_, s, new_error (by decide +kernel) hpanic 0⟩

end Pgzf
