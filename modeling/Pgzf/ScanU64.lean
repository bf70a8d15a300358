import Pgzf.Hostile

/-!
# `build` with its sums in 64 bits

`build` adds up sizes in `cum_c` and `cum_u` and counts the groups. `buildU64` is `build` with each
of these sums, like the positions, a sum of `u64` values; what it returns `build` returns.
`turnU64_cases` says what one turn of its loop does on any file.
-/

namespace Pgzf

open PgzfIndex Program

variable {file : Bytes} {p q : Nat} {acc : PgzfIndex.Scan}

namespace PgzfIndex

/-! ### Operations of the source -/

def Scan.pushU64 (ixData : Bytes) (acc : Scan) (i : Nat) : Prog Source Scan := do
  let entry := entryAt ixData (i * 8)
  let cumC ← addU64 acc.cumC entry.compressedSize.toNat
  let cumU ← addU64 acc.cumU entry.uncompressedSize.toNat
  return { Scan.push ixData acc i with cumC := cumC, cumU := cumU }

def scanIdxU64 (idxStart : Nat) (acc : Scan) : Prog Source Scan := do
  let (ixData, numEntries, idxZc) ← readIdx idxStart
  let acc ← (List.range numEntries).foldlM (Scan.pushU64 ixData) acc
  let cumC ← addU64 acc.cumC idxZc.toNat
  let groupCount ← addU64 acc.groupCount 1
  Source.seekStart (← addU64 idxStart idxZc.toNat)
  return { acc with cumC := cumC, groupCount := groupCount }

def scanGroupU64 (groupStart : Nat) (begBuf : Bytes) (acc : Scan) : Prog Source (Option Scan) := do
  let (flg, xfl) ← Prog.ofExcept (validateGzipHeader begBuf)
  if !isPgzfMember flg xfl then
    throw (.error (.invalidFormat "not a PGZF file"))
  else
    let gc := readU64Le (slice begBuf gcValueOffset (gcValueOffset + 8))
    if gc = 0 then
      return none
    else
      let idxStart ← addU64 groupStart gc.toNat
      return some (← scanIdxU64 idxStart acc)

/-- One turn of the loop: nothing where the loop ends. -/
def turnU64 (acc : Scan) : Prog Source (Option Scan) := do
  match ← Prog.attempt Source.streamPosition with
  | .error _ => return none
  | .ok groupStart =>
    match ← Prog.attempt (Source.readExact begHeaderSize) with
    | .error (.io e) => if e.kind = .unexpectedEof then return none else throw (.error (.io e))
    | .error e => throw (.error e)
    | .ok begBuf => scanGroupU64 groupStart begBuf acc

def buildLoopU64 : Nat → Scan → Prog Source Scan
  | 0, _ => throw .diverges
  | fuel + 1, acc => do
    match ← turnU64 acc with
    | none => return acc
    | some acc => buildLoopU64 fuel acc

def Scan.empty : Scan := ⟨[], [], [], 0, 0, 0⟩

def Scan.finish (acc : Scan) : PgzfIndex :=
  ⟨acc.blocks, acc.compressedOffsets ++ [acc.cumC], acc.uncompressedOffsets ++ [acc.cumU],
    acc.groupCount⟩

def buildU64 : Prog Source PgzfIndex := do
  Source.seekStart 0
  let acc ← buildLoopU64 ((← get).bytes.length + 1) .empty
  return acc.finish

/-! ### What it returns, `build` returns -/

theorem Scan.le_foldl_push (ixData : Bytes) (indices : List Nat) (acc : Scan) :
    acc.cumC ≤ (indices.foldl (Scan.push ixData) acc).cumC ∧
      acc.cumU ≤ (indices.foldl (Scan.push ixData) acc).cumU := by
  induction indices generalizing acc with
  | nil => exact ⟨Nat.le_refl _, Nat.le_refl _⟩
  | cons i rest ih =>
    obtain ⟨hC, hU⟩ := ih (Scan.push ixData acc i)
    exact ⟨Nat.le_trans (Nat.le_add_right _ _) hC, Nat.le_trans (Nat.le_add_right _ _) hU⟩

def Scan.Fits (acc : Scan) : Prop := acc.cumC < 2 ^ 64 ∧ acc.cumU < 2 ^ 64

theorem Scan.pushU64_of_fits {ixData : Bytes} {i : Nat} (h : (Scan.push ixData acc i).Fits)
    (s : Source) :
    Scan.pushU64 ixData acc i s = .ok (Scan.push ixData acc i) s := by
  rw [Scan.pushU64]
  simp only
  rw [bind_ok (addU64_of_lt h.1 s), bind_ok (addU64_of_lt h.2 s)]
  rfl

theorem Scan.pushU64_of_not_fits {ixData : Bytes} {i : Nat} (h : ¬ (Scan.push ixData acc i).Fits)
    (s : Source) :
    Scan.pushU64 ixData acc i s = .error (.panic "attempt to add with overflow") s := by
  rw [Scan.pushU64]
  simp only
  by_cases hC : (Scan.push ixData acc i).cumC < 2 ^ 64
  · have hU : 2 ^ 64 ≤ (Scan.push ixData acc i).cumU := Nat.not_lt.mp fun hU => h ⟨hC, hU⟩
    rw [bind_ok (addU64_of_lt hC s), bind_error (addU64_of_le hU s)]
  · rw [bind_error (addU64_of_le (Nat.not_lt.mp hC) s)]

/-- The sums only grow, so the loop over the entries ends where its last sums fit. -/
theorem Scan.foldlM_pushU64_of_fits (acc : Scan) (ixData : Bytes) (indices : List Nat)
    (h : (indices.foldl (Scan.push ixData) acc).Fits) (s : Source) :
    indices.foldlM (Scan.pushU64 ixData) acc s = .ok (indices.foldl (Scan.push ixData) acc) s := by
  induction indices generalizing acc with
  | nil => rfl
  | cons i rest ih =>
    obtain ⟨hC, hU⟩ := Scan.le_foldl_push ixData rest (Scan.push ixData acc i)
    have hfirst : (Scan.push ixData acc i).Fits :=
      ⟨Nat.lt_of_le_of_lt hC h.1, Nat.lt_of_le_of_lt hU h.2⟩
    rw [List.foldlM_cons, bind_ok (Scan.pushU64_of_fits hfirst s)]
    exact ih _ h

theorem Scan.foldlM_pushU64_of_not_fits (ixData : Bytes) (indices : List Nat) (hacc : acc.Fits)
    (h : ¬ (indices.foldl (Scan.push ixData) acc).Fits) (s : Source) :
    indices.foldlM (Scan.pushU64 ixData) acc s =
      .error (.panic "attempt to add with overflow") s := by
  induction indices generalizing acc with
  | nil => exact absurd hacc h
  | cons i rest ih =>
    rw [List.foldlM_cons]
    by_cases hfirst : (Scan.push ixData acc i).Fits
    · rw [bind_ok (Scan.pushU64_of_fits hfirst s)]
      exact ih hfirst h
    · rw [bind_error (Scan.pushU64_of_not_fits hfirst s)]

theorem Scan.of_foldlM_pushU64_ok {ixData : Bytes} {indices : List Nat} {acc acc' : Scan}
    {s s' : Source} (h : indices.foldlM (Scan.pushU64 ixData) acc s = .ok acc' s') :
    acc' = indices.foldl (Scan.push ixData) acc ∧ s' = s := by
  induction indices generalizing acc s with
  | nil =>
    obtain ⟨rfl, rfl⟩ := EStateM.Result.ok.inj h
    exact ⟨rfl, rfl⟩
  | cons i rest ih =>
    rw [List.foldlM_cons] at h
    by_cases hfirst : (Scan.push ixData acc i).Fits
    · rw [bind_ok (Scan.pushU64_of_fits hfirst s)] at h
      exact ih h
    · rw [bind_error (Scan.pushU64_of_not_fits hfirst s)] at h
      exact absurd h (by simp)

theorem scanIdx_of_U64 {idxStart : Nat} {acc acc' : Scan} {s s' : Source}
    (h : scanIdxU64 idxStart acc s = .ok acc' s') :
    scanIdx idxStart acc s = .ok acc' s' := by
  rw [scanIdxU64] at h
  obtain ⟨⟨ixData, numEntries, idxZc⟩, mid, hread, hsums⟩ := of_bind_ok h
  obtain ⟨acc₁, mid₁, hfold, hzc⟩ := of_bind_ok hsums
  obtain ⟨rfl, rfl⟩ := Scan.of_foldlM_pushU64_ok hfold
  obtain ⟨cumC, mid₂, hcumC, hgroup⟩ := of_bind_ok hzc
  obtain ⟨rfl, hC⟩ := of_addU64_ok hcumC
  obtain rfl := (EStateM.Result.ok.inj ((addU64_of_lt hC mid₂).symm.trans hcumC)).1
  obtain ⟨groupCount, mid₃, hcount, hnext⟩ := of_bind_ok hgroup
  obtain ⟨rfl, hlast⟩ := of_addU64_ok hcount
  obtain rfl := (EStateM.Result.ok.inj ((addU64_of_lt hlast mid₃).symm.trans hcount)).1
  rw [scanIdx_eq, bind_ok hread]
  exact hnext

theorem scanGroup_of_U64 {groupStart : Nat} {begBuf : Bytes} {acc : Scan} {found : Option Scan}
    {s s' : Source} (h : scanGroupU64 groupStart begBuf acc s = .ok found s') :
    scanGroup groupStart begBuf acc s = .ok found s' := by
  rw [scanGroupU64] at h
  rw [scanGroup]
  obtain ⟨⟨flg, xfl⟩, mid, hvalid, h⟩ := of_bind_ok h
  rw [bind_ok hvalid]
  simp only at h ⊢
  by_cases hmember : (!isPgzfMember flg xfl) = true
  · rw [if_pos hmember] at h
    exact absurd h (by simp)
  rw [if_neg hmember] at h ⊢
  by_cases hzero : readU64Le (slice begBuf gcValueOffset (gcValueOffset + 8)) = 0
  · rw [if_pos hzero] at h ⊢
    exact h
  · rw [if_neg hzero] at h ⊢
    obtain ⟨idxStart, mid', hidx, hgroup⟩ := of_bind_ok h
    obtain ⟨acc', mid'', hscan, hnext⟩ := of_bind_ok hgroup
    rw [bind_ok hidx, bind_ok (scanIdx_of_U64 hscan)]
    exact hnext

theorem buildLoop_of_U64 {fuel : Nat} {acc acc' : Scan} {s s' : Source}
    (h : buildLoopU64 fuel acc s = .ok acc' s') :
    buildLoop fuel acc s = .ok acc' s' := by
  induction fuel generalizing acc s with
  | zero => exact absurd h (by simp [buildLoopU64])
  | succ fuel ih =>
    rw [buildLoopU64, turnU64] at h
    rw [buildLoop]
    obtain ⟨found, mid, hturn, h⟩ := of_bind_ok h
    obtain ⟨start, mid₁, hstart, hturn⟩ := of_bind_ok hturn
    rw [bind_ok hstart]
    cases start with
    | error e =>
      obtain ⟨rfl, rfl⟩ := EStateM.Result.ok.inj hturn
      exact h
    | ok groupStart =>
      obtain ⟨header, mid₂, hheader, hturn⟩ := of_bind_ok hturn
      simp only
      rw [bind_ok hheader]
      cases header with
      | error e =>
        cases e with
        | io e =>
          simp only at hturn ⊢
          by_cases heof : e.kind = .unexpectedEof
          · rw [if_pos heof] at hturn ⊢
            obtain ⟨rfl, rfl⟩ := EStateM.Result.ok.inj hturn
            exact h
          · rw [if_neg heof] at hturn
            exact absurd hturn (by simp)
        | _ => exact absurd hturn (by simp)
      | ok begBuf =>
        simp only at hturn ⊢
        rw [bind_ok (scanGroup_of_U64 hturn)]
        cases found with
        | none => exact h
        | some acc₁ => exact ih h

theorem build_of_U64 {index : PgzfIndex} {s s' : Source} (h : buildU64 s = .ok index s') :
    build s = .ok index s' := by
  rw [buildU64] at h
  rw [build]
  obtain ⟨_, mid, hseek, h⟩ := of_bind_ok h
  rw [bind_ok hseek]
  obtain ⟨device, mid₁, hget, h⟩ := of_bind_ok h
  rw [bind_ok hget]
  obtain ⟨acc, mid₂, hloop, h⟩ := of_bind_ok h
  have hmodel := buildLoop_of_U64 hloop
  rw [Scan.empty] at hmodel
  rw [bind_ok hmodel]
  exact h

end PgzfIndex

/-! ### One turn -/

/-- A group as the scan finds it: where it starts, its `GC`,
the table of its index member and the `ZC` of that. -/
structure ScannedGroup where
  start : Nat
  gc : Nat
  entries : List IndexEntry
  zc : UInt32

namespace ScannedGroup

def In (file : Bytes) (g : ScannedGroup) : Prop :=
  groupAt file g.start = some g.gc ∧ tableAt file (g.start + g.gc) = some (g.entries, g.zc.toNat)

def stop (g : ScannedGroup) : Nat := g.start + g.gc + g.zc.toNat

end ScannedGroup

namespace PgzfIndex

def Scan.enter (acc : Scan) (g : ScannedGroup) : Scan := acc.addTable g.entries g.zc

structure Scan.Takes (acc : Scan) (g : ScannedGroup) : Prop where
  sums : (acc.enter g).Fits
  count : acc.groupCount + 1 < 2 ^ 64
  stop : g.stop < 2 ^ 64

theorem scanIdxU64_enter {g : ScannedGroup} (hacc : acc.Fits)
    (htable : tableAt file (g.start + g.gc) = some (g.entries, g.zc.toNat)) :
    (acc.Takes g → scanIdxU64 (g.start + g.gc) acc ⟨file, q, []⟩ = .ok (acc.enter g) ⟨file,
      g.stop, []⟩) ∧
      (¬ acc.Takes g → ∃ s, scanIdxU64 (g.start + g.gc) acc ⟨file, q, []⟩ =
        .error (.panic "attempt to add with overflow") s) := by
  obtain ⟨ixData, idxZc, q', hread, hentries, hzc⟩ := readIdx_some (q := q) htable
  obtain rfl := UInt32.toNat_inj.mp hzc
  have hfold : (List.range (ixData.length / 8)).foldl (Scan.push ixData) acc =
      acc.addEntries g.entries := by
    rw [foldl_push_table, hentries]
  have hpush := Scan.foldlM_pushU64_of_fits acc ixData (List.range (ixData.length / 8))
  have hpush' := Scan.foldlM_pushU64_of_not_fits ixData (List.range (ixData.length / 8)) hacc
  rw [hfold] at hpush hpush'
  have hcount : (acc.addEntries g.entries).groupCount = acc.groupCount := rfl
  have hsumC : (acc.enter g).cumC = (acc.addEntries g.entries).cumC + g.zc.toNat := rfl
  have hsumU : (acc.enter g).cumU = (acc.addEntries g.entries).cumU := rfl
  rw [scanIdxU64, bind_ok hread]
  simp only
  constructor
  · rintro ⟨hsums, hlast, hstop⟩
    have hfits : (acc.addEntries g.entries).Fits := ⟨by have := hsums.1; omega, hsumU ▸ hsums.2⟩
    rw [bind_ok (hpush hfits _), bind_ok (addU64_of_lt (hsumC ▸ hsums.1) _),
      bind_ok (addU64_of_lt (hcount ▸ hlast) _),
      bind_ok (addU64_of_lt hstop _), bind_ok (Source.seekStart_apply _ _ _)]
    rfl
  · intro hnot
    by_cases hfits : (acc.addEntries g.entries).Fits
    · rw [bind_ok (hpush hfits _)]
      by_cases hC : (acc.addEntries g.entries).cumC + g.zc.toNat < 2 ^ 64
      · rw [bind_ok (addU64_of_lt hC _)]
        by_cases hlast : (acc.addEntries g.entries).groupCount + 1 < 2 ^ 64
        · have hstop : 2 ^ 64 ≤ g.start + g.gc + g.zc.toNat :=
            Nat.not_lt.mp fun hstop => hnot ⟨⟨hC, hfits.2⟩, hlast, hstop⟩
          rw [bind_ok (addU64_of_lt hlast _), bind_error (addU64_of_le hstop _)]
          exact ⟨_, rfl⟩
        · rw [bind_error (addU64_of_le (Nat.not_lt.mp hlast) _)]
          exact ⟨_, rfl⟩
      · rw [bind_error (addU64_of_le (Nat.not_lt.mp hC) _)]
        exact ⟨_, rfl⟩
    · rw [bind_error (hpush' hfits _)]
      exact ⟨_, rfl⟩

inductive TurnAt (file : Bytes) (p : Nat) (acc : Scan) :
    EStateM.Result Fault Source (Option Scan) → Prop
  | stops {s : Source} : groupAt file p = none → TurnAt file p acc (.ok none s)
  | enters {g : ScannedGroup} : g.start = p → g.In file → acc.Takes g →
      TurnAt file p acc (.ok (some (acc.enter g)) ⟨file, g.stop, []⟩)
  | fails {e : PgzfError} {s : Source} : (∀ g : ScannedGroup, g.start = p → ¬ g.In file) →
      (∀ gc, groupAt file p = some gc → p + gc < 2 ^ 64) → TurnAt file p acc (.error (.error e) s)
  | overflows {gc : Nat} {message : String} {s : Source} : groupAt file p = some gc →
      (2 ^ 64 ≤ p + gc ∨ ∃ g : ScannedGroup, g.start = p ∧ g.In file ∧ ¬ acc.Takes g) →
        TurnAt file p acc (.error (.panic message) s)

theorem scanGroupU64_some {gc : Nat} (hgroup : groupAt file p = some gc) (s : Source) :
    scanGroupU64 p ((file.drop p).take begHeaderSize) acc s =
      (do return some (← scanIdxU64 (← addU64 p gc) acc) : Prog Source (Option Scan)) s := by
  rw [groupAt] at hgroup
  rw [scanGroupU64]
  cases hvalid : validateGzipHeader ((file.drop p).take begHeaderSize) with
  | error e =>
    rw [hvalid] at hgroup
    exact absurd hgroup (by simp)
  | ok header =>
    obtain ⟨flg, xfl⟩ := header
    rw [hvalid] at hgroup
    simp only at hgroup
    split at hgroup
    · rename_i hthere
      obtain ⟨-, hmember, hzero⟩ := hthere
      obtain rfl := Option.some.inj hgroup
      rw [bind_ok (Prog.ofExcept_ok _ _)]
      simp only [hmember, Bool.not_true, Bool.false_eq_true, if_false]
      rw [if_neg hzero]
    · exact absurd hgroup (by simp)

theorem scanGroupU64_none (hnone : groupAt file p = none) (hroom : begHeaderSize ≤ file.length - p)
    (s : Source) :
    scanGroupU64 p ((file.drop p).take begHeaderSize) acc s = .ok none s ∨
      ∃ e, scanGroupU64 p ((file.drop p).take begHeaderSize) acc s = .error (.error e) s := by
  rw [groupAt] at hnone
  rw [scanGroupU64]
  cases hvalid : validateGzipHeader ((file.drop p).take begHeaderSize) with
  | error e => exact .inr ⟨e, rfl⟩
  | ok header =>
    obtain ⟨flg, xfl⟩ := header
    rw [hvalid] at hnone
    simp only [hroom, true_and] at hnone
    rw [bind_ok (Prog.ofExcept_ok _ _)]
    by_cases hmember : isPgzfMember flg xfl = true
    · simp only [hmember, Bool.not_true, Bool.false_eq_true, if_false, true_and] at hnone ⊢
      split at hnone
      · exact absurd hnone (by simp)
      · rename_i hzero
        rw [if_pos (not_not.mp hzero)]
        exact .inl rfl
    · simp only [hmember, Bool.not_false, if_true]
      exact .inr ⟨_, rfl⟩

theorem scanGroupU64_turn (hacc : acc.Fits) (hroom : begHeaderSize ≤ file.length - p) :
    TurnAt file p acc (scanGroupU64 p ((file.drop p).take begHeaderSize) acc ⟨file, q, []⟩) := by
  cases hgroup : groupAt file p with
  | none =>
    rcases scanGroupU64_none hgroup hroom ⟨file, q, []⟩ with hstop | ⟨e, hfail⟩
    · rw [hstop]
      exact .stops hgroup
    · rw [hfail]
      apply TurnAt.fails
      · rintro g rfl hin
        exact absurd (hgroup.symm.trans hin.1) (by simp)
      · intro gc hsome
        exact absurd (hgroup.symm.trans hsome) (by simp)
  | some gc =>
    rw [scanGroupU64_some hgroup]
    by_cases hidx : p + gc < 2 ^ 64
    · rw [bind_ok (addU64_of_lt hidx _)]
      cases htable : tableAt file (p + gc) with
      | none =>
        obtain ⟨e, q', hread⟩ := readIdx_none (q := q) htable
        rw [scanIdxU64, bind_error (bind_error hread)]
        apply TurnAt.fails
        · rintro g rfl hin
          obtain rfl := Option.some.inj (hgroup.symm.trans hin.1)
          exact absurd (htable.symm.trans hin.2) (by simp)
        · intro gc' hsome
          obtain rfl := Option.some.inj (hgroup.symm.trans hsome)
          exact hidx
      | some table =>
        obtain ⟨entries, zc⟩ := table
        obtain ⟨-, idxZc, -, -, -, rfl⟩ := readIdx_some (q := q) htable
        have hin : ScannedGroup.In file ⟨p, gc, entries, idxZc⟩ := ⟨hgroup, htable⟩
        obtain ⟨henter, hpanic⟩ := scanIdxU64_enter (q := q) hacc hin.2
        by_cases htakes : acc.Takes ⟨p, gc, entries, idxZc⟩
        · rw [bind_ok (henter htakes)]
          exact .enters rfl hin htakes
        · obtain ⟨s, hpanic⟩ := hpanic htakes
          rw [bind_error hpanic]
          exact .overflows hgroup (.inr ⟨_, rfl, hin, htakes⟩)
    · rw [bind_error (addU64_of_le (Nat.not_lt.mp hidx) _)]
      exact .overflows hgroup (.inl (Nat.not_lt.mp hidx))

variable (file) in
theorem turnU64_turn (hacc : acc.Fits) (p : Nat) :
    TurnAt file p acc (turnU64 acc ⟨file, p, []⟩) := by
  rw [turnU64, bind_ok (Prog.attempt_ok (Source.streamPosition_apply _ _))]
  simp only
  by_cases hroom : begHeaderSize ≤ file.length - p
  · rw [bind_ok (Prog.attempt_ok (Source.readExact_ok hroom))]
    exact scanGroupU64_turn hacc hroom
  · rw [bind_ok (Prog.attempt_error (Source.readExact_eof (Nat.not_le.mp hroom)))]
    apply TurnAt.stops
    rw [groupAt]
    split
    · rfl
    · exact if_neg fun h => hroom h.1

end PgzfIndex

/-! ### The turns of a scan -/

/-- The loop of `build` enters these groups, one in each turn, and is then at `p`. -/
inductive Turns (file : Bytes) : List ScannedGroup → Nat → Scan → Prop
  | start : Turns file [] 0 .empty
  | turn {groups : List ScannedGroup} {g : ScannedGroup} {p : Nat} {acc acc' : Scan} {s : Source} :
    Turns file groups p acc →
      turnU64 acc ⟨file, p, []⟩ = .ok (some acc') s → g.start = p → g.In file →
        Turns file (groups ++ [g]) s.pos acc'

theorem ScannedGroup.In.unique {g g' : ScannedGroup} (h : g.In file) (h' : g'.In file)
    (hstart : g.start = g'.start) :
    g = g' := by
  obtain ⟨start, gc, entries, zc⟩ := g
  obtain ⟨start', gc', entries', zc'⟩ := g'
  obtain rfl : start = start' := hstart
  obtain rfl : gc = gc' := Option.some.inj (h.1.symm.trans h'.1)
  obtain ⟨rfl, hzc⟩ := Prod.mk.inj (Option.some.inj (h.2.symm.trans h'.2))
  obtain rfl := UInt32.toNat_inj.mp hzc
  rfl

theorem of_turnU64_some {acc acc' : Scan} {s : Source} (hacc : acc.Fits)
    (h : turnU64 acc ⟨file, p, []⟩ = .ok (some acc') s) :
    ∃ g : ScannedGroup, g.start = p ∧ g.In file ∧ acc.Takes g ∧ acc' = acc.enter g ∧
      s = ⟨file, g.stop, []⟩ := by
  have hturn := turnU64_turn file hacc p
  rw [h] at hturn
  cases hturn with
  | enters hstart hin htakes => exact ⟨_, hstart, hin, htakes, rfl, rfl⟩

theorem turnU64_group {g : ScannedGroup} (hacc : acc.Fits) (hin : g.In file) :
    (acc.Takes g ∧ turnU64 acc ⟨file, g.start, []⟩ = .ok (some (acc.enter g)) ⟨file, g.stop, []⟩) ∨
      (¬ acc.Takes g ∧ ∃ message s, turnU64 acc ⟨file, g.start,
        []⟩ = .error (.panic message) s) := by
  have hturn := turnU64_turn file hacc g.start
  generalize turnU64 acc ⟨file, g.start, []⟩ = result at hturn
  cases hturn with
  | stops hnone =>
    rw [hin.1] at hnone
    exact absurd hnone (by simp)
  | enters hstart hin' htakes =>
    obtain rfl := hin'.unique hin hstart
    exact .inl ⟨htakes, rfl⟩
  | fails hnowhere _ => exact absurd hin (hnowhere g rfl)
  | overflows hgroup hover =>
    refine .inr ⟨fun htakes => ?_, _, _, rfl⟩
    rcases hover with hover | ⟨g', hstart, hin', hnot⟩
    · obtain rfl := Option.some.inj (hin.1.symm.trans hgroup)
      have hstop := htakes.stop
      rw [ScannedGroup.stop] at hstop
      omega
    · obtain rfl := hin'.unique hin hstart
      exact hnot htakes

theorem of_groupAt {gc : Nat} (h : groupAt file p = some gc) :
    0 < gc ∧ begHeaderSize ≤ file.length - p := by
  rw [groupAt] at h
  split at h
  · exact absurd h (by simp)
  · rename_i flg xfl _
    by_cases hthere : begHeaderSize ≤ file.length - p ∧ isPgzfMember flg xfl = true ∧
        readU64Le (slice ((file.drop p).take begHeaderSize) gcValueOffset (gcValueOffset + 8)) ≠ 0
    · rw [if_pos hthere] at h
      rw [← Option.some.inj h]
      exact ⟨Nat.pos_of_ne_zero fun hzero => hthere.2.2 (UInt64.toNat_inj.mp hzero), hthere.1⟩
    · rw [if_neg hthere] at h
      exact absurd h (by simp)

structure Turned (groups : List ScannedGroup) (p : Nat) (acc : Scan) : Prop where
  fits : acc.Fits
  entered : acc = groups.foldl Scan.enter .empty
  count : acc.groupCount = groups.length
  length_le : groups.length ≤ p

theorem Turns.turned {groups : List ScannedGroup} {acc : Scan} (h : Turns file groups p acc) :
    Turned groups p acc := by
  induction h with
  | start => exact ⟨⟨by decide, by decide⟩, rfl, rfl, Nat.le_refl _⟩
  | turn _ hturn hstart hin ih =>
    obtain ⟨g', hstart', hin', htakes, rfl, rfl⟩ := of_turnU64_some ih.fits hturn
    obtain rfl := hin.unique hin' (hstart.trans hstart'.symm)
    have hpos := (of_groupAt hin.1).1
    refine ⟨htakes.sums, ?_, ?_, ?_⟩
    · rw [List.foldl_append, List.foldl_cons, List.foldl_nil, ← ih.entered]
    · rw [List.length_append, List.length_singleton, ← ih.count]
      rfl
    · rw [List.length_append, List.length_singleton]
      have := ih.length_le
      simp only [ScannedGroup.stop]
      omega

theorem Turns.buildLoopU64_eq {groups : List ScannedGroup} {acc : Scan}
    (h : Turns file groups p acc) (fuel : Nat) :
    buildLoopU64 (fuel + groups.length) .empty ⟨file, 0, []⟩ = buildLoopU64 fuel acc ⟨file,
      p, []⟩ := by
  induction h generalizing fuel with
  | start => rfl
  | turn hturns hturn _ _ ih =>
    obtain ⟨g', -, -, -, rfl, rfl⟩ := of_turnU64_some hturns.turned.fits hturn
    rw [List.length_append, List.length_singleton, Nat.add_comm _ 1, ← Nat.add_assoc, ih,
      buildLoopU64, bind_ok hturn]

end Pgzf
