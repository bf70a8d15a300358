import Pgzf.ScanU64

/-!
# The scan ends

A turn of the scan moves forwards, since `GC` is not zero, so there are no more turns than bytes.
What can go wrong is a sum: the place of an index member is that of its group plus a `GC` that may
be any `u64` value.
-/

namespace Pgzf

open PgzfIndex Program

variable {file : Bytes}

/-- `build` comes to an end with an index or an error, each of its turns starts behind the one
before, and the places it looks for are `u64` values. -/
structure ScanEnds (file : Bytes) : Prop where
  returns : ∀ q, (∃ index s, buildU64 ⟨file, q, []⟩ = .ok index s) ∨
    ∃ e s, buildU64 ⟨file, q, []⟩ = .error (.error e) s
  finite : ∀ groups p acc, Turns file groups p acc → groups.length ≤ file.length
  progress : ∀ groups p acc acc' s, Turns file groups p acc →
    turnU64 acc ⟨file, p, []⟩ = .ok (some acc') s → p < s.pos
  places : ∀ groups p acc gc, Turns file groups p acc → groupAt file p = some gc → p + gc < 2 ^ 64 ∧
    ∀ entries zc, tableAt file (p + gc) = some (entries, zc) → p + gc + zc < 2 ^ 64

/-- No group the scan comes to has a `GC` that leads out of the `u64` values, and the sizes its
tables list do not add up to more than one. -/
def GroupsFit (file : Bytes) : Prop :=
  ∀ p c u gc, Scans file p c u → groupAt file p = some gc → gc < 2 ^ 64 - p ∧
    ∀ entries zc, tableAt file (p + gc) = some (entries, zc) →
      c + (entries.map fun e => e.compressedSize.toNat).sum + zc < 2 ^ 64 ∧
        u + (entries.map fun e => e.uncompressedSize.toNat).sum < 2 ^ 64

/-! ### Progress -/

theorem Turns.lt {groups : List ScannedGroup} {p : Nat} {acc acc' : Scan} {s : Source}
    (h : Turns file groups p acc) (hturn : turnU64 acc ⟨file, p, []⟩ = .ok (some acc') s) :
    p < s.pos ∧ begHeaderSize ≤ file.length - p := by
  obtain ⟨g, rfl, hin, -, -, rfl⟩ := of_turnU64_some h.turned.fits hturn
  obtain ⟨hpos, hroom⟩ := of_groupAt hin.1
  refine ⟨?_, hroom⟩
  simp only [ScannedGroup.stop]
  omega

theorem Turns.length_le {groups : List ScannedGroup} {p : Nat} {acc : Scan}
    (h : Turns file groups p acc) :
    groups.length ≤ file.length := by
  cases h with
  | start => exact Nat.zero_le _
  | turn hturns hturn _ _ =>
    have hbefore := hturns.turned.length_le
    have hroom := (hturns.lt hturn).2
    rw [begHeaderSize] at hroom
    rw [List.length_append, List.length_singleton]
    omega

/-! ### The two descriptions of the scan -/

theorem Turns.scans {groups : List ScannedGroup} {p : Nat} {acc : Scan}
    (h : Turns file groups p acc) :
    Scans file p acc.cumC acc.cumU := by
  induction h with
  | start => exact .start
  | turn hturns hturn _ _ ih =>
    obtain ⟨g, rfl, hin, -, rfl, rfl⟩ := of_turnU64_some hturns.turned.fits hturn
    exact ih.group hin.1 hin.2

theorem Turns.not_panics {groups : List ScannedGroup} {p : Nat} {acc : Scan}
    (h : Turns file groups p acc)
    (hreturns : (∃ index s, buildU64 ⟨file, 0, []⟩ = .ok index s) ∨
      ∃ e s, buildU64 ⟨file, 0, []⟩ = .error (.error e) s)
    {message : String} {s : Source} : turnU64 acc ⟨file, p, []⟩ ≠ .error (.panic message) s := by
  intro hpanic
  have hfuel : file.length + 1 = (file.length - groups.length + 1) + groups.length := by
    have := h.length_le
    omega
  have hbuild : buildU64 ⟨file, 0, []⟩ = .error (.panic message) s := by
    rw [buildU64, bind_ok (Source.seekStart_apply _ _ _), bind_ok (get_apply _)]
    simp only
    rw [hfuel]
    exact bind_error ((h.buildLoopU64_eq _).trans (by rw [buildLoopU64, bind_error hpanic]))
  rw [hbuild] at hreturns
  rcases hreturns with ⟨index, s', h'⟩ | ⟨e, s', h'⟩
  · exact absurd h' (by simp)
  · exact absurd h' (by simp)

theorem exists_in {p gc zc : Nat} {entries : List IndexEntry} (hgroup : groupAt file p = some gc)
    (htable : tableAt file (p + gc) = some (entries, zc)) :
    ∃ g : ScannedGroup, g.start = p ∧ g.In file ∧ g.gc = gc ∧ g.entries = entries ∧
      g.zc.toNat = zc := by
  obtain ⟨-, idxZc, -, -, -, rfl⟩ := readIdx_some (q := 0) htable
  exact ⟨⟨p, gc, entries, idxZc⟩, rfl, ⟨hgroup, htable⟩, rfl, rfl, rfl⟩

theorem turns_of_scans
    (hreturns : (∃ index s, buildU64 ⟨file, 0, []⟩ = .ok index s) ∨
      ∃ e s, buildU64 ⟨file, 0, []⟩ = .error (.error e) s)
    {p c u : Nat} (h : Scans file p c u) :
    ∃ groups acc, Turns file groups p acc ∧ acc.cumC = c ∧ acc.cumU = u := by
  induction h with
  | start => exact ⟨[], .empty, .start, rfl, rfl⟩
  | group _ hgroup htable ih =>
    obtain ⟨groups, acc, hturns, rfl, rfl⟩ := ih
    obtain ⟨g, rfl, hin, rfl, rfl, rfl⟩ := exists_in hgroup htable
    rcases turnU64_group hturns.turned.fits hin with ⟨-, hturn⟩ | ⟨-, message, s, hpanic⟩
    · exact ⟨_, _, hturns.turn hturn rfl hin, rfl, rfl⟩
    · exact absurd hpanic (hturns.not_panics hreturns)

/-! ### Where the sums fit -/

theorem of_tableAt {p zc : Nat} {entries : List IndexEntry}
    (h : tableAt file p = some (entries, zc)) :
    p ≤ file.length ∧ zc < 2 ^ 32 := by
  rw [tableAt] at h
  split at h
  · exact absurd h (by simp)
  · by_cases hthere : p ≤ file.length
    · refine ⟨hthere, ?_⟩
      split at h
      · rw [← (Prod.mk.inj (Option.some.inj h)).2]
        exact UInt32.toNat_lt _
      · exact absurd h (by simp)
    · rw [if_neg fun h => ?_] at h
      · exact absurd h (by simp)
      · have hroom := h.1
        rw [idxHeaderBaseSize] at hroom
        omega

theorem GroupsFit.takes (h : GroupsFit file) (hmemory : file.length < 2 ^ 63)
    {groups : List ScannedGroup} {p : Nat} {acc : Scan} (hturns : Turns file groups p acc)
    {gc : Nat} (hgroup : groupAt file p = some gc) :
    p + gc < 2 ^ 64 ∧ ∀ g : ScannedGroup, g.start = p → g.In file → acc.Takes g := by
  obtain ⟨hgc, hsums⟩ := h _ _ _ _ hturns.scans hgroup
  refine ⟨by omega, ?_⟩
  rintro g rfl hin
  obtain rfl := Option.some.inj (hgroup.symm.trans hin.1)
  obtain ⟨hroom, hzc⟩ := of_tableAt hin.2
  refine ⟨hsums _ _ hin.2, ?_, ?_⟩
  · have := hturns.length_le
    rw [hturns.turned.count]
    omega
  · rw [ScannedGroup.stop]
    omega

theorem GroupsFit.buildLoopU64_returns (h : GroupsFit file) (hmemory : file.length < 2 ^ 63)
    {fuel : Nat} {groups : List ScannedGroup} {p : Nat} {acc : Scan}
    (hturns : Turns file groups p acc) (hfuel : file.length - p < fuel) :
    (∃ acc' s, buildLoopU64 fuel acc ⟨file, p, []⟩ = .ok acc' s) ∨
      ∃ e s, buildLoopU64 fuel acc ⟨file, p, []⟩ = .error (.error e) s := by
  induction fuel generalizing groups p acc with
  | zero => exact absurd hfuel (Nat.not_lt_zero _)
  | succ fuel ih =>
    have hturn := turnU64_turn file hturns.turned.fits p
    rw [buildLoopU64]
    generalize hresult : turnU64 acc ⟨file, p, []⟩ = result at hturn
    cases hturn with
    | stops _ =>
      rw [bind_ok hresult]
      exact .inl ⟨_, _, rfl⟩
    | enters hstart hin _ =>
      have hlt := hturns.lt hresult
      rw [bind_ok hresult]
      refine ih (hturns.turn hresult hstart hin) ?_
      obtain ⟨hforwards, hroom⟩ := hlt
      rw [begHeaderSize] at hroom
      simp only at hforwards
      omega
    | fails _ _ =>
      rw [bind_error hresult]
      exact .inr ⟨_, _, rfl⟩
    | overflows hgroup hover =>
      obtain ⟨hplace, htakes⟩ := h.takes hmemory hturns hgroup
      rcases hover with hover | ⟨g, hstart, hin, hnot⟩
      · exact absurd hplace (Nat.not_lt.mpr hover)
      · exact absurd (htakes g hstart hin) hnot

theorem ScanEnds.groupsFit (h : ScanEnds file) : GroupsFit file := by
  intro p c u gc hscan hgroup
  obtain ⟨groups, acc, hturns, rfl, rfl⟩ := turns_of_scans (h.returns 0) hscan
  have hplace := (h.places _ _ _ _ hturns hgroup).1
  refine ⟨by omega, fun entries zc htable => ?_⟩
  obtain ⟨g, rfl, hin, rfl, rfl, rfl⟩ := exists_in hgroup htable
  rcases turnU64_group hturns.turned.fits hin with ⟨htakes, -⟩ | ⟨-, message, s, hpanic⟩
  · exact htakes.sums
  · exact absurd hpanic (hturns.not_panics (h.returns 0))

/-- The scan of a file in memory ends, and moves forwards, exactly where its groups fit. -/
theorem scan_ends_iff (hmemory : file.length < 2 ^ 63) : ScanEnds file ↔ GroupsFit file := by
  refine ⟨ScanEnds.groupsFit, fun h => ⟨fun q => ?_, fun _ _ _ => Turns.length_le, ?_, ?_⟩⟩
  · have hfuel : file.length - 0 < file.length + 1 := Nat.lt_succ_of_le (Nat.sub_le _ _)
    rw [buildU64, bind_ok (Source.seekStart_apply _ _ _), bind_ok (get_apply _)]
    rcases h.buildLoopU64_returns hmemory .start hfuel with ⟨acc, s, hloop⟩ | ⟨e, s, hloop⟩
    · exact .inl ⟨_, _, bind_ok hloop⟩
    · exact .inr ⟨_, _, bind_error hloop⟩
  · intro groups p acc acc' s hturns hturn
    exact (hturns.lt hturn).1
  · intro groups p acc gc hturns hgroup
    obtain ⟨hplace, htakes⟩ := h.takes hmemory hturns hgroup
    refine ⟨hplace, fun entries zc htable => ?_⟩
    obtain ⟨g, rfl, hin, rfl, -, rfl⟩ := exists_in hgroup htable
    exact (htakes g rfl hin).stop

theorem ScanFits.groupsFit (h : ScanFits file) : GroupsFit file := by
  intro p c u gc hscan hgroup
  obtain ⟨hplace, hnext⟩ := h p c u gc hscan hgroup
  exact ⟨by omega, fun entries zc htable => (hnext entries zc htable).2⟩

theorem scan_ends_sample : ScanEnds Stored.sampleFile :=
  (scan_ends_iff (by decide +kernel)).mpr Stored.sample_scanFits.groupsFit

/-- The sample file with a `GC` in its second group from which a sum that wraps would lead back to
the index member of the first group, and from there to the second group again. -/
def Stored.backwardsGc : Bytes := sampleFile.take 159 ++ u64Bytes (0 - 53) ++ sampleFile.drop 167

theorem scan_overflows : Stored.backwardsGc.length < 2 ^ 63 ∧
    (∃ s, buildU64 ⟨Stored.backwardsGc, 0, []⟩ = .error (.panic "attempt to add with overflow") s) ∧
      ¬ ScanEnds Stored.backwardsGc := by
  have hoverflow : outcome (buildU64 ⟨Stored.backwardsGc, 0, []⟩) =
      .error (.panic "attempt to add with overflow") := by
    decide +kernel
  obtain ⟨s, hpanic⟩ := exists_of_outcome_error hoverflow
  refine ⟨by decide +kernel, ⟨s, hpanic⟩, fun h => ?_⟩
  rcases h.returns 0 with ⟨index, s', hbuild⟩ | ⟨e, s', hbuild⟩
  · rw [hpanic] at hbuild
    exact absurd hbuild (by simp)
  · rw [hpanic] at hbuild
    exact absurd hbuild (by simp)

end Pgzf
