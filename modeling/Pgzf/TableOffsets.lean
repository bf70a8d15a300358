import Pgzf.ScanEnds

/-!
# The offsets of an index and the places of the scan

The scan goes from group to group by their `GC`, and the offsets it stores are sums of the sizes the
tables list. The two are compared nowhere: the offsets are ahead of the places by what the tables of
the groups before list too much.
-/

namespace Pgzf

open PgzfIndex Program

variable {file : Bytes}

namespace ScannedGroup

def listed (g : ScannedGroup) : Nat := (g.entries.map fun e => e.compressedSize.toNat).sum

def Consistent (g : ScannedGroup) : Prop := g.listed = g.gc

def drift (groups : List ScannedGroup) : Int := (groups.map fun g => (g.listed : Int) - g.gc).sum

def blocksOf (groups : List ScannedGroup) : Nat := (groups.map fun g => g.entries.length).sum

theorem drift_append (groups : List ScannedGroup) (g : ScannedGroup) :
    drift (groups ++ [g]) = drift groups + (g.listed - g.gc) := by
  rw [drift, drift, List.map_append, List.sum_append, List.map_singleton, List.sum_singleton]

theorem drift_of_consistent {groups : List ScannedGroup} (h : ∀ g ∈ groups, g.Consistent) :
    drift groups = 0 := by
  apply List.sum_eq_zero
  intro d hd
  obtain ⟨g, hg, rfl⟩ := List.mem_map.mp hd
  rw [h g hg, sub_self]

end ScannedGroup

open ScannedGroup

/-- The index places the first block of every group where the scan has read its header, and ends
where the scan has ended. -/
structure OffsetsAgree (index : PgzfIndex) (groups : List ScannedGroup) (stop : Nat) : Prop where
  first : ∀ (before : List ScannedGroup) g after, groups = before ++ g :: after → g.entries ≠ [] →
    index.compressedOffset (blocksOf before) = some g.start
  total : index.totalCompressed = stop

/-! ### Locals and places -/

theorem Turns.cumC_eq {groups : List ScannedGroup} {p : Nat} {acc : Scan}
    (h : Turns file groups p acc) :
    (acc.cumC : Int) = p + drift groups := by
  induction h with
  | start => rfl
  | turn hturns hturn hstart hin ih =>
    obtain ⟨g', hstart', hin', -, rfl, rfl⟩ := of_turnU64_some hturns.turned.fits hturn
    obtain rfl := hin.unique hin' (hstart.trans hstart'.symm)
    subst hstart
    have hsum : ∀ (acc : Scan) (g : ScannedGroup), (acc.enter g).cumC = acc.cumC + g.listed +
      g.zc.toNat := fun _ _ => rfl
    rw [hsum, drift_append, ScannedGroup.stop]
    push_cast
    omega

theorem Turns.before {groups : List ScannedGroup} {p : Nat} {acc : Scan}
    (h : Turns file groups p acc) {before after : List ScannedGroup} {g : ScannedGroup}
    (hsplit : groups = before ++ g :: after) :
    Turns file before g.start (before.foldl Scan.enter .empty) := by
  induction h generalizing after with
  | start => exact absurd hsplit (by simp)
  | @turn groups g' p acc acc' s hturns hturn hstart hin ih =>
    rcases List.eq_nil_or_concat after with rfl | ⟨rest, last, rfl⟩
    · obtain ⟨rfl, hlast⟩ := List.append_inj' hsplit rfl
      obtain rfl := List.singleton_inj.mp hlast
      rw [hstart, ← hturns.turned.entered]
      exact hturns
    · rw [List.concat_eq_append, ← List.cons_append, ← List.append_assoc] at hsplit
      exact ih (List.append_inj' hsplit rfl).1

theorem Turns.same {groups groups' : List ScannedGroup} {p p' : Nat} {acc acc' : Scan}
    (h : Turns file groups p acc) (h' : Turns file groups' p' acc')
    (hlen : groups.length = groups'.length) : groups = groups' ∧ p = p' ∧ acc = acc' := by
  induction h generalizing groups' p' acc' with
  | start =>
    cases h' with
    | start => exact ⟨rfl, rfl, rfl⟩
    | turn => simp at hlen
  | turn _ hturn hstart hin ih =>
    cases h' with
    | start => simp at hlen
    | turn hbefore' hturn' hstart' hin' =>
      obtain ⟨rfl, rfl, rfl⟩ := ih hbefore' (by simpa using hlen)
      obtain rfl := hin.unique hin' (hstart.trans hstart'.symm)
      obtain ⟨hacc, rfl⟩ := EStateM.Result.ok.inj (hturn.symm.trans hturn')
      exact ⟨rfl, rfl, Option.some.inj hacc⟩

theorem Turns.take {groups : List ScannedGroup} {p : Nat} {acc : Scan} (h : Turns file groups p acc)
    {n : Nat} (hn : n < groups.length) : ∃ p' acc' acc'' s, Turns file (groups.take n) p' acc' ∧
      turnU64 acc' ⟨file, p', []⟩ = .ok (some acc'') s := by
  induction h with
  | start => exact absurd hn (Nat.not_lt_zero n)
  | @turn groups g p acc acc' s hturns hturn _ _ ih =>
    rw [List.length_append, List.length_singleton] at hn
    rcases Nat.lt_or_eq_of_le (Nat.le_of_lt_succ hn) with hlt | rfl
    · rw [List.take_append_of_le_length (Nat.le_of_lt hlt)]
      exact ih hlt
    · rw [List.take_left]
      exact ⟨p, acc, acc', s, hturns, hturn⟩

theorem Turns.longest {groups groups' : List ScannedGroup} {p p' : Nat} {acc acc' : Scan}
    {s : Source} (h : Turns file groups p acc) (hlast : turnU64 acc ⟨file, p, []⟩ = .ok none s)
    (h' : Turns file groups' p' acc') :
    groups'.length ≤ groups.length := by
  by_contra hlt
  obtain ⟨q, acc₁, acc₂, s', htaken, hturn⟩ := h'.take (Nat.not_le.mp hlt)
  obtain ⟨-, rfl, rfl⟩ := h.same htaken (by rw [List.length_take]; omega)
  exact absurd (hturn.symm.trans hlast) (by simp)

theorem Turns.unique {groups groups' : List ScannedGroup} {p p' : Nat} {acc acc' : Scan}
    {s s' : Source} (h : Turns file groups p acc) (hlast : turnU64 acc ⟨file, p, []⟩ = .ok none s)
    (h' : Turns file groups' p' acc') (hlast' : turnU64 acc' ⟨file, p', []⟩ = .ok none s') :
    groups = groups' ∧ p = p' ∧ acc = acc' :=
  h.same h' (Nat.le_antisymm (h'.longest hlast' h) (h.longest hlast h'))

theorem turns_two {g g' : ScannedGroup} (hin : g.In file) (hin' : g'.In file) (hstart : g.start = 0)
    (hnext : g'.start = g.stop) (htakes : Scan.empty.Takes g)
    (htakes' : (Scan.empty.enter g).Takes g') :
    Turns file [g, g'] g'.stop ((Scan.empty.enter g).enter g') := by
  have hempty : Scan.empty.Fits := ⟨by decide, by decide⟩
  rcases turnU64_group hempty hin with ⟨-, hturn⟩ | ⟨hnot, -⟩
  · rw [hstart] at hturn
    have hturns := Turns.start.turn hturn hstart hin
    rcases turnU64_group htakes.sums hin' with ⟨-, hturn'⟩ | ⟨hnot, -⟩
    · rw [hnext] at hturn'
      exact hturns.turn hturn' hnext hin'
    · exact absurd htakes' hnot
  · exact absurd htakes hnot

theorem Scan.foldl_enter_prefix (groups : List ScannedGroup) (acc : Scan) :
    acc.compressedOffsets <+: (groups.foldl Scan.enter acc).compressedOffsets := by
  induction groups generalizing acc with
  | nil => exact List.prefix_rfl
  | cons g rest ih => exact (List.prefix_append _ _).trans (ih (acc.enter g))

theorem Scan.length_foldl_enter (groups : List ScannedGroup) (acc : Scan) :
    (groups.foldl Scan.enter acc).compressedOffsets.length = acc.compressedOffsets.length +
      blocksOf groups := by
  induction groups generalizing acc with
  | nil => rfl
  | cons g rest ih =>
    have henter : (acc.enter g).compressedOffsets.length = acc.compressedOffsets.length +
        g.entries.length := by
      rw [Scan.enter, Scan.addTable, Scan.addEntries, List.length_append, RunningSum.length_starts,
        List.length_map]
    rw [List.foldl_cons, ih, henter, blocksOf, blocksOf, List.map_cons, List.sum_cons,
      Nat.add_assoc]

theorem Scan.first_offset {before after : List ScannedGroup} {g : ScannedGroup}
    (hne : g.entries ≠ []) :
    ((before ++ g :: after).foldl Scan.enter .empty).finish.compressedOffset (blocksOf before) =
      some (before.foldl Scan.enter .empty).cumC := by
  have hlen := Scan.length_foldl_enter before .empty
  generalize hacc : before.foldl Scan.enter .empty = acc at hlen ⊢
  obtain ⟨e, rest, hentries⟩ := List.exists_cons_of_ne_nil hne
  have hfirst : acc.compressedOffsets ++ [acc.cumC] <+: (acc.enter g).compressedOffsets := by
    rw [Scan.enter, Scan.addTable, Scan.addEntries, hentries, List.map_cons, RunningSum.starts_cons]
    exact (List.prefix_append_right_inj _).mpr (List.prefix_append [acc.cumC] _)
  have hall := hfirst.trans (Scan.foldl_enter_prefix after (acc.enter g))
  rw [List.foldl_append, hacc, List.foldl_cons, compressedOffset, Scan.finish]
  obtain ⟨tail, htail⟩ := hall
  rw [← htail, List.append_assoc, List.append_assoc,
    List.getElem?_append_right (Nat.le_of_eq (hlen.trans (Nat.zero_add _)))]
  rw [hlen, Scan.empty, List.length_nil, Nat.zero_add, Nat.sub_self]
  rfl

theorem Turns.of_buildLoopU64_ok {fuel : Nat} {groups : List ScannedGroup} {p : Nat}
    {acc acc' : Scan} {s : Source} (h : Turns file groups p acc)
    (hloop : buildLoopU64 fuel acc ⟨file, p, []⟩ = .ok acc' s) :
    ∃ all stop, Turns file all stop acc' ∧ turnU64 acc' ⟨file, stop, []⟩ = .ok none s := by
  induction fuel generalizing groups p acc with
  | zero => exact absurd hloop (by simp [buildLoopU64])
  | succ fuel ih =>
    rw [buildLoopU64] at hloop
    obtain ⟨found, mid, hturn, hrest⟩ := of_bind_ok hloop
    cases found with
    | none =>
      obtain ⟨rfl, rfl⟩ := EStateM.Result.ok.inj hrest
      exact ⟨groups, p, h, hturn⟩
    | some acc₁ =>
      obtain ⟨g, hstart, hin, -, rfl, rfl⟩ := of_turnU64_some h.turned.fits hturn
      exact ih (h.turn hturn hstart hin) hrest

theorem Turns.of_buildU64_ok {index : PgzfIndex} {q : Nat} {s : Source}
    (hbuild : buildU64 ⟨file, q, []⟩ = .ok index s) :
    ∃ groups stop acc, Turns file groups stop acc ∧
      (∃ s', turnU64 acc ⟨file, stop, []⟩ = .ok none s') ∧
      index = acc.finish := by
  rw [buildU64, bind_ok (Source.seekStart_apply _ _ _), bind_ok (get_apply _)] at hbuild
  obtain ⟨acc, mid, hloop, hindex⟩ := of_bind_ok hbuild
  obtain ⟨groups, stop, hturns, hlast⟩ := Turns.start.of_buildLoopU64_ok hloop
  exact ⟨groups, stop, acc, hturns, ⟨mid, hlast⟩, (EStateM.Result.ok.inj hindex).1.symm⟩

/-! ### The index as a whole -/

structure OffsetsDrift (index : PgzfIndex) (groups : List ScannedGroup) (stop : Nat) : Prop where
  first : ∀ (before : List ScannedGroup) g after, groups = before ++ g :: after → g.entries ≠ [] →
    ∃ offset, index.compressedOffset (blocksOf before) = some offset ∧
      (offset : Int) = g.start + drift before
  total : (index.totalCompressed : Int) = stop + drift groups

theorem OffsetsDrift.agree {index : PgzfIndex} {groups : List ScannedGroup} {stop : Nat}
    (h : OffsetsDrift index groups stop) (hconsistent : ∀ g ∈ groups, g.Consistent) :
    OffsetsAgree index groups stop := by
  constructor
  · rintro before g after rfl hne
    obtain ⟨offset, hoffset, hplace⟩ := h.first before g after rfl hne
    rw [drift_of_consistent fun g hg => hconsistent g (List.mem_append_left _ hg),
      add_zero] at hplace
    rw [hoffset, Int.ofNat_inj.mp hplace]
  · have htotal := h.total
    rw [drift_of_consistent hconsistent, add_zero] at htotal
    exact Int.ofNat_inj.mp htotal

/-- Where no table is empty, each group ends where the offsets say how much its table lists. -/
theorem OffsetsDrift.consistent {index : PgzfIndex} {groups : List ScannedGroup} {stop : Nat}
    (h : OffsetsDrift index groups stop) (hne : ∀ g ∈ groups, g.entries ≠ [])
    (hagree : OffsetsAgree index groups stop) :
    ∀ g ∈ groups, g.Consistent := by
  have hall : drift groups = 0 := by
    have htotal := h.total
    rw [hagree.total] at htotal
    omega
  have hfront : ∀ before g after, groups = before ++ g :: after → drift before = 0 := by
    intro before g after hsplit
    have hg : g.entries ≠ [] :=
      hne g (by rw [hsplit]; exact List.mem_append_right _ List.mem_cons_self)
    obtain ⟨offset, hoffset, hplace⟩ := h.first before g after hsplit hg
    obtain rfl := Option.some.inj (hoffset.symm.trans (hagree.first before g after hsplit hg))
    omega
  intro g hg
  obtain ⟨before, after, hsplit⟩ := List.append_of_mem hg
  have hbefore := hfront before g after hsplit
  have hbehind : drift (before ++ [g]) = 0 := by
    cases after with
    | nil => rwa [hsplit] at hall
    | cons g' rest => exact hfront (before ++ [g]) g' rest (by rw [hsplit, List.append_assoc]; rfl)
  rw [drift_append, hbefore] at hbehind
  rw [ScannedGroup.Consistent]
  omega

/-- An index that `build` returns: its offsets drift from the places of the scan, and are these
places if no table contradicts its `GC`. -/
theorem offsets_drift {index : PgzfIndex} {q : Nat} {s : Source}
    (hbuild : buildU64 ⟨file, q, []⟩ = .ok index s) :
    ∃ groups stop acc, Turns file groups stop acc ∧
      (∃ s', turnU64 acc ⟨file, stop, []⟩ = .ok none s') ∧
      (∀ (before : List ScannedGroup) g after, groups = before ++ g :: after →
        Turns file before g.start (before.foldl Scan.enter .empty)) ∧
      OffsetsDrift index groups stop ∧
      ((∀ g ∈ groups, g.Consistent) → OffsetsAgree index groups stop) ∧
      ((∀ g ∈ groups, g.entries ≠ []) → OffsetsAgree index groups stop → ∀ g ∈ groups,
        g.Consistent) := by
  obtain ⟨groups, stop, acc, hturns, hlast, rfl⟩ := Turns.of_buildU64_ok hbuild
  have hdrift : OffsetsDrift acc.finish groups stop := by
    constructor
    · rintro before g after rfl hne
      have hbefore := hturns.before rfl
      rw [hturns.turned.entered]
      exact ⟨_, Scan.first_offset hne, hbefore.cumC_eq⟩
    · rw [totalCompressed, Scan.finish, List.getLast?_concat, Option.getD_some]
      exact hturns.cumC_eq
  exact ⟨groups, stop, acc, hturns, hlast, fun _ _ _ => hturns.before, hdrift, hdrift.agree,
    hdrift.consistent⟩

namespace Stored

def sampleGroup : ScannedGroup := ⟨0, 82, [⟨47, 2⟩, ⟨35, 2⟩], 53⟩

def secondGroup : ScannedGroup := ⟨135, 81, [⟨47, 2⟩, ⟨34, 1⟩], 53⟩

theorem turns_sample : Turns sampleFile [sampleGroup, secondGroup] 269
    ((Scan.empty.enter sampleGroup).enter secondGroup) :=
  turns_two ⟨by decide +kernel, by decide +kernel⟩ ⟨by decide +kernel, by decide +kernel⟩ rfl rfl
    ⟨⟨by decide +kernel, by decide +kernel⟩, by decide +kernel, by decide +kernel⟩
    ⟨⟨by decide +kernel, by decide +kernel⟩, by decide +kernel, by decide +kernel⟩

end Stored

theorem offsets_drift_sample :
    OffsetsDrift Stored.sampleIndex [Stored.sampleGroup, Stored.secondGroup] 269 := by
  have houtcome : outcome (buildU64 ⟨Stored.sampleFile, 0, []⟩) = .ok Stored.sampleIndex := by
    decide +kernel
  have hlast : outcome (turnU64 ((Scan.empty.enter Stored.sampleGroup).enter Stored.secondGroup)
      ⟨Stored.sampleFile, 269, []⟩) = .ok none := by
    decide +kernel
  obtain ⟨s, hbuild⟩ := exists_of_outcome houtcome
  obtain ⟨s', hlast⟩ := exists_of_outcome hlast
  obtain ⟨groups, stop, acc, hturns, ⟨s'', hlast'⟩, -, hdrift, -⟩ := offsets_drift hbuild
  obtain ⟨rfl, rfl, -⟩ := Stored.turns_sample.unique hlast hturns hlast'
  exact hdrift

namespace Stored

/-- The sample file with 48 in the place of 47 for the size of its first block. -/
def oneTooMany : Bytes := sampleFile.take 106 ++ u32Bytes 48 ++ sampleFile.drop 110

def firstGroup : ScannedGroup := ⟨0, 82, [⟨48, 2⟩, ⟨35, 2⟩], 53⟩

theorem turns_oneTooMany : Turns oneTooMany [firstGroup, secondGroup] 269
    ((Scan.empty.enter firstGroup).enter secondGroup) :=
  turns_two ⟨by decide +kernel, by decide +kernel⟩ ⟨by decide +kernel, by decide +kernel⟩ rfl rfl
    ⟨⟨by decide +kernel, by decide +kernel⟩, by decide +kernel, by decide +kernel⟩
    ⟨⟨by decide +kernel, by decide +kernel⟩, by decide +kernel, by decide +kernel⟩

end Stored

/-- A table that contradicts its `GC` is not rejected, and the second group is stored one byte
behind its place. -/
theorem contradictory_table_accepted :
    ∃ index s groups stop acc s', buildU64 ⟨Stored.oneTooMany, 0, []⟩ = .ok index s ∧
    Turns Stored.oneTooMany groups stop acc ∧ turnU64 acc ⟨Stored.oneTooMany, stop,
      []⟩ = .ok none s' ∧
      (∃ g ∈ groups, ¬ g.Consistent) ∧ ¬ OffsetsAgree index groups stop ∧
        index.compressedOffset 2 = some 136 ∧ index.totalCompressed = 270 ∧ stop = 269 := by
  have houtcome : outcome (buildU64 ⟨Stored.oneTooMany, 0, []⟩) =
      .ok ((Scan.empty.enter Stored.firstGroup).enter Stored.secondGroup).finish := by
    decide +kernel
  obtain ⟨s, hbuild⟩ := exists_of_outcome houtcome
  have hlast : outcome (turnU64 ((Scan.empty.enter Stored.firstGroup).enter Stored.secondGroup)
      ⟨Stored.oneTooMany, 269, []⟩) = .ok none := by
    decide +kernel
  obtain ⟨s', hturn⟩ := exists_of_outcome hlast
  refine ⟨_, s, _, 269, _, s', hbuild, Stored.turns_oneTooMany, hturn, ⟨_, List.mem_cons_self, ?_⟩,
    ?_, ?_, ?_, rfl⟩
  · rw [ScannedGroup.Consistent]
    decide +kernel
  · intro h
    exact absurd h.total (by decide +kernel)
  · decide +kernel
  · decide +kernel

end Pgzf
