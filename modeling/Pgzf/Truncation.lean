import Pgzf.Crash

/-!
# Truncated files

A file cut off anywhere. The cut falls into one group; behind the last whole group stands a piece of
it. A piece too short for the group's header is ignored, one that ends before the group's index
table is an error, and one that reaches past the table is as good as the whole group.
-/

namespace Pgzf

open PgzfReader PgzfWriter

variable {D : Deps} {level : Nat}

/-! ### Where a cut falls -/

section Position

variable (D level)

/-- The offset at which group `g` begins. -/
def groupStart (groups : List (List Bytes)) (g : Nat) : Nat :=
  (fileBytes D level (groups.take g)).length

/-- The offset at which the index table of group `g` ends. -/
def tableEnd (groups : List (List Bytes)) (g : Nat) : Nat :=
  groupStart D level groups g + (groupFront D level (groups.getD g [])).length

theorem groupStart_mono (groups : List (List Bytes)) {g h : Nat} (hle : g ≤ h) :
    groupStart D level groups g ≤ groupStart D level groups h := by
  obtain ⟨k, rfl⟩ := Nat.exists_eq_add_of_le hle
  rw [groupStart, groupStart, List.take_add, fileBytes_append, List.length_append]
  omega

theorem groupStart_le (groups : List (List Bytes)) {g : Nat} (hg : g ≤ groups.length) :
    groupStart D level groups g ≤ (fileBytes D level groups).length := by
  have hmono := groupStart_mono D level groups hg
  rwa [groupStart, groupStart, List.take_length] at hmono

variable {D level}

variable (D level) in
theorem groupStart_succ {groups : List (List Bytes)} {g : Nat} {blocks : List Bytes}
    (hg : groups[g]? = some blocks) :
    groupStart D level groups (g + 1) = groupStart D level groups g +
      (groupBytes D level blocks).length := by
  have hone : fileBytes D level [blocks] = groupBytes D level blocks := List.flatMap_singleton _ _
  rw [groupStart, List.take_add_one, hg, Option.toList_some, fileBytes_append, List.length_append,
    hone, groupStart]

theorem tableEnd_le {groups : List (List Bytes)} {g : Nat} (hg : g < groups.length) :
    tableEnd D level groups g ≤ groupStart D level groups (g + 1) := by
  have hget := List.getElem?_eq_getElem hg
  rw [groupStart_succ D level hget, tableEnd, List.getD_eq_getElem?_getD, hget, Option.getD_some,
    groupBytes_eq_front, List.length_append]
  omega

theorem exists_group_of_lt {groups : List (List Bytes)} {c : Nat}
    (hc : c < (fileBytes D level groups).length) :
    ∃ k blocks, groups[k]? = some blocks ∧ groupStart D level groups k ≤ c ∧
      c < groupStart D level groups (k + 1) := by
  induction groups generalizing c with
  | nil => exact absurd hc (Nat.not_lt_zero _)
  | cons first groups ih =>
    have hstart : ∀ k, groupStart D level (first :: groups) (k + 1) =
        (groupBytes D level first).length + groupStart D level groups k := by
      intro k
      rw [groupStart, List.take_succ_cons, fileBytes_cons, List.length_append, groupStart]
    by_cases hfirst : c < (groupBytes D level first).length
    · refine ⟨0, first, rfl, Nat.zero_le _, ?_⟩
      rw [hstart, groupStart]
      omega
    · rw [fileBytes_cons, List.length_append] at hc
      obtain ⟨k, blocks, hk, hle, hlt⟩ :=
        ih (show c - (groupBytes D level first).length < _ by omega)
      refine ⟨k + 1, blocks, hk, ?_, ?_⟩
      · rw [hstart]
        omega
      · rw [hstart]
        omega

/-- The groups whose tables end before a cut into
group `k`: those before it, and it if its own does. -/
theorem tableEnd_le_iff {groups : List (List Bytes)} {c k g : Nat}
    (hk : groupStart D level groups k ≤ c) (hlt : c < groupStart D level groups (k + 1))
    (hg : g < groups.length) :
    tableEnd D level groups g ≤ c ↔ g < k ∨ g = k ∧ tableEnd D level groups k ≤ c := by
  constructor
  · intro hle
    rcases Nat.lt_trichotomy g k with hgk | rfl | hgk
    · exact .inl hgk
    · exact .inr ⟨rfl, hle⟩
    · have hmono := groupStart_mono D level groups (show k + 1 ≤ g from hgk)
      rw [tableEnd] at hle
      omega
  · rintro (hgk | ⟨rfl, hle⟩)
    · exact Nat.le_trans (tableEnd_le hg) (Nat.le_trans (groupStart_mono D level groups hgk) hk)
    · exact hle

end Position

theorem take_fileBytes {groups : List (List Bytes)} {k c : Nat} {blocks : List Bytes}
    (hget : groups[k]? = some blocks) (hk : groupStart D level groups k ≤ c)
    (hlt : c < groupStart D level groups (k + 1)) :
    (fileBytes D level groups).take c = fileBytes D level (groups.take k) ++
      (groupBytes D level blocks).take (c - groupStart D level groups k) := by
  obtain ⟨hklt, hblocks⟩ := List.getElem?_eq_some_iff.mp hget
  have hsplit : fileBytes D level groups =
      fileBytes D level (groups.take k) ++
          (groupBytes D level blocks ++ fileBytes D level (groups.drop (k + 1))) := by
    conv_lhs => rw [← List.take_append_drop k groups, List.drop_eq_getElem_cons hklt, hblocks]
    rw [fileBytes_append, fileBytes_cons]
  rw [groupStart_succ D level hget] at hlt
  have hroom : c - groupStart D level groups k ≤ (groupBytes D level blocks).length := by omega
  rw [hsplit, List.take_append,
    List.take_of_length_le (show (fileBytes D level (groups.take k)).length ≤ c from hk),
    ← groupStart, List.take_append_of_le_length hroom]

/-! ### What is made of a cut file -/

section Cut

variable {groups : List (List Bytes)} {k c : Nat} {blocks : List Bytes}

theorem length_groupFront {limit : Nat} (h : GroupFits D level limit blocks)
    (hlimit : limit < 2 ^ 32) :
    (groupFront D level blocks).length = (groupGc D level blocks).toNat +
      (idxHeaderBaseSize + 8 * blocks.length) := by
  rw [groupFront, List.length_append, length_idxHeader, length_groupEntries, groupGc_toNat h hlimit,
    ← RunningSum.sum_map_length, ← RunningSum.sum_map_length, map_length_groupMembers D level _ 0]

variable (D level c) in
theorem gzipBase_prefix_take (hgroups : ∀ blocks ∈ groups, blocks ≠ []) (hne : groups ≠ [])
    (hc : gzipFixedHeaderSize ≤ c) : gzipBase <+: (fileBytes D level groups).take c := by
  have hfile := gzipBase_prefix_fileBytes (D := D) level hne hgroups []
  rw [List.append_nil] at hfile
  have hlen : gzipBase.length = gzipFixedHeaderSize := rfl
  apply List.prefix_of_prefix_length_le hfile (List.take_prefix c _)
  rw [List.length_take]
  have hle := hfile.length_le
  omega

theorem recovers_cut_header (hfits : ∀ blocks ∈ groups, GroupFits D level (2 ^ 30) blocks)
    (hinflates : ∀ blocks ∈ groups, GroupInflates D level blocks)
    (hsize : (fileBytes D level groups).length < 2 ^ 64) (hget : groups[k]? = some blocks)
    (hk : groupStart D level groups k ≤ c) (hlt : c < groupStart D level groups k + begHeaderSize)
    (hnext : c < groupStart D level groups (k + 1)) (hc : gzipFixedHeaderSize ≤ c) :
    Recovers D ((fileBytes D level groups).take c) (groups.take k).flatten.flatten := by
  have hbase := gzipBase_prefix_take D level c (fun b hb => (hfits b hb).ne_nil)
    (List.ne_nil_of_mem (List.mem_of_getElem? hget)) hc
  have hlen : ((fileBytes D level groups).take c).length < 2 ^ 64 := by
    rw [List.length_take]
    omega
  rw [take_fileBytes hget hk hnext] at hbase hlen ⊢
  refine recovers_fileBytes (fun b hb => hfits b (List.mem_of_mem_take hb))
    (fun b hb => hinflates b (List.mem_of_mem_take hb)) hbase (.inl ?_) hlen
  rw [List.length_take]
  omega

/-- A cut between a group's header and the end of its index table. -/
theorem new_cut_table (hfits : ∀ blocks ∈ groups, GroupFits D level (2 ^ 30) blocks)
    (hsize : (fileBytes D level groups).length < 2 ^ 64) (hget : groups[k]? = some blocks)
    (hk : groupStart D level groups k + begHeaderSize ≤ c) (hlt : c < tableEnd D level groups k) :
    ∃ s, new D ⟨(fileBytes D level groups).take c, 0, []⟩ =
      .error (.error (.io .unexpectedEof)) s := by
  have hklt := (List.getElem?_eq_some_iff.mp hget).1
  have hblocks := hfits blocks (List.mem_of_getElem? hget)
  have hnext := Nat.lt_of_lt_of_le hlt (tableEnd_le hklt)
  have hbase := gzipBase_prefix_take D level c (fun b hb => (hfits b hb).ne_nil)
    (List.ne_nil_of_mem (List.mem_of_getElem? hget))
      (by rw [begHeaderSize] at hk; rw [gzipFixedHeaderSize]; omega)
  have hstart := groupStart_le D level groups (show k + 1 ≤ groups.length from hklt)
  rw [tableEnd, List.getD_eq_getElem?_getD, hget, Option.getD_some,
    length_groupFront hblocks (by decide)] at hlt
  have hgroup := groupStart_succ D level hget
  have hroom : (fileBytes D level (groups.take k) ++ groupBytes D level blocks).length <
      2 ^ 64 := by
    rw [List.length_append, ← groupStart]
    omega
  have hpiece : ((groupBytes D level blocks).take (c - groupStart D level groups k)).length =
      c - groupStart D level groups k := by
    rw [List.length_take]
    omega
  rw [take_fileBytes hget (by omega) hnext] at hbase ⊢
  exact ⟨_,
    new_error hbase (build_cut (fun b hb => hfits b (List.mem_of_mem_take hb)) (by decide) hblocks
    (List.take_prefix _ _) (by omega) (by omega) hroom 0) 0⟩

/-- A cut behind a group's index table: the group is as good as whole. -/
theorem recovers_cut_tail (hfits : ∀ blocks ∈ groups, GroupFits D level (2 ^ 30) blocks)
    (hinflates : ∀ blocks ∈ groups, GroupInflates D level blocks)
    (hsize : (fileBytes D level groups).length < 2 ^ 64) (hget : groups[k]? = some blocks)
    (hk : tableEnd D level groups k ≤ c) (hnext : c < groupStart D level groups (k + 1)) :
    Recovers D ((fileBytes D level groups).take c) (groups.take (k + 1)).flatten.flatten := by
  have hmem := List.mem_of_getElem? hget
  have hklt := (List.getElem?_eq_some_iff.mp hget).1
  have hstart := groupStart_le D level groups (show k + 1 ≤ groups.length from hklt)
  have hgroup := groupStart_succ D level hget
  have htable : tableEnd D level groups k = groupStart D level groups k +
      (groupFront D level blocks).length := by
    rw [tableEnd, List.getD_eq_getElem?_getD, hget, Option.getD_some]
  have hfront : begHeaderSize ≤ (groupFront D level blocks).length :=
    le_length_groupFront D level (hfits blocks hmem).ne_nil
  have hbase := gzipBase_prefix_take D level c (fun b hb => (hfits b hb).ne_nil)
    (List.ne_nil_of_mem hmem) (by rw [begHeaderSize] at hfront; rw [gzipFixedHeaderSize]; omega)
  have hpiece : (groupBytes D level blocks).take (c - groupStart D level groups k) =
      groupFront D level blocks ++ (deflated D level [] ++ List.replicate pgzfTailSize 0).take
        (c - groupStart D level groups k - (groupFront D level blocks).length) := by
    rw [groupBytes_eq_front, List.take_append, List.take_of_length_le (by omega)]
  have hrest : ((deflated D level [] ++ List.replicate pgzfTailSize 0).take
      (c - groupStart D level groups k - (groupFront D level blocks).length)).length ≤
        (deflated D level []).length + pgzfTailSize := by
    apply Nat.le_trans (List.length_take_le' _ _)
    rw [List.length_append, List.length_replicate]
  have hroom : (fileBytes D level (groups.take k) ++ groupBytes D level blocks).length <
      2 ^ 64 := by
    rw [List.length_append, ← groupStart]
    omega
  have hsub := fun b (hb : b ∈ groups.take k) => List.mem_of_mem_take hb
  have hdone : groups.take (k + 1) = groups.take k ++ [blocks] := by
    rw [List.take_add_one, hget, Option.toList_some]
  have hfit := fits_defaultReadahead D level (groups.take (k + 1)) (Nat.lt_of_le_of_lt hstart hsize)
  rw [take_fileBytes hget (by omega) hnext, hpiece] at hbase ⊢
  rw [hdone] at hfit ⊢
  refine ⟨_, _, new_eq hbase (fun q => build_front (fun b hb => hfits b (hsub b hb)) (by decide)
    (hfits blocks hmem) hrest hroom q) 0, ?_⟩
  intro sizes hsizes hlen
  exact fresh_readToEnd (describes_front (fun b hb => hfits b (hsub b hb)) (fun b hb =>
    hinflates b (hsub b hb)) (hfits blocks hmem) (hinflates blocks hmem) _) hfit hsizes hlen

end Cut

variable {config : PgzfConfig} {bufs : List Bytes}

/-- A proper prefix of a written file is refused with an error, or
read as the groups whose index tables lie inside it; it is refused if
it ends between the header of a group and the end of its table. -/
theorem truncated_file (hlimits : WithinLimits D (2 ^ 30) config bufs.flatten)
    (hcodec : Codec D config bufs.flatten) :
    ∃ w, run D (Sink.atEnd []) config bufs = .ok w.inner w ∧
      ∀ p, p <+: w.inner.cursor.bytes → p ≠ w.inner.cursor.bytes →
        ((∃ e s, new D ⟨p, 0, []⟩ = .error (.error e) s) ∨
          ∃ k, (∀ g < (config.groupsOf bufs.flatten).length,
              (g < k ↔ tableEnd D config.compressionLevel (config.groupsOf bufs.flatten) g ≤
                p.length)) ∧
            Recovers D p ((config.groupsOf bufs.flatten).take k).flatten.flatten) ∧
        ∀ g < (config.groupsOf bufs.flatten).length,
          groupStart D config.compressionLevel (config.groupsOf bufs.flatten) g + begHeaderSize ≤
            p.length →
          p.length < tableEnd D config.compressionLevel (config.groupsOf bufs.flatten) g →
            ∃ e s, new D ⟨p, 0, []⟩ = .error (.error e) s := by
  obtain ⟨w, hrun, hbytes⟩ :=
    run_fileBytes hlimits.blockSize_pos hlimits.allocated hlimits.batchSize_pos hcodec.compresses
  have hfits := hlimits.fits
  have hinflates := hcodec.inflates
  have hsize := hlimits.addressable
  refine ⟨w, hrun, ?_⟩
  rw [hbytes]
  generalize config.groupsOf bufs.flatten = groups at *
  intro p hp hproper
  obtain ⟨c, hc, hlen, rfl⟩ : ∃ c, c < (fileBytes D config.compressionLevel groups).length ∧
    p.length = c ∧
      p = (fileBytes D config.compressionLevel groups).take c := by
    have htake := List.prefix_iff_eq_take.mp hp
    refine ⟨p.length, Nat.lt_of_le_of_ne hp.length_le fun hlen => hproper ?_, rfl, htake⟩
    rw [htake, hlen, List.take_length]
  rw [hlen]
  constructor
  · obtain ⟨k, blocks, hget, hk, hnext⟩ := exists_group_of_lt hc
    have hfront := le_length_groupFront D config.compressionLevel
      (hfits blocks (List.mem_of_getElem? hget)).ne_nil
    have htable : tableEnd D config.compressionLevel groups k =
        groupStart D config.compressionLevel groups k +
            (groupFront D config.compressionLevel blocks).length := by
      rw [tableEnd, List.getD_eq_getElem?_getD, hget, Option.getD_some]
    by_cases hbeg : c < groupStart D config.compressionLevel groups k + begHeaderSize
    · by_cases hshort : c < gzipFixedHeaderSize
      · exact .inl ⟨_, _, new_eof (by omega) 0⟩
      · refine .inr ⟨k, ?_, recovers_cut_header hfits hinflates hsize hget hk hbeg hnext (by omega)⟩
        intro g hg
        rw [tableEnd_le_iff hk hnext hg]
        omega
    · by_cases hcut : c < tableEnd D config.compressionLevel groups k
      · exact .inl ⟨_, new_cut_table hfits hsize hget (by omega) hcut⟩
      · refine .inr ⟨k + 1, ?_, recovers_cut_tail hfits hinflates hsize hget (by omega) hnext⟩
        intro g hg
        rw [tableEnd_le_iff hk hnext hg]
        omega
  · intro g hg hbeg hcut
    exact ⟨_, new_cut_table hfits hsize (List.getElem?_eq_getElem hg) hbeg hcut⟩

theorem truncated_file_sample :
    ∃ w, run Stored.deps (Sink.atEnd []) Stored.sampleConfig Stored.sampleBufs = .ok w.inner w ∧
      ∀ p, p <+: w.inner.cursor.bytes → p ≠ w.inner.cursor.bytes →
        (∃ e s, new Stored.deps ⟨p, 0, []⟩ = .error (.error e) s) ∨
          ∃ k, Recovers Stored.deps p
            ((Stored.sampleConfig.groupsOf Stored.sampleBufs.flatten).take k).flatten.flatten := by
  obtain ⟨w, hrun, hcut⟩ := truncated_file Stored.sample_withinLimits Stored.sample_codec
  refine ⟨w, hrun, ?_⟩
  intro p hp hne
  exact (hcut p hp hne).1.imp_right fun ⟨k, _, hrecovers⟩ => ⟨k, hrecovers⟩

end Pgzf
