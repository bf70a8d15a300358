import Pgzf.Conforming

/-!
# Reading a file of any writer

The blocks of a conforming file stand where its index lists them, each as its writer has stored it,
with nothing but index members between them. So the reader delivers them in order, up to the first
block without bytes, which it takes for the end of the file.
-/

namespace Pgzf

open PgzfReader PgzfIndex

variable {D : Deps}

/-! ### What stands in a file -/

/-- From `p` to `q` there are only index members. -/
inductive Leads (file : Bytes) : Nat → Nat → Prop
  | here (p : Nat) : Leads file p p
  | idx {p q headerSize : Nat} {raw : Bytes} : memberAt file p =
    .ok (some (raw, headerSize, .idx)) →
      Leads file (p + raw.length) q → Leads file p q

variable (D) in
/-- From `p` on there stand the members `raws` with these data, at these offsets, and then the last
of the offsets; between them there are only index members. -/
inductive Stands (file : Bytes) : Nat → List Bytes → List Bytes → List Nat → Prop
  | stop {p q : Nat} : Leads file p q → Stands file p [] [] [q]
  | block {p q headerSize : Nat} {raw data : Bytes} {ty : BlockType} {raws datas : List Bytes}
    {offsets : List Nat} :
    Leads file p q → memberAt file q = .ok (some (raw, headerSize, ty)) → ty ≠ .idx →
      IntactAt D file q data →
      Stands file (q + raw.length) raws datas offsets →
        Stands file p (raw :: raws) (data :: datas) (q :: offsets)

variable {file : Bytes} {raws datas : List Bytes} {offsets : List Nat} {p : Nat}

theorem Stands.idx {raw : Bytes} {headerSize : Nat}
    (hat : memberAt file p = .ok (some (raw, headerSize, .idx)))
    (h : Stands D file (p + raw.length) raws datas offsets) :
    Stands D file p raws datas offsets := by
  cases h with
  | stop hleads => exact .stop (.idx hat hleads)
  | block hleads hmember hty hintact hrest =>
    exact .block (.idx hat hleads) hmember hty hintact hrest

/-! ### Conforming files -/

variable (D) in
def StoredAs (raw data : Bytes) : Prop :=
  ∃ header stream ty, raw = header ++ stream ++ trailer D data ∧ Framed raw header.length ty ∧
    ty ≠ .idx ∧ D.Inflates stream data ∧ data.length < 2 ^ 32

theorem stands_members {members : List Bytes} (hmembers : List.Forall₂ (StoredAs D) members datas)
    {start : Nat} {tail : Bytes} (hfile : file.drop start = members.flatten ++ tail)
    {later later' : List Bytes}
    (hlater : Stands D file (start + members.flatten.length) later' later offsets) :
    Stands D file start (members ++ later') (datas ++ later)
      (RunningSum.starts start (members.map List.length) ++ offsets) := by
  induction hmembers generalizing start with
  | nil => exact hlater
  | @cons member data members datas hmember _ ih =>
    rw [List.flatten_cons, List.append_assoc] at hfile
    rw [List.flatten_cons, List.length_append, ← Nat.add_assoc] at hlater
    have hnext : file.drop (start + member.length) = members.flatten ++ tail := by
      rw [← List.drop_drop, hfile, List.drop_left]
    obtain ⟨header, stream, ty, rfl, hframed, hty, hinflates, hlen⟩ := hmember
    have hat := memberAt_framed hframed
      (show _ <+: file.drop start by rw [hfile]; exact List.prefix_append _ _)
    exact .block (.here start) hat hty (intactAt_of_inflates hat hty hinflates hlen)
      (ih hnext hlater)

namespace SpecGroup

variable {group : SpecGroup}

theorem storedAs_members (h : group.Conforms D) (gc : UInt64) :
    List.Forall₂ (StoredAs D) (group.members D gc) group.datas := by
  obtain ⟨first, rest, hblocks⟩ := List.exists_cons_of_ne_nil h.ne_nil
  obtain ⟨hfirst, hrest⟩ := h.memberSize_le hblocks
  have hbody : ∀ headerSize (block : DataBlock),
      headerSize + (block.stream ++ trailer D block.data).length = block.memberSize headerSize := by
    intro headerSize block
    rw [List.length_append, length_trailer, DataBlock.memberSize, Nat.add_assoc]
  simp only [members, datas, hblocks, List.map_cons]
  refine .cons ⟨_, first.stream, .beg, rfl, ?_, by decide, ?_, ?_⟩ ?_
  · rw [DataBlock.begMember, List.append_assoc, length_begHeader]
    exact framed_begHeader (by rw [hbody]; exact DataBlock.memberZc_toNat (by omega))
      (by rwa [hbody])
  · exact h.inflates first (by rw [hblocks]; exact List.mem_cons_self)
  · exact h.data first (by rw [hblocks]; exact List.mem_cons_self)
  · rw [List.forall₂_map_left_iff, List.forall₂_map_right_iff, List.forall₂_same]
    intro block hblock
    have hsize := hrest block hblock
    have hmem : block ∈ group.blocks := by
      rw [hblocks]
      exact List.mem_cons_of_mem _ hblock
    refine ⟨_, block.stream, .dat, rfl, ?_, by decide, h.inflates block hmem, h.data block hmem⟩
    rw [DataBlock.datMember, List.append_assoc, length_datHeader]
    exact framed_datHeader (by rw [hbody]; exact DataBlock.memberZc_toNat (by omega))
      (by rwa [hbody])

theorem framed_idxMember (h : group.Conforms D) :
    Framed group.idxMember (idxHeaderBaseSize + 8 * group.entries.length) .idx := by
  have hidx := h.idx
  have hbody : idxHeaderBaseSize + 8 * group.entries.length +
      (group.idxStream ++ List.replicate pgzfTailSize 0).length = group.idxSize := by
    rw [List.length_append, List.length_replicate, length_entries, idxSize, ← Nat.add_assoc]
  rw [idxMember]
  exact framed_idxHeader (by rw [length_entries]; exact h.length_le)
    (by rw [hbody]; exact h.idxZc_toNat) (by rwa [hbody])

end SpecGroup

variable {groups : List SpecGroup}

/-- The blocks of a conforming file stand at their offsets. -/
theorem stands_specFile (h : ∀ group ∈ groups, group.Conforms D) {start : Nat} {rest : Bytes}
    (hfile : file.drop start = specFile D groups ++ rest) :
    Stands D file start (specMembers D groups) (specDatas groups)
      (specOffsets D start groups ++ [start + (specFile D groups).length]) := by
  induction groups generalizing start with
  | nil => exact .stop (.here start)
  | cons group groups ih =>
    have hgroup := h group List.mem_cons_self
    rw [specFile_cons, List.append_assoc, SpecGroup.bytes, List.append_assoc] at hfile
    have hidx : file.drop (start + (group.members D (group.gc D)).flatten.length) =
        group.idxMember ++ (specFile D groups ++ rest) := by
      rw [← List.drop_drop, hfile, List.drop_left]
    have hsize : start + (group.members D (group.gc D)).flatten.length + group.idxMember.length =
        start + (group.bytes D).length := by
      rw [SpecGroup.bytes, List.length_append, Nat.add_assoc]
    have hnext : file.drop (start + (group.bytes D).length) = specFile D groups ++ rest := by
      rw [← hsize, ← List.drop_drop, hidx, List.drop_left]
    have hlater := ih (fun g hg => h g (List.mem_cons_of_mem _ hg)) hnext
    have hat := memberAt_framed (SpecGroup.framed_idxMember hgroup)
      (show _ <+: file.drop (start + (group.members D (group.gc D)).flatten.length) by
        rw [hidx]
        exact List.prefix_append _ _)
    rw [← hsize] at hlater
    have hall := stands_members (SpecGroup.storedAs_members hgroup _) hfile (hlater.idx hat)
    rw [SpecGroup.map_length_members D _ 0, hsize] at hall
    rw [specMembers, List.flatMap_cons, specDatas_cons, specOffsets, specFile_cons,
      List.length_append, ← Nat.add_assoc, List.append_assoc]
    exact hall

/-! ### The reader -/

theorem listedOffset_eq {index : PgzfIndex} {i q : Nat} (h : index.compressedOffsets[i]? = some q) :
    listedOffset index i = q := by
  rw [listedOffset, PgzfIndex.compressedOffset, h, Option.getD_some]

theorem Leads.chain {p q count : Nat} (h : Leads file p q) {places : List Nat} {ending : Ending}
    (hchain : Chain file (EndsAt file) q (count + 1) places ending) :
    Chain file (EndsAt file) p (count + 1) places ending := by
  induction h with
  | here p => exact hchain
  | idx hat _ ih =>
    obtain ⟨hwhole, hraw, -, hidx⟩ := whole_of_memberAt hat
    have hlen := hraw ▸ hwhole.length_raw
    exact .idx hwhole hidx.symm (hlen ▸ ih hchain)

theorem Stands.chain (h : Stands D file p raws datas offsets) {count : Nat}
    (hcount : count ≤ datas.length) :
    ∃ places, Chain file (EndsAt file) p count places .full ∧
      List.Forall₂ (IntactAt D file) places (datas.take count) := by
  induction h generalizing count with
  | stop _ =>
    obtain rfl : count = 0 := Nat.le_zero.mp hcount
    exact ⟨[], .full _, .nil⟩
  | @block p q headerSize raw data ty raws datas offsets hleads hat hty hintact _ ih =>
    cases count with
    | zero => exact ⟨[], .full _, .nil⟩
    | succ count =>
      obtain ⟨places, hchain, hblocks⟩ := ih (Nat.le_of_succ_le_succ hcount)
      obtain ⟨hwhole, hraw, -, rfl⟩ := whole_of_memberAt hat
      have hlen := hraw ▸ hwhole.length_raw
      exact ⟨q :: places, hleads.chain (.data hwhole hty (hlen ▸ hchain)), .cons hintact hblocks⟩

theorem Stands.drop (h : Stands D file p raws datas offsets) {i : Nat} (hi : i ≤ datas.length) :
    ∃ q, offsets[i]? = some q ∧ Stands D file q (raws.drop i) (datas.drop i) (offsets.drop i) := by
  induction h generalizing i with
  | @stop p q _ =>
    obtain rfl : i = 0 := Nat.le_zero.mp hi
    exact ⟨q, rfl, .stop (.here q)⟩
  | @block p q headerSize raw data ty raws datas offsets _ hat hty hintact hrest ih =>
    cases i with
    | zero => exact ⟨q, rfl, .block (.here q) hat hty hintact hrest⟩
    | succ i => exact ih (Nat.le_of_succ_le_succ hi)

theorem Stands.found {index : PgzfIndex} (h : Stands D file p raws datas index.compressedOffsets)
    (hcount : index.blockCount = datas.length) (start : Nat) :
    ∃ places, Found file index start places ∧
      List.Forall₂ (IntactAt D file) places (datas.drop start) := by
  induction start using batch_induction index with
  | behind start hle =>
    rw [List.drop_eq_nil_of_le (by omega)]
    exact ⟨[], .behind hle, .nil⟩
  | batch start hlt ih =>
    have hend : batchEnd index start ≤ index.blockCount := Nat.min_le_left _ _
    have hnext := lt_batchEnd hlt
    obtain ⟨q, hq, hstands⟩ := h.drop (show start ≤ datas.length by omega)
    have hwithin : batchEnd index start - start ≤ (datas.drop start).length := by
      rw [List.length_drop]; omega
    obtain ⟨places, hchain, hblocks⟩ := hstands.chain hwithin
    obtain ⟨later, hfound, hlater⟩ := ih
    refine ⟨places ++ later, .batch hlt (by rwa [listedOffset_eq hq]) hfound, ?_⟩
    have hsplit := List.take_append_drop (batchEnd index start - start) (datas.drop start)
    rw [List.drop_drop, show start + (batchEnd index start - start) = batchEnd index start by omega]
      at hsplit
    rw [← hsplit]
    exact List.rel_append hblocks hlater

theorem new_specFile (h : ∀ group ∈ groups, group.Conforms D) (hne : groups ≠ [])
    (hsize : (specFile D groups).length < 2 ^ 64) (q : Nat) :
    new D ⟨specFile D groups, q, []⟩ =
      .ok (fresh D (specFile D groups) (specIndex D groups)) ⟨specFile D groups, 0, []⟩ := by
  obtain ⟨group, others, rfl⟩ := List.exists_cons_of_ne_nil hne
  obtain ⟨zc, hbeg⟩ :=
    SpecGroup.begHeader_prefix (D := D) (group.gc D) (h group List.mem_cons_self).ne_nil
  have hbase : gzipBase <+: specFile D (group :: others) := by
    have hheader : gzipBase <+: begHeader zc (group.gc D) := by
      rw [begHeader, memberHeader, List.append_assoc]
      exact List.prefix_append _ _
    rw [specFile_cons, SpecGroup.bytes, List.append_assoc]
    exact hheader.trans (hbeg.trans (List.prefix_append _ _))
  exact new_eq hbase (build_specFile h hsize) q

theorem runs_specFile (h : ∀ group ∈ groups, group.Conforms D)
    (hsize : (specFile D groups).length < 2 ^ 64) :
    ∃ count, Runs (fresh D (specFile D groups) (specIndex D groups)) count
      (.ok ((specDatas groups).takeWhile fun data => !data.isEmpty).flatten) := by
  have hstands := stands_specFile h (show (specFile D groups).drop 0 = specFile D groups ++ [] from
    (List.append_nil _).symm)
  rw [Nat.zero_add] at hstands
  obtain ⟨places, hfound, hintact⟩ := hstands.found (blockCount_specIndex D groups) 0
  have hfit : (specIndex D groups).blockCount + defaultReadahead < 2 ^ 64 := by
    have hle := length_specDatas_le D groups
    rw [blockCount_specIndex, defaultReadahead]
    omega
  obtain ⟨count, hruns⟩ := runs_stream D (specFile D groups) hfit 0
  refine ⟨count + 1, ?_⟩
  have hread := hruns _ (ready_fresh _ _)
  rw [List.drop_zero] at hintact
  rwa [hfound.stream hintact] at hread

/-- Read to the end, with buffers of any sizes, the reader delivers `bytes`. -/
def Delivers (reader : PgzfReader D) (bytes : Bytes) : Prop :=
  ∃ count, ∀ sizes : List Nat, (∀ n ∈ sizes, 0 < n) → count ≤ sizes.length →
    ∃ r', readToEnd sizes reader = .ok (some bytes) r'

theorem Runs.delivers {r : PgzfReader D} {count : Nat} {bytes : Bytes}
    (h : Runs r count (.ok bytes)) :
    Delivers r bytes :=
  ⟨count, fun sizes hsizes hlen => Program.exists_of_outcome (h sizes hsizes hlen)⟩

theorem Delivers.unique {r : PgzfReader D} {bytes bytes' : Bytes} (h : Delivers r bytes)
    (h' : Delivers r bytes') :
    bytes = bytes' := by
  obtain ⟨count, hread⟩ := h
  obtain ⟨count', hread'⟩ := h'
  have hsizes : ∀ n ∈ List.replicate (count + count') 1, 0 < n := fun n hn => by
    rw [List.eq_of_mem_replicate hn]
    exact Nat.one_pos
  obtain ⟨r₁, hrun⟩ := hread _ hsizes (by rw [List.length_replicate]; omega)
  obtain ⟨r₂, hrun'⟩ := hread' _ hsizes (by rw [List.length_replicate]; omega)
  exact Option.some.inj (EStateM.Result.ok.inj (hrun.symm.trans hrun')).1

/-! ### Complete reading -/

def Stored.specGroup (datas : List Bytes) : SpecGroup :=
  ⟨datas.map fun data => ⟨data, stream data⟩, stream []⟩

theorem Stored.conforms_specGroup {datas : List Bytes} (hne : datas ≠ [])
    (hcount : datas.length ≤ 8190) (hdata : ∀ data ∈ datas, data.length < 2 ^ 16) :
    (specGroup datas).Conforms deps := by
  have hblock : ∀ block ∈ (specGroup datas).blocks, block.data.length < 2 ^ 16 ∧
      block.stream = stream block.data := by
    intro block hblock
    obtain ⟨data, hmem, rfl⟩ := List.mem_map.mp hblock
    exact ⟨hdata data hmem, rfl⟩
  have hsize : ∀ block ∈ (specGroup datas).blocks, ∀ headerSize ≤ 32, block.memberSize headerSize ≤
      2 ^ 30 := by
    intro block hmem headerSize hheader
    obtain ⟨hlen, hstream⟩ := hblock block hmem
    rw [DataBlock.memberSize, hstream, length_stream, pgzfTailSize]
    omega
  refine ⟨by simpa [specGroup] using hne, by simpa [specGroup] using hcount, ?_, ?_, ?_,
    inflates_stream (by decide), ?_⟩
  · intro block hmem
    have := (hblock block hmem).1
    omega
  · intro block hmem
    obtain ⟨hlen, hstream⟩ := hblock block hmem
    rw [hstream]
    exact inflates_stream hlen
  · intro member hmember
    rw [SpecGroup.members] at hmember
    split at hmember
    · exact absurd hmember List.not_mem_nil
    · rename_i first rest hblocks
      rw [hblocks] at hsize
      rcases List.mem_cons.mp hmember with rfl | hmember
      · rw [DataBlock.length_begMember]
        exact hsize first List.mem_cons_self _ (by decide)
      · obtain ⟨block, hmem, rfl⟩ := List.mem_map.mp hmember
        rw [DataBlock.length_datMember]
        exact hsize block (List.mem_cons_of_mem _ hmem) _ (by decide)
  · have hstream : (specGroup datas).idxStream.length = 5 := rfl
    have hlen : (specGroup datas).blocks.length = datas.length := List.length_map _
    rw [SpecGroup.idxSize, hstream, hlen, idxHeaderBaseSize, pgzfTailSize]
    omega

/-- A conforming file is opened, and it is read completely exactly where no block with bytes stands
behind one without. -/
theorem conforming_read_iff (h : ∀ group ∈ groups, group.Conforms D) (hne : groups ≠ [])
    (hsize : (specFile D groups).length < 2 ^ 64) (q : Nat) :
    ∃ reader s', new D ⟨specFile D groups, q, []⟩ = .ok reader s' ∧
      (Delivers reader (specDatas groups).flatten ↔ (specDatas groups).Pairwise fun a b => a = [] →
        b = []) := by
  refine ⟨_, _, new_specFile h hne hsize q, ?_⟩
  obtain ⟨count, hruns⟩ := runs_specFile h hsize
  constructor
  · intro hall
    exact pairwise_of_takeWhile (hruns.delivers.unique hall)
  · intro hempty
    rw [takeWhile_nonempty_eq hempty] at hruns
    exact hruns.delivers

theorem conforming_read_iff_sample :
    ∃ reader s', new Stored.deps ⟨specFile Stored.deps [Stored.specGroup [[97], [98], []]],
      0, []⟩ = .ok reader s' ∧
      Delivers reader [97, 98] := by
  have hconforms : ∀ group ∈ [Stored.specGroup [[97], [98], []]], group.Conforms Stored.deps := by
    intro group hgroup
    rw [List.mem_singleton.mp hgroup]
    exact Stored.conforms_specGroup (by decide) (by decide) (by decide)
  obtain ⟨reader, s', hnew, hread⟩ :=
    conforming_read_iff hconforms (by decide) (by decide +kernel) 0
  exact ⟨reader, s', hnew, hread.mpr (by decide)⟩

/-- An empty block in the middle of a group ends the
stream there: one of two bytes is read, and no error. -/
theorem empty_block_ends_stream :
    (∀ group ∈ [Stored.specGroup [[97], [], [98]]], group.Conforms Stored.deps) ∧
      (specDatas [Stored.specGroup [[97], [], [98]]]).flatten = [97, 98] ∧
      ∃ reader s', new Stored.deps ⟨specFile Stored.deps [Stored.specGroup [[97], [], [98]]],
        0, []⟩ = .ok reader s' ∧
        (∃ r', readToEnd [3, 3] reader = .ok (some [97]) r') ∧ ¬ Delivers reader [97, 98] := by
  have hconforms : ∀ group ∈ [Stored.specGroup [[97], [], [98]]], group.Conforms Stored.deps := by
    intro group hgroup
    rw [List.mem_singleton.mp hgroup]
    exact Stored.conforms_specGroup (by decide) (by decide) (by decide)
  refine ⟨hconforms, by decide, _, _, new_specFile hconforms (by decide) (by decide +kernel) 0,
    Program.exists_of_outcome (by decide +kernel), ?_⟩
  intro hall
  obtain ⟨count, hruns⟩ := runs_specFile hconforms (by decide +kernel)
  exact absurd (hruns.delivers.unique hall) (by decide)

end Pgzf
