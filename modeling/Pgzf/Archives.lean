import Pgzf.Append
import Pgzf.Extraction
import Pgzf.RandomAccess

/-!
# Archives of any writer

A file that is laid out as the specification asks is described by its index, like one this writer
has left, where none of its blocks is empty. So random access works on it, also where several
archives have been put one behind the other.
-/

namespace Pgzf

open PgzfReader PgzfIndex

variable {D : Deps} {groups : List SpecGroup} {file : Bytes}

theorem StoredAs.dataMember {raw data : Bytes} (h : StoredAs (D := D) raw data) (hne : data ≠ []) :
    DataMember D raw data := by
  obtain ⟨header, stream, ty, rfl, hframed, hty, hinflates, hlen⟩ := h
  exact ⟨header.length, ty, hframed, hty, decompressRawBlockWith_eq header hinflates hne hlen⟩

theorem SpecGroup.dataMember_members {group : SpecGroup} (h : group.Conforms D)
    (hfull : [] ∉ group.datas) (gc : UInt64) :
    List.Forall₂ (DataMember D) (group.members D gc) group.datas := by
  have hstored := List.forall₂_iff_get.mp (SpecGroup.storedAs_members h gc)
  refine List.forall₂_iff_get.mpr ⟨hstored.1,
    fun i hi hi' => (hstored.2 i hi hi').dataMember fun hnil => ?_⟩
  exact hfull (hnil ▸ List.get_mem _ _)

/-- Every block can be found where it stands. By induction on the groups. -/
theorem placed_specFile (h : ∀ group ∈ groups, group.Conforms D) (hfull : [] ∉ specDatas groups)
    {start : Nat} (hfile : file.drop start = specFile D groups) :
    Holds D (file.drop start) (specDatas groups) ∧
      Placed D file (specOffsets D start groups) (specDatas groups) := by
  induction groups generalizing start with
  | nil =>
    rw [hfile]
    exact ⟨.nil _, trivial⟩
  | cons group groups ih =>
    have hgroup := h group List.mem_cons_self
    rw [specDatas_cons, List.mem_append, not_or] at hfull
    rw [specFile_cons, SpecGroup.bytes, List.append_assoc] at hfile
    have hnext : file.drop (start + (group.bytes D).length) = specFile D groups := by
      rw [SpecGroup.bytes, ← List.drop_drop, hfile, ← List.append_assoc, List.drop_left]
    obtain ⟨hholds, hplaced⟩ := ih (fun g hg => h g (List.mem_cons_of_mem _ hg)) hfull.2 hnext
    have hidx : Holds D (group.idxMember ++ specFile D groups) (specDatas groups) := by
      rw [hnext] at hholds
      exact .idx (SpecGroup.framed_idxMember hgroup) hholds
    have hall := placed_members (SpecGroup.dataMember_members hgroup hfull.1 _) hfile hidx hplaced
    rw [SpecGroup.map_length_members D _ 0] at hall
    rw [specDatas_cons, specOffsets]
    exact hall

theorem length_specOffsets (D : Deps) (start : Nat) (groups : List SpecGroup) :
    (specOffsets D start groups).length = (specDatas groups).length := by
  induction groups generalizing start with
  | nil => rfl
  | cons group groups ih =>
    rw [specOffsets, List.length_append, RunningSum.length_starts, List.length_map,
      SpecGroup.length_members, ih, specDatas_cons, List.length_append, SpecGroup.length_datas]

theorem describes_specFile (h : ∀ group ∈ groups, group.Conforms D)
    (hfull : [] ∉ specDatas groups) :
    Describes D (specFile D groups) (specIndex D groups) (specDatas groups) := by
  obtain ⟨-, hplaced⟩ :=
    placed_specFile h hfull (show (specFile D groups).drop 0 = specFile D groups from rfl)
  have hlength := length_specOffsets D 0 groups
  refine ⟨blockCount_specIndex D groups, starts_blocks (specDatas groups), fun data hdata hnil =>
    hfull (hnil ▸ hdata), ?_, ?_⟩
  · intro i hi
    obtain ⟨p, hp, hholds⟩ := hplaced.get hi
    refine ⟨p, ?_, hholds⟩
    rw [PgzfIndex.compressedOffset, specIndex, List.getElem?_append_left (by rwa [hlength]), hp]
  · rw [specIndex, List.length_append, hlength, List.length_singleton]

theorem unpacks_specFile (h : ∀ group ∈ groups, group.Conforms D) (hne : groups ≠ [])
    (hfull : [] ∉ specDatas groups) (hsize : (specFile D groups).length < 2 ^ 64) :
    Unpacks D (specFile D groups) (specDatas groups).flatten := by
  have hcount := length_specDatas_le D groups
  exact ⟨_, _, new_specFile h hne hsize 0, describes_specFile h hfull, rfl, by omega⟩

theorem Concatenated.unpacks {content data : Bytes} (h : Concatenated D content data)
    (hne : data ≠ []) (hsize : content.length < 2 ^ 64) : Unpacks D content data := by
  obtain ⟨groups, hconforms, rfl, rfl, hfull⟩ := h.specFile
  refine unpacks_specFile hconforms (fun hnil => hne ?_) hfull hsize
  rw [hnil]
  rfl

/-! ### Sessions -/

/-- Without a cache, the reader of a conforming file without empty blocks is a cursor over its data,
whatever the seeks and reads. -/
theorem conforming_session (h : ∀ group ∈ groups, group.Conforms D) (hne : groups ≠ [])
    (hfull : [] ∉ specDatas groups) (hsize : (specFile D groups).length < 2 ^ 64)
    (cacheLimit : Option Nat) {readahead : Nat} (hreadahead : 0 < readahead)
    (hfit : (specDatas groups).length + readahead < 2 ^ 64) (q : Nat) :
    ∃ reader s', new D ⟨specFile D groups, q, []⟩ = .ok reader s' ∧ ∀ calls : List ReaderCall,
      (∀ call ∈ calls, call.inRange (specDatas groups).flatten.length) →
        ∃ answers r', (calls.mapM ReaderCall.run) (reader.configured readahead 0 cacheLimit) =
          .ok answers r' ∧
          CursorRun (specDatas groups).flatten 0 calls answers := by
  refine ⟨_, _, new_specFile h hne hsize q, fun calls hcalls => ?_⟩
  obtain ⟨r', hrun⟩ :=
    (uncached_configured hreadahead hfit cacheLimit).session (describes_specFile h hfull) hcalls
      (inSession_configured _ _ _ _ _ _ _)
  exact ⟨_, r', hrun, cursorRun_trace hcalls (Nat.zero_le _)⟩

theorem conforming_session_sample :
    ∃ reader s', new Stored.deps ⟨specFile Stored.deps [Stored.specGroup [[97], [98, 99]],
      Stored.specGroup [[100]]], 0, []⟩ =
        .ok reader s' ∧
      ∃ answers r', ([.seekToByte 3, .read 2, .seekToByte 1, .read 9, .read 9].mapM ReaderCall.run)
        (reader.configured 2 0 none) =
          .ok answers r' ∧
        CursorRun [97, 98, 99, 100] 0 [.seekToByte 3, .read 2, .seekToByte 1, .read 9, .read 9]
          answers := by
  have hconforms : ∀ group ∈ [Stored.specGroup [[97], [98, 99]], Stored.specGroup [[100]]],
      group.Conforms Stored.deps := by
    intro group hgroup
    rcases List.mem_cons.mp hgroup with rfl | hgroup
    · exact Stored.conforms_specGroup (by decide) (by decide) (by decide)
    · rw [List.mem_singleton.mp hgroup]
      exact Stored.conforms_specGroup (by decide) (by decide) (by decide)
  obtain ⟨reader, s', hnew, hcalls⟩ :=
    conforming_session hconforms (by decide) (by decide) (by decide +kernel) none
      (show 0 < 2 by decide) (by decide) 0
  exact ⟨reader, s', hnew, hcalls _ (by decide)⟩

end Pgzf
