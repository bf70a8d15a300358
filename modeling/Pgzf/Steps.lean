import Pgzf.Drift

/-!
# What the steps of a call keep

The loops over raw blocks and the calls around them go by a few steps: a raw read, a seek of the
source, a count that is set, and what a seek forgets. What these steps keep true of a reader, a
whole walk keeps, and a call.
-/

namespace Pgzf

open PgzfReader Program

variable {D : Deps} {P : PgzfReader D → Prop} {B : Bytes → Nat → Prop} {r : PgzfReader D}

abbrev Stays (P : PgzfReader D → Prop) {α : Type} (result : EStateM.Result Fault (PgzfReader D) α) :
    Prop :=
  Post (fun _ r' => P r') (fun _ r' => P r') result

/-- The steps of a walk keep `P`, and the data blocks it finds satisfy `B`. -/
structure WalkInvariant (P : PgzfReader D → Prop) (B : Bytes → Nat → Prop) : Prop where
  raw : ∀ {r}, P r → Post (fun found r' => P r' ∧ ∀ block, found = some block →
    block.blockType ≠ .idx → B block.raw block.headerSize) (fun _ r' => P r') (readOneRawBlock r)
  seekStart : ∀ {r} offset, P r → Stays P (onInner (Source.seekStart offset) r)
  counted : ∀ {r} next, P r → P { r with nextBlockIndex := next }

def PgzfReader.cleared (r : PgzfReader D) (next : Nat) (eof : Bool) (pending : Option Nat) :
    PgzfReader D :=
  { r with
    nextBlockIndex := next, currentBlock := [], currentPos := 0, eof := eof
    pendingSeek := pending, readahead := [] }

structure CallInvariant (P : PgzfReader D → Prop) (B : Bytes → Nat → Prop) :
    Prop extends WalkInvariant P B where
  cleared : ∀ {r} next eof pending, P r → P (r.cleared next eof pending)
  read : ∀ {r} n, P r → Stays P (PgzfReader.read n r)

/-! ### Walks -/

theorem WalkInvariant.readRange (hP : WalkInvariant P B) (h : P r) (fuel count : Nat)
    {allRaw : List (Nat × Bytes × Nat)} (hraw : ∀ entry ∈ allRaw, B entry.2.1 entry.2.2) :
    Post (fun out r' => P r' ∧ ∀ entry ∈ out.1, B entry.2.1 entry.2.2) (fun _ r' => P r')
      (PgzfReader.readRange fuel count allRaw r) := by
  induction fuel generalizing r count allRaw with
  | zero => exact h
  | succ fuel ih =>
    rw [PgzfReader.readRange]
    refine Post.ite (fun _ => ⟨h, hraw⟩) fun _ => (Prog.post_intoIo_state (hP.raw h)).bind ?_
    intro found mid hread
    obtain ⟨hmid, hfound⟩ := hread
    cases found with
    | none => exact ⟨hmid, hraw⟩
    | some block =>
      refine Post.ite (fun _ => ih hmid _ hraw) fun hdata => ?_
      rw [bind_ok (get_apply _)]
      apply ih hmid
      intro entry hentry
      rcases List.mem_append.mp hentry with hentry | hentry
      · exact hraw entry hentry
      · rw [List.mem_singleton.mp hentry]
        exact hfound block rfl hdata

theorem WalkInvariant.readRanges (hP : WalkInvariant P B) (h : P r)
    (ranges : List ((Nat × Nat) × Nat)) {allRaw : List (Nat × Bytes × Nat)}
    (hraw : ∀ entry ∈ allRaw, B entry.2.1 entry.2.2) :
    Post (fun out r' => P r' ∧ ∀ entry ∈ out.1, B entry.2.1 entry.2.2) (fun _ r' => P r')
      (PgzfReader.readRanges ranges allRaw r) := by
  induction ranges generalizing r allRaw with
  | nil => exact ⟨h, hraw⟩
  | cons range rest ih =>
    obtain ⟨⟨first, stop⟩, offset⟩ := range
    rw [PgzfReader.readRanges]
    apply (Prog.post_intoIo_state (hP.seekStart offset h)).bind
    intro _ front hfront
    rw [bind_ok (modify_apply _ _), bind_ok (get_apply _)]
    apply (hP.readRange (hP.counted first hfront) _ _ hraw).bind
    intro out mid hmid
    exact Post.ite (fun _ => hmid) fun _ => ih hmid.1 hmid.2

theorem WalkInvariant.readBlocksLoop (hP : WalkInvariant P B) (h : P r) (fuel count : Nat)
    {rawBatch : List (Bytes × Nat)} (hraw : ∀ entry ∈ rawBatch, B entry.1 entry.2) :
    Post (fun out r' => P r' ∧ ∀ entry ∈ out, B entry.1 entry.2) (fun _ r' => P r')
      (PgzfReader.readBlocksLoop fuel count rawBatch r) := by
  induction fuel generalizing r count rawBatch with
  | zero => exact h
  | succ fuel ih =>
    rw [PgzfReader.readBlocksLoop]
    refine Post.ite (fun _ => ⟨h, hraw⟩) fun _ => (hP.raw h).bind ?_
    intro found mid hread
    obtain ⟨hmid, hfound⟩ := hread
    cases found with
    | none => exact ⟨hmid, hraw⟩
    | some block =>
      refine Post.ite (fun _ => ih hmid _ hraw) fun hdata => ih hmid _ ?_
      intro entry hentry
      rcases List.mem_append.mp hentry with hentry | hentry
      · exact hraw entry hentry
      · rw [List.mem_singleton.mp hentry]
        exact hfound block rfl hdata

/-! ### Calls -/

/-- The bytes of a range are the data of such blocks, one behind the other. -/
theorem CallInvariant.readBlocks (hP : CallInvariant P B) (h : P r) (start count : Nat) :
    Post (fun out r' => P r' ∧ ∃ datas : List Bytes, out = datas.flatten ∧ ∀ data ∈ datas,
      ∃ raw headerSize,
        B raw headerSize ∧ decompressRawBlockWith D raw headerSize = .ok data)
      (fun _ r' => P r') (PgzfReader.readBlocks start count r) := by
  rw [PgzfReader.readBlocks, bind_ok (get_apply _)]
  refine Post.ite (fun _ => h) fun _ => ?_
  cases r.index with
  | none => exact h
  | some index =>
    refine Post.ite (fun _ => h) fun _ => Post.bind (Q := fun _ mid => mid = r) ?_ ?_
    · rw [addU64]
      exact Post.ite (fun _ => rfl) fun _ => h
    intro limit same hsame
    subst hsame
    refine Post.ite (fun _ => ⟨h, [], rfl, fun _ hdata => absurd hdata List.not_mem_nil⟩)
      fun _ => ?_
    cases index.compressedOffset start with
    | none => exact h
    | some offset =>
      refine (hP.seekStart offset h).bind fun _ front hfront => ?_
      rw [bind_ok (modify_apply _ _), bind_ok (get_apply _)]
      apply (hP.readBlocksLoop (hP.counted start hfront) _ _ fun _ hentry =>
        absurd hentry List.not_mem_nil).bind
      intro rawBatch mid hbatch
      obtain ⟨hmid, hraws⟩ := hbatch
      apply Post.bind ((Prog.post_ofExcept _ hmid).mono (fun _ _ h' => h') fun _ _ h' => h'.2)
      intro datas same hdatas
      obtain ⟨hdatas, rfl⟩ := hdatas
      rw [bind_ok (modify_apply _ _)]
      refine ⟨hP.cleared same.nextBlockIndex false none hmid, datas, rfl, fun data hdata => ?_⟩
      obtain ⟨⟨raw, headerSize⟩, hmem, hdecoded⟩ := mem_of_mapM_except_ok hdatas data hdata
      exact ⟨raw, headerSize, hraws _ hmem, hdecoded⟩

theorem CallInvariant.seekToByte (hP : CallInvariant P B) (h : P r) (offset : Nat) :
    Stays P (PgzfReader.seekToByte offset r) := by
  rw [PgzfReader.seekToByte, bind_ok (get_apply _)]
  exact Post.ite (fun _ => h) fun _ => hP.cleared 0 r.eof (some offset) h

theorem seekBlock_keeps {σ : Type} (P : σ → Prop) (index : PgzfIndex) (i : Int) {s : σ} (hs : P s) :
    Post (fun _ s' => s' = s) (fun _ s' => P s') (index.seekBlock i s) := by
  rw [PgzfIndex.seekBlock]
  refine Post.bind (Q := fun _ s' => s' = s) ?_ ?_
  · refine Post.ite (fun _ => Post.ite (fun _ => hs) fun _ => Post.ite (fun _ => hs) fun _ => ?_)
      fun _ => ?_
    · exact rfl
    · exact rfl
  · rintro actual _ rfl
    refine Post.ite (fun _ => hs) fun _ => ?_
    cases index.compressedOffsets[actual]? with
    | none => exact hs
    | some offset => exact rfl

theorem CallInvariant.seekToBlock (hP : CallInvariant P B) (h : P r) (i : Int) :
    Stays P (PgzfReader.seekToBlock i r) := by
  rw [PgzfReader.seekToBlock, bind_ok (get_apply _)]
  refine Post.ite (fun _ => h) fun _ => ?_
  cases r.index with
  | none => exact h
  | some index =>
    apply (seekBlock_keeps _ index i h).bind
    intro offset same hsame
    subst hsame
    exact (hP.seekStart offset h).bind fun _ mid hmid => hP.cleared 0 false none hmid

theorem CallInvariant.seek (hP : CallInvariant P B) (h : P r) (pos : SeekFrom) :
    Stays P (PgzfReader.seek pos r) := by
  have hnoted : ∀ target, P (r.cleared 0 r.eof (some target)) :=
    fun target => hP.cleared 0 r.eof (some target) h
  have hoffset : ∀ n m,
      Post (fun _ mid => mid = r) (fun _ mid => P mid) ((offsetI64 n m : Prog _ Nat) r) :=
    fun n m => Post.ite (fun _ => rfl) fun _ => h
  rw [PgzfReader.seek, bind_ok (get_apply _)]
  cases pos with
  | start n => exact hnoted n
  | fromEnd m =>
    refine Post.ite (fun _ => h) fun _ => (hoffset _ m).bind ?_
    rintro target _ rfl
    exact hnoted target
  | current m =>
    apply (hoffset _ m).bind
    rintro target _ rfl
    exact hnoted target

theorem CallInvariant.call (hP : CallInvariant P B) (h : P r) (call : BlockCall) :
    Stays P (call.run r) := by
  cases call with
  | read n => exact (hP.read n h).bind fun _ _ h' => h'
  | seekToByte offset => exact hP.seekToByte h offset
  | seekToBlock i => exact hP.seekToBlock h i
  | seek pos => exact (hP.seek h pos).bind fun _ _ h' => h'
  | readBlocks start count => exact (hP.readBlocks h start count).bind fun _ _ h' => h'.1
  | readOneRawBlock => exact (hP.raw h).bind fun _ _ h' => h'.1

end Pgzf
