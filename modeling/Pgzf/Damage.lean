import Pgzf.Chain
import Pgzf.Limits
import Pgzf.Stream

/-!
# Damaged files

The reader takes three kinds of damage for the end of the data: a `ZC` of zero, a member too small
for its trailer, and an `ISIZE` of zero. Here is what the bytes of a file must be like for no data
to be lost silently: either a batch reports an error, or all of its blocks are there and intact.
-/

namespace Pgzf

open PgzfReader PgzfIndex

variable (D : Deps) (file : Bytes) (index : PgzfIndex)

/-! ### What a file should hold -/

/-- The data member at `p` inflates to `data`, and its trailer says so. -/
def IntactAt (p : Nat) (data : Bytes) : Prop :=
  ∃ raw headerSize ty, memberAt file p = .ok (some (raw, headerSize, ty)) ∧ ty ≠ .idx ∧
    headerSize + pgzfTailSize ≤ raw.length ∧
    D.Inflates (slice raw headerSize (raw.length - pgzfTailSize)) data ∧
    readU32Le (slice raw (raw.length - pgzfTailSize) (raw.length - pgzfTailSize + 4)) =
      D.hash data ∧
    (readU32Le (slice raw (raw.length - pgzfTailSize + 4) (raw.length - pgzfTailSize + 8))).toNat =
      data.length

def listedOffset (i : Nat) : Nat := (index.compressedOffset i).getD 0

/-- The blocks from number `start` on are at `places`: batch by batch, the first one where it is
listed, and the others where the members in front of them lead. -/
inductive Found : Nat → List Nat → Prop
  | behind {start : Nat} : index.blockCount ≤ start → Found start []
  | batch {start : Nat} {places later : List Nat} : start < index.blockCount →
      Chain file (EndsAt file) (listedOffset index start)
        (batchEnd index start - start) places .full →
      Found (batchEnd index start) later → Found start (places ++ later)

/-- All blocks are found, and these are their data, each of which is intact. -/
def IntactBlocks (datas : List Bytes) : Prop :=
  ∃ places, Found file index 0 places ∧ List.Forall₂ (IntactAt D file) places datas

/-- All blocks are found and intact, they are as long as the index says, and behind an empty one
there are only empty ones. -/
def Sound : Prop :=
  ∃ datas, IntactBlocks D file index datas ∧ datas.flatten.length = index.totalUncompressed ∧
    datas.Pairwise fun a b => a = [] → b = []

variable {D file index}

/-! ### Members -/

theorem IntactAt.decompress {p : Nat} {data : Bytes} (h : IntactAt D file p data) :
    ∃ raw headerSize ty, memberAt file p = .ok (some (raw, headerSize, ty)) ∧ ty ≠ .idx ∧
      decompressRawBlockWith D raw headerSize = .ok data := by
  obtain ⟨raw, headerSize, ty, hat, hty, hroom, hinflates, hcrc, hsize⟩ := h
  refine ⟨raw, headerSize, ty, hat, hty, ?_⟩
  have hroom' : ¬ raw.length < pgzfTailSize + headerSize := by omega
  simp only [decompressRawBlockWith, hroom', if_false, hsize, hcrc,
    hinflates.decompressBlock_eq (Nat.le_refl _)]
  by_cases hnil : data = []
  · rw [hnil, List.length_nil, if_pos rfl]
  · rw [if_neg (fun hzero => hnil (List.length_eq_zero_iff.mp hzero)), if_neg (by simp)]

theorem IntactAt.whole {p : Nat} {data : Bytes} (h : IntactAt D file p data) :
    WholeAt file p ∧ (tagsAt file p).blockType ≠ .idx ∧ blockAt D file p = some data := by
  obtain ⟨raw, headerSize, ty, hat, hty, hdata⟩ := h.decompress
  obtain ⟨hwhole, rfl, rfl, rfl⟩ := whole_of_memberAt hat
  refine ⟨hwhole, hty, ?_⟩
  rw [← hwhole.decompress, hdata]
  rfl

theorem intactAt_of_inflates {p : Nat} {header stream data : Bytes} {ty : BlockType}
    (hat : memberAt file p = .ok (some (header ++ stream ++ trailer D data, header.length, ty)))
    (hty : ty ≠ .idx) (hinflates : D.Inflates stream data) (hlen : data.length < 2 ^ 32) :
    IntactAt D file p data := by
  refine ⟨_, _, ty, hat, hty, ?_, ?_, ?_, ?_⟩
  · simp only [List.length_append, length_trailer]
    omega
  · rwa [trailerOff_member, slice_stream]
  · rw [trailerOff_member, readU32Le_crc]
  · rw [trailerOff_member, readU32Le_isize, UInt32.toNat_ofNat_of_lt' hlen]

/-! ### Failing batches -/

variable {datas : List Bytes}

theorem serve_takeWhile (xs ys : List Bytes) :
    serve xs (.ok (ys.takeWhile fun data => !data.isEmpty).flatten) =
      .ok ((xs ++ ys).takeWhile fun data => !data.isEmpty).flatten := by
  induction xs with
  | nil => rfl
  | cons data xs ih =>
    rw [serve, ih, List.cons_append, List.takeWhile_cons]
    by_cases hnil : data = []
    · rw [if_pos hnil, hnil]
      rfl
    · have hfull : (!data.isEmpty) = true := by simpa using hnil
      rw [if_neg hnil, if_pos hfull]
      rfl

theorem forall₂_append_left {α β : Type} {R : α → β → Prop} {xs ys : List α} {zs : List β}
    (h : List.Forall₂ R (xs ++ ys) zs) :
    ∃ front rest, List.Forall₂ R xs front ∧ List.Forall₂ R ys rest ∧ zs = front ++ rest := by
  induction xs generalizing zs with
  | nil => exact ⟨[], zs, .nil, h, rfl⟩
  | cons x xs ih =>
    obtain _ | ⟨hx, hxs⟩ := h
    obtain ⟨front, rest, hfront, hrest, rfl⟩ := ih hxs
    exact ⟨_ :: front, rest, .cons hx hfront, hrest, rfl⟩

theorem Found.stream {start : Nat} {places : List Nat} (h : Found file index start places)
    (hintact : List.Forall₂ (IntactAt D file) places datas) :
    stream D file index start = .ok (datas.takeWhile fun data => !data.isEmpty).flatten := by
  induction h generalizing datas with
  | behind hle =>
    cases hintact
    rw [stream_of_le hle]
    rfl
  | @batch start places later hlt hchain _ ih =>
    obtain ⟨front, rest, hfront, hrest, rfl⟩ := forall₂_append_left hintact
    have hbatch : batchFrom D file index start = .ok front :=
      (hchain.batchAt (.inl rfl)).mpr (hfront.imp fun _ _ hat => hat.whole.2.2)
    have hne : front ≠ [] := by
      have hnext := lt_batchEnd hlt
      have hcount := hfront.length_eq.symm.trans hchain.length_eq
      exact List.ne_nil_of_length_pos (by omega)
    rw [stream_of_ne_nil hlt hbatch hne, ih hrest, serve_takeWhile]

theorem takeWhile_nonempty_eq {datas : List Bytes} (h : datas.Pairwise fun a b => a = [] → b = []) :
    (datas.takeWhile fun data => !data.isEmpty).flatten = datas.flatten := by
  induction datas with
  | nil => rfl
  | cons data datas ih =>
    rw [List.pairwise_cons] at h
    rw [List.takeWhile_cons]
    by_cases hnil : data = []
    · have hrest : datas.flatten = [] := List.flatten_eq_nil_iff.mpr fun b hb => h.1 b hb hnil
      rw [List.flatten_cons, hrest, hnil]
      rfl
    · have hfull : (!data.isEmpty) = true := by simpa using hnil
      rw [if_pos hfull, List.flatten_cons, List.flatten_cons, ih h.2]

theorem pairwise_of_takeWhile {datas : List Bytes}
    (h : (datas.takeWhile fun data => !data.isEmpty).flatten = datas.flatten) :
    datas.Pairwise fun a b => a = [] → b = [] := by
  induction datas with
  | nil => exact .nil
  | cons data datas ih =>
    rw [List.takeWhile_cons] at h
    rw [List.pairwise_cons]
    by_cases hnil : data = []
    · subst hnil
      have hall : datas.flatten = [] := h.symm
      have hempty := List.flatten_eq_nil_iff.mp hall
      exact ⟨fun b hb _ => hempty b hb, List.pairwise_of_forall_mem_list fun a ha b hb _ =>
        hempty b hb⟩
    · have hfull : (!data.isEmpty) = true := by simpa using hnil
      rw [if_pos hfull, List.flatten_cons, List.flatten_cons] at h
      exact ⟨fun b _ heq => absurd heq hnil, ih (List.append_cancel_left h)⟩

/-! ### No silent loss -/

namespace Stored

def sampleFile : Bytes :=
  fileBytes deps sampleConfig.compressionLevel (sampleConfig.groupsOf sampleBufs.flatten)

def sampleIndex : PgzfIndex :=
  indexOf deps sampleConfig.compressionLevel (sampleConfig.groupsOf sampleBufs.flatten)

end Stored

end Pgzf
