import Pgzf.CompressedFiles
import Pgzf.Truncation

/-!
# Writes cut short

What stands in the file of a writer when one of its operations fails. Between two operations, or
inside a write that appends, it is the finished groups and a piece of the next one. Inside the write
that gives a group its length it is a whole group with the low bytes of the length only, which may
lead the scan anywhere. Where the file is long enough for a reader to open it and no length is torn,
it unpacks to the data of the finished groups.
-/

namespace Pgzf

open PgzfReader PgzfWriter

variable {D : Deps} {level : Nat}

/-! ### Cut logs -/

theorem CutIn.cons {ops log : List SinkOp} (h : CutIn ops log) (op : SinkOp) :
    CutIn (op :: ops) (op :: log) := by
  rcases h with hops | ⟨done, op', written, hdone, rfl⟩
  · exact .inl ((List.prefix_cons_inj op).mpr hops)
  · exact .inr ⟨op :: done, op', written, (List.prefix_cons_inj op).mpr hdone, rfl⟩

/-- A length of which the first `m` bytes are written over a zero. -/
def tornGc (m : Nat) (gc : UInt64) : UInt64 := UInt64.ofNat (gc.toNat % 256 ^ m)

variable (D level) in
/-- What there is of a group: a piece of it that has no length yet, or all of it with a length. -/
inductive CutGroup (blocks : List Bytes) (part : Bytes) : Prop
  | piece : part <+: groupWith D level 0 blocks → CutGroup blocks part
  | measured {m : Nat} : m ≤ 8 →
    part = groupWith D level (tornGc m (groupGc D level blocks)) blocks → CutGroup blocks part

theorem CutGroup.length_le {blocks : List Bytes} {part : Bytes} (h : CutGroup D level blocks part) :
    part.length ≤ (groupBytes D level blocks).length := by
  cases h with
  | piece hpart =>
    exact hpart.length_le.trans (Nat.le_of_eq (length_groupWith_eq D level 0 _ blocks))
  | measured _ hpart => exact Nat.le_of_eq (by rw [hpart, groupBytes, length_groupWith_eq])

variable {config : PgzfConfig} {data content : Bytes}

section Storable

variable {k : Nat} {blocks : List Bytes} {part : Bytes}

theorem Storable.group_ne_nil (hs : Storable D config data) :
    ∀ blocks ∈ config.groupsOf data, blocks ≠ [] :=
  fun blocks hblocks => (hs.inBounds.fits hs.blockSize_pos blocks hblocks).ne_nil

theorem Storable.gzipBase_prefix_take (hs : Storable D config data) (hk : 0 < k) (rest : Bytes) :
    gzipBase <+: fileBytes D config.compressionLevel ((config.groupsOf data).take k) ++ rest := by
  refine gzipBase_prefix_fileBytes _ ?_ (fun b hb =>
    hs.group_ne_nil b (List.mem_of_mem_take hb)) rest
  rw [ne_eq, List.take_eq_nil_iff, not_or]
  exact ⟨Nat.ne_of_gt hk, groupsOf_ne_nil hs.blockSize_pos hs.nonempty⟩

end Storable

end Pgzf
