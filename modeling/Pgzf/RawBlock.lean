import Pgzf.Reader

/-!
# The raw reader

`memberAt` is the member an offset of a file leads to, stated without the state of a reader.
`read_one_raw_block` finds that member, or nothing, or fails as it does.
-/

namespace Pgzf

open PgzfReader

variable {D : Deps} {file : Bytes}

/-! ### Operations of the source -/

theorem onInner_readExact_ok {r : PgzfReader D} {p n : Nat} (hin : r.inner = ⟨file, p, []⟩)
    (h : n ≤ file.length - p) :
    onInner (Source.readExact n) r = .ok ((file.drop p).take n)
      { r with inner := ⟨file, p + n, []⟩ } :=
  Program.onPart_ok (by rw [hin]; exact Source.readExact_ok h)

theorem onInner_readExact_eof {r : PgzfReader D} {p n : Nat} (hin : r.inner = ⟨file, p, []⟩)
    (h : file.length - p < n) : onInner (Source.readExact n) r =
      .error (.error (.io .unexpectedEof)) { r with inner := ⟨file, file.length, []⟩ } :=
  Program.onPart_error (by rw [hin]; exact Source.readExact_eof h)

theorem onInner_ok {α : Type} {m : Prog Source α} {r : PgzfReader D} {a : α} {s : Source}
    (h : m r.inner = .ok a s) :
    onInner m r = .ok a { r with inner := s } :=
  Program.onPart_ok h

theorem onInner_error {α : Type} {m : Prog Source α} {r : PgzfReader D} {fault : Fault} {s : Source}
    (h : m r.inner = .error fault s) : onInner m r = .error fault { r with inner := s } :=
  Program.onPart_error h

theorem seekStart_inner {r : PgzfReader D} {p : Nat} (hin : r.inner = ⟨file, p, []⟩)
    (offset : Nat) :
    Source.seekStart offset r.inner = .ok () ⟨file, offset, []⟩ := by
  rw [hin]
  exact Source.seekStart_apply _ _ _

theorem onInner_seekStart {r : PgzfReader D} {p : Nat} (hin : r.inner = ⟨file, p, []⟩)
    (offset : Nat) :
    onInner (Source.seekStart offset) r = .ok () { r with inner := ⟨file, offset, []⟩ } :=
  onInner_ok (seekStart_inner hin offset)

/-! ### Members -/

/-- The member at an offset: its bytes, the size of its header and its type; nothing where the file
ends or `ZC` is zero. -/
def memberAt (file : Bytes) (p : Nat) : Except Fault (Option (Bytes × Nat × BlockType)) :=
  if file.length - p < gzipFixedHeaderSize then .ok none
  else if file.length - (p + gzipFixedHeaderSize) < 2 then .error (.error (.io .unexpectedEof))
  else
    let xlen := (readU16Le ((file.drop (p + gzipFixedHeaderSize)).take 2)).toNat
    if file.length - (p + gzipFixedHeaderSize + 2) < xlen then .error (.error (.io .unexpectedEof))
    else
      let tags := rawTags ((file.drop (p + gzipFixedHeaderSize + 2)).take xlen)
      if tags.zc = 0 then .ok none
      else if tags.zc.toNat > 2 ^ 30 then
        .error
          (.error (.invalidFormat ("block size too large: " ++ toString tags.zc.toNat ++ " bytes")))
      else if tags.zc.toNat < gzipFixedHeaderSize + 2 + xlen then
        .error (.panic "range end index out of range for slice")
      else if file.length - p < tags.zc.toNat then .error (.error (.io .unexpectedEof))
      else .ok (some ((file.drop p).take tags.zc.toNat, gzipFixedHeaderSize + 2 + xlen,
        tags.blockType))

theorem length_of_memberAt {p : Nat} {raw : Bytes} {headerSize : Nat} {ty : BlockType}
    (h : memberAt file p = .ok (some (raw, headerSize, ty))) :
    0 < raw.length ∧ p + raw.length ≤ file.length := by
  simp only [memberAt] at h
  split_ifs at h with hbase hxlen hextra hzero hlarge hheader hroom
  all_goals simp only [Except.ok.injEq, Option.some.injEq, Prod.mk.injEq, reduceCtorEq] at h
  obtain ⟨rfl, -⟩ := h
  have hfixed : gzipFixedHeaderSize = 10 := rfl
  rw [List.length_take, List.length_drop]
  omega

theorem base_le_of_memberAt {p : Nat} {raw : Bytes} {headerSize : Nat} {ty : BlockType}
    (h : memberAt file p = .ok (some (raw, headerSize, ty))) :
    gzipFixedHeaderSize + 2 ≤ raw.length := by
  simp only [memberAt] at h
  split_ifs at h with hbase hxlen hextra hzero hlarge hheader hroom
  all_goals simp only [Except.ok.injEq, Option.some.injEq, Prod.mk.injEq, reduceCtorEq] at h
  obtain ⟨rfl, -⟩ := h
  rw [List.length_take, List.length_drop]
  omega

theorem take_of_memberAt {p : Nat} {raw : Bytes} {headerSize : Nat} {ty : BlockType}
    (h : memberAt file p = .ok (some (raw, headerSize, ty))) :
    (file.drop p).take raw.length = raw := by
  simp only [memberAt] at h
  split_ifs at h with hbase hxlen hextra hzero hlarge hheader hroom
  all_goals simp only [Except.ok.injEq, Option.some.injEq, Prod.mk.injEq, reduceCtorEq] at h
  obtain ⟨rfl, -⟩ := h
  rw [List.length_take, ← List.take_take, List.take_length]

theorem take_pieces (file : Bytes) (p xlen n : Nat) :
    (file.drop p).take gzipFixedHeaderSize ++ (file.drop (p + gzipFixedHeaderSize)).take 2 ++
        (file.drop (p + gzipFixedHeaderSize + 2)).take xlen ++
          (file.drop (p + gzipFixedHeaderSize + 2 + xlen)).take n =
      (file.drop p).take (gzipFixedHeaderSize + 2 + xlen + n) := by
  rw [List.take_add, List.take_add, List.take_add]
  simp only [List.drop_drop, Nat.add_assoc]

theorem counted_apply {α : Type} (ty : BlockType) (m : Prog (PgzfReader D) α) (r : PgzfReader D) :
    (if ty ≠ .idx then do
        modify fun r => { r with nextBlockIndex := r.nextBlockIndex + 1 }
        m
      else m) r =
      m { r with nextBlockIndex := if ty = .idx then r.nextBlockIndex
        else r.nextBlockIndex + 1 } := by
  by_cases hidx : ty = .idx
  · simp only [hidx, ne_eq, not_true, if_false, if_true]
  · simp only [hidx, ne_eq, not_false_eq_true, if_true, if_false]
    exact Program.bind_ok (Program.modify_apply _ _)

/-- The reader finds the member at its offset. -/
theorem readOneRawBlock_eq {r : PgzfReader D} {p : Nat} (hin : r.inner = ⟨file, p, []⟩) :
    match memberAt file p with
    | .ok (some (raw, headerSize, ty)) =>
      readOneRawBlock r = .ok (some ⟨raw, headerSize, ty, r.nextBlockIndex⟩) { r with
        inner := ⟨file, p + raw.length, []⟩
        nextBlockIndex := if ty = .idx then r.nextBlockIndex else r.nextBlockIndex + 1 }
    | .ok none => ∃ q next, readOneRawBlock r = .ok none { r with
        inner := ⟨file, q, []⟩, nextBlockIndex := next }
    | .error fault => ∃ q next, readOneRawBlock r = .error fault { r with
        inner := ⟨file, q, []⟩, nextBlockIndex := next } := by
  rw [memberAt]
  by_cases hbase : file.length - p < gzipFixedHeaderSize
  · rw [if_pos hbase]
    refine ⟨file.length, r.nextBlockIndex, ?_⟩
    rw [readOneRawBlock, Program.bind_ok (Prog.attempt_error (onInner_readExact_eof hin hbase))]
    rfl
  · rw [if_neg hbase, readOneRawBlock,
      Program.bind_ok (Prog.attempt_ok (onInner_readExact_ok hin (Nat.not_lt.mp hbase)))]
    simp only
    by_cases hxlen : file.length - (p + gzipFixedHeaderSize) < 2
    · rw [if_pos hxlen]
      exact ⟨_, r.nextBlockIndex, Program.bind_error (onInner_readExact_eof rfl hxlen)⟩
    · rw [if_neg hxlen, Program.bind_ok (onInner_readExact_ok rfl (Nat.not_lt.mp hxlen))]
      generalize (readU16Le ((file.drop (p + gzipFixedHeaderSize)).take 2)).toNat = xlen
      by_cases hextra : file.length - (p + gzipFixedHeaderSize + 2) < xlen
      · rw [if_pos hextra]
        exact ⟨_, r.nextBlockIndex, Program.bind_error (onInner_readExact_eof rfl hextra)⟩
      · rw [if_neg hextra, Program.bind_ok (onInner_readExact_ok rfl (Nat.not_lt.mp hextra)),
          Program.bind_ok (Program.get_apply _)]
        simp only
        have hraw := take_pieces file p xlen
        generalize rawTags ((file.drop (p + gzipFixedHeaderSize + 2)).take xlen) = tags
        rw [counted_apply]
        by_cases hzero : tags.zc = 0
        · simp only [hzero, if_true]
          exact ⟨_, _, rfl⟩
        · by_cases hlarge : tags.zc.toNat > 2 ^ 30
          · simp only [hzero, hlarge, if_true, if_false]
            exact ⟨_, _, rfl⟩
          · by_cases hheader : tags.zc.toNat < gzipFixedHeaderSize + 2 + xlen
            · simp only [hzero, hlarge, hheader, if_true, if_false]
              exact ⟨_, _, rfl⟩
            · simp only [hzero, hlarge, hheader, if_false]
              by_cases hshort : file.length - p < tags.zc.toNat
              · rw [if_pos hshort]
                exact ⟨_, _, Program.bind_error (onInner_readExact_eof rfl (by omega))⟩
              · rw [if_neg hshort, Program.bind_ok (onInner_readExact_ok rfl (by omega)), hraw,
                  Program.pure_apply,
                  show gzipFixedHeaderSize + 2 + xlen +
                    (tags.zc.toNat - (gzipFixedHeaderSize + 2 + xlen)) = tags.zc.toNat by omega]
                have hlen : ((file.drop p).take tags.zc.toNat).length = tags.zc.toNat := by
                  rw [List.length_take, List.length_drop]
                  omega
                simp only [hlen, show p + gzipFixedHeaderSize + 2 + xlen +
                  (tags.zc.toNat - (gzipFixedHeaderSize + 2 + xlen)) = p + tags.zc.toNat by omega]

/-- However a raw read ends, the reader differs in
the place of its source and in its count at most. -/
theorem readOneRawBlock_keeps {P : PgzfReader D → Prop} {r : PgzfReader D} {p : Nat}
    (hin : r.inner = ⟨file, p, []⟩)
    (hP : ∀ q next, P { r with inner := ⟨file, q, []⟩, nextBlockIndex := next }) :
    Program.Post (fun found r' => P r' ∧ ∀ block, found = some block →
        memberAt file p = .ok (some (block.raw, block.headerSize, block.blockType)) ∧
          r'.inner = ⟨file, p + block.raw.length, []⟩ ∧
            r'.nextBlockIndex =
              if block.blockType = .idx then r.nextBlockIndex else r.nextBlockIndex + 1)
      (fun fault r' => P r' ∧ memberAt file p = .error fault) (readOneRawBlock r) := by
  have hread := readOneRawBlock_eq hin
  cases hat : memberAt file p with
  | error fault =>
    rw [hat] at hread
    obtain ⟨q, next, hread⟩ := hread
    rw [hread]
    exact ⟨hP q next, rfl⟩
  | ok found =>
    rw [hat] at hread
    cases found with
    | none =>
      obtain ⟨q, next, hread⟩ := hread
      rw [hread]
      exact ⟨hP q next, fun block hblock => absurd hblock (by simp)⟩
    | some member =>
      obtain ⟨raw, headerSize, ty⟩ := member
      simp only at hread
      rw [hread]
      refine ⟨hP _ _, fun block hblock => ?_⟩
      obtain rfl := Option.some.inj hblock
      exact ⟨rfl, rfl, rfl⟩

end Pgzf
