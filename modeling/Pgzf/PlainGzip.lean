import Pgzf.Parse
import Pgzf.Library.Gzip
import Pgzf.Sequential
import Pgzf.Stored

/-!
# Files without the marker

A plain gzip file is opened, and then cannot be read: the sequential reader takes the bytes behind
the fixed header for the length of an extra field, whether the flags announce one or not, and wants
to know the length of the member from a `ZC` sub-field, which only members with the marker are
searched for. So `ZC` is always zero there, and every first read fails.
-/

namespace Pgzf

open PgzfReader

variable {D : Deps} {inflate : Bytes → Option (Bytes × Nat)} {hash : Bytes → UInt32}

/-! ### Opening -/

theorem validateGzipHeader_fixed {h : Gzip.Header} (hvalid : h.Valid) :
    validateGzipHeader h.fixed = .ok (h.flags, h.xfl) := by
  have hxfl : h.fixed.getD 8 0 = h.xfl := by
    obtain ⟨a, b, c, d, hmtime⟩ : ∃ a b c d, h.mtime = [a, b, c, d] := by
      have hlen := hvalid.mtime
      rcases hm : h.mtime with _ | ⟨a, _ | ⟨b, _ | ⟨c, _ | ⟨d, _ | ⟨e, rest⟩⟩⟩⟩⟩ <;> rw [hm]
        at hlen <;>
        simp only [List.length_nil, List.length_cons] at hlen <;> first | omega | exact ⟨a, b,
          c, d, rfl⟩
    rw [Gzip.Header.fixed, hmtime]
    rfl
  have hlen : ¬ h.fixed.length < gzipFixedHeaderSize := by
    rw [Gzip.length_fixed hvalid]
    exact Nat.lt_irrefl 10
  rw [validateGzipHeader, if_neg hlen, hxfl]
  rfl

theorem member_split (hash : Bytes → UInt32) (m : Gzip.Member) :
    ∃ tail, m.bytes hash = m.header.fixed ++ tail ∧ 8 ≤ tail.length := by
  refine ⟨Gzip.Header.extraBytes m.header.extra ++ Gzip.Header.textBytes m.header.name ++
    Gzip.Header.textBytes m.header.comment ++
    (if m.header.headerCrc then LittleEndian.encode 2 (hash m.header.front).toNat else []) ++
    (m.stream ++ Gzip.Member.trailer hash m.data), ?_, ?_⟩
  · simp only [Gzip.Member.bytes, Gzip.Header.bytes, Gzip.Header.front, List.append_assoc]
  · simp only [List.length_append, Gzip.length_trailer]
    omega

theorem readExact_fixed {h : Gzip.Header} (hvalid : h.Valid) {file : Bytes}
    (hfile : h.fixed <+: file) :
    Source.readExact gzipFixedHeaderSize ⟨file, 0, []⟩ = .ok h.fixed ⟨file, 10, []⟩ := by
  have hread := Source.readExact_prefix (show h.fixed <+: file.drop 0 by rwa [List.drop_zero])
  rwa [Gzip.length_fixed hvalid] at hread

def plain (D : Deps) (file : Bytes) : PgzfReader D := opened D ⟨file, 0, []⟩ none

theorem new_plain {h : Gzip.Header} (hvalid : h.Valid)
    (hmarker : isPgzfMember h.flags h.xfl = false) {file : Bytes} (hfile : h.fixed <+: file)
    (q : Nat) : new D ⟨file, q, []⟩ = .ok (plain D file) ⟨file, 0, []⟩ := by
  have hread := readExact_fixed hvalid hfile
  rw [new, Program.bind_ok (Source.seekStart_apply _ _ _), Program.bind_ok hread,
    validateGzipHeader_fixed hvalid, Program.bind_ok (Prog.ofExcept_ok _ _)]
  simp only [hmarker, Bool.false_eq_true, if_false]
  rw [Program.bind_ok (Program.pure_apply _ _), Program.bind_ok (Source.seekStart_apply _ _ _),
    Program.bind_ok (Program.get_apply _), Program.pure_apply]
  rfl

/-! ### Reading -/

/-- A member without the marker is not read, whatever it holds. -/
theorem readPgzfBlock_plain {h : Gzip.Header} (hvalid : h.Valid)
    (hmarker : isPgzfMember h.flags h.xfl = false) {file tail : Bytes}
    (hfile : file = h.fixed ++ tail) (htail : 2 ≤ tail.length) :
    ∃ e s', readPgzfBlock D ⟨file, 0, []⟩ = .error (.error e) s' := by
  have hread := readExact_fixed hvalid (show h.fixed <+: file by
    rw [hfile]
    exact List.prefix_append _ _)
  have hlen : file.length = 10 + tail.length := by
    rw [hfile, List.length_append, Gzip.length_fixed hvalid]
  have hxlen : 2 ≤ file.length - 10 := by omega
  rw [readPgzfBlock, Program.bind_ok (Prog.attempt_ok hread)]
  simp only
  rw [validateGzipHeader_fixed hvalid, Program.bind_ok (Prog.ofExcept_ok _ _)]
  simp only [hmarker]
  rw [Program.bind_ok (Source.readExact_ok hxlen)]
  have hxlenLen : ((file.drop 10).take 2).length = 2 := by
    rw [List.length_take, List.length_drop]
    omega
  generalize (file.drop 10).take 2 = xlenBuf at *
  by_cases hextra : (readU16Le xlenBuf).toNat ≤ file.length - 12
  · have hextraLen : ((file.drop 12).take (readU16Le xlenBuf).toNat).length =
        (readU16Le xlenBuf).toNat := by
      rw [List.length_take, List.length_drop]
      omega
    rw [Program.bind_ok (Source.readExact_ok hextra),
      parseExtraField_split (List.append_nil _).symm hxlenLen hextraLen,
      if_neg Bool.false_ne_true, Program.bind_ok (Prog.ofExcept_ok _ _)]
    simp only
    rw [if_pos (by decide)]
    exact ⟨_, _, rfl⟩
  · exact ⟨_, _, Program.bind_error (Source.readExact_eof (by omega))⟩

theorem read_plain {h : Gzip.Header} (hvalid : h.Valid)
    (hmarker : isPgzfMember h.flags h.xfl = false) {file tail : Bytes}
    (hfile : file = h.fixed ++ tail) (htail : 2 ≤ tail.length) {n : Nat} (hn : 0 < n) :
    ∃ e r', PgzfReader.read n (plain D file) = .error (.error e) r' := by
  obtain ⟨e, s', hblock⟩ := readPgzfBlock_plain (D := D) hvalid hmarker hfile htail
  have hinto : ∃ r', Prog.intoIo (onInner (readPgzfBlock D)) (plain D file) =
      .error (.error (.io e.toIo)) r' := by
    have honInner : onInner (readPgzfBlock D) (plain D file) = .error (.error e) { plain D file
        with inner := s' } :=
      Program.onPart_error hblock
    exact ⟨_, by rw [Prog.intoIo, honInner]⟩
  obtain ⟨r', hinto⟩ := hinto
  refine ⟨.io e.toIo, r', ?_⟩
  rw [PgzfReader.read, if_neg (Nat.ne_of_gt hn)]
  change (readNextBlock n) (plain D file) = _
  rw [readNextBlock, Program.bind_ok (Program.get_apply _)]
  change (advanceToNextBlockSequential >>= _) (plain D file) = _
  apply Program.bind_error
  rw [advanceToNextBlockSequential, Program.bind_ok (Program.get_apply _), advanceSequentialLoop,
    Program.bind_error hinto]

/-- No file of gzip members whose first one lacks the marker can be read: it is opened, and then
every read fails. -/
theorem plain_gzip_unreadable {members : List Gzip.Member} (hvalid : ∀ m ∈ members, m.Valid inflate)
    {first : Gzip.Member} (hfirst : members.head? = some first)
    (hmarker : isPgzfMember first.header.flags first.header.xfl = false) (q : Nat) :
    ∃ reader s, new D ⟨members.flatMap (Gzip.Member.bytes hash), q, []⟩ = .ok reader s ∧
      reader.isPgzf = false ∧
      ∀ n sizes, 0 < n → ∃ e r', readToEnd (n :: sizes) reader = .error (.error e) r' := by
  obtain ⟨rest, rfl⟩ := List.head?_eq_some_iff.mp hfirst
  have hmember := hvalid first List.mem_cons_self
  obtain ⟨tail, htail, hlen⟩ := member_split hash first
  have hfile : (first :: rest).flatMap (Gzip.Member.bytes hash) =
      first.header.fixed ++ (tail ++ rest.flatMap (Gzip.Member.bytes hash)) := by
    rw [List.flatMap_cons, htail, List.append_assoc]
  have hroom : 2 ≤ (tail ++ rest.flatMap (Gzip.Member.bytes hash)).length := by
    rw [List.length_append]
    omega
  refine ⟨_, _, new_plain hmember.header hmarker (by rw [hfile]; exact List.prefix_append _ _) q,
    rfl, ?_⟩
  intro n sizes hn
  obtain ⟨e, r', hread⟩ := read_plain (D := D) hmember.header hmarker hfile hroom hn
  exact ⟨e, r', by rw [readToEnd, Program.bind_error hread]⟩

/-! ### A sample -/

def Stored.helloMember : Gzip.Member :=
  ⟨⟨false, false, none, none, none, [0, 0, 0, 0], 0, 3⟩, stream [104, 101, 108, 108, 111],
    [104, 101, 108, 108, 111]⟩

def Stored.namedMember : Gzip.Member :=
  ⟨⟨true, true, some [1, 2, 3], some [97], some [98], [1, 0, 0, 0], 2, 3⟩, stream [104, 105],
    [104, 105]⟩

theorem Stored.hello_valid : helloMember.Valid Stored.inflate :=
  ⟨⟨rfl, by simp [helloMember], by simp [helloMember], by simp [helloMember]⟩,
    delimits_stream (by decide)⟩

theorem Stored.named_valid : namedMember.Valid Stored.inflate :=
  ⟨⟨rfl, by simp [namedMember], by simp [namedMember], by simp [namedMember]⟩,
    delimits_stream (by decide)⟩

theorem plain_gzip_unreadable_sample :
    ∃ reader s, new Stored.deps
        ⟨[Stored.namedMember, Stored.helloMember].flatMap (Gzip.Member.bytes Stored.hash),
          0, []⟩ = .ok reader s ∧
      reader.isPgzf = false ∧ ∀ n sizes, 0 < n →
        ∃ e r', readToEnd (n :: sizes) reader = .error (.error e) r' := by
  have hvalid : ∀ m ∈ [Stored.namedMember, Stored.helloMember], m.Valid Stored.inflate := by
    intro m hm
    simp only [List.mem_cons, List.not_mem_nil, or_false] at hm
    obtain rfl | rfl := hm
    · exact Stored.named_valid
    · exact Stored.hello_valid
  exact plain_gzip_unreadable hvalid rfl rfl 0

/-- A gzip file of five bytes of text: any gzip decoder
reads it, and the reader opens it and fails. -/
theorem plain_gzip_refused :
    Gzip.gunzip Stored.inflate Stored.hash (Stored.helloMember.bytes Stored.hash) =
        some [⟨none, [104, 101, 108, 108, 111]⟩] ∧
      ∃ reader s, new Stored.deps ⟨Stored.helloMember.bytes Stored.hash, 0, []⟩ = .ok reader s ∧
        reader.isPgzf = false ∧
          ∃ r', readToEnd [6, 6] reader = .error (.error (.io .unexpectedEof)) r' := by
  refine ⟨by decide +kernel, _, _,
    new_plain Stored.hello_valid.header rfl (by decide +kernel) 0, rfl, ?_⟩
  exact Program.exists_of_outcome_error (by decide +kernel)

end Pgzf
