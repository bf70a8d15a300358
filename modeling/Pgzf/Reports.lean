import Mathlib.Data.List.GetD
import Pgzf.Archives
import Pgzf.CompressedFiles
import Pgzf.PlainGzip

/-!
# What `-i` prints

An archive is reported with its true sizes, whoever has written it. A gzip file without the marker
is reported by the header of its first member and the trailer of its last one, whatever fields the
header has. But a file that is shorter than the header of a group is taken for an archive without
groups, whatever is in it: the scan stops in front of it.
-/

namespace Pgzf

open Program PgzfIndex

variable {D : Deps} {inflate : Bytes → Option (Bytes × Nat)} {hash : Bytes → UInt32}
  {world world' : World} {file rest : Bytes} {p : Nat} {cli : Cli}

/-! ### Going over a header -/

theorem Source.readExact_complete {n : Nat} {chunk : Bytes} (hlen : chunk.length = n)
    (hdrop : file.drop p = chunk ++ rest) :
    Source.readExact n ⟨file, p, []⟩ = .ok chunk ⟨file, p + n, []⟩ ∧ file.drop (p + n) = rest := by
  subst hlen
  refine ⟨Source.readExact_prefix (by rw [hdrop]; exact List.prefix_append _ _), ?_⟩
  rw [← List.drop_drop, hdrop, List.drop_left]

def LeadsTo (file : Bytes) (p : Nat) (rest : Bytes) (m : Prog Source Unit) : Prop :=
  ∃ q, m ⟨file, p, []⟩ = .ok () ⟨file, q, []⟩ ∧ file.drop q = rest

/-- By induction on the text. -/
theorem skipField_complete {text : Bytes} (htext : (0 : UInt8) ∉ text)
    (hdrop : file.drop p = text ++ 0 :: rest) {fuel : Nat} (hfuel : text.length < fuel) :
    LeadsTo file p rest (skipField fuel) := by
  induction text generalizing p fuel with
  | nil =>
    obtain ⟨fuel, rfl⟩ : ∃ k, fuel = k + 1 := ⟨fuel - 1, by omega⟩
    obtain ⟨hread, hbehind⟩ := Source.readExact_complete (show ([0] : Bytes).length = 1 from rfl)
      (show file.drop p = [0] ++ rest from hdrop)
    refine ⟨p + 1, ?_, hbehind⟩
    rw [skipField, bind_ok hread]
    rfl
  | cons byte text ih =>
    rw [List.length_cons] at hfuel
    obtain ⟨fuel, rfl⟩ : ∃ k, fuel = k + 1 := ⟨fuel - 1, by omega⟩
    rw [List.mem_cons, not_or] at htext
    obtain ⟨hread, hbehind⟩ := Source.readExact_complete (show ([byte] : Bytes).length = 1 from rfl)
      (show file.drop p = [byte] ++ (text ++ 0 :: rest) from hdrop)
    obtain ⟨q, hskip, hlast⟩ := ih htext.2 hbehind (Nat.lt_of_succ_lt_succ hfuel)
    have hbyte : ([byte] : Bytes).getD 0 0 ≠ 0 := Ne.symm htext.1
    refine ⟨q, ?_, hlast⟩
    rw [skipField, bind_ok hread, if_neg hbyte, hskip]

theorem skipExtra_complete {extra : Bytes} (hextra : extra.length < 2 ^ 16)
    (hdrop : file.drop p = LittleEndian.encode 2 extra.length ++ extra ++ rest) :
    LeadsTo file p rest skipExtra := by
  rw [List.append_assoc] at hdrop
  obtain ⟨hread, hbehind⟩ := Source.readExact_complete (LittleEndian.length_encode 2 _) hdrop
  have hxlen : (readU16Le (LittleEndian.encode 2 extra.length)).toNat = extra.length := by
    have htake : (LittleEndian.encode 2 extra.length).take 2 = LittleEndian.encode 2 extra.length :=
      List.take_of_length_le (LittleEndian.length_encode 2 _).le
    rw [readU16Le, htake, LittleEndian.decode_encode_of_lt hextra, UInt16.toNat_ofNat_of_lt' hextra]
  refine ⟨p + 2 + extra.length, ?_, by rw [← List.drop_drop, hbehind, List.drop_left]⟩
  rw [skipExtra, bind_ok hread, hxlen]
  rfl

theorem LeadsTo.announced {m : Prog Source Unit} {c : Prop} [Decidable c] {field : Option Bytes}
    {bytes : Option Bytes → Bytes} (hnone : bytes none = []) (hflag : ¬ c ↔ field = none)
    (hdrop : file.drop p = bytes field ++ rest)
    (hskip : ∀ content ∈ field, file.drop p = bytes (some content) ++ rest →
      LeadsTo file p rest m) :
    LeadsTo file p rest (if c then m else pure ()) := by
  cases field with
  | none =>
    rw [hnone, List.nil_append] at hdrop
    rw [if_neg (hflag.mpr rfl)]
    exact ⟨p, rfl, hdrop⟩
  | some content =>
    have hc : c := not_not.mp fun hnot => absurd (hflag.mp hnot) (by simp)
    rw [if_pos hc]
    exact hskip content rfl hdrop

theorem length_lt_of_drop {text : Bytes} (hdrop : file.drop p = text ++ [0] ++ rest) :
    text.length < file.length + 1 := by
  have hlen := congrArg List.length hdrop
  rw [List.length_drop, List.length_append, List.length_append] at hlen
  omega

theorem skipFields_complete {h : Gzip.Header} (hvalid : h.Valid)
    (hdrop : file.drop p = Gzip.Header.extraBytes h.extra ++ (Gzip.Header.textBytes h.name ++
      (Gzip.Header.textBytes h.comment ++ rest))) :
    LeadsTo file p rest (skipFields h.flags file.length) := by
  obtain ⟨-, hextra, hname, hcomment, -⟩ := Gzip.flags_spec h
  have hskip : ∀ {text : Option Bytes}, (∀ t ∈ text, (0 : UInt8) ∉ t) →
      ∀ t ∈ text, ∀ {q : Nat} {rest : Bytes},
      file.drop q = Gzip.Header.textBytes (some t) ++ rest →
          LeadsTo file q rest (skipField (file.length + 1)) := by
    intro text htext t ht q rest hat
    have hfuel := length_lt_of_drop hat
    rw [Gzip.Header.textBytes, List.append_assoc] at hat
    exact skipField_complete (htext t ht) hat hfuel
  obtain ⟨q₁, hrun₁, hdrop₁⟩ :=
    LeadsTo.announced (m := skipExtra) rfl (not_not.trans hextra) hdrop fun extra he hat =>
      skipExtra_complete (hvalid.extra extra he) hat
  obtain ⟨q₂, hrun₂, hdrop₂⟩ :=
    LeadsTo.announced rfl (not_not.trans hname) hdrop₁ fun text ht hat =>
      hskip hvalid.name text ht hat
  obtain ⟨q₃, hrun₃, hdrop₃⟩ :=
    LeadsTo.announced rfl (not_not.trans hcomment) hdrop₂ fun text ht hat =>
      hskip hvalid.comment text ht hat
  refine ⟨q₃, ?_, hdrop₃⟩
  rw [skipFields, bind_ok hrun₁, bind_ok hrun₂, hrun₃]

theorem slice_mtime {h : Gzip.Header} (hvalid : h.Valid) : slice h.fixed 4 8 = h.mtime :=
  slice_middle [0x1f, 0x8b, 8, h.flags] h.mtime [h.xfl, h.os] rfl (by rw [hvalid.mtime]; rfl)

theorem readU32Le_trailer (hash : Bytes → UInt32) (data : Bytes) :
    readU32Le (slice (Gzip.Member.trailer hash data) 4 8) = UInt32.ofNat data.length := by
  have hslice : slice (Gzip.Member.trailer hash data) 4 8 = LittleEndian.encode 4 data.length := by
    rw [Gzip.Member.trailer, ← List.append_nil (_ ++ LittleEndian.encode 4 data.length)]
    exact slice_middle _ _ _ (LittleEndian.length_encode 4 _).symm
      (by rw [LittleEndian.length_encode, LittleEndian.length_encode])
  have htake : (LittleEndian.encode 4 data.length).take 4 = LittleEndian.encode 4 data.length :=
    List.take_of_length_le (LittleEndian.length_encode 4 _).le
  rw [hslice, readU32Le, htake, LittleEndian.decode_encode]
  apply UInt32.toNat_inj.mp
  rw [UInt32.toNat_ofNat', UInt32.toNat_ofNat']
  exact Nat.mod_mod_of_dvd _ (by decide)

theorem seekBack_trailer {data : Bytes} (hsuffix : Gzip.Member.trailer hash data <:+ file)
    (p : Nat) :
    ∃ q, Source.seekBack 8 ⟨file, p, []⟩ = .ok () ⟨file, q, []⟩ ∧
      Source.readExact 8 ⟨file, q, []⟩ = .ok (Gzip.Member.trailer hash data) ⟨file, q + 8, []⟩ := by
  obtain ⟨front, rfl⟩ := hsuffix
  have hlen : (Gzip.Member.trailer hash data).length = 8 := Gzip.length_trailer data
  have hroom : ¬ (front ++ Gzip.Member.trailer hash data).length < 8 := by
    rw [List.length_append]
    omega
  have hstart : (front ++ Gzip.Member.trailer hash data).length - 8 = front.length := by
    rw [List.length_append, hlen, Nat.add_sub_cancel]
  refine ⟨front.length, ?_,
    (Source.readExact_complete hlen (by rw [List.drop_left, List.append_nil])).1⟩
  rw [Source.seekBack, bind_ok (show Source.tick ⟨_, p, []⟩ = .ok () ⟨_, p, []⟩ from rfl),
    bind_ok (get_apply _)]
  simp only [if_neg hroom, hstart]
  rfl

def gzipReport (first last : Gzip.Member) (file : Bytes) : Report :=
  .gzip "deflate" (readU32Le first.header.mtime) file.length (UInt32.ofNat last.data.length)

theorem inspectGzip_members {first last : Gzip.Member} (hvalid : first.header.Valid)
    (hfirst : first.header.front <+: file) (hlast : Gzip.Member.trailer hash last.data <:+ file) :
    ∃ q, inspectGzip ⟨file, 0, []⟩ = .ok (some (gzipReport first last file)) ⟨file, q, []⟩ := by
  obtain ⟨rest, hfile⟩ := hfirst
  have hdrop : file.drop 0 = first.header.fixed ++ (Gzip.Header.extraBytes first.header.extra ++
      (Gzip.Header.textBytes first.header.name ++
          (Gzip.Header.textBytes first.header.comment ++ rest))) := by
    rw [List.drop_zero, ← hfile, Gzip.Header.front]
    simp only [List.append_assoc]
  obtain ⟨hread, hbehind⟩ := Source.readExact_complete (Gzip.length_fixed hvalid) hdrop
  obtain ⟨q, hskip, -⟩ := skipFields_complete hvalid hbehind
  obtain ⟨q', hback, hfooter⟩ := seekBack_trailer hlast q
  have hmagic : ¬ (first.header.fixed.getD 0 0 ≠ 0x1f ∨ first.header.fixed.getD 1 0 ≠ 0x8b) := by
    rintro (hne | hne) <;> exact hne rfl
  have hflags : first.header.fixed.getD 3 0 = first.header.flags := rfl
  refine ⟨q' + 8, ?_⟩
  rw [inspectGzip, bind_ok (show Source.fileLen ⟨file, 0, []⟩ = .ok file.length ⟨file, 0, []⟩
    from rfl), bind_ok hread, if_neg hmagic]
  simp only [hflags, slice_mtime hvalid]
  rw [bind_ok hskip, bind_ok hback, bind_ok hfooter, readU32Le_trailer, pure_apply]
  rfl

/-! ### One file -/

def archiveReport (D : Deps) (groups : List SpecGroup) : Report :=
  .pgzf groups.length (specDatas groups).length (specDatas groups).flatten.length
    (specFile D groups).length

variable (D hash) in
/-- What `-i` makes of a file. Behind the groups of an
archive there may be something at which the scan stops. -/
inductive Inspected : Option Bytes → Except CliError Report → Prop
  | archive {groups : List SpecGroup} {rest : Bytes} : (∀ group ∈ groups, group.Conforms D) →
    Stops rest →
      (specFile D groups ++ rest).length < 2 ^ 64 →
        Inspected (some (specFile D groups ++ rest)) (.ok (archiveReport D groups))
  | gzip {members : List Gzip.Member} {first last : Gzip.Member} : members.head? = some first →
    members.getLast? = some last →
      first.header.Valid → isPgzfMember first.header.flags first.header.xfl = false →
      begHeaderSize ≤ (members.flatMap (Gzip.Member.bytes hash)).length →
      Inspected (some (members.flatMap (Gzip.Member.bytes hash)))
        (.ok (gzipReport first last (members.flatMap (Gzip.Member.bytes hash))))
  | foreign {file : Bytes} : begHeaderSize ≤ file.length → file.take 2 ≠ [0x1f, 0x8b] →
      Inspected (some file) (.error (.text "not a gzip file"))
  | missing : Inspected none (.error .notFound)

theorem inspected_short (D : Deps) (hash : Bytes → UInt32) (hlen : file.length < begHeaderSize) :
    Inspected D hash (some file) (.ok (.pgzf 0 0 0 0)) := by
  have hroom : (specFile D [] ++ file).length < 2 ^ 64 := Nat.lt_trans hlen (by decide)
  exact .archive (fun _ hgroup => absurd hgroup List.not_mem_nil) (.inl hlen) hroom

theorem report_specIndex (D : Deps) (groups : List SpecGroup) :
    (specIndex D groups).report = archiveReport D groups := by
  rw [PgzfIndex.report, blockCount_specIndex, totalUncompressed, totalCompressed, specIndex,
    List.getLast?_concat, List.getLast?_concat, Option.getD_some, Option.getD_some, archiveReport]

theorem build_refuses {e : PgzfError} (hlen : begHeaderSize ≤ file.length)
    (hheader : ∀ acc s, scanGroup 0 (file.take begHeaderSize) acc s = .error (.error e) s) :
    build ⟨file, 0, []⟩ = .error (.error e) ⟨file, begHeaderSize, []⟩ := by
  have hread := Source.readExact_ok (show begHeaderSize ≤ file.length - 0 from hlen)
  rw [List.drop_zero, Nat.zero_add] at hread
  have hloop : ∀ fuel acc, buildLoop (fuel + 1) acc ⟨file, 0, []⟩ = .error (.error e) ⟨file,
      begHeaderSize, []⟩ := by
    intro fuel acc
    rw [buildLoop, bind_ok (Prog.attempt_ok (Source.streamPosition_apply _ _))]
    simp only
    rw [bind_ok (Prog.attempt_ok hread)]
    exact bind_error (hheader _ _)
  rw [build, bind_ok (Source.seekStart_apply _ _ _), bind_ok (get_apply _), bind_error (hloop _ _)]

theorem validateGzipHeader_append {front : Bytes} (hlen : front.length = gzipFixedHeaderSize)
    (tail : Bytes) :
    validateGzipHeader (front ++ tail) = validateGzipHeader front := by
  have hget : ∀ i < gzipFixedHeaderSize, (front ++ tail).getD i 0 = front.getD i 0 := fun i hi =>
    List.getD_append _ _ _ _ (by rwa [hlen])
  have hroom : ¬ (front ++ tail).length < gzipFixedHeaderSize := by
    rw [List.length_append]
    omega
  have hroom' : ¬ front.length < gzipFixedHeaderSize := by omega
  rw [validateGzipHeader, validateGzipHeader, if_neg hroom, if_neg hroom', hget 0 (by decide),
    hget 1 (by decide), hget 2 (by decide), hget 3 (by decide), hget 8 (by decide)]

theorem scanGroup_plain {h : Gzip.Header} (hvalid : h.Valid)
    (hmarker : isPgzfMember h.flags h.xfl = false) {buf : Bytes} (hfixed : h.fixed <+: buf)
    (acc : Scan) (s : Source) :
    scanGroup 0 buf acc s = .error (.error (.invalidFormat "not a PGZF file")) s := by
  obtain ⟨tail, rfl⟩ := hfixed
  rw [scanGroup, validateGzipHeader_append (Gzip.length_fixed hvalid),
    validateGzipHeader_fixed hvalid, bind_ok (Prog.ofExcept_ok _ _)]
  simp only [hmarker, Bool.not_false, if_true]
  rfl

theorem magic_missing (hlen : 2 ≤ file.length) (hmagic : file.take 2 ≠ [0x1f, 0x8b]) {n : Nat}
    (hn : 2 ≤ n) :
    (file.take n).getD 0 0 ≠ 0x1f ∨ (file.take n).getD 1 0 ≠ 0x8b := by
  obtain ⟨a, tail, rfl⟩ := List.exists_cons_of_length_pos (show 0 < file.length by omega)
  obtain ⟨b, tail, rfl⟩ :=
    List.exists_cons_of_length_pos (show 0 < tail.length by rw [List.length_cons] at hlen; omega)
  obtain ⟨n, rfl⟩ : ∃ k, n = k + 2 := ⟨n - 2, by omega⟩
  by_contra hboth
  rw [not_or, not_not, not_not] at hboth
  obtain ⟨rfl, rfl⟩ : a = 0x1f ∧ b = 0x8b := hboth
  exact hmagic rfl

theorem scanGroup_foreign (hlen : begHeaderSize ≤ file.length)
    (hmagic : file.take 2 ≠ [0x1f, 0x8b]) :
    ∀ acc s, scanGroup 0 (file.take begHeaderSize) acc s = .error (.error (.invalidGzipMagic
      ((file.take begHeaderSize).getD 0 0) ((file.take begHeaderSize).getD 1 0))) s := by
  have hsize : 32 ≤ file.length := hlen
  have hmissing : (file.take begHeaderSize).getD 0 0 ≠ gzipId1 ∨
      (file.take begHeaderSize).getD 1 0 ≠ gzipId2 :=
    magic_missing (by omega) hmagic (by decide)
  have hroom : ¬ (file.take begHeaderSize).length < gzipFixedHeaderSize := by
    rw [List.length_take, Nat.min_eq_left hlen]
    decide
  intro acc s
  rw [scanGroup, validateGzipHeader, if_neg hroom, if_pos hmissing]
  rfl

/-! ### One report after another -/

def World.prints (world : World) (path : Path) (report : Report) : World :=
  { world with reports := world.reports ++ [(path, report)] }

def World.inspected (world : World) (path : Path) :
    Except CliError Report → EStateM.Result Exit World Unit
  | .ok report => .ok () (world.prints path report)
  | .error e => .error (.error e) world

theorem onFile_apply {α : Type} {path : Path} (hfile : world.files path = some file)
    (hin : world.inputFaults = []) (m : Prog Source α) {q : Nat} {a : α}
    (hrun : m ⟨file, 0, []⟩ = .ok a ⟨file, q, []⟩) :
    onFile path m world = .ok a world := by
  have hcontent : world.content (some path) = file := by rw [World.content, hfile, Option.getD_some]
  rw [onFile, hcontent, hin, hrun]
  show EStateM.Result.ok a { world with inputFaults := [] } = _
  rw [← hin]

theorem inspectFile_fallback {path : Path} (hfile : world.files path = some file)
    (hin : world.inputFaults = []) {e : PgzfError} (hlen : begHeaderSize ≤ file.length)
    (hheader : ∀ acc s, scanGroup 0 (file.take begHeaderSize) acc s = .error (.error e) s)
    {answer : Option Report} {q : Nat}
    (hgzip : inspectGzip ⟨file, 0, []⟩ = .ok answer ⟨file, q, []⟩) :
    inspectFile path world = world.inspected path
      (answer.elim (.error (.text "not a gzip file")) .ok) := by
  have hopen := openFile_apply hfile hin
  have hbuild := Prog.attempt_error (build_refuses hlen hheader)
  rw [inspectFile, bind_ok hopen, bind_ok (onFile_apply hfile hin _ hbuild)]
  show inspectAsGzip path world = _
  rw [inspectAsGzip, bind_ok hopen, bind_ok (onFile_apply hfile hin _ hgzip)]
  cases answer with
  | none => rfl
  | some report => rfl

theorem inspectGzip_foreign (hlen : begHeaderSize ≤ file.length)
    (hmagic : file.take 2 ≠ [0x1f, 0x8b]) :
    inspectGzip ⟨file, 0, []⟩ = .ok none ⟨file, 10, []⟩ := by
  have hsize : 32 ≤ file.length := hlen
  have hread := Source.readExact_ok (show 10 ≤ file.length - 0 by omega)
  rw [List.drop_zero, Nat.zero_add] at hread
  rw [inspectGzip, bind_ok (show Source.fileLen ⟨file, 0, []⟩ = .ok file.length ⟨file, 0, []⟩
    from rfl), bind_ok hread, if_pos (magic_missing (by omega) hmagic (by decide)), pure_apply]

theorem members_ends (hash : Bytes → UInt32) {members : List Gzip.Member} {first last : Gzip.Member}
    (hfirst : members.head? = some first) (hlast : members.getLast? = some last) :
    first.header.front <+: members.flatMap (Gzip.Member.bytes hash) ∧
      Gzip.Member.trailer hash last.data <:+ members.flatMap (Gzip.Member.bytes hash) := by
  constructor
  · obtain ⟨rest, rfl⟩ := List.head?_eq_some_iff.mp hfirst
    rw [List.flatMap_cons, Gzip.Member.bytes, Gzip.Header.bytes]
    simp only [List.append_assoc]
    exact List.prefix_append _ _
  · obtain ⟨front, rfl⟩ := List.getLast?_eq_some_iff.mp hlast
    rw [List.flatMap_append, List.flatMap_singleton, Gzip.Member.bytes]
    simp only [← List.append_assoc]
    exact List.suffix_append _ _

theorem inspectFile_eq {path : Path} {outcome : Except CliError Report}
    (hin : world.inputFaults = []) (h : Inspected D hash (world.files path) outcome) :
    inspectFile path world = world.inspected path outcome := by
  generalize hfile : world.files path = content at h
  cases h with
  | archive hconforms hstops hsize =>
    obtain ⟨q, hbuild⟩ := build_specFile_append hconforms hstops hsize 0
    rw [inspectFile, bind_ok (openFile_apply hfile hin),
      bind_ok (onFile_apply hfile hin _ (Prog.attempt_ok hbuild)), ← report_specIndex]
    rfl
  | @gzip members first last hfirst hlast hvalid hmarker hlen =>
    obtain ⟨hfront, hend⟩ := members_ends hash hfirst hlast
    obtain ⟨q, hgzip⟩ := inspectGzip_members hvalid hfront hend
    have hfixed : first.header.fixed <+: first.header.front := by
      rw [Gzip.Header.front]
      simp only [List.append_assoc]
      exact List.prefix_append _ _
    have htake := List.prefix_take_iff.mpr ⟨hfixed.trans hfront, show _ ≤ begHeaderSize by
      rw [Gzip.length_fixed hvalid]
      decide⟩
    exact inspectFile_fallback hfile hin hlen (scanGroup_plain hvalid hmarker htake) hgzip
  | foreign hlen hmagic =>
    exact inspectFile_fallback hfile hin hlen (scanGroup_foreign hlen hmagic)
      (inspectGzip_foreign hlen hmagic)
  | missing =>
    have htick : tickInput world = .ok () world := by rw [tickInput, hin]
    have hopen : openFile path world = .error (.error .notFound) world := by
      rw [openFile, bind_ok htick, bind_ok (get_apply world), hfile]
      rfl
    rw [inspectFile, bind_error hopen]
    rfl

/-! ### A list of files -/

/-- What a run prints, and the error it stops at, if at any. -/
def inspections (outcome : Path → Except CliError Report) :
    List Path → List (Path × Report) × Option CliError
  | [] => ([], none)
  | path :: rest =>
    match outcome path with
    | .ok report => ((path, report) :: (inspections outcome rest).1, (inspections outcome rest).2)
    | .error e => ([], some e)

def World.reported (world : World) (reports : List (Path × Report)) :
    Option CliError → EStateM.Result Exit World Unit
  | none => .ok () { world with reports := world.reports ++ reports }
  | some e => .error (.error e) { world with reports := world.reports ++ reports }

theorem World.reported_prints (world : World) (path : Path) (report : Report)
    (reports : List (Path × Report)) (stop : Option CliError) :
    (world.prints path report).reported reports stop = world.reported
      ((path, report) :: reports) stop := by
  have hreports : (world.prints path report).reports ++ reports = world.reports ++
      ((path, report) :: reports) := by
    rw [World.prints, List.append_assoc, List.singleton_append]
  cases stop with
  | none => rw [World.reported, World.reported, hreports]; rfl
  | some e => rw [World.reported, World.reported, hreports]; rfl

/-- By induction on the list: an inspection changes nothing but the reports. -/
theorem Cli.each_inspectFile {outcome : Path → Except CliError Report} {paths : List Path}
    {world : World} (hin : world.inputFaults = [])
    (h : ∀ path ∈ paths, Inspected D hash (world.files path) (outcome path)) :
    Cli.each inspectFile paths world = world.reported (inspections outcome paths).1
      (inspections outcome paths).2 := by
  induction paths generalizing world with
  | nil =>
    rw [inspections, World.reported, List.append_nil]
    rfl
  | cons path rest ih =>
    have hfirst := inspectFile_eq hin (h path List.mem_cons_self)
    rw [Cli.each, inspections]
    cases houtcome : outcome path with
    | error e =>
      rw [houtcome] at hfirst
      rw [bind_error hfirst, World.reported, List.append_nil]
    | ok report =>
      rw [houtcome] at hfirst
      have hin' : (world.prints path report).inputFaults = [] := hin
      rw [bind_ok hfirst, ← World.reported_prints]
      exact ih hin' fun p hp => h p (List.mem_cons_of_mem _ hp)

theorem Cli.main_inspect {cli : Cli} (hsize : cli.config.blockSize < 2 ^ 64)
    (hinspect : cli.inspect = true) (hfiles : cli.files ≠ []) (turns : Nat) :
    cli.main D turns = Cli.each inspectFile cli.files := by
  have hempty : cli.files.isEmpty = false := by simpa using hfiles
  rw [Cli.main_built (Cli.build_builder hsize), Cli.run, hinspect, hempty]
  rfl

/-- A run of `-i` prints the reports on its files one after another, up to the first that is missing
or that is no gzip file, and changes nothing else. -/
theorem inspect_reports {cli : Cli} (hinspect : cli.inspect = true) (hfiles : cli.files ≠ [])
    (hsize : cli.config.blockSize < 2 ^ 64) {world : World} (hin : world.inputFaults = [])
    {outcome : Path → Except CliError Report}
    (h : ∀ path ∈ cli.files, Inspected D hash (world.files path) (outcome path)) (turns : Nat) :
    cli.main D turns world = world.reported (inspections outcome cli.files).1
      (inspections outcome cli.files).2 := by
  rw [Cli.main_inspect hsize hinspect hfiles]
  exact Cli.each_inspectFile hin h

/-- `a` is an archive, `b` a gzip file of two members,
and `c` too short to be anything; there is no `d`. -/
def Stored.mixedFiles (path : Path) : Option Bytes :=
  if path = [97] then some (specFile Stored.deps [Stored.specGroup [[97], [98, 99]]])
  else if path = [98] then some
    ([Stored.namedMember, Stored.helloMember].flatMap (Gzip.Member.bytes Stored.hash))
  else if path = [99] then some [1, 2, 3] else none

def Stored.mixedOutcome (path : Path) : Except CliError Report :=
  if path = [97] then .ok (.pgzf 1 2 3 134) else if path = [98] then .ok (.gzip "deflate" 1 64 5)
  else if path = [99] then .ok (.pgzf 0 0 0 0) else .error .notFound

theorem Stored.inspected_mixed (path : Path) :
    Inspected Stored.deps Stored.hash (Stored.mixedFiles path) (Stored.mixedOutcome path) := by
  rw [Stored.mixedFiles, Stored.mixedOutcome]
  split_ifs with ha hb hc
  · have hconforms : ∀ group ∈ [Stored.specGroup [[97], [98, 99]]], group.Conforms Stored.deps := by
      intro group hgroup
      rw [List.mem_singleton.mp hgroup]
      exact Stored.conforms_specGroup (by decide) (by decide) (by decide)
    have hreport : archiveReport Stored.deps [Stored.specGroup [[97], [98, 99]]] =
        .pgzf 1 2 3 134 := by decide +kernel
    have hinspected : Inspected Stored.deps Stored.hash _ _ :=
      .archive hconforms stops_nil (by decide +kernel)
    rwa [List.append_nil, hreport] at hinspected
  · have hreport : gzipReport Stored.namedMember Stored.helloMember
        ([Stored.namedMember, Stored.helloMember].flatMap (Gzip.Member.bytes Stored.hash)) =
            .gzip "deflate" 1 64 5 := by
      decide +kernel
    rw [← hreport]
    exact .gzip rfl rfl Stored.named_valid.header rfl (by decide +kernel)
  · exact inspected_short _ _ (by decide)
  · exact .missing

def Stored.mixedWorld : World := ⟨Stored.mixedFiles, fun _ => false, [], [], [], [], []⟩

def Stored.inspectCli : Cli := { inspect := true, files := [[97], [98], [99], [100], [97]] }

theorem inspect_reports_sample :
    Stored.inspectCli.main Stored.deps 0 Stored.mixedWorld = Stored.mixedWorld.reported
      [([97], .pgzf 1 2 3 134), ([98], .gzip "deflate" 1 64 5),
        ([99], .pgzf 0 0 0 0)] (some .notFound) := by
  have hinspect : Stored.inspectCli.inspect = true := rfl
  have hin : Stored.mixedWorld.inputFaults = [] := rfl
  exact inspect_reports hinspect (by decide) (by decide) hin (fun path _ =>
    Stored.inspected_mixed path) 0

/-! ### What the program has written -/

def specGroups (D : Deps) (config : PgzfConfig) (data : Bytes) : List SpecGroup :=
  (config.groupsOf data).map (SpecGroup.ofBlocks D config.compressionLevel)

variable {config : PgzfConfig} {data : Bytes}

theorem Storable.conforms (hs : Storable D config data) :
    ∀ group ∈ specGroups D config data, group.Conforms D := by
  intro group hgroup
  obtain ⟨blocks, hblocks, rfl⟩ := List.mem_map.mp hgroup
  exact SpecGroup.conforms_ofBlocks (hs.inBounds.fits hs.blockSize_pos blocks hblocks)
    (hs.codec.inflates blocks hblocks) (hs.codec [] List.mem_cons_self).inflates

theorem Storable.specFile (hs : Storable D config data) :
    specFile D (specGroups D config data) = archiveOf D config data := by
  rw [Pgzf.specFile, specGroups, List.flatMap_map, archiveOf, fileBytes]
  exact List.flatMap_congr fun blocks hblocks =>
    SpecGroup.bytes_ofBlocks (hs.inBounds.fits hs.blockSize_pos blocks hblocks)

theorem specDatas_specGroups (D : Deps) (config : PgzfConfig) (data : Bytes) :
    specDatas (specGroups D config data) = config.blocksOf data := by
  rw [specDatas, specGroups, List.flatMap_map, ← flatten_groupsOf, ← List.flatMap_id]
  exact List.flatMap_congr fun blocks _ => SpecGroup.datas_ofBlocks

def ownReport (D : Deps) (config : PgzfConfig) (data : Bytes) : Report :=
  .pgzf (config.groupsOf data).length (config.blocksOf data).length data.length
    (archiveOf D config data).length

theorem Storable.inspected (hs : Storable D config data) :
    Inspected D hash (some (archiveOf D config data)) (.ok (ownReport D config data)) := by
  have hsize : (Pgzf.specFile D (specGroups D config data) ++ []).length < 2 ^ 64 := by
    rw [List.append_nil, hs.specFile]
    exact hs.addressable
  have hinspected : Inspected D hash _ _ := .archive hs.conforms stops_nil hsize
  rw [List.append_nil, hs.specFile, archiveReport, hs.specFile, specDatas_specGroups,
    flatten_blocksOf hs.blockSize_pos, specGroups, List.length_map] at hinspected
  exact hinspected

end Pgzf
