import Pgzf.AnyFile
import Pgzf.Fields

/-!
# Chains of members

The raw reader goes from member to member by their `ZC`, past index members, until it has as many
data members as it was asked for. `Chain` says where it meets them, in terms of the bytes of the
file, and how the walk ends.
-/

namespace Pgzf

open PgzfReader

/-- How a walk ends: all the members are there, it comes to what is taken for the end, to a member
that cannot be read, or to one that is smaller than its own header. -/
inductive Ending where
  | full
  | ends
  | broken
  | panics
  deriving DecidableEq, Repr

/-- From `p` on a walk for `count` data members meets those at `places`, and ends so; where `Ends`
holds of a place, it may be taken for the end. -/
inductive Chain (file : Bytes) (Ends : Nat → Prop) : Nat → Nat → List Nat → Ending → Prop
  | full (p : Nat) : Chain file Ends p 0 [] .full
  | ends {p : Nat} (count : Nat) : Ends p → Chain file Ends p (count + 1) [] .ends
  | broken {p : Nat} (count : Nat) : BrokenAt file p → Chain file Ends p (count + 1) [] .broken
  | panics {p : Nat} (count : Nat) : ShortMember file p → Chain file Ends p (count + 1) [] .panics
  | idx {p count : Nat} {places : List Nat} {ending : Ending} : WholeAt file p →
    (tagsAt file p).blockType = .idx →
      Chain file Ends (p + zcAt file p) (count + 1) places ending →
        Chain file Ends p (count + 1) places ending
  | data {p count : Nat} {places : List Nat} {ending : Ending} : WholeAt file p →
    (tagsAt file p).blockType ≠ .idx →
      Chain file Ends (p + zcAt file p) count places ending →
        Chain file Ends p (count + 1) (p :: places) ending

variable {D : Deps} {file : Bytes} {Ends : Nat → Prop} {p count : Nat} {places : List Nat}
  {ending : Ending}

theorem WholeAt.zc_pos (h : WholeAt file p) : 0 < zcAt file p :=
  Nat.lt_of_lt_of_le (Nat.lt_of_le_of_lt (Nat.zero_le _) (fixed_lt_headerSizeAt file p)) h.1

theorem Chain.length_le (h : Chain file Ends p count places ending) : places.length ≤ count := by
  induction h with
  | full p => exact Nat.le_refl 0
  | ends count _ => exact Nat.zero_le _
  | broken count _ => exact Nat.zero_le _
  | panics count _ => exact Nat.zero_le _
  | idx _ _ _ ih => exact ih
  | data _ _ _ ih => exact Nat.succ_le_succ ih

theorem Chain.length_eq (h : Chain file Ends p count places .full) : places.length = count := by
  generalize hfull : Ending.full = ending at h
  induction h with
  | full p => rfl
  | ends count _ => exact absurd hfull (by simp)
  | broken count _ => exact absurd hfull (by simp)
  | panics count _ => exact absurd hfull (by simp)
  | idx _ _ _ ih => exact ih hfull
  | data _ _ _ ih => exact congrArg Nat.succ (ih hfull)

theorem Chain.whole (h : Chain file Ends p count places ending) :
    ∀ place ∈ places, WholeAt file place ∧ (tagsAt file place).blockType ≠ .idx := by
  induction h with
  | full p => exact fun _ hplace => absurd hplace List.not_mem_nil
  | ends count _ => exact fun _ hplace => absurd hplace List.not_mem_nil
  | broken count _ => exact fun _ hplace => absurd hplace List.not_mem_nil
  | panics count _ => exact fun _ hplace => absurd hplace List.not_mem_nil
  | idx _ _ _ ih => exact ih
  | data hwhole hty _ ih =>
    intro place hplace
    rcases List.mem_cons.mp hplace with rfl | hplace
    · exact ⟨hwhole, hty⟩
    · exact ih place hplace

/-! ### What the reader makes of it -/

def rawEntry (file : Bytes) (p : Nat) : Bytes × Nat :=
  ((file.drop p).take (zcAt file p), headerSizeAt file p)

/-- What the walk of the reader gives, by the way the chain ends. -/
def Ending.Gives (ending : Ending) (raws : List (Bytes × Nat))
    (result : Except Fault (List (Bytes × Nat))) : Prop :=
  match ending with
  | .full | .ends => result = .ok raws
  | .broken => ∃ e, result = .error (.error e)
  | .panics => ∃ message, result = .error (.panic message)

theorem Ending.Gives.cons {raws : List (Bytes × Nat)} {result : Except Fault (List (Bytes × Nat))}
    (h : ending.Gives raws result) (entry : Bytes × Nat) :
    ending.Gives (entry :: raws) (result.map (entry :: ·)) := by
  cases ending with
  | full => exact congrArg (Except.map (entry :: ·)) h
  | ends => exact congrArg (Except.map (entry :: ·)) h
  | broken =>
    obtain ⟨e, rfl⟩ := h
    exact ⟨e, rfl⟩
  | panics =>
    obtain ⟨message, rfl⟩ := h
    exact ⟨message, rfl⟩

/-- The reader follows the chain. -/
theorem Chain.chainAt (h : Chain file (EndsAt file) p count places ending) {fuel : Nat}
    (hfuel : file.length - p < fuel) :
    ending.Gives (places.map (rawEntry file)) (chainAt file fuel p count) := by
  induction h generalizing fuel with
  | full p =>
    obtain ⟨fuel, rfl⟩ : ∃ m, fuel = m + 1 := ⟨fuel - 1, by omega⟩
    rw [Pgzf.chainAt, if_pos rfl]
    rfl
  | ends count hend =>
    obtain ⟨fuel, rfl⟩ : ∃ m, fuel = m + 1 := ⟨fuel - 1, by omega⟩
    rw [Pgzf.chainAt, if_neg (Nat.succ_ne_zero count), hend.memberAt]
    rfl
  | broken count hbroken =>
    obtain ⟨fuel, rfl⟩ : ∃ m, fuel = m + 1 := ⟨fuel - 1, by omega⟩
    obtain ⟨e, hat⟩ := hbroken.memberAt
    rw [Pgzf.chainAt, if_neg (Nat.succ_ne_zero count), hat]
    exact ⟨_, rfl⟩
  | panics count hshort =>
    obtain ⟨fuel, rfl⟩ : ∃ m, fuel = m + 1 := ⟨fuel - 1, by omega⟩
    rw [Pgzf.chainAt, if_neg (Nat.succ_ne_zero count), hshort.memberAt]
    exact ⟨_, rfl⟩
  | @idx p count places ending hwhole hidx _ ih =>
    obtain ⟨fuel, rfl⟩ : ∃ m, fuel = m + 1 := ⟨fuel - 1, by omega⟩
    have hpos := hwhole.zc_pos
    have hroom := hwhole.2.2
    rw [Pgzf.chainAt, if_neg (Nat.succ_ne_zero count), hwhole.memberAt]
    simp only [hidx, if_true, hwhole.length_raw]
    exact ih (by omega)
  | @data p count places ending hwhole hty _ ih =>
    obtain ⟨fuel, rfl⟩ : ∃ m, fuel = m + 1 := ⟨fuel - 1, by omega⟩
    have hpos := hwhole.zc_pos
    have hroom := hwhole.2.2
    rw [Pgzf.chainAt, if_neg (Nat.succ_ne_zero count), hwhole.memberAt]
    simp only [hty, if_false, hwhole.length_raw, Nat.add_sub_cancel]
    exact (ih (by omega)).cons (rawEntry file p)

/-! ### Batches -/

theorem mapM_rawEntry_eq_ok {datas : List Bytes} (hwhole : ∀ place ∈ places, WholeAt file place) :
    ((places.map (rawEntry file)).mapM fun (raw, headerSize) =>
      decompressRawBlockWith D raw headerSize) = .ok datas ↔
      List.Forall₂ (fun place data => blockAt D file place = some data) places datas := by
  have hblock : ∀ place ∈ places, ∀ data,
      decompressRawBlockWith D (rawEntry file place).1 (rawEntry file place).2 = .ok data ↔
          blockAt D file place = some data := by
    intro place hplace data
    rw [← (hwhole place hplace).decompress, rawEntry]
    cases decompressRawBlockWith D ((file.drop place).take (zcAt file place))
        (headerSizeAt file place) with
    | error e => simp [Except.toOption]
    | ok data' => simp [Except.toOption]
  rw [Program.mapM_except_eq_ok, List.forall₂_map_left_iff]
  clear hwhole
  induction places generalizing datas with
  | nil => cases datas <;> simp
  | cons place places ih =>
    cases datas with
    | nil => simp
    | cons data datas =>
      rw [List.forall₂_cons, List.forall₂_cons]
      exact and_congr (hblock place List.mem_cons_self data)
        (ih fun other hother => hblock other (List.mem_cons_of_mem _ hother))

def Ending.Done (ending : Ending) : Prop := ending = .full ∨ ending = .ends

theorem Chain.batchAt (h : Chain file (EndsAt file) p count places ending) (hdone : ending.Done)
    {datas : List Bytes} :
    batchAt D file p count = .ok datas ↔
      List.Forall₂ (fun place data => blockAt D file place = some data) places datas := by
  have hchain := h.chainAt (show file.length - p < file.length + 1 by omega)
  have hgives : Pgzf.chainAt file (file.length + 1) p count = .ok (places.map (rawEntry file)) := by
    rcases hdone with rfl | rfl <;> exact hchain
  rw [Pgzf.batchAt, hgives, ← mapM_rawEntry_eq_ok fun place hplace => (h.whole place hplace).1]
  simp only
  cases (places.map (rawEntry file)).mapM fun (raw, headerSize) =>
      decompressRawBlockWith D raw headerSize with
  | error e => simp
  | ok datas' => simp

end Pgzf
