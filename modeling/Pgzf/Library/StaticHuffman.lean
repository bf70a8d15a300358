import Pgzf.Library.Chunks
import Pgzf.Library.Gzip

/-!
# Static Huffman blocks without matches

The deflate streams (RFC 1951) that a fast compressor makes of data in which it finds no repetition:
one final block with the fixed code, every byte a literal. A literal below 144 takes eight bits and
any other nine, so such a stream can be longer than the data by an eighth. The decoder knows the
whole code, and refuses the symbols that announce a match.
-/

namespace StaticHuffman

/-! ### Bits -/

/-- The `n` low bits of a number, least significant first. -/
def lowBits : Nat → Nat → List Bool
  | 0, _ => []
  | n + 1, value => (value % 2 == 1) :: lowBits n (value / 2)

/-- The number with the given bits, least significant first. -/
def ofLowBits : List Bool → Nat
  | [] => 0
  | bit :: rest => bit.toNat + 2 * ofLowBits rest

/-- Bits in bytes, the first bit lowest; the last byte is filled up with zeros. -/
def pack (bits : List Bool) : List UInt8 :=
  (Chunks.chunks 8 bits).map fun piece => UInt8.ofNat (ofLowBits piece)

def unpack (bytes : List UInt8) : List Bool := bytes.flatMap fun byte => lowBits 8 byte.toNat

@[simp] theorem length_lowBits (n value : Nat) : (lowBits n value).length = n := by
  induction n generalizing value with
  | zero => rfl
  | succ n ih => rw [lowBits, List.length_cons, ih]

theorem ofLowBits_lt (bits : List Bool) : ofLowBits bits < 2 ^ bits.length := by
  induction bits with
  | nil => exact Nat.one_pos
  | cons bit rest ih =>
    have hbit := Bool.toNat_le bit
    rw [ofLowBits, List.length_cons, Nat.pow_succ]
    omega

theorem lowBits_ofLowBits {n : Nat} {bits : List Bool} (h : bits.length ≤ n) :
    lowBits n (ofLowBits bits) = bits ++ List.replicate (n - bits.length) false := by
  induction bits generalizing n with
  | nil =>
    rw [List.nil_append, List.length_nil, Nat.sub_zero, ofLowBits]
    induction n with
    | zero => rfl
    | succ n ih => exact congrArg (false :: ·) (ih (Nat.zero_le _))
  | cons bit rest ih =>
    rw [List.length_cons] at h
    obtain ⟨n, rfl⟩ : ∃ m, n = m + 1 := ⟨n - 1, by omega⟩
    have hlow : ((bit.toNat + 2 * ofLowBits rest) % 2 == 1) = bit := by
      cases bit <;> simp [Nat.add_mod]
    have hhigh : (bit.toNat + 2 * ofLowBits rest) / 2 = ofLowBits rest := by
      have := Bool.toNat_le bit
      omega
    rw [ofLowBits, lowBits, hlow, hhigh, ih (by omega), List.length_cons, Nat.add_sub_add_right,
      List.cons_append]

/-- Unpacking gives the bits back, and the zeros the last byte was filled up with. -/
theorem unpack_pack (bits : List Bool) : ∃ pad, unpack (pack bits) = bits ++ pad := by
  have height : 0 < 8 := by decide
  induction bits using Chunks.chunks_induction height with
  | nil => exact ⟨[], rfl⟩
  | step bits hne ih =>
    obtain ⟨pad, hpad⟩ := ih
    have htake : (bits.take 8).length ≤ 8 := List.length_take_le 8 bits
    have hlt := ofLowBits_lt (bits.take 8)
    have hbyte : (UInt8.ofNat (ofLowBits (bits.take 8))).toNat = ofLowBits (bits.take 8) :=
      UInt8.toNat_ofNat_of_lt' (Nat.lt_of_lt_of_le hlt (Nat.pow_le_pow_right (by decide) htake))
    rw [pack] at hpad
    rw [pack, Chunks.chunks_of_ne_nil height hne, List.map_cons, unpack, List.flatMap_cons, hbyte,
      lowBits_ofLowBits htake, ← unpack, hpad]
    by_cases hshort : bits.length ≤ 8
    · rw [List.take_of_length_le hshort, List.drop_eq_nil_of_le hshort, List.append_assoc]
      exact ⟨_, rfl⟩
    · have hfull : 8 - (bits.take 8).length = 0 := by
        rw [List.length_take]
        omega
      rw [hfull, List.replicate_zero, List.append_nil, ← List.append_assoc, List.take_append_drop]
      exact ⟨pad, rfl⟩

theorem length_pack (bits : List Bool) : (pack bits).length = (bits.length + 7) / 8 := by
  rw [pack, List.length_map, Chunks.length_chunks (by decide)]
  rfl

/-! ### The fixed code -/

def word (n value : Nat) : List Bool := (lowBits n value).reverse

def value (bits : List Bool) : Nat := ofLowBits bits.reverse

def literal (byte : UInt8) : List Bool :=
  if byte.toNat < 144 then word 8 (0x30 + byte.toNat) else word 9 (0x190 + (byte.toNat - 144))

def endOfBlock : List Bool := word 7 0

/-- The symbol at the front of the bits. -/
def symbol (bits : List Bool) : Option (Nat × List Bool) :=
  if bits.length < 7 then none
  else if value (bits.take 7) < 0x18 then some (256 + value (bits.take 7), bits.drop 7)
  else if bits.length < 8 then none
  else if value (bits.take 8) < 0xC0 then some (value (bits.take 8) - 0x30, bits.drop 8)
  else if value (bits.take 8) < 0xC8 then some (280 + (value (bits.take 8) - 0xC0), bits.drop 8)
  else if bits.length < 9 then none
  else some (144 + (value (bits.take 9) - 0x190), bits.drop 9)

/-- The literals up to the end of the block, and the bits behind it; nothing where a match is
announced. -/
def literals : Nat → List Bool → Option (List UInt8 × List Bool)
  | 0, _ => none
  | fuel + 1, bits => (symbol bits).bind fun (s, rest) =>
    if s < 256 then (literals fuel rest).map fun (data, rest) => (UInt8.ofNat s :: data, rest)
    else if s = 256 then some ([], rest)
    else none

def blockHeader : List Bool := [true, true, false]

def bits (data : List UInt8) : List Bool := blockHeader ++ (data.flatMap literal ++ endOfBlock)

/-- The stream of one final block, every byte a literal. -/
def stream (data : List UInt8) : List UInt8 := pack (bits data)

def inflate (bytes : List UInt8) : Option (List UInt8 × Nat) :=
  if (unpack bytes).take 3 = blockHeader then
    (literals (unpack bytes).length ((unpack bytes).drop 3)).map fun (data, rest) =>
      (data, ((unpack bytes).length - rest.length + 7) / 8)
  else
    none

/-! ### Decoding what was encoded -/

theorem literal_short :
    ∀ n < 144, (word 8 (0x30 + n)).length = 8 ∧ ¬ value ((word 8 (0x30 + n)).take 7) < 0x18 ∧
    value (word 8 (0x30 + n)) = 0x30 + n := by decide +kernel

theorem literal_long :
    ∀ n < 112, (word 9 (0x190 + n)).length = 9 ∧ ¬ value ((word 9 (0x190 + n)).take 7) < 0x18 ∧
    ¬ value ((word 9 (0x190 + n)).take 8) < 0xC8 ∧ value (word 9 (0x190 + n)) = 0x190 + n := by
  decide +kernel

theorem symbol_literal (byte : UInt8) (rest : List Bool) :
    symbol (literal byte ++ rest) = some (byte.toNat, rest) := by
  have hlt : byte.toNat < 256 := byte.toNat_lt
  by_cases hshort : byte.toNat < 144
  · obtain ⟨hlen, hseven, hvalue⟩ := literal_short byte.toNat hshort
    rw [literal, if_pos hshort]
    generalize word 8 (0x30 + byte.toNat) = code at *
    have htake : (code ++ rest).take 7 = code.take 7 := List.take_append_of_le_length (by omega)
    rw [symbol, List.length_append, htake, List.take_left' hlen, List.drop_left' hlen, hvalue,
      if_neg (by omega),
      if_neg hseven, if_neg (by omega), if_pos (by omega), Nat.add_sub_cancel_left]
  · obtain ⟨hlen, hseven, height, hvalue⟩ := literal_long (byte.toNat - 144) (by omega)
    rw [literal, if_neg hshort]
    generalize word 9 (0x190 + (byte.toNat - 144)) = code at *
    have htake : (code ++ rest).take 7 = code.take 7 := List.take_append_of_le_length (by omega)
    have htake' : (code ++ rest).take 8 = code.take 8 := List.take_append_of_le_length (by omega)
    rw [symbol, List.length_append, htake, htake', List.take_left' hlen, List.drop_left' hlen,
      hvalue, if_neg (by omega),
      if_neg hseven, if_neg (by omega), if_neg (by omega), if_neg height, if_neg (by omega),
        Nat.add_sub_cancel_left,
      Nat.add_sub_cancel' (by omega)]

theorem symbol_endOfBlock (rest : List Bool) : symbol (endOfBlock ++ rest) = some (256, rest) := by
  have hlen : endOfBlock.length = 7 := by decide
  have hvalue : value endOfBlock = 0 := by decide
  rw [symbol, List.length_append, List.take_left' hlen, List.drop_left' hlen, hvalue,
    if_neg (by omega), if_pos (by decide)]

theorem literals_append (data : List UInt8) (rest : List Bool) {fuel : Nat}
    (hfuel : data.length < fuel) :
    literals fuel (data.flatMap literal ++ (endOfBlock ++ rest)) = some (data, rest) := by
  induction data generalizing fuel with
  | nil =>
    obtain ⟨fuel, rfl⟩ : ∃ m, fuel = m + 1 := ⟨fuel - 1, by omega⟩
    rw [literals, List.flatMap_nil, List.nil_append, symbol_endOfBlock, Option.bind_some]
    rfl
  | cons byte data ih =>
    obtain ⟨fuel, rfl⟩ : ∃ m, fuel = m + 1 := ⟨fuel - 1, by omega⟩
    rw [List.length_cons] at hfuel
    rw [literals, List.flatMap_cons, List.append_assoc, symbol_literal, Option.bind_some]
    simp only [byte.toNat_lt, if_true, UInt8.ofNat_toNat]
    rw [ih (by omega), Option.map_some]

theorem length_le_flatMap_literal (data : List UInt8) :
    data.length ≤ (data.flatMap literal).length := by
  induction data with
  | nil => exact Nat.le_refl _
  | cons byte data ih =>
    have hpos : 1 ≤ (literal byte).length := by
      rw [literal]
      split <;> rw [word, List.length_reverse, length_lowBits] <;> decide
    rw [List.flatMap_cons, List.length_append, List.length_cons]
    omega

/-- The stream is complete: decoding it stops at its end, whatever follows. -/
theorem delimits_stream (data : List UInt8) : Gzip.Delimits inflate (stream data) data := by
  intro rest
  obtain ⟨pad, hpad⟩ := unpack_pack (bits data)
  have hall : unpack (stream data ++ rest) = blockHeader ++
      (data.flatMap literal ++ (endOfBlock ++ (pad ++ unpack rest))) := by
    rw [unpack, List.flatMap_append, ← unpack, ← unpack, stream, hpad, bits]
    simp only [List.append_assoc]
  have hlen := length_le_flatMap_literal data
  have hbits : (bits data).length = 3 + ((data.flatMap literal).length + 7) := by
    rw [bits, List.length_append, List.length_append]
    rfl
  have htotal : (unpack (stream data ++ rest)).length = (bits data).length +
      (pad ++ unpack rest).length := by
    rw [hall, bits]
    simp only [List.length_append, Nat.add_assoc]
  rw [inflate, if_pos (by rw [hall]; rfl)]
  have hdrop : (unpack (stream data ++ rest)).drop 3 = data.flatMap literal ++
      (endOfBlock ++ (pad ++ unpack rest)) := by
    rw [hall]
    rfl
  rw [hdrop, literals_append data _ (by omega), Option.map_some]
  rw [stream, length_pack, ← stream]
  simp only [htotal, Nat.add_sub_cancel]

end StaticHuffman
