import BigBox.Lib.ShiftRegister

namespace BigBox.Crc
set_option autoImplicit true

def CRC_POLY_16 : BitVec 16 := 0xA001
def CRC_POLY_32 : BitVec 32 := 0xEDB88320

/-- One round of the inner loop of `crc16`. -/
def crc16Bit (crc : BitVec 16) : BitVec 16 :=
  if crc &&& 1#16 ≠ 0#16 then (crc >>> 1) ^^^ 0xA001 else crc >>> 1

def crc16Byte (crc : BitVec 16) (input : BitVec 8) : BitVec 16 :=
  crc16Bit^[8] (crc ^^^ input.setWidth 16)

/-- The loop of `crc16` from any register on. -/
def crc16From (crc : BitVec 16) (input : List (BitVec 8)) : BitVec 16 := input.foldl crc16Byte crc

def crc16 (input : List (BitVec 8)) : BitVec 16 := crc16From 0xFFFF input

/-- One round of the inner loop of `crc32`, whose `unsigned long` has `32 + k` bits. -/
def crc32Bit (r : BitVec (32 + k)) : BitVec (32 + k) :=
  if r &&& 1#(32 + k) ≠ 0#(32 + k) then (r >>> 1) ^^^ BitVec.ofNat (32 + k) 0xEDB88320 else r >>> 1

def crc32Byte (r : BitVec (32 + k)) (input : BitVec 8) : BitVec (32 + k) :=
  crc32Bit^[8] (r ^^^ input.setWidth (32 + k))

/-- The loop of `crc32` from any register on. -/
def crc32From (r : BitVec (32 + k)) (input : List (BitVec 8)) : BitVec (32 + k) :=
  input.foldl crc32Byte r

def crc32 (k : Nat) (input : List (BitVec 8)) : BitVec 32 :=
  (crc32From (BitVec.ofNat (32 + k) 0xFFFFFFFF) input ^^^
    BitVec.ofNat (32 + k) 0xFFFFFFFF).setWidth 32

/-- One round of the inner loop of `init_crc16_table`, over `crc` and `c`. -/
def crc16TableBit (s : BitVec 16 × BitVec 16) : BitVec 16 × BitVec 16 :=
  (if (s.1 ^^^ s.2) &&& 1#16 ≠ 0#16 then (s.1 >>> 1) ^^^ CRC_POLY_16 else s.1 >>> 1, s.2 >>> 1)

def initCrc16Table : List (BitVec 16) :=
  (List.range 256).map fun i => (crc16TableBit^[8] (0, BitVec.ofNat 16 i)).1

def crc16TabByte (crc : BitVec 16) (input : BitVec 8) : BitVec 16 :=
  (crc >>> 8) ^^^ initCrc16Table.getD ((crc ^^^ input.setWidth 16) &&& 0xFF).toNat 0

/-- The loop of `crc16_tab` from any register on. -/
def crc16TabFrom (crc : BitVec 16) (input : List (BitVec 8)) : BitVec 16 :=
  input.foldl crc16TabByte crc

def crc16Tab (input : List (BitVec 8)) : BitVec 16 := crc16TabFrom 0 input

/-- One round of the inner loop of `init_crc32_table`. -/
def crc32TableBit (c : BitVec 32) : BitVec 32 :=
  if c &&& 1#32 ≠ 0#32 then CRC_POLY_32 ^^^ (c >>> 1) else c >>> 1

def initCrc32Table : List (BitVec 32) :=
  (List.range 256).map fun i => crc32TableBit^[8] (BitVec.ofNat 32 i)

def crc32TabByte (crc : BitVec 32) (input : BitVec 8) : BitVec 32 :=
  initCrc32Table.getD ((crc ^^^ input.setWidth 32) &&& 0xFF).toNat 0 ^^^ (crc >>> 8)

/-- The loop of `crc32_tab` from any register on. -/
def crc32TabFrom (crc : BitVec 32) (input : List (BitVec 8)) : BitVec 32 :=
  input.foldl crc32TabByte crc

def crc32Tab (input : List (BitVec 8)) : BitVec 32 := crc32TabFrom 0 input

section Tables

/-- A table of 256 entries read at the lowest byte. -/
theorem getD_table (entry : Nat → BitVec w) (i : Nat) :
    ((List.range 256).map entry).getD (i % 256) 0 = entry (i % 256) := by
  have hi : i % 256 < 256 := Nat.mod_lt i (by decide)
  rw [List.getD_eq_getElem?_getD, List.getElem?_map, List.getElem?_range hi]
  rfl

/-- The upper bits of the register do not depend on the byte. -/
theorem xor_byte_shift (r : BitVec w) (b : BitVec 8) :
    (r ^^^ b.setWidth w) >>> 8 = r >>> 8 := by
  apply BitVec.eq_of_getLsbD_eq
  intro i _
  rw [BitVec.getLsbD_ushiftRight, BitVec.getLsbD_ushiftRight, BitVec.getLsbD_xor,
    BitVec.getLsbD_setWidth, BitVec.getLsbD_of_ge b (8 + i) (Nat.le_add_right 8 i), Bool.and_false,
    Bool.xor_false]

/-- Eight bits of the register are one step through a table of its values at single bytes. -/
theorem table_step (poly r : BitVec w) (b : BitVec 8) {entry : Nat → BitVec w}
    (hentry : ∀ i < 256, entry i = shiftBits poly 8 (BitVec.ofNat w i)) :
    (r >>> 8) ^^^ ((List.range 256).map entry).getD ((r ^^^ b.setWidth w).toNat % 256) 0 =
      shiftBits poly 8 (r ^^^ b.setWidth w) := by
  rw [getD_table, hentry _ (Nat.mod_lt _ (by decide)),
    shiftBits_lowBits poly (r ^^^ b.setWidth w) 8,
    xor_byte_shift]
  rfl

end Tables

section Crc16

theorem crc16Bit_eq (crc : BitVec 16) : crc16Bit crc = shiftBit CRC_POLY_16 crc := by
  rw [crc16Bit, shiftBit]
  exact if_congr (and_one_ne_zero crc) rfl rfl

/-- The two registers of the table sum to one. -/
theorem crc16TableBit_xor (s : BitVec 16 × BitVec 16) :
    (crc16TableBit s).1 ^^^ (crc16TableBit s).2 = shiftBit CRC_POLY_16 (s.1 ^^^ s.2) := by
  rw [crc16TableBit, shiftBit, BitVec.ushiftRight_xor_distrib]
  by_cases hbit : (s.1 ^^^ s.2).getLsbD 0 = true
  · rw [if_pos ((and_one_ne_zero _).2 hbit), if_pos hbit, BitVec.xor_assoc,
      BitVec.xor_comm CRC_POLY_16, ← BitVec.xor_assoc]
  · rw [if_neg (mt (and_one_ne_zero _).1 hbit), if_neg hbit]

theorem crc16TableBits_xor (n : Nat) (s : BitVec 16 × BitVec 16) :
    (crc16TableBit^[n] s).1 ^^^ (crc16TableBit^[n] s).2 =
      shiftBits CRC_POLY_16 n (s.1 ^^^ s.2) := by
  induction n with
  | zero => rfl
  | succ n ih => rw [Function.iterate_succ_apply', crc16TableBit_xor, ih, shiftBits_succ]

theorem crc16TableBits_snd (n : Nat) (s : BitVec 16 × BitVec 16) :
    (crc16TableBit^[n] s).2 = s.2 >>> n := by
  induction n with
  | zero => exact (BitVec.ushiftRight_zero s.2).symm
  | succ n ih =>
    rw [Function.iterate_succ_apply', crc16TableBit, ih, BitVec.shiftRight_add]

theorem crc16Table_entry (i : Nat) (hi : i < 256) :
    (crc16TableBit^[8] (0, BitVec.ofNat 16 i)).1 = shiftBits CRC_POLY_16 8 (BitVec.ofNat 16 i) := by
  have hxor := crc16TableBits_xor 8 (0, BitVec.ofNat 16 i)
  have hnone : BitVec.ofNat 16 i >>> 8 = 0#16 := by
    apply BitVec.eq_of_toNat_eq
    rw [BitVec.toNat_ushiftRight, BitVec.toNat_ofNat, Nat.shiftRight_eq_div_pow,
      Nat.mod_eq_of_lt (by omega)]
    exact Nat.div_eq_of_lt hi
  rw [crc16TableBits_snd, hnone, BitVec.xor_zero] at hxor
  rw [hxor]
  exact congrArg _ (BitVec.zero_xor)

theorem crc16TabByte_eq (crc : BitVec 16) (input : BitVec 8) :
    crc16TabByte crc input = crc16Byte crc input := by
  have hindex : ((crc ^^^ input.setWidth 16) &&& 0xFF).toNat =
      (crc ^^^ input.setWidth 16).toNat % 256 := by
    rw [BitVec.toNat_and]
    exact Nat.and_two_pow_sub_one_eq_mod _ 8
  have hbits : crc16Bit = shiftBit CRC_POLY_16 := funext crc16Bit_eq
  rw [crc16TabByte, hindex, initCrc16Table,
    table_step CRC_POLY_16 crc input crc16Table_entry, crc16Byte, hbits]
  rfl

end Crc16

section Crc32

theorem crc32TableBit_eq (c : BitVec 32) : crc32TableBit c = shiftBit CRC_POLY_32 c := by
  rw [crc32TableBit, shiftBit, BitVec.xor_comm]
  exact if_congr (and_one_ne_zero c) rfl rfl

theorem crc32Bit_eq (r : BitVec (32 + k)) :
    crc32Bit r = shiftBit (CRC_POLY_32.setWidth (32 + k)) r := by
  have hpoly : BitVec.ofNat (32 + k) 0xEDB88320 = CRC_POLY_32.setWidth (32 + k) := by
    apply BitVec.eq_of_toNat_eq
    rw [BitVec.toNat_setWidth, BitVec.toNat_ofNat]
    rfl
  rw [crc32Bit, shiftBit, hpoly]
  exact if_congr (and_one_ne_zero r) rfl rfl

theorem crc32TabByte_eq (crc : BitVec 32) (input : BitVec 8) :
    crc32TabByte crc input = shiftBits CRC_POLY_32 8 (crc ^^^ input.setWidth 32) := by
  have hindex : ((crc ^^^ input.setWidth 32) &&& 0xFF).toNat =
      (crc ^^^ input.setWidth 32).toNat % 256 := by
    rw [BitVec.toNat_and]
    exact Nat.and_two_pow_sub_one_eq_mod _ 8
  have hbits : crc32TableBit = shiftBit CRC_POLY_32 := funext crc32TableBit_eq
  rw [crc32TabByte, hindex, BitVec.xor_comm, initCrc32Table]
  apply table_step CRC_POLY_32
  intro i _
  rw [hbits]
  rfl

/-- The wider register of `crc32` holds the one of the table. -/
theorem crc32Byte_eq (k : Nat) (crc : BitVec 32) (input : BitVec 8) :
    crc32Byte (crc.setWidth (32 + k)) input = (crc32TabByte crc input).setWidth (32 + k) := by
  have hbits : crc32Bit (k := k) = shiftBit (CRC_POLY_32.setWidth (32 + k)) := funext crc32Bit_eq
  have hinput : input.setWidth (32 + k) = (input.setWidth 32).setWidth (32 + k) := by
    apply BitVec.eq_of_getLsbD_eq
    intro i _
    rw [BitVec.getLsbD_setWidth, BitVec.getLsbD_setWidth, BitVec.getLsbD_setWidth]
    by_cases hi : i < 32
    · rw [decide_eq_true hi, Bool.true_and]
    · rw [BitVec.getLsbD_of_ge input i (by omega), Bool.and_false, Bool.and_false, Bool.and_false]
  rw [crc32Byte, hbits, hinput, ← BitVec.setWidth_xor, crc32TabByte_eq]
  exact shiftBits_setWidth CRC_POLY_32 _ 8 k

end Crc32

section Messages

theorem crc16TabFrom_eq (crc : BitVec 16) (input : List (BitVec 8)) :
    crc16TabFrom crc input = crc16From crc input := by
  have hbyte : crc16TabByte = crc16Byte := funext₂ crc16TabByte_eq
  rw [crc16TabFrom, crc16From, hbyte]

theorem crc32From_eq (k : Nat) (crc : BitVec 32) (input : List (BitVec 8)) :
    crc32From (crc.setWidth (32 + k)) input = (crc32TabFrom crc input).setWidth (32 + k) := by
  induction input generalizing crc with
  | nil => rfl
  | cons b input ih =>
    rw [crc32From, List.foldl_cons, crc32Byte_eq]
    exact ih (crc32TabByte crc b)

/-- Both loops give the same register, over any message and from any register on. -/
theorem crc_tab_eq (input : List (BitVec 8)) :
    (∀ crc, crc16TabFrom crc input = crc16From crc input) ∧
      ∀ k crc, crc32From (crc.setWidth (32 + k)) input =
        (crc32TabFrom crc input).setWidth (32 + k) :=
  ⟨fun crc => crc16TabFrom_eq crc input, fun k crc => crc32From_eq k crc input⟩

example : crc32 32 [0x31, 0x32, 0x33, 0x34, 0x35, 0x36, 0x37, 0x38, 0x39] = 0xCBF43926 := by
  decide +kernel

end Messages

/-- The low byte and then the high byte of a register. -/
def littleEndian (crc : BitVec 16) : List (BitVec 8) := [crc.setWidth 8, (crc >>> 8).setWidth 8]

section Residue

theorem crc16Byte_eq (crc : BitVec 16) (input : BitVec 8) :
    crc16Byte crc input = shiftBits CRC_POLY_16 8 (crc ^^^ input.setWidth 16) := by
  rw [crc16Byte, funext crc16Bit_eq]
  rfl

/-- The byte that stands in the register is shifted out and nothing is added. -/
theorem crc16Byte_self (crc : BitVec 16) : crc16Byte crc (crc.setWidth 8) = crc >>> 8 := by
  have hclear : ∀ i < 8, (crc ^^^ (crc.setWidth 8).setWidth 16).getLsbD i = false := by
    intro i hi
    have hwide : i < 16 := Nat.lt_trans hi (by decide)
    rw [BitVec.getLsbD_xor, BitVec.getLsbD_setWidth, BitVec.getLsbD_setWidth, decide_eq_true hi,
      decide_eq_true hwide, Bool.true_and, Bool.true_and, Bool.xor_self]
  rw [crc16Byte_eq, shiftBits_clear CRC_POLY_16 hclear, xor_byte_shift]

/-- A register takes its own bytes out. -/
theorem crc16From_littleEndian (crc : BitVec 16) : crc16From crc (littleEndian crc) = 0 := by
  have hout : crc >>> 8 >>> 8 = 0#16 := by
    rw [← BitVec.shiftRight_add]
    exact BitVec.ushiftRight_eq_zero (Nat.le_refl 16)
  rw [crc16From, littleEndian, List.foldl_cons, List.foldl_cons, List.foldl_nil, crc16Byte_self,
    crc16Byte_self, hout]
  rfl

theorem crc16From_append (crc : BitVec 16) (a b : List (BitVec 8)) :
    crc16From crc (a ++ b) = crc16From (crc16From crc a) b :=
  List.foldl_append

/-- A message with its checksum behind it has the checksum zero, and a checksum can be continued. -/
theorem crc16_residue (m a b : List (BitVec 8)) :
    crc16 (m ++ littleEndian (crc16 m)) = 0 ∧ crc16From (crc16 a) b = crc16 (a ++ b) := by
  constructor
  · rw [crc16, crc16From_append]
    exact crc16From_littleEndian _
  · exact (crc16From_append 0xFFFF a b).symm

/-- A byte other than zero leaves something in the upper half of the register. -/
theorem shiftBits_byte_lt : ∀ d < 256,
    (shiftBits CRC_POLY_16 8 (BitVec.ofNat 16 d)).toNat < 256 → d = 0 := by
  decide +kernel

/-- Without a byte in its upper half, the register has taken a byte of zeros in. -/
theorem shiftBits_lt {r : BitVec 16} (h : (shiftBits CRC_POLY_16 8 r).toNat < 256) :
    r.toNat % 256 = 0 ∧ shiftBits CRC_POLY_16 8 r = r >>> 8 := by
  have hsplit := shiftBits_lowBits CRC_POLY_16 r 8
  have hlow : shiftBits CRC_POLY_16 8 (lowBits 8 r) = shiftBits CRC_POLY_16 8 r ^^^ r >>> 8 := by
    rw [hsplit, BitVec.xor_comm (r >>> 8), BitVec.xor_assoc, BitVec.xor_self, BitVec.xor_zero]
  have hshift : (r >>> 8).toNat < 2 ^ 8 := by
    rw [BitVec.toNat_ushiftRight, Nat.shiftRight_eq_div_pow]
    have hr := r.isLt
    omega
  have hlt : (shiftBits CRC_POLY_16 8 (lowBits 8 r)).toNat < 256 := by
    rw [hlow, BitVec.toNat_xor]
    exact Nat.xor_lt_two_pow h hshift
  have hzero : r.toNat % 256 = 0 :=
    shiftBits_byte_lt (r.toNat % 256) (Nat.mod_lt _ (by decide)) hlt
  have hnone : shiftBits CRC_POLY_16 8 (lowBits 8 r) = 0#16 := by
    have hbits : lowBits 8 r = 0#16 := by
      rw [lowBits]
      exact congrArg (BitVec.ofNat 16) hzero
    rw [hbits]
    rfl
  rw [hsplit, hnone, BitVec.xor_zero]
  exact ⟨hzero, rfl⟩

theorem eq_byte_of_mod {r : BitVec 16} {a : BitVec 8} (h : (r ^^^ a.setWidth 16).toNat % 256 = 0) :
    a = r.setWidth 8 := by
  have hbyte : (r ^^^ a.setWidth 16).setWidth 8 = 0#8 := by
    apply BitVec.eq_of_toNat_eq
    rw [BitVec.toNat_setWidth]
    exact h
  rw [BitVec.setWidth_xor, BitVec.setWidth_setWidth_of_le _ (by decide),
    BitVec.setWidth_eq] at hbyte
  exact (BitVec.xor_eq_zero_iff.1 hbyte).symm

/-- No other two bytes clear a register. -/
theorem crc16From_eq_zero_iff (crc : BitVec 16) (a b : BitVec 8) :
    crc16From crc [a, b] = 0 ↔ [a, b] = littleEndian crc := by
  constructor
  · intro h
    rw [crc16From, List.foldl_cons, List.foldl_cons, List.foldl_nil] at h
    rw [crc16Byte_eq _ b] at h
    have hsmall : (shiftBits CRC_POLY_16 8 (crc16Byte crc a ^^^ b.setWidth 16)).toNat < 256 := by
      rw [h]
      decide
    obtain ⟨hb, hnone⟩ := shiftBits_lt hsmall
    have hregister : crc16Byte crc a = b.setWidth 16 := by
      have hhigh : (crc16Byte crc a ^^^ b.setWidth 16).toNat / 256 = 0 := by
        have hshift := congrArg BitVec.toNat (hnone.symm.trans h)
        rw [BitVec.toNat_ushiftRight, Nat.shiftRight_eq_div_pow] at hshift
        exact hshift
      apply BitVec.xor_eq_zero_iff.1
      apply BitVec.eq_of_toNat_eq
      change _ = 0
      omega
    rw [crc16Byte_eq] at hregister
    have hbyte : (shiftBits CRC_POLY_16 8 (crc ^^^ a.setWidth 16)).toNat < 256 := by
      rw [hregister, BitVec.toNat_setWidth, Nat.mod_eq_of_lt (Nat.lt_trans b.isLt (by decide))]
      exact b.isLt
    obtain ⟨ha, hout⟩ := shiftBits_lt hbyte
    rw [hregister, xor_byte_shift] at hout
    have hb' : b = (crc >>> 8).setWidth 8 := by
      rw [← hout, BitVec.setWidth_setWidth_of_le _ (by decide), BitVec.setWidth_eq]
    rw [eq_byte_of_mod ha, hb']
    rfl
  · intro h
    rw [h]
    exact crc16From_littleEndian crc

end Residue

end BigBox.Crc
