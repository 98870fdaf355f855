import BigBox.Lib.CInt
import BigBox.Lib.Horner
import BigBox.Ymodem.Packet
import Mathlib.Algebra.CharP.Two
import Mathlib.Algebra.Field.ZMod
import Mathlib.Algebra.Polynomial.AlgebraMap
import Mathlib.Data.Nat.Bitwise

namespace BigBox.Ymodem
open Polynomial Horner
set_option autoImplicit true

def bit (b : Bool) : ZMod 2 := if b then 1 else 0

/-- The last bits of a number, highest first. -/
def bools (n w : Nat) : List Bool := (List.range n).reverse.map w.testBit

def wordBits (n w : Nat) : List (ZMod 2) := (bools n w).map bit

/-- The polynomial of a message, highest bit first. -/
noncomputable def messagePoly (m : List UInt8) : (ZMod 2)[X] :=
  horner (m.flatMap fun c => wordBits 8 c.toNat)

noncomputable def registerPoly (crc : UInt16) : (ZMod 2)[X] := horner (wordBits 16 crc.toNat)

/-- x ^ 16 + x ^ 12 + x ^ 5 + 1 -/
noncomputable def generator : (ZMod 2)[X] := X ^ 16 + X ^ 12 + X ^ 5 + 1

/-- The register when one more bit of the message is shifted in. -/
def nextRegister (crc : Nat) (b : Bool) : Nat :=
  ((2 * crc + b.toNat) % 65536) ^^^ (if crc.testBit 15 then 0x1021 else 0)

section CrcRemainder

theorem bools_succ (n w : Nat) : bools (n + 1) w = w.testBit n :: bools n w := by
  rw [bools, List.range_succ, List.reverse_append]
  rfl

theorem wordBits_succ (n w : Nat) : wordBits (n + 1) w = bit (w.testBit n) :: wordBits n w := by
  rw [wordBits, bools_succ]
  rfl

theorem length_wordBits (n w : Nat) : (wordBits n w).length = n := by
  rw [wordBits, bools, List.length_map, List.length_map, List.length_reverse, List.length_range]

theorem coeff_wordBits (n w i : Nat) :
    (horner (wordBits n w)).coeff i = if i < n then bit (w.testBit i) else 0 := by
  induction n with
  | zero => rfl
  | succ n ih =>
    rw [wordBits_succ, horner_cons, length_wordBits, coeff_add, coeff_C_mul, coeff_X_pow, ih]
    obtain hlt | heq | hgt := Nat.lt_trichotomy i n
    · rw [if_neg (Nat.ne_of_lt hlt), if_pos hlt, if_pos (Nat.lt_succ_of_lt hlt), mul_zero, zero_add]
    · subst heq
      rw [if_pos rfl, if_neg (Nat.lt_irrefl i), if_pos (Nat.lt_succ_self i), mul_one, add_zero]
    · rw [if_neg (Nat.ne_of_gt hgt), if_neg (Nat.lt_asymm hgt), if_neg (by omega), mul_zero,
        zero_add]

theorem degree_wordBits (n w : Nat) : (horner (wordBits n w)).degree < n := by
  rw [degree_lt_iff_coeff_zero]
  intro i hi
  rw [coeff_wordBits, if_neg (Nat.not_lt.2 hi)]

theorem horner_wordBits_inj (hw : w < 2 ^ n) (h : horner (wordBits n w) = 0) : w = 0 := by
  apply Nat.eq_of_testBit_eq
  intro i
  rw [Nat.zero_testBit]
  by_cases hi : i < n
  · have hcoeff := coeff_wordBits n w i
    rw [h, coeff_zero, if_pos hi, bit] at hcoeff
    cases hbit : w.testBit i with
    | false => rfl
    | true =>
      rw [hbit] at hcoeff
      exact absurd hcoeff (by decide)
  · exact Nat.testBit_lt_two_pow (Nat.lt_of_lt_of_le hw (Nat.pow_le_pow_right (by decide)
      (Nat.not_lt.1 hi)))

theorem generator_eq : generator = X ^ 16 + horner (wordBits 16 0x1021) := by
  have hbits : wordBits 16 0x1021 = [0, 0, 0, 1, 0, 0, 0, 0, 0, 0, 1, 0, 0, 0, 0, 1] := by decide
  rw [hbits]
  simp only [horner, List.foldl_cons, List.foldl_nil, C_0, C_1, generator]
  ring

theorem monic_generator : generator.Monic := by
  rw [generator_eq]
  exact monic_X_pow_add (degree_wordBits 16 _)

theorem degree_generator : generator.degree = 16 := by
  rw [generator_eq, degree_add_eq_left_of_degree_lt, degree_X_pow]
  · rfl
  · rw [degree_X_pow]
    exact degree_wordBits 16 _

/-- A bit that is taken away twice. -/
theorem bit_cancel (a b c : Bool) : bit (a ^^ (b && c)) + bit c * bit b = bit a := by
  cases a <;> cases b <;> cases c <;> decide

theorem testBit_nextRegister (crc i : Nat) (b : Bool) (hi : i < 16) :
    (nextRegister crc b).testBit i =
      ((if i = 0 then b else crc.testBit (i - 1)) ^^
        (crc.testBit 15 && Nat.testBit 0x1021 i)) := by
  have hmod : ((2 * crc + b.toNat) % 65536).testBit i =
      if i = 0 then b else crc.testBit (i - 1) := by
    rw [show 65536 = 2 ^ 16 from rfl, Nat.testBit_mod_two_pow, decide_eq_true hi, Bool.true_and]
    cases i with
    | zero => cases b <;> simp [Nat.testBit_zero, Nat.add_mod]
    | succ i =>
      have hhalf : (2 * crc + b.toNat) / 2 = crc := by
        have hb := b.toNat_le
        omega
      rw [Nat.testBit_succ, hhalf]
      rfl
  rw [nextRegister, Nat.testBit_xor, hmod]
  cases crc.testBit 15 with
  | false => rw [if_neg Bool.false_ne_true, Nat.zero_testBit, Bool.false_and]
  | true => rw [if_pos rfl, Bool.true_and]

/-- One step of the register takes the remainder of one more bit. -/
theorem horner_nextRegister (crc : Nat) (b : Bool) :
    horner (wordBits 16 (nextRegister crc b)) =
      (horner (wordBits 16 crc) * X + C (bit b)) %ₘ generator := by
  have hdivision : horner (wordBits 16 (nextRegister crc b)) +
      generator * C (bit (crc.testBit 15)) = horner (wordBits 16 crc) * X + C (bit b) := by
    ext i
    rw [generator_eq, coeff_add, coeff_mul_C, coeff_add, coeff_X_pow, coeff_wordBits,
      coeff_wordBits, coeff_add]
    cases i with
    | zero =>
      rw [if_pos (by decide), if_neg (by decide), if_pos (by decide), mul_coeff_zero, coeff_X_zero,
        mul_zero, coeff_C_zero, zero_add, testBit_nextRegister crc 0 b (by decide), bit_cancel,
        if_pos rfl, zero_add]
    | succ i =>
      rw [coeff_mul_X, coeff_C_succ, add_zero, coeff_wordBits]
      obtain hlt | heq | hgt := Nat.lt_trichotomy i 15
      · rw [if_pos (by omega), if_neg (by omega), if_pos (by omega), if_pos (by omega),
          testBit_nextRegister crc (i + 1) b (by omega), zero_add, bit_cancel,
          if_neg (Nat.succ_ne_zero i),
          Nat.add_sub_cancel]
      · subst heq
        rw [if_neg (by decide), if_pos rfl, if_neg (by decide), if_pos (by decide), zero_add,
          add_zero, one_mul]
      · rw [if_neg (by omega), if_neg (by omega), if_neg (by omega), if_neg (by omega), zero_add,
          add_zero, zero_mul]
  have hdegree : (horner (wordBits 16 (nextRegister crc b))).degree < generator.degree := by
    rw [degree_generator]
    exact degree_wordBits 16 _
  exact (div_modByMonic_unique _ _ monic_generator ⟨hdivision, hdegree⟩).2.symm

theorem and_ne_zero_iff (x m : UInt32) (hm : m.toNat = 2 ^ i) :
    x &&& m ≠ 0 ↔ x.toNat.testBit i = true := by
  rw [ne_eq, ← UInt32.toNat_inj, UInt32.toNat_and, hm, Nat.and_two_pow]
  cases x.toNat.testBit i with
  | false => simp
  | true => simp

/-- One round, in the lower half of the register. -/
theorem round_low (crc crc' : UInt32) (b : Bool)
    (hcrc : crc' = if b then (crc <<< 1) + 1 else crc <<< 1) :
    (if crc' &&& 0x10000 ≠ 0 then crc' ^^^ 0x1021 else crc').toNat % 65536 =
      nextRegister (crc.toNat % 65536) b := by
  have hshift : crc'.toNat = (2 * crc.toNat + b.toNat) % 2 ^ 32 := by
    subst hcrc
    have hdouble : (crc <<< 1).toNat = 2 * crc.toNat % 2 ^ 32 := by
      rw [UInt32.toNat_shiftLeft, Nat.shiftLeft_eq, Nat.mul_comm]
      rfl
    cases b with
    | false => exact hdouble
    | true =>
      rw [if_pos rfl, UInt32.toNat_add, hdouble, Nat.mod_add_mod]
      rfl
  have hmsb : ((2 * crc.toNat + b.toNat) % 2 ^ 32).testBit 16 = (crc.toNat % 65536).testBit 15 := by
    have hhalf : (2 * crc.toNat + b.toNat) / 2 = crc.toNat := by
      have hb := b.toNat_le
      omega
    rw [Nat.testBit_mod_two_pow, Nat.testBit_succ, hhalf, show 65536 = 2 ^ 16 from rfl,
      Nat.testBit_mod_two_pow]
    rfl
  have hlow : (2 * crc.toNat + b.toNat) % 2 ^ 32 % 65536 =
      (2 * (crc.toNat % 65536) + b.toNat) % 65536 := by
    omega
  have htest := and_ne_zero_iff (i := 16) crc' 0x10000 rfl
  rw [hshift, hmsb] at htest
  rw [nextRegister]
  cases hbit : (crc.toNat % 65536).testBit 15 with
  | false =>
    rw [if_neg (fun h => by rw [htest.1 h] at hbit; cases hbit), if_neg Bool.false_ne_true, hshift,
      hlow, Nat.xor_zero]
  | true =>
    rw [if_pos (htest.2 hbit), if_pos rfl, UInt32.toNat_xor, hshift, show 65536 = 2 ^ 16 from rfl,
      Nat.xor_mod_two_pow, show 2 ^ 16 = 65536 from rfl, hlow]
    rfl

/-- The bits of the byte leave above its marker. -/
theorem testBit_marked (byte : UInt8) (i : Nat) :
    (byte.toNat + 256).testBit i = if i < 8 then byte.toNat.testBit i else decide (i = 8) := by
  have hbyte := byte.toNat_lt
  rw [Nat.add_comm, show 256 = 2 ^ 8 from rfl]
  obtain hlt | heq | hgt := Nat.lt_trichotomy i 8
  · rw [if_pos hlt, Nat.testBit_two_pow_add_gt hlt]
  · subst heq
    rw [if_neg (Nat.lt_irrefl 8), Nat.testBit_two_pow_add_eq, Nat.testBit_lt_two_pow hbyte]
    rfl
  · have hnine : 2 ^ 8 + byte.toNat < 2 ^ i :=
      Nat.lt_of_lt_of_le (by omega) (Nat.pow_le_pow_right (by decide) hgt)
    rw [if_neg (Nat.lt_asymm hgt), decide_eq_false (Nat.ne_of_gt hgt), Nat.testBit_lt_two_pow hnine]

/-- The rounds that are left shift the bits that are left into the register. -/
theorem updateCRC16Rounds_eq (byte : UInt8) (hn : n + k = 8) (crc inp : UInt32)
    (hinp : inp.toNat = (byte.toNat + 256) * 2 ^ k) :
    (updateCRC16Rounds n crc inp).toNat % 65536 =
      (bools n byte.toNat).foldl nextRegister (crc.toNat % 65536) := by
  induction n generalizing k crc inp with
  | zero => rfl
  | succ n ih =>
    have hshift : (inp <<< 1).toNat = (byte.toNat + 256) * 2 ^ (k + 1) := by
      have hbyte := byte.toNat_lt
      have hpow : 2 ^ (k + 1) ≤ 2 ^ 8 := Nat.pow_le_pow_right (by decide) (by omega)
      have hsmall : (byte.toNat + 256) * 2 ^ (k + 1) < 2 ^ 32 :=
        Nat.lt_of_le_of_lt (Nat.mul_le_mul_left _ hpow) (by omega)
      rw [UInt32.toNat_shiftLeft, hinp, Nat.shiftLeft_eq, Nat.mul_assoc]
      exact Nat.mod_eq_of_lt hsmall
    have hbit : (inp <<< 1) &&& 0x100 ≠ 0 ↔ byte.toNat.testBit n = true := by
      rw [and_ne_zero_iff (i := 8) _ 0x100 rfl, hshift, Nat.testBit_mul_two_pow,
        decide_eq_true (by omega), Bool.true_and, show 8 - (k + 1) = n by omega, testBit_marked,
        if_pos (by omega)]
    have hlast : (inp <<< 1) &&& 0x10000 ≠ 0 ↔ n = 0 := by
      rw [and_ne_zero_iff (i := 16) _ 0x10000 rfl, hshift, Nat.testBit_mul_two_pow,
        decide_eq_true (by omega), Bool.true_and, testBit_marked, if_neg (by omega),
        decide_eq_true_eq]
      omega
    have hround := round_low crc (if (inp <<< 1) &&& 0x100 ≠ 0 then (crc <<< 1) + 1 else crc <<< 1)
      (byte.toNat.testBit n) (if_congr hbit rfl rfl)
    rw [bools_succ, List.foldl_cons, ← hround, updateCRC16Rounds]
    split
    · next h =>
      obtain rfl := hlast.1 h
      rfl
    · exact ih (by omega) _ _ hshift

theorem updateCRC16_eq (crcIn : UInt16) (byte : UInt8) :
    (updateCRC16 crcIn byte).toNat = (bools 8 byte.toNat).foldl nextRegister crcIn.toNat := by
  have hmark : (byte.toUInt32 ||| 0x100).toNat = (byte.toNat + 256) * 2 ^ 0 := by
    revert byte
    apply forall_byte
    decide +kernel
  have hrounds := updateCRC16Rounds_eq byte (n := 8) (k := 0) rfl crcIn.toUInt32 _ hmark
  rw [UInt16.toNat_toUInt32, Nat.mod_eq_of_lt crcIn.toNat_lt] at hrounds
  rw [← hrounds, updateCRC16, UInt32.toNat_toUInt16, UInt32.toNat_and,
    show (0xffff : UInt32).toNat = 2 ^ 16 - 1 from rfl, Nat.and_two_pow_sub_one_eq_mod, Nat.mod_mod]

theorem foldl_updateCRC16 (m : List UInt8) (crc : UInt16) :
    (m.foldl updateCRC16 crc).toNat =
      (m.flatMap fun c => bools 8 c.toNat).foldl nextRegister crc.toNat := by
  induction m generalizing crc with
  | nil => rfl
  | cons c m ih =>
    rw [List.foldl_cons, ih, updateCRC16_eq, List.flatMap_cons, List.foldl_append]

/-- The register that started with zero holds the remainder of the bits it has taken. -/
theorem horner_foldl_nextRegister (bs : List Bool) :
    horner (wordBits 16 (bs.foldl nextRegister 0)) = horner (bs.map bit) %ₘ generator := by
  induction bs using List.reverseRecOn with
  | nil =>
    have hzero : wordBits 16 0 = List.replicate 16 0 := by decide
    rw [List.foldl_nil, hzero, horner_replicate_zero, List.map_nil]
    exact (zero_modByMonic generator).symm
  | append_singleton bs b ih =>
    rw [List.foldl_append, List.foldl_cons, List.foldl_nil, horner_nextRegister, ih,
      List.map_append,
      List.map_singleton, horner_concat_modByMonic monic_generator]

theorem map_bit_bools (m : List UInt8) : (m.flatMap fun c => bools 8 c.toNat).map bit =
    m.flatMap fun c => wordBits 8 c.toNat := by
  rw [List.map_flatMap]
  rfl

theorem registerPoly_calCRC16 (m : List UInt8) :
    registerPoly (calCRC16 m) = (messagePoly m * X ^ 16) %ₘ generator := by
  have hflush : calCRC16 m = (m ++ [0, 0]).foldl updateCRC16 0 := by
    rw [List.foldl_append]
    rfl
  have hzeros : ([0, 0] : List UInt8).flatMap (fun c => wordBits 8 c.toNat) =
      List.replicate 16 0 := by decide
  rw [registerPoly, hflush, foldl_updateCRC16]
  refine (horner_foldl_nextRegister _).trans ?_
  rw [map_bit_bools, List.flatMap_append, hzeros, horner_append, horner_replicate_zero, add_zero,
    List.length_replicate]
  rfl

theorem registerPoly_eq_zero (h : registerPoly crc = 0) : crc = 0 :=
  UInt16.toNat_inj.1 (horner_wordBits_inj crc.toNat_lt h)

/-- The bits of a number in two halves. -/
theorem bools_halves (w : Nat) : bools 16 w = bools 8 (w / 256) ++ bools 8 (w % 256) := by
  have hrange : (List.range 16).reverse =
      (List.range 8).reverse.map (8 + ·) ++ (List.range 8).reverse := by decide
  have hlow : (List.range 8).reverse.map w.testBit = bools 8 (w % 256) := by
    apply List.map_congr_left
    intro i hi
    rw [List.mem_reverse, List.mem_range] at hi
    rw [show 256 = 2 ^ 8 from rfl, Nat.testBit_mod_two_pow, decide_eq_true hi, Bool.true_and]
  rw [bools, hrange, List.map_append, hlow, List.map_map]
  congr 1
  apply List.map_congr_left
  intro i _
  rw [show 256 = 2 ^ 8 from rfl, Nat.testBit_div_two_pow, Nat.add_comm]
  rfl

theorem wordBits_crcBytes (m : List UInt8) :
    (crcBytes m).flatMap (fun c => wordBits 8 c.toNat) = wordBits 16 (calCRC16 m).toNat := by
  have hlt := (calCRC16 m).toNat_lt
  have hhigh : (calCRC16 m >>> 8).toUInt8.toNat = (calCRC16 m).toNat / 256 := by
    rw [UInt16.toNat_toUInt8, UInt16.toNat_shiftRight, Nat.shiftRight_eq_div_pow]
    change (calCRC16 m).toNat / 256 % 256 = _
    omega
  have hlow : (calCRC16 m &&& 0xFF).toUInt8.toNat = (calCRC16 m).toNat % 256 := by
    rw [UInt16.toNat_toUInt8, UInt16.toNat_and, show (0xFF : UInt16).toNat = 2 ^ 8 - 1 from rfl,
      Nat.and_two_pow_sub_one_eq_mod, Nat.mod_mod]
  rw [crcBytes, List.flatMap_cons, List.flatMap_singleton, hhigh, hlow, wordBits, wordBits,
    wordBits,
    bools_halves, List.map_append]

/-- The checksum is the remainder of the message behind which two bytes are left free, and the
message with its checksum has none. -/
theorem calCRC16_remainder (m : List UInt8) :
    registerPoly (calCRC16 m) = (messagePoly m * X ^ 16) %ₘ generator ∧
      calCRC16 (m ++ crcBytes m) = 0 := by
  refine ⟨registerPoly_calCRC16 m, registerPoly_eq_zero ?_⟩
  have hmessage : messagePoly (m ++ crcBytes m) =
      messagePoly m * X ^ 16 + registerPoly (calCRC16 m) := by
    rw [messagePoly, List.flatMap_append, wordBits_crcBytes, horner_append, length_wordBits]
    rfl
  rw [registerPoly_calCRC16, hmessage, registerPoly_calCRC16, ← CharTwo.sub_eq_add,
    sub_modByMonic_mul monic_generator]

end CrcRemainder

end BigBox.Ymodem
