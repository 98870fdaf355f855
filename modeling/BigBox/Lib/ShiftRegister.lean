import BigBox.Lib.Memory
import Mathlib.Algebra.Order.Ring.Int
import Mathlib.Data.List.Basic
import Mathlib.Logic.Function.Iterate

namespace BigBox
set_option autoImplicit true

/-- A number in so many bytes, the lowest first. -/
def toBytes : Nat → Nat → List UInt8
  | 0, _ => []
  | w + 1, v => UInt8.ofNat v :: toBytes w (v / 256)

def ofBytes : List UInt8 → Nat
  | [] => 0
  | b :: bs => b.toNat + 256 * ofBytes bs

@[simp] theorem length_toBytes (w v : Nat) : (toBytes w v).length = w := by
  induction w generalizing v with
  | zero => rfl
  | succ w ih => rw [toBytes, List.length_cons, ih]

theorem toBytes_append (a b v : Nat) :
    toBytes (a + b) v = toBytes a v ++ toBytes b (v / 256 ^ a) := by
  induction a generalizing v with
  | zero => rw [Nat.zero_add, Nat.pow_zero, Nat.div_one, toBytes, List.nil_append]
  | succ a ih =>
    rw [Nat.succ_add, toBytes, toBytes, ih, List.cons_append, Nat.div_div_eq_div_mul,
      Nat.pow_succ']

theorem toBytes_mod (w v : Nat) : toBytes w (v % 256 ^ w) = toBytes w v := by
  induction w generalizing v with
  | zero => rfl
  | succ w ih =>
    have hlow : UInt8.ofNat (v % 256 ^ (w + 1)) = UInt8.ofNat v := by
      apply UInt8.toNat_inj.1
      rw [UInt8.toNat_ofNat', UInt8.toNat_ofNat', Nat.pow_succ']
      exact Nat.mod_mul_right_mod v 256 _
    rw [toBytes, toBytes, hlow, Nat.pow_succ', Nat.mod_mul_right_div_self, ih]

theorem ofBytes_toBytes (h : v < 256 ^ w) : ofBytes (toBytes w v) = v := by
  induction w generalizing v with
  | zero => exact (Nat.lt_one_iff.1 h).symm
  | succ w ih =>
    have hv : v / 256 < 256 ^ w := Nat.div_lt_of_lt_mul (Nat.pow_succ' ▸ h)
    rw [toBytes, ofBytes, ih hv]
    exact Nat.mod_add_div v 256

theorem ofBytes_lt (bs : List UInt8) : ofBytes bs < 256 ^ bs.length := by
  induction bs with
  | nil => exact Nat.zero_lt_one
  | cons b bs ih =>
    have hb : b.toNat < 256 := b.toNat_lt
    rw [ofBytes, List.length_cons, Nat.pow_succ']
    omega

theorem toBytes_ofBytes (bs : List UInt8) : toBytes bs.length (ofBytes bs) = bs := by
  induction bs with
  | nil => rfl
  | cons b bs ih =>
    have hb : b.toNat < 256 := b.toNat_lt
    have hlow : UInt8.ofNat (b.toNat + 256 * ofBytes bs) = b := by
      apply UInt8.toNat_inj.1
      rw [UInt8.toNat_ofNat', Nat.add_mul_mod_self_left, Nat.mod_eq_of_lt hb]
    rw [List.length_cons, ofBytes, toBytes, hlow,
      Nat.add_mul_div_left _ _ (by decide : 0 < 256), Nat.div_eq_of_lt hb, Nat.zero_add, ih]

/-- The number in the `w` bytes from an address on. -/
def readWord (mem : Nat → UInt8) (a w : Nat) : Nat := ofBytes (readBytes mem a w)

def writeWord (mem : Nat → UInt8) (a w v : Nat) : Nat → UInt8 := writeBytes mem a (toBytes w v)

theorem readWord_lt (mem : Nat → UInt8) (a w : Nat) : readWord mem a w < 256 ^ w := by
  have h := ofBytes_lt (readBytes mem a w)
  rwa [length_readBytes] at h

theorem readWord_congr (h : ∀ i, i < w → mem' (a' + i) = mem (a + i)) :
    readWord mem' a' w = readWord mem a w := congrArg ofBytes (readBytes_congr h)

theorem writeWord_apart (mem : Nat → UInt8) (v : Nat) (h : i < a ∨ a + w ≤ i) :
    writeWord mem a w v i = mem i := by
  apply writeBytes_apart
  rwa [length_toBytes]

theorem readWord_writeWord (mem : Nat → UInt8) (a : Nat) (h : v < 256 ^ w) :
    readWord (writeWord mem a w v) a w = v := by
  have hread := readBytes_self mem a (toBytes w v)
  rw [length_toBytes] at hread
  rw [readWord, writeWord, hread, ofBytes_toBytes h]

/-- A word apart from the one written stays. -/
theorem readWord_apart (mem : Nat → UInt8) (v : Nat) (h : a + n ≤ b ∨ b + w ≤ a) :
    readWord (writeWord mem b w v) a n = readWord mem a n := by
  apply readWord_congr
  intro i hi
  apply writeWord_apart
  omega

/-- One bit of a shift register: the lowest bit goes out and, when it is set, a polynomial is
added. -/
def shiftBit (poly r : BitVec w) : BitVec w :=
  if r.getLsbD 0 then (r >>> 1) ^^^ poly else r >>> 1

def shiftBits (poly : BitVec w) (n : Nat) (r : BitVec w) : BitVec w := (shiftBit poly)^[n] r

section ShiftRegister
variable {poly r s : BitVec w}

theorem shiftBits_succ (poly : BitVec w) (n : Nat) (r : BitVec w) :
    shiftBits poly (n + 1) r = shiftBit poly (shiftBits poly n r) :=
  Function.iterate_succ_apply' _ _ _

theorem and_one_ne_zero (x : BitVec w) : x &&& 1#w ≠ 0#w ↔ x.getLsbD 0 = true := by
  rw [BitVec.and_one_eq_setWidth_ofBool_getLsbD]
  cases w with
  | zero =>
    rw [BitVec.getLsbD_of_ge x 0 (Nat.le_refl _)]
    exact iff_of_false (fun h => h (Subsingleton.elim _ _)) Bool.false_ne_true
  | succ w =>
    cases x.getLsbD 0 with
    | false => exact iff_of_false (fun h => h rfl) Bool.false_ne_true
    | true =>
      apply iff_of_true _ rfl
      intro h
      have hbit := congrArg (fun x : BitVec (w + 1) => x.getLsbD 0) h
      rw [BitVec.getLsbD_setWidth] at hbit
      simp at hbit

/-- The register is linear. -/
theorem shiftBit_xor (poly r s : BitVec w) :
    shiftBit poly (r ^^^ s) = shiftBit poly r ^^^ shiftBit poly s := by
  rw [shiftBit, shiftBit, shiftBit, BitVec.getLsbD_xor, BitVec.ushiftRight_xor_distrib]
  cases r.getLsbD 0 with
  | false =>
    cases s.getLsbD 0 with
    | false => rfl
    | true => exact BitVec.xor_assoc _ _ _
  | true =>
    cases s.getLsbD 0 with
    | false =>
      change r >>> 1 ^^^ s >>> 1 ^^^ poly = r >>> 1 ^^^ poly ^^^ s >>> 1
      rw [BitVec.xor_assoc, BitVec.xor_assoc, BitVec.xor_comm poly]
    | true =>
      change r >>> 1 ^^^ s >>> 1 = r >>> 1 ^^^ poly ^^^ (s >>> 1 ^^^ poly)
      rw [BitVec.xor_assoc, BitVec.xor_comm (s >>> 1), ← BitVec.xor_assoc poly, BitVec.xor_self,
        BitVec.zero_xor]

theorem shiftBits_xor (poly r s : BitVec w) (n : Nat) :
    shiftBits poly n (r ^^^ s) = shiftBits poly n r ^^^ shiftBits poly n s := by
  induction n with
  | zero => rfl
  | succ n ih => rw [shiftBits_succ, shiftBits_succ, shiftBits_succ, ih, shiftBit_xor]

/-- No polynomial is added while the bits that go out are clear. -/
theorem shiftBits_clear (poly : BitVec w) (h : ∀ i < n, r.getLsbD i = false) :
    shiftBits poly n r = r >>> n := by
  induction n with
  | zero => exact (BitVec.ushiftRight_zero r).symm
  | succ n ih =>
    have hbit : (r >>> n).getLsbD 0 = false := by
      rw [BitVec.getLsbD_ushiftRight]
      exact h n (Nat.lt_succ_self n)
    rw [shiftBits_succ, ih fun i hi => h i (Nat.lt_succ_of_lt hi), shiftBit, hbit,
      if_neg Bool.false_ne_true, BitVec.shiftRight_add]

/-- The lowest bits of a register. -/
def lowBits (n : Nat) (r : BitVec w) : BitVec w := BitVec.ofNat w (r.toNat % 2 ^ n)

theorem getLsbD_lowBits (n : Nat) (r : BitVec w) (i : Nat) :
    (lowBits n r).getLsbD i = (decide (i < n) && r.getLsbD i) := by
  rw [lowBits, BitVec.getLsbD_ofNat, Nat.testBit_mod_two_pow]
  change (decide (i < w) && (decide (i < n) && r.getLsbD i)) = _
  by_cases hi : i < w
  · rw [decide_eq_true hi, Bool.true_and]
  · rw [BitVec.getLsbD_of_ge r i (Nat.le_of_not_lt hi), Bool.and_false, Bool.and_false]

/-- Only the bits that go out decide what is added. -/
theorem shiftBits_lowBits (poly r : BitVec w) (n : Nat) :
    shiftBits poly n r = (r >>> n) ^^^ shiftBits poly n (lowBits n r) := by
  have hsplit : r = (r ^^^ lowBits n r) ^^^ lowBits n r := by
    rw [BitVec.xor_assoc, BitVec.xor_self, BitVec.xor_zero]
  have hclear : ∀ i < n, (r ^^^ lowBits n r).getLsbD i = false := by
    intro i hi
    rw [BitVec.getLsbD_xor, getLsbD_lowBits, decide_eq_true hi, Bool.true_and, Bool.xor_self]
  have hhigh : lowBits n r >>> n = 0#w := by
    apply BitVec.eq_of_getLsbD_eq
    intro i _
    rw [BitVec.getLsbD_ushiftRight, getLsbD_lowBits, BitVec.getLsbD_zero,
      decide_eq_false (Nat.not_lt.2 (Nat.le_add_right n i)), Bool.false_and]
  calc shiftBits poly n r
      = shiftBits poly n ((r ^^^ lowBits n r) ^^^ lowBits n r) := congrArg _ hsplit
    _ = (r ^^^ lowBits n r) >>> n ^^^ shiftBits poly n (lowBits n r) := by
      rw [shiftBits_xor, shiftBits_clear poly hclear]
    _ = (r >>> n) ^^^ shiftBits poly n (lowBits n r) := by
      rw [BitVec.ushiftRight_xor_distrib, hhigh, BitVec.xor_zero]

/-- A wider register whose upper bits are clear. -/
theorem shiftBit_setWidth (poly r : BitVec w) (k : Nat) :
    shiftBit (poly.setWidth (w + k)) (r.setWidth (w + k)) =
      (shiftBit poly r).setWidth (w + k) := by
  have hbit : (r.setWidth (w + k)).getLsbD 0 = r.getLsbD 0 := by
    rw [BitVec.getLsbD_setWidth]
    by_cases hw : 0 < w + k
    · rw [decide_eq_true hw, Bool.true_and]
    · rw [decide_eq_false hw, Bool.false_and, BitVec.getLsbD_of_ge r 0 (by omega)]
  have hshift : r.setWidth (w + k) >>> 1 = (r >>> 1).setWidth (w + k) := by
    apply BitVec.eq_of_getLsbD_eq
    intro i hi
    rw [BitVec.getLsbD_ushiftRight, BitVec.getLsbD_setWidth, BitVec.getLsbD_setWidth,
      BitVec.getLsbD_ushiftRight, decide_eq_true hi, Bool.true_and]
    by_cases hnext : 1 + i < w + k
    · rw [decide_eq_true hnext, Bool.true_and]
    · rw [decide_eq_false hnext, Bool.false_and, BitVec.getLsbD_of_ge r (1 + i) (by omega)]
  rw [shiftBit, shiftBit, hbit, hshift]
  cases r.getLsbD 0 with
  | false => rfl
  | true => exact (BitVec.setWidth_xor).symm

theorem shiftBits_setWidth (poly r : BitVec w) (n k : Nat) :
    shiftBits (poly.setWidth (w + k)) n (r.setWidth (w + k)) =
      (shiftBits poly n r).setWidth (w + k) := by
  induction n with
  | zero => rfl
  | succ n ih => rw [shiftBits_succ, shiftBits_succ, ih, shiftBit_setWidth]

end ShiftRegister

end BigBox
