import BigBox.Lib.CInt
import BigBox.Lib.Sextets
import Mathlib.Data.Nat.Bitwise
import Mathlib.Logic.Function.Iterate
import Mathlib.Tactic.IntervalCases

namespace BigBox.Aes
set_option autoImplicit true

/-- The loop of `gmult`. -/
def gmultLoop : Nat → UInt8 → UInt8 → UInt8 → UInt8
  | 0, p, _, _ => p
  | n + 1, p, a, b =>
    let p := if b &&& 1 = 0 then p else p ^^^ a
    let hbs := a &&& 0x80
    let a := a <<< 1
    gmultLoop n p (if hbs = 0 then a else a ^^^ 0x1b) (b >>> 1)

/-- Multiplication in GF(2^8). -/
def gmult (a b : UInt8) : UInt8 := gmultLoop 8 0 a b

structure Word where
  b0 : UInt8
  b1 : UInt8
  b2 : UInt8
  b3 : UInt8
  deriving DecidableEq, Repr

def Word.map (f : UInt8 → UInt8) (w : Word) : Word := ⟨f w.b0, f w.b1, f w.b2, f w.b3⟩

def coefAdd (a b : Word) : Word := ⟨a.b0 ^^^ b.b0, a.b1 ^^^ b.b1, a.b2 ^^^ b.b2, a.b3 ^^^ b.b3⟩

/-- Multiplication of four byte words. -/
def coefMult (a b : Word) : Word :=
  ⟨gmult a.b0 b.b0 ^^^ gmult a.b3 b.b1 ^^^ gmult a.b2 b.b2 ^^^ gmult a.b1 b.b3,
    gmult a.b1 b.b0 ^^^ gmult a.b0 b.b1 ^^^ gmult a.b3 b.b2 ^^^ gmult a.b2 b.b3,
    gmult a.b2 b.b0 ^^^ gmult a.b1 b.b1 ^^^ gmult a.b0 b.b2 ^^^ gmult a.b3 b.b3,
    gmult a.b3 b.b0 ^^^ gmult a.b2 b.b1 ^^^ gmult a.b1 b.b2 ^^^ gmult a.b0 b.b3⟩

def sBox : List UInt8 :=
  [0x63, 0x7c, 0x77, 0x7b, 0xf2, 0x6b, 0x6f, 0xc5, 0x30, 0x01, 0x67, 0x2b, 0xfe, 0xd7, 0xab, 0x76,
   0xca, 0x82, 0xc9, 0x7d, 0xfa, 0x59, 0x47, 0xf0, 0xad, 0xd4, 0xa2, 0xaf, 0x9c, 0xa4, 0x72, 0xc0,
   0xb7, 0xfd, 0x93, 0x26, 0x36, 0x3f, 0xf7, 0xcc, 0x34, 0xa5, 0xe5, 0xf1, 0x71, 0xd8, 0x31, 0x15,
   0x04, 0xc7, 0x23, 0xc3, 0x18, 0x96, 0x05, 0x9a, 0x07, 0x12, 0x80, 0xe2, 0xeb, 0x27, 0xb2, 0x75,
   0x09, 0x83, 0x2c, 0x1a, 0x1b, 0x6e, 0x5a, 0xa0, 0x52, 0x3b, 0xd6, 0xb3, 0x29, 0xe3, 0x2f, 0x84,
   0x53, 0xd1, 0x00, 0xed, 0x20, 0xfc, 0xb1, 0x5b, 0x6a, 0xcb, 0xbe, 0x39, 0x4a, 0x4c, 0x58, 0xcf,
   0xd0, 0xef, 0xaa, 0xfb, 0x43, 0x4d, 0x33, 0x85, 0x45, 0xf9, 0x02, 0x7f, 0x50, 0x3c, 0x9f, 0xa8,
   0x51, 0xa3, 0x40, 0x8f, 0x92, 0x9d, 0x38, 0xf5, 0xbc, 0xb6, 0xda, 0x21, 0x10, 0xff, 0xf3, 0xd2,
   0xcd, 0x0c, 0x13, 0xec, 0x5f, 0x97, 0x44, 0x17, 0xc4, 0xa7, 0x7e, 0x3d, 0x64, 0x5d, 0x19, 0x73,
   0x60, 0x81, 0x4f, 0xdc, 0x22, 0x2a, 0x90, 0x88, 0x46, 0xee, 0xb8, 0x14, 0xde, 0x5e, 0x0b, 0xdb,
   0xe0, 0x32, 0x3a, 0x0a, 0x49, 0x06, 0x24, 0x5c, 0xc2, 0xd3, 0xac, 0x62, 0x91, 0x95, 0xe4, 0x79,
   0xe7, 0xc8, 0x37, 0x6d, 0x8d, 0xd5, 0x4e, 0xa9, 0x6c, 0x56, 0xf4, 0xea, 0x65, 0x7a, 0xae, 0x08,
   0xba, 0x78, 0x25, 0x2e, 0x1c, 0xa6, 0xb4, 0xc6, 0xe8, 0xdd, 0x74, 0x1f, 0x4b, 0xbd, 0x8b, 0x8a,
   0x70, 0x3e, 0xb5, 0x66, 0x48, 0x03, 0xf6, 0x0e, 0x61, 0x35, 0x57, 0xb9, 0x86, 0xc1, 0x1d, 0x9e,
   0xe1, 0xf8, 0x98, 0x11, 0x69, 0xd9, 0x8e, 0x94, 0x9b, 0x1e, 0x87, 0xe9, 0xce, 0x55, 0x28, 0xdf,
   0x8c, 0xa1, 0x89, 0x0d, 0xbf, 0xe6, 0x42, 0x68, 0x41, 0x99, 0x2d, 0x0f, 0xb0, 0x54, 0xbb, 0x16]

def invSBox : List UInt8 :=
  [0x52, 0x09, 0x6a, 0xd5, 0x30, 0x36, 0xa5, 0x38, 0xbf, 0x40, 0xa3, 0x9e, 0x81, 0xf3, 0xd7, 0xfb,
   0x7c, 0xe3, 0x39, 0x82, 0x9b, 0x2f, 0xff, 0x87, 0x34, 0x8e, 0x43, 0x44, 0xc4, 0xde, 0xe9, 0xcb,
   0x54, 0x7b, 0x94, 0x32, 0xa6, 0xc2, 0x23, 0x3d, 0xee, 0x4c, 0x95, 0x0b, 0x42, 0xfa, 0xc3, 0x4e,
   0x08, 0x2e, 0xa1, 0x66, 0x28, 0xd9, 0x24, 0xb2, 0x76, 0x5b, 0xa2, 0x49, 0x6d, 0x8b, 0xd1, 0x25,
   0x72, 0xf8, 0xf6, 0x64, 0x86, 0x68, 0x98, 0x16, 0xd4, 0xa4, 0x5c, 0xcc, 0x5d, 0x65, 0xb6, 0x92,
   0x6c, 0x70, 0x48, 0x50, 0xfd, 0xed, 0xb9, 0xda, 0x5e, 0x15, 0x46, 0x57, 0xa7, 0x8d, 0x9d, 0x84,
   0x90, 0xd8, 0xab, 0x00, 0x8c, 0xbc, 0xd3, 0x0a, 0xf7, 0xe4, 0x58, 0x05, 0xb8, 0xb3, 0x45, 0x06,
   0xd0, 0x2c, 0x1e, 0x8f, 0xca, 0x3f, 0x0f, 0x02, 0xc1, 0xaf, 0xbd, 0x03, 0x01, 0x13, 0x8a, 0x6b,
   0x3a, 0x91, 0x11, 0x41, 0x4f, 0x67, 0xdc, 0xea, 0x97, 0xf2, 0xcf, 0xce, 0xf0, 0xb4, 0xe6, 0x73,
   0x96, 0xac, 0x74, 0x22, 0xe7, 0xad, 0x35, 0x85, 0xe2, 0xf9, 0x37, 0xe8, 0x1c, 0x75, 0xdf, 0x6e,
   0x47, 0xf1, 0x1a, 0x71, 0x1d, 0x29, 0xc5, 0x89, 0x6f, 0xb7, 0x62, 0x0e, 0xaa, 0x18, 0xbe, 0x1b,
   0xfc, 0x56, 0x3e, 0x4b, 0xc6, 0xd2, 0x79, 0x20, 0x9a, 0xdb, 0xc0, 0xfe, 0x78, 0xcd, 0x5a, 0xf4,
   0x1f, 0xdd, 0xa8, 0x33, 0x88, 0x07, 0xc7, 0x31, 0xb1, 0x12, 0x10, 0x59, 0x27, 0x80, 0xec, 0x5f,
   0x60, 0x51, 0x7f, 0xa9, 0x19, 0xb5, 0x4a, 0x0d, 0x2d, 0xe5, 0x7a, 0x9f, 0x93, 0xc9, 0x9c, 0xef,
   0xa0, 0xe0, 0x3b, 0x4d, 0xae, 0x2a, 0xf5, 0xb0, 0xc8, 0xeb, 0xbb, 0x3c, 0x83, 0x53, 0x99, 0x61,
   0x17, 0x2b, 0x04, 0x7e, 0xba, 0x77, 0xd6, 0x26, 0xe1, 0x69, 0x14, 0x63, 0x55, 0x21, 0x0c, 0x7d]

/-- The entry of a table in the row of the high bits and the column of the low ones. -/
def substitute (box : List UInt8) (x : UInt8) : UInt8 :=
  box.getD (16 * ((x &&& 0xf0) >>> 4).toNat + (x &&& 0x0f).toNat) 0

/-- Four words: the rows of a `state`, or the bytes of a block in order. -/
structure Square where
  w0 : Word
  w1 : Word
  w2 : Word
  w3 : Word
  deriving DecidableEq, Repr

namespace Square

def map (f : Word → Word) (s : Square) : Square := ⟨f s.w0, f s.w1, f s.w2, f s.w3⟩

/-- Rows become columns. -/
def transpose (s : Square) : Square :=
  ⟨⟨s.w0.b0, s.w1.b0, s.w2.b0, s.w3.b0⟩, ⟨s.w0.b1, s.w1.b1, s.w2.b1, s.w3.b1⟩,
    ⟨s.w0.b2, s.w1.b2, s.w2.b2, s.w3.b2⟩, ⟨s.w0.b3, s.w1.b3, s.w2.b3, s.w3.b3⟩⟩

end Square

/-- The word of the key at `w` that is added to column `c` in round `r`. -/
def roundKey (w : Nat → UInt8) (r c : Nat) : Word :=
  ⟨w (4 * 4 * r + 4 * c + 0), w (4 * 4 * r + 4 * c + 1), w (4 * 4 * r + 4 * c + 2),
    w (4 * 4 * r + 4 * c + 3)⟩

def addRoundKey (w : Nat → UInt8) (r : Nat) (state : Square) : Square :=
  let columns := state.transpose
  Square.transpose ⟨coefAdd columns.w0 (roundKey w r 0), coefAdd columns.w1 (roundKey w r 1),
    coefAdd columns.w2 (roundKey w r 2), coefAdd columns.w3 (roundKey w r 3)⟩

def mixColumns (state : Square) : Square :=
  (state.transpose.map (coefMult ⟨0x02, 0x01, 0x01, 0x03⟩)).transpose

def invMixColumns (state : Square) : Square :=
  (state.transpose.map (coefMult ⟨0x0e, 0x09, 0x0d, 0x0b⟩)).transpose

/-- One step to the left. -/
def shiftRow (row : Word) : Word := ⟨row.b1, row.b2, row.b3, row.b0⟩

/-- One step to the right. -/
def invShiftRow (row : Word) : Word := ⟨row.b3, row.b0, row.b1, row.b2⟩

def shiftRows (state : Square) : Square :=
  ⟨state.w0, shiftRow^[1] state.w1, shiftRow^[2] state.w2, shiftRow^[3] state.w3⟩

def invShiftRows (state : Square) : Square :=
  ⟨state.w0, invShiftRow^[1] state.w1, invShiftRow^[2] state.w2, invShiftRow^[3] state.w3⟩

def subBytes (state : Square) : Square := state.map (Word.map (substitute sBox))

def invSubBytes (state : Square) : Square := state.map (Word.map (substitute invSBox))

/-- The rounds of `cipher` from 1 on. -/
def rounds (w : Nat → UInt8) : Nat → Square → Square
  | 0, state => state
  | r + 1, state => addRoundKey w (r + 1) (mixColumns (shiftRows (subBytes (rounds w r state))))

/-- The rounds of `inv_cipher` down to 1. -/
def invRounds (w : Nat → UInt8) : Nat → Square → Square
  | 0, state => state
  | r + 1, state =>
    invRounds w r (invMixColumns (addRoundKey w (r + 1) (invSubBytes (invShiftRows state))))

/-- `state[Nb*i+j] = in[i+4*j]` makes columns of the words of the block. -/
def cipher (nr : Nat) (w : Nat → UInt8) (block : Square) : Square :=
  let state := addRoundKey w 0 block.transpose
  let state := rounds w (nr - 1) state
  (addRoundKey w nr (shiftRows (subBytes state))).transpose

def invCipher (nr : Nat) (w : Nat → UInt8) (block : Square) : Square :=
  let state := addRoundKey w nr block.transpose
  let state := invRounds w (nr - 1) state
  (addRoundKey w 0 (invSubBytes (invShiftRows state))).transpose

def subWord (w : Word) : Word := w.map (substitute sBox)

def rotWord (w : Word) : Word := ⟨w.b1, w.b2, w.b3, w.b0⟩

/-- The first byte of `Rcon(i)`, the others are zero. -/
def rcon : Nat → UInt8
  | 0 => 0x02
  | 1 => 0x01
  | 2 => 0x02
  | i + 1 => gmult (rcon i) 0x02

/-- The words of `key_expansion` after `n` turns of its second loop. -/
def expand (nk : Nat) (key : Nat → UInt8) : Nat → List Word
  | 0 => (List.range nk).map fun i =>
      ⟨key (4 * i + 0), key (4 * i + 1), key (4 * i + 2), key (4 * i + 3)⟩
  | n + 1 =>
    let words := expand nk key n
    let i := nk + n
    let tmp := words.getD (i - 1) ⟨0, 0, 0, 0⟩
    let tmp :=
      if i % nk = 0 then coefAdd (subWord (rotWord tmp)) ⟨rcon (i / nk), 0, 0, 0⟩
      else if 6 < nk ∧ i % nk = 4 then subWord tmp
      else tmp
    words ++ [coefAdd (words.getD (i - nk) ⟨0, 0, 0, 0⟩) tmp]

def keyExpansion (nk nr : Nat) (key : Nat → UInt8) : List UInt8 :=
  (expand nk key (4 * (nr + 1) - nk)).flatMap fun w => [w.b0, w.b1, w.b2, w.b3]

/-- `Nk`, `Nr` and the expanded key. -/
structure Keys where
  nk : Nat
  nr : Nat
  w : List UInt8

/-- `Nk` and `Nr`; any other length is taken as 16. -/
def keySize (key_len : Nat) : Nat × Nat :=
  if key_len = 24 then (6, 12) else if key_len = 32 then (8, 14) else (4, 10)

def aesInit (key : Nat → UInt8) (key_len : Nat) : Keys :=
  let (nk, nr) := keySize key_len
  ⟨nk, nr, keyExpansion nk nr key⟩

section Field

theorem and_one (x : UInt8) : x &&& 1 = 0 ∨ x &&& 1 = 1 := by
  have hand : (x &&& 1).toNat = x.toNat % 2 := Nat.and_two_pow_sub_one_eq_mod x.toNat 1
  rw [← UInt8.toNat_inj, ← UInt8.toNat_inj, hand]
  exact Nat.mod_two_eq_zero_or_one x.toNat

theorem xor_and (b c d : UInt8) : (b ^^^ c) &&& d = (b &&& d) ^^^ (c &&& d) := by
  rw [← UInt8.toNat_inj, UInt8.toNat_and, UInt8.toNat_xor, UInt8.toNat_xor, UInt8.toNat_and,
    UInt8.toNat_and, Nat.and_xor_distrib_right]

theorem gmultLoop_xor (n : Nat) (p q a b c : UInt8) :
    gmultLoop n (p ^^^ q) a (b ^^^ c) = gmultLoop n p a b ^^^ gmultLoop n q a c := by
  induction n generalizing p q a b c with
  | zero => rfl
  | succ n ih =>
    have hone : (1 : UInt8) ≠ 0 := by decide
    simp only [gmultLoop, UInt8.shiftRight_xor, ← ih, xor_and]
    apply congrArg (gmultLoop n · _ _)
    rcases and_one b with hb | hb
    · rcases and_one c with hc | hc
      · simp only [hb, hc, UInt8.xor_zero, if_true]
      · simp only [hb, hc, UInt8.zero_xor, if_true, hone, if_false, UInt8.xor_assoc]
    · rcases and_one c with hc | hc
      · simp only [hb, hc, UInt8.xor_zero, if_true, hone, if_false]
        ac_rfl
      · have hcancel : p ^^^ a ^^^ (q ^^^ a) = p ^^^ q ^^^ (a ^^^ a) := by ac_rfl
        simp only [hb, hc, UInt8.xor_self, if_true, hone, if_false, hcancel, UInt8.xor_zero]

/-- Multiplication by one factor is linear. -/
theorem gmult_xor (a b c : UInt8) : gmult a (b ^^^ c) = gmult a b ^^^ gmult a c :=
  gmultLoop_xor 8 0 0 a b c

/-- A byte is the sum of its bits. -/
theorem bits_xor (x : UInt8) : x = (x &&& 1) ^^^ (x &&& 2) ^^^ (x &&& 4) ^^^ (x &&& 8) ^^^
    (x &&& 16) ^^^ (x &&& 32) ^^^ (x &&& 64) ^^^ (x &&& 128) := by
  have hand (b c : UInt8) : (x &&& b) ^^^ (x &&& c) = x &&& (b ^^^ c) := by
    rw [← UInt8.toNat_inj, UInt8.toNat_xor, UInt8.toNat_and, UInt8.toNat_and, UInt8.toNat_and,
      UInt8.toNat_xor, Nat.and_xor_distrib_left]
  have hall : (1 : UInt8) ^^^ 2 ^^^ 4 ^^^ 8 ^^^ 16 ^^^ 32 ^^^ 64 ^^^ 128 = 255 := by decide
  have hself : (x &&& 255).toNat = x.toNat % 256 := Nat.and_two_pow_sub_one_eq_mod x.toNat 8
  simp only [hand, hall]
  rw [← UInt8.toNat_inj, hself, Nat.mod_eq_of_lt x.toNat_lt]

theorem and_bit (x : UInt8) : ∀ k ∈ [1, 2, 4, 8, 16, 32, 64, 128], x &&& k = 0 ∨ x &&& k = k := by
  have hbit : ∀ i (k : UInt8), k.toNat = 2 ^ i → x &&& k = 0 ∨ x &&& k = k := by
    intro i k hk
    rw [← UInt8.toNat_inj, ← UInt8.toNat_inj, UInt8.toNat_and, hk, Nat.and_two_pow]
    cases x.toNat.testBit i with
    | false => exact Or.inl (Nat.zero_mul _)
    | true => exact Or.inr (Nat.one_mul _)
  simp only [List.forall_mem_cons, List.not_mem_nil, false_imp_iff, implies_true, and_true]
  exact ⟨hbit 0 _ rfl, hbit 1 _ rfl, hbit 2 _ rfl, hbit 3 _ rfl, hbit 4 _ rfl, hbit 5 _ rfl,
    hbit 6 _ rfl, hbit 7 _ rfl⟩

/-- Linear maps of bytes. -/
def Linear (f : UInt8 → UInt8) : Prop := ∀ a b, f (a ^^^ b) = f a ^^^ f b

theorem Linear.zero (h : Linear f) : f 0 = 0 := by
  have hzero := h 0 0
  rwa [UInt8.xor_self, UInt8.xor_self] at hzero

/-- Linear maps that agree on the bits are equal. -/
theorem Linear.ext (hf : Linear f) (hg : Linear g)
    (h : ∀ k ∈ [1, 2, 4, 8, 16, 32, 64, 128], f k = g k) (x : UInt8) : f x = g x := by
  have hbit : ∀ k ∈ [1, 2, 4, 8, 16, 32, 64, 128], f (x &&& k) = g (x &&& k) := by
    intro k hk
    rcases and_bit x k hk with hx | hx
    · rw [hx, hf.zero, hg.zero]
    · rw [hx, h k hk]
  simp only [List.forall_mem_cons, List.not_mem_nil, false_imp_iff, implies_true, and_true] at hbit
  obtain ⟨h1, h2, h4, h8, h16, h32, h64, h128⟩ := hbit
  rw [bits_xor x]
  simp only [hf _ _, hg _ _, h1, h2, h4, h8, h16, h32, h64, h128]

theorem linear_gmult (a : UInt8) : Linear (gmult a) := gmult_xor a

theorem Linear.comp (hf : Linear f) (hg : Linear g) : Linear fun x => f (g x) := by
  intro b c
  change f (g (b ^^^ c)) = f (g b) ^^^ f (g c)
  rw [hg, hf]

theorem Linear.xor (hf : Linear f) (hg : Linear g) : Linear fun x => f x ^^^ g x := by
  intro b c
  simp only [hf _ _, hg _ _]
  ac_rfl

/-- A row of the first matrix times a column of the second one. -/
def entry (a b c d : UInt8) (x : UInt8) : UInt8 :=
  gmult 0x0e (gmult a x) ^^^ gmult 0x0b (gmult b x) ^^^ gmult 0x0d (gmult c x) ^^^
    gmult 0x09 (gmult d x)

theorem entry_linear (a b c d : UInt8) : Linear (entry a b c d) := by
  apply Linear.xor
  · apply Linear.xor
    · apply Linear.xor
      · exact (linear_gmult 0x0e).comp (linear_gmult a)
      · exact (linear_gmult 0x0b).comp (linear_gmult b)
    · exact (linear_gmult 0x0d).comp (linear_gmult c)
  · exact (linear_gmult 0x09).comp (linear_gmult d)

/-- The entries of the product of the two matrices. -/
theorem inverse_entries (x : UInt8) : entry 0x02 0x01 0x01 0x03 x = x ∧
    entry 0x03 0x02 0x01 0x01 x = 0 ∧ entry 0x01 0x03 0x02 0x01 x = 0 ∧
    entry 0x01 0x01 0x03 0x02 x = 0 := by
  have hid : Linear fun x => x := fun _ _ => rfl
  have hzero : Linear fun _ => 0 := fun _ _ => UInt8.xor_self.symm
  refine ⟨?_, ?_, ?_, ?_⟩
  · exact Linear.ext (entry_linear _ _ _ _) hid (by decide +kernel) x
  · exact Linear.ext (entry_linear _ _ _ _) hzero (by decide +kernel) x
  · exact Linear.ext (entry_linear _ _ _ _) hzero (by decide +kernel) x
  · exact Linear.ext (entry_linear _ _ _ _) hzero (by decide +kernel) x

/-- The index of an entry is the byte. -/
theorem substitute_eq (box : List UInt8) (x : UInt8) : substitute box x = box.getD x.toNat 0 := by
  obtain ⟨-, -, hhigh, -, -, -⟩ := and_shift_or (Nat.mod_eq_of_lt x.toNat_lt)
  have hlow := Nat.and_two_pow_sub_one_eq_mod x.toNat 4
  have hrow : ((x &&& 0xf0) >>> 4).toNat = x.toNat / 16 := hhigh
  have hcol : (x &&& 0x0f).toNat = x.toNat % 16 := hlow
  rw [substitute, hrow, hcol, Nat.div_add_mod]

theorem getD_row (box : List UInt8) (i : Nat) :
    (box.drop (16 * (i / 16))).getD (i % 16) 0 = box.getD i 0 := by
  rw [List.getD_eq_getElem?_getD, List.getElem?_drop, Nat.div_add_mod,
    ← List.getD_eq_getElem?_getD]

/-- Half of the first table, looked up in the second one. -/
theorem invSBox_sBox {r : Nat} (hr : r < 2) :
    ((sBox.drop (128 * r)).take 128).map (fun y =>
      (invSBox.drop (16 * (y.toNat / 16))).getD (y.toNat % 16) 0) =
      (List.range' (128 * r) 128).map UInt8.ofNat := by
  interval_cases r <;> decide

theorem substitute_inverse (x : UInt8) : substitute invSBox (substitute sBox x) = x := by
  have hhalf : x.toNat / 128 < 2 := Nat.div_lt_of_lt_mul x.toNat_lt
  have hcol : x.toNat % 128 < 128 := Nat.mod_lt _ (by decide)
  have hentry := congrArg (·[x.toNat % 128]?) (invSBox_sBox hhalf)
  simp only [getD_row, List.getElem?_map, List.getElem?_take_of_lt hcol, List.getElem?_drop,
    List.getElem?_range', hcol, Nat.div_add_mod, Nat.one_mul] at hentry
  rw [Option.map_some, UInt8.ofNat_toNat] at hentry
  obtain ⟨y, hy, hinverse⟩ := Option.map_eq_some_iff.1 hentry
  rw [substitute_eq, substitute_eq, List.getD_eq_getElem?_getD (l := sBox), hy, Option.getD_some]
  exact hinverse

theorem xor_sum {t0 t1 t2 t3 x : UInt8} (h0 : t0 = x) (h1 : t1 = 0) (h2 : t2 = 0) (h3 : t3 = 0) :
    t0 ^^^ t1 ^^^ t2 ^^^ t3 = x := by
  rw [h0, h1, h2, h3, UInt8.xor_zero, UInt8.xor_zero, UInt8.xor_zero]

/-- The two matrices are inverse to each other. -/
theorem coefMult_inverse (b : Word) :
    coefMult ⟨0x0e, 0x09, 0x0d, 0x0b⟩ (coefMult ⟨0x02, 0x01, 0x01, 0x03⟩ b) = b := by
  obtain ⟨b0, b1, b2, b3⟩ := b
  obtain ⟨h00, h01, h02, h03⟩ := inverse_entries b0
  obtain ⟨h10, h11, h12, h13⟩ := inverse_entries b1
  obtain ⟨h20, h21, h22, h23⟩ := inverse_entries b2
  obtain ⟨h30, h31, h32, h33⟩ := inverse_entries b3
  simp only [entry] at h00 h01 h02 h03 h10 h11 h12 h13 h20 h21 h22 h23 h30 h31 h32 h33
  simp only [coefMult, gmult_xor, Word.mk.injEq]
  refine ⟨?_, ?_, ?_, ?_⟩
  · refine Eq.trans ?_ (xor_sum h00 h11 h22 h33)
    ac_rfl
  · refine Eq.trans ?_ (xor_sum h10 h21 h32 h03)
    ac_rfl
  · refine Eq.trans ?_ (xor_sum h20 h31 h02 h13)
    ac_rfl
  · refine Eq.trans ?_ (xor_sum h30 h01 h12 h23)
    ac_rfl

end Field

section Rounds
variable (w : Nat → UInt8) (state : Square)

@[simp] theorem transpose_transpose : state.transpose.transpose = state := rfl

theorem map_inverse {f g : Word → Word} (h : ∀ v, g (f v) = v) :
    (state.map f).map g = state := by
  simp only [Square.map, h]

theorem coefAdd_twice (a b : Word) : coefAdd (coefAdd a b) b = a := by
  simp only [coefAdd, UInt8.xor_assoc, UInt8.xor_self, UInt8.xor_zero]

@[simp] theorem addRoundKey_twice (r : Nat) :
    addRoundKey w r (addRoundKey w r state) = state := by
  simp only [addRoundKey, transpose_transpose, coefAdd_twice]
  rfl

@[simp] theorem invMixColumns_mixColumns : invMixColumns (mixColumns state) = state := by
  rw [invMixColumns, mixColumns, transpose_transpose, map_inverse _ coefMult_inverse,
    transpose_transpose]

theorem invShiftRow_shiftRow : Function.LeftInverse invShiftRow shiftRow := fun _ => rfl

@[simp] theorem invShiftRows_shiftRows : invShiftRows (shiftRows state) = state := by
  rw [invShiftRows, shiftRows, invShiftRow_shiftRow.iterate 1, invShiftRow_shiftRow.iterate 2,
    invShiftRow_shiftRow.iterate 3]

@[simp] theorem invSubBytes_subBytes : invSubBytes (subBytes state) = state := by
  apply map_inverse
  intro v
  simp only [Word.map, substitute_inverse]

/-- The rounds of `inv_cipher` undo those of `cipher`, one byte substitution and row shift ahead. -/
theorem invRounds_rounds (r : Nat) :
    invRounds w r (shiftRows (subBytes (rounds w r state))) = shiftRows (subBytes state) := by
  induction r with
  | zero => rfl
  | succ r ih =>
    rw [invRounds, invShiftRows_shiftRows, invSubBytes_subBytes, rounds, addRoundKey_twice,
      invMixColumns_mixColumns, ih]

theorem invCipher_cipher (nr : Nat) (block : Square) :
    invCipher nr w (cipher nr w block) = block := by
  rw [invCipher, cipher, transpose_transpose, addRoundKey_twice, invRounds_rounds,
    invShiftRows_shiftRows, invSubBytes_subBytes, addRoundKey_twice, transpose_transpose]

end Rounds

/-- The inverse cipher undoes the cipher, for every key length and whatever the expanded key is. -/
theorem inv_cipher_cipher (key : Nat → UInt8) (key_len : Nat) (w : List UInt8) (block : Square) :
    invCipher (aesInit key key_len).nr (fun k => w.getD k 0)
      (cipher (aesInit key key_len).nr (fun k => w.getD k 0) block) = block :=
  invCipher_cipher _ (aesInit key key_len).nr block

end BigBox.Aes
