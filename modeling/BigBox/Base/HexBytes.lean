import BigBox.Lib.Block
import BigBox.Lib.CInt
import BigBox.Lib.Hex
import BigBox.Lib.Loop

namespace BigBox.HexBytes
open Hex Loop
set_option autoImplicit true

/-- A number that is stored in a `short`. -/
def toShort (n : Int) : Int := n.bmod 65536

/-- The element at an index. An index outside has no result. -/
def index (memory : List UInt8) (i : Int) : Option UInt8 :=
  if i < 0 then none else memory[i.toNat]?

def toupper (c : UInt8) : UInt8 := if 97 ≤ c ∧ c ≤ 122 then c - 32 else c

def toDigit (c : UInt8) : UInt8 :=
  let c := c + 0x30
  if c > 0x39 then c + 0x07 else c

def ofDigit (c : UInt8) : UInt8 := if c > 0x39 then c - 0x37 else c - 0x30

/-- One round. The index is a `short`, and the length is an `int`. -/
def byteToHexStr (source : List UInt8) (sourceLen : Int) :
    Int × List UInt8 → Option (Round (Int × List UInt8) (List UInt8))
  | (i, dest) =>
    if i < sourceLen then do
      let c ← index source i
      let dest ← Block.write dest (i * 2).toNat [toDigit (c >>> 4)]
      let dest ← Block.write dest (i * 2 + 1).toNat [toDigit (c &&& 0x0f)]
      return .next (toShort (i + 1), dest)
    else some (.done dest)

def hexStrToByte (source : List UInt8) (sourceLen : Int) :
    Int × List UInt8 → Option (Round (Int × List UInt8) (List UInt8))
  | (i, dest) =>
    if i < sourceLen then do
      let highByte ← index source i
      let lowByte ← index source (i + 1)
      let dest ← Block.write dest (i >>> (1 : Nat)).toNat
        [(ofDigit (toupper highByte) <<< 4) ||| ofDigit (toupper lowByte)]
      return .next (toShort (i + 2), dest)
    else some (.done dest)

/-- Both loops end, the first one with the digits of the bytes and the second one with the bytes.
Nothing else is written. -/
def RoundTrip (b dest out : List UInt8) : Prop :=
  Returns (byteToHexStr b b.length) (0, dest)
      (b.flatMap hexPair ++ dest.drop (2 * b.length)) ∧
    Returns (hexStrToByte (b.flatMap hexPair) (2 * b.length)) (0, out) (b ++ out.drop b.length)

section HexBytes
variable {a b dest out : List UInt8}

theorem toShort_of_lt {n : Nat} (h : n < 32768) : toShort n = n := by
  rw [toShort, Int.bmod_def]
  omega

theorem index_middle (a : List UInt8) (c : UInt8) (b : List UInt8) (h : i = a.length) :
    index (a ++ c :: b) i = some c := by
  subst h
  rw [index, if_neg (by omega), Int.toNat_natCast, List.getElem?_append_right (Nat.le_refl _),
    Nat.sub_self]
  rfl

theorem toDigit_eq (c : UInt8) : [toDigit (c >>> 4), toDigit (c &&& 0x0f)] = hexPair c := by
  revert c
  apply forall_byte
  decide +kernel

theorem ofDigit_hexPair (c : UInt8) : (ofDigit (toupper (hexDigit (c.toNat / 16))) <<< 4) |||
    ofDigit (toupper (hexDigit (c.toNat % 16))) = c := by
  revert c
  apply forall_byte
  decide +kernel

theorem length_hexPairs (b : List UInt8) : (b.flatMap hexPair).length = 2 * b.length := by
  induction b with
  | nil => rfl
  | cons c b ih =>
    rw [List.flatMap_cons, List.length_append, ih, List.length_cons, Nat.mul_succ, Nat.add_comm]
    rfl

/-- What is left of the bytes is written behind the digits of the bytes before. -/
theorem byteToHexStr_run (hlen : (a ++ b).length ≤ 32767) (hroom : 2 * b.length ≤ dest.length) :
    Returns (byteToHexStr (a ++ b) (a ++ b).length) (a.length, a.flatMap hexPair ++ dest)
      ((a ++ b).flatMap hexPair ++ dest.drop (2 * b.length)) := by
  induction b generalizing a dest with
  | nil =>
    rw [List.append_nil]
    have hround : byteToHexStr a a.length (a.length, a.flatMap hexPair ++ dest) =
        some (.done (a.flatMap hexPair ++ dest)) := if_neg (Int.lt_irrefl _)
    exact (returns_done hround).2 rfl
  | cons c b ih =>
    obtain _ | ⟨x, _ | ⟨y, dest⟩⟩ := dest
    · cases hroom
    · exact absurd hroom (by rw [List.length_cons]; simp; omega)
    · have hlt : (a.length : Int) < (a ++ c :: b).length := by
        rw [List.length_append, List.length_cons]
        omega
      have hshort : toShort ((a.length : Int) + 1) = (a ++ [c]).length := by
        rw [List.length_append] at hlen ⊢
        rw [List.length_cons] at hlen
        exact toShort_of_lt (n := a.length + 1) (by omega)
      have hhigh : Block.write (a.flatMap hexPair ++ x :: y :: dest) ((a.length : Int) * 2).toNat
          [toDigit (c >>> 4)] = some (a.flatMap hexPair ++ toDigit (c >>> 4) :: y :: dest) :=
        Block.write_cons _ _ _ _ (by rw [length_hexPairs]; omega)
      have hlow : Block.write (a.flatMap hexPair ++ toDigit (c >>> 4) :: y :: dest)
          ((a.length : Int) * 2 + 1).toNat [toDigit (c &&& 0x0f)] =
            some ((a ++ [c]).flatMap hexPair ++ dest) := by
        rw [List.flatMap_append, List.flatMap_singleton, ← toDigit_eq, List.append_assoc,
          List.cons_append, List.singleton_append, List.append_cons, List.append_cons _ _ (_ :: _)]
        have hoff : ((a.length : Int) * 2 + 1).toNat =
            (a.flatMap hexPair ++ [toDigit (c >>> 4)]).length := by
          rw [List.length_append, length_hexPairs, List.length_singleton]
          omega
        exact Block.write_cons _ _ _ _ hoff
      have hround : byteToHexStr (a ++ c :: b) (a ++ c :: b).length
          (a.length, a.flatMap hexPair ++ x :: y :: dest) =
            some (.next ((a ++ [c]).length, (a ++ [c]).flatMap hexPair ++ dest)) := by
        rw [byteToHexStr, if_pos hlt, index_middle a c b rfl, Option.bind_eq_bind,
          Option.bind_eq_bind, Option.bind_some, hhigh, Option.bind_some, hlow, Option.bind_some,
          hshort]
        rfl
      have hrest := @ih (a ++ [c]) dest (by simpa using hlen)
        (by simp only [List.length_cons] at hroom; omega)
      rw [List.append_assoc, List.singleton_append] at hrest
      exact (returns_next hround).2 hrest

/-- The digits that are left are read behind the bytes that are there. -/
theorem hexStrToByte_run (hlen : 2 * (a ++ b).length ≤ 32766) (hroom : b.length ≤ out.length) :
    Returns (hexStrToByte ((a ++ b).flatMap hexPair) (2 * (a ++ b).length))
      (2 * a.length, a ++ out) (a ++ b ++ out.drop b.length) := by
  induction b generalizing a out with
  | nil =>
    rw [List.append_nil]
    have hround : hexStrToByte (a.flatMap hexPair) (2 * a.length) (2 * a.length, a ++ out) =
        some (.done (a ++ out)) := if_neg (Int.lt_irrefl _)
    exact (returns_done hround).2 rfl
  | cons c b ih =>
    obtain _ | ⟨x, out⟩ := out
    · cases hroom
    · have hlt : 2 * (a.length : Int) < 2 * (a ++ c :: b).length := by
        rw [List.length_append, List.length_cons]
        omega
      have hshort : toShort (2 * (a.length : Int) + 2) = 2 * (a ++ [c]).length := by
        rw [List.length_append] at hlen ⊢
        rw [List.length_cons] at hlen
        exact toShort_of_lt (n := 2 * (a.length + 1)) (by omega)
      have hdigits : (a ++ c :: b).flatMap hexPair = a.flatMap hexPair ++
          hexDigit (c.toNat / 16) :: hexDigit (c.toNat % 16) :: b.flatMap hexPair := by
        rw [List.flatMap_append]
        rfl
      have hhigh : index ((a ++ c :: b).flatMap hexPair) (2 * (a.length : Int)) =
          some (hexDigit (c.toNat / 16)) := by
        rw [hdigits]
        exact index_middle _ _ _ (by rw [length_hexPairs])
      have hlow : index ((a ++ c :: b).flatMap hexPair) (2 * (a.length : Int) + 1) =
          some (hexDigit (c.toNat % 16)) := by
        rw [hdigits, List.append_cons]
        exact index_middle _ _ _ (by rw [List.length_append, length_hexPairs]; rfl)
      have hwrite : Block.write (a ++ x :: out) ((2 * (a.length : Int)) >>> (1 : Nat)).toNat [c] =
          some (a ++ [c] ++ out) := by
        rw [Int.shiftRight_eq_div_pow, List.append_assoc]
        exact Block.write_cons _ _ _ _ (by omega)
      have hround : hexStrToByte ((a ++ c :: b).flatMap hexPair) (2 * (a ++ c :: b).length)
          (2 * a.length, a ++ x :: out) =
            some (.next (2 * (a ++ [c]).length, a ++ [c] ++ out)) := by
        rw [hexStrToByte, if_pos hlt, hhigh, Option.bind_eq_bind, Option.bind_some, hlow,
          Option.bind_some, ofDigit_hexPair, Option.bind_eq_bind, hwrite, Option.bind_some, hshort]
        rfl
      have hrest := @ih (a ++ [c]) out (by simpa using hlen)
        (Nat.le_of_succ_le_succ hroom)
      rw [List.append_assoc a [c] b, List.singleton_append] at hrest
      exact (returns_next hround).2 hrest

theorem hexStrToByte_below (h : i < sourceLen) : hexStrToByte source sourceLen (i, out) = none ∨
    ∃ out', hexStrToByte source sourceLen (i, out) = some (.next (toShort (i + 2), out')) := by
  rw [hexStrToByte, if_pos h, Option.bind_eq_bind]
  cases index source i with
  | none => exact .inl rfl
  | some highByte =>
    cases index source (i + 1) with
    | none => exact .inl rfl
    | some lowByte =>
      rw [Option.bind_some, Option.bind_some, Option.bind_eq_bind]
      cases Block.write out (i >>> (1 : Nat)).toNat
          [(ofDigit (toupper highByte) <<< 4) ||| ofDigit (toupper lowByte)] with
      | none => exact .inl rfl
      | some out' => exact .inr ⟨out', rfl⟩

/-- From a length of 32767 characters on the index wraps around and the source is read before its
start. -/
theorem not_returns_hexStrToByte (hlen : 32766 < sourceLen) (hj : k + j = 16383) :
    ¬ Returns (hexStrToByte source sourceLen) (2 * (k : Nat), out) out' := by
  induction j generalizing k out with
  | zero =>
    cases hj
    have hlast : 2 * ((16383 : Nat) : Int) < sourceLen := by omega
    obtain hnone | ⟨out', hnext⟩ := @hexStrToByte_below out _ sourceLen source hlast
    · exact not_returns_of_none hnone
    · rw [returns_next hnext]
      have hshort : toShort (2 * (16383 : Nat) + 2) = -32768 := by decide
      rw [hshort]
      have hbefore : hexStrToByte source sourceLen (-32768, out') = none := by
        rw [hexStrToByte, if_pos (Int.lt_trans (by decide) hlen)]
        rfl
      exact not_returns_of_none hbefore
  | succ j ih =>
    have hk : 2 * (k : Int) < sourceLen := by omega
    obtain hnone | ⟨out', hnext⟩ := @hexStrToByte_below out _ sourceLen source hk
    · exact not_returns_of_none hnone
    · rw [returns_next hnext]
      have hshort : toShort (2 * (k : Int) + 2) = 2 * (k + 1 : Nat) :=
        toShort_of_lt (n := 2 * (k + 1)) (by omega)
      rw [hshort]
      exact ih (by omega)

theorem not_roundTrip (hlen : 16383 < b.length) : ¬ RoundTrip b dest out := by
  intro h
  exact not_returns_hexStrToByte (k := 0) (j := 16383) (by omega) rfl h.2

/-- The bytes come back as long as twice their number is one that the index reaches. -/
theorem roundTrip_iff (hdest : 2 * b.length ≤ dest.length) (hout : b.length ≤ out.length) :
    RoundTrip b dest out ↔ b.length ≤ 16383 := by
  constructor
  · intro h
    exact Nat.not_lt.1 fun hlen => not_roundTrip hlen h
  · intro hlen
    exact ⟨byteToHexStr_run (a := []) (by rw [List.nil_append]; omega) hdest,
      hexStrToByte_run (a := []) (by rw [List.nil_append]; omega) hout⟩

theorem roundTrip_iff_abc : RoundTrip [0x61, 0xbc] [0, 0, 0, 0] [0, 0] ↔ 2 ≤ 16383 :=
  roundTrip_iff (b := [0x61, 0xbc]) (by decide) (by decide)

theorem not_roundTrip_zeros : ¬ RoundTrip (List.replicate 16384 0) (List.replicate 32768 0)
    (List.replicate 16384 0) :=
  not_roundTrip (by rw [List.length_replicate]; decide)

end HexBytes

end BigBox.HexBytes
