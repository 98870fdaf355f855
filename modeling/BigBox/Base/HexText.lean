import BigBox.Lib.CInt
import BigBox.Lib.Hex
import BigBox.Lib.Numeral

namespace BigBox.HexText
open Hex Numeral
set_option autoImplicit true

def table : List UInt8 := [48, 49, 50, 51, 52, 53, 54, 55, 56, 57, 97, 98, 99, 100, 101, 102]

/-- The digits are written from the right end of `tmp`. Either the value or the array ends. -/
def dec2hexLoop : Nat → Nat → List UInt8 → Nat × List UInt8
  | 0, _, tmp => (0, tmp)
  | P + 1, value, tmp =>
    let tmp := tmp.set P (table.getD (value &&& 15) 0)
    if value >>> 4 ≠ 0 then dec2hexLoop P (value >>> 4) tmp else (P, tmp)

/-- What `strcpy` copies, and the length that is returned. -/
def dec2hex (value : UInt64) : List UInt8 × Nat :=
  let (P, tmp) := dec2hexLoop 11 value.toNat (List.replicate 12 0)
  (cString (tmp.drop P) ++ [0], (cString tmp).length)

def hex2decDigit (c : UInt8) : Option Int :=
  if 48 ≤ c ∧ c ≤ 57 then some (c.toNat - 48)
  else if 97 ≤ c ∧ c ≤ 102 then some (c.toNat - 97 + 10)
  else if 65 ≤ c ∧ c ≤ 70 then some (c.toNat - 65 + 10)
  else none

def hex2decLoop (dwhexnum : Int) : List UInt8 → Option Int
  | [] => none
  | c :: phex =>
    if c = 0 then some dwhexnum else do
      let dwhexnum ← checkedInt (dwhexnum * 16)
      let digit ← hex2decDigit c
      let dwhexnum ← checkedInt (dwhexnum + digit)
      hex2decLoop dwhexnum phex

def skip0x : List UInt8 → List UInt8
  | 48 :: x :: phex => if x = 120 ∨ x = 88 then phex else 48 :: x :: phex
  | phex => phex

/-- The number is kept in an `int`. No result is the exit or an overflow. -/
def hex2dec (phex : List UInt8) : Option UInt64 :=
  (hex2decLoop 0 (skip0x phex)).map UInt64.ofInt

theorem table_digit (h : n < 16) :
    isxdigit (table.getD n 0) = true ∧ hexValue (table.getD n 0) = n := by
  revert n
  decide

theorem hex2decDigit_eq (h : isxdigit c = true) : hex2decDigit c = some (hexValue c : Int) := by
  revert c
  apply forall_byte
  decide +kernel

theorem ne_zero_of_isxdigit (h : isxdigit c = true) : c ≠ 0 := by
  rintro rfl
  exact absurd h (by decide)

/-- What is written spells the value as far as the array goes. -/
theorem dec2hexLoop_eq (P value : Nat) (rest : List UInt8) :
    ∃ k ds, dec2hexLoop P value (List.replicate P 0 ++ rest) =
      (k, List.replicate k 0 ++ (ds ++ rest)) ∧ (∀ d ∈ ds, isxdigit d = true) ∧
        number 16 hexValue 0 ds = value % 16 ^ P := by
  induction P generalizing value rest with
  | zero => exact ⟨0, [], rfl, nofun, (Nat.mod_one value).symm⟩
  | succ P ih =>
    obtain ⟨hdigit, hvalue⟩ := table_digit (Nat.mod_lt value (by decide : 0 < 16))
    have hand : value &&& 15 = value % 16 := Nat.and_two_pow_sub_one_eq_mod value 4
    have hshift : value >>> 4 = value / 16 := Nat.shiftRight_eq_div_pow value 4
    have hset : (List.replicate (P + 1) 0 ++ rest).set P (table.getD (value % 16) 0) =
        List.replicate P 0 ++ (table.getD (value % 16) 0 :: rest) := by
      rw [List.replicate_succ', List.append_assoc, List.set_append_right _ _ (by simp)]
      simp
    rw [dec2hexLoop, hand, hshift, hset]
    split
    · obtain ⟨k, ds, hrun, hds, hnumber⟩ := ih (value / 16) (table.getD (value % 16) 0 :: rest)
      refine ⟨k, ds ++ [table.getD (value % 16) 0], ?_, ?_, ?_⟩
      · rw [hrun, List.append_assoc]
        rfl
      · intro d hd
        obtain hd | hd := List.mem_append.1 hd
        · exact hds d hd
        · rw [List.mem_singleton.1 hd]
          exact hdigit
      · rw [number_concat, hnumber, hvalue, Nat.pow_succ', Nat.mod_mul, Nat.add_comm, Nat.mul_comm]
    · next hlast =>
      have hsmall : value < 16 := by omega
      refine ⟨P, [table.getD (value % 16) 0], rfl, ?_, ?_⟩
      · intro d hd
        rw [List.mem_singleton.1 hd]
        exact hdigit
      · rw [number_cons, number_nil, hvalue, Nat.zero_mul, Nat.zero_add, Nat.mod_eq_of_lt hsmall,
          Nat.mod_eq_of_lt (Nat.lt_of_lt_of_le hsmall (Nat.le_self_pow (Nat.succ_ne_zero P) 16))]

theorem zero_not_mem {ds : List UInt8} (h : ∀ d ∈ ds, isxdigit d = true) : (0 : UInt8) ∉ ds :=
  fun hmem => ne_zero_of_isxdigit (h 0 hmem) rfl

theorem dec2hex_text (value : UInt64) :
    ∃ ds : List UInt8, (dec2hex value).1 = ds ++ [0] ∧ (∀ d ∈ ds, isxdigit d = true) ∧
      number 16 hexValue 0 ds = value.toNat % 16 ^ 11 := by
  obtain ⟨k, ds, hrun, hds, hnumber⟩ := dec2hexLoop_eq 11 value.toNat [0]
  refine ⟨ds, ?_, hds, hnumber⟩
  have hstart : List.replicate 12 (0 : UInt8) = List.replicate 11 0 ++ [0] := rfl
  have hdrop : (List.replicate k (0 : UInt8) ++ (ds ++ [0])).drop k = ds ++ [0] := by
    rw [List.drop_append_of_le_length (by simp)]
    simp
  rw [dec2hex, hstart, hrun]
  dsimp only
  rw [hdrop, cString_append (zero_not_mem hds), cString_cons, if_pos rfl, List.append_nil]

/-- Digits are read as long as their number is one of an `int`. -/
theorem hex2decLoop_eq {n : Nat} {ds : List UInt8} (hds : ∀ d ∈ ds, isxdigit d = true)
    (hn : n < 2147483648) :
    hex2decLoop n (ds ++ [0]) = checkedInt (number 16 hexValue n ds : Nat) := by
  induction ds generalizing n with
  | nil => exact (checkedInt_of_lt (by omega) (by omega)).symm
  | cons c ds ih =>
    have hc := hds c List.mem_cons_self
    rw [List.cons_append, hex2decLoop, if_neg (ne_zero_of_isxdigit hc), hex2decDigit_eq hc,
      number_cons]
    by_cases hfit : n * 16 + hexValue c < 2147483648
    · have hmul : checkedInt ((n : Int) * 16) = some ((n : Int) * 16) :=
        checkedInt_of_lt (by omega) (by omega)
      have hadd : checkedInt ((n : Int) * 16 + (hexValue c : Int)) =
          some (((n * 16 + hexValue c : Nat) : Int)) :=
        checkedInt_of_lt (by omega) (by omega)
      rw [hmul, Option.bind_eq_bind, Option.bind_some, Option.bind_some, hadd, Option.bind_some]
      exact ih (fun d hd => hds d (List.mem_cons_of_mem c hd)) hfit
    · have hle : n * 16 + hexValue c ≤ number 16 hexValue (n * 16 + hexValue c) ds :=
        le_number (by decide)
      have hmore : checkedInt (number 16 hexValue (n * 16 + hexValue c) ds : Nat) = none :=
        if_neg (by omega)
      rw [hmore]
      have hadd : checkedInt ((n : Int) * 16 + (hexValue c : Int)) = none := if_neg (by omega)
      cases hmul : checkedInt ((n : Int) * 16) with
      | none => rfl
      | some k =>
        have hk : k = (n : Int) * 16 := by
          unfold checkedInt at hmul
          split at hmul
          · exact (Option.some.inj hmul).symm
          · cases hmul
        rw [Option.bind_eq_bind, Option.bind_some, Option.bind_some, hk, hadd]
        rfl

/-- Digits are not taken for a prefix. -/
theorem skip0x_digits {ds : List UInt8} (hds : ∀ d ∈ ds, isxdigit d = true) :
    skip0x (ds ++ [0]) = ds ++ [0] := by
  cases ds with
  | nil => rfl
  | cons d ds =>
    cases ds with
    | nil =>
      unfold skip0x
      split
      · next heq =>
        cases heq
        exact if_neg (by decide)
      · rfl
    | cons e ds =>
      have he := hds e (List.mem_cons_of_mem d List.mem_cons_self)
      have hx : ¬ (e = 120 ∨ e = 88) := by
        rintro (rfl | rfl)
        · exact absurd he (by decide)
        · exact absurd he (by decide)
      unfold skip0x
      split
      · next heq =>
        cases heq
        exact if_neg hx
      · rfl

theorem hex2dec_eq {ds : List UInt8} (hds : ∀ d ∈ ds, isxdigit d = true) :
    hex2dec (ds ++ [0]) = (checkedInt (number 16 hexValue 0 ds : Nat)).map UInt64.ofInt := by
  rw [hex2dec, skip0x_digits hds]
  exact congrArg (Option.map UInt64.ofInt) (hex2decLoop_eq hds (Nat.zero_lt_succ _))

/-- A value is read back where an `int` holds it. -/
theorem hex2dec_dec2hex_iff (v : UInt64) :
    hex2dec (dec2hex v).1 = some v ↔ v.toNat < 2147483648 := by
  obtain ⟨ds, htext, hds, hnumber⟩ := dec2hex_text v
  rw [htext, hex2dec_eq hds, hnumber]
  have hle : v.toNat % 16 ^ 11 ≤ v.toNat := Nat.mod_le _ _
  by_cases hfit : v.toNat % 16 ^ 11 < 2147483648
  · have hread : checkedInt ((v.toNat % 16 ^ 11 : Nat) : Int) =
        some ((v.toNat % 16 ^ 11 : Nat) : Int) :=
      checkedInt_of_lt (by omega) (by omega)
    have hmod : ((((v.toNat % 16 ^ 11 : Nat) : Int)) % 2 ^ 64).toNat = v.toNat % 16 ^ 11 := by
      omega
    have hback : (v.toNat % 16 ^ 11) % 2 ^ 64 = v.toNat % 16 ^ 11 :=
      Nat.mod_eq_of_lt (by omega)
    rw [hread, Option.map_some, Option.some_inj, ← UInt64.toNat_inj, UInt64.ofInt, hmod,
      UInt64.toNat_ofNat', hback]
    constructor
    · intro heq
      rw [← heq]
      exact hfit
    · intro hlt
      exact Nat.mod_eq_of_lt (Nat.lt_of_lt_of_le hlt (by decide))
  · have hread : checkedInt ((v.toNat % 16 ^ 11 : Nat) : Int) = none := if_neg (by omega)
    rw [hread]
    exact iff_of_false nofun (by omega)

theorem not_hex2dec_dec2hex : ¬ ∀ v : UInt64, hex2dec (dec2hex v).1 = some v := by
  intro h
  exact absurd (h 2147483648) (by decide +kernel)

end BigBox.HexText
