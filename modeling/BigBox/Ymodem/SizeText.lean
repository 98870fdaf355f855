import BigBox.Lib.CInt
import BigBox.Lib.Numeral
import BigBox.Ymodem.Receive
import Mathlib.Data.List.TakeWhile
import Mathlib.Data.Nat.Log
import Mathlib.Tactic.Ring

namespace BigBox.Ymodem
open Numeral
set_option autoImplicit true

/-- The lower digits of a number. -/
def decimal : Nat → Nat → List UInt8
  | 0, _ => []
  | k + 1, n => UInt8.ofNat (n / 10 ^ k + 48) :: decimal k (n % 10 ^ k)

def decValue (c : UInt8) : Nat := c.toNat - 48

section Int2Str

theorem length_decimal (k n : Nat) : (decimal k n).length = k := by
  induction k generalizing n with
  | zero => rfl
  | succ k ih => exact congrArg Nat.succ (ih _)

theorem decimal_digit (h : n < 10 ^ (k + 1)) : n / 10 ^ k ≤ 9 :=
  Nat.le_of_lt_succ ((Nat.div_lt_iff_lt_mul (Nat.pow_pos (by decide))).2 (by
    rwa [Nat.pow_succ, Nat.mul_comm] at h))

theorem digit_eq (intnum div : UInt32) :
    (intnum / div + 48).toUInt8 = UInt8.ofNat (intnum.toNat / div.toNat + 48) := by
  rw [← UInt8.toNat_inj, UInt32.toNat_toUInt8, UInt32.toNat_add, UInt32.toNat_div,
    UInt8.toNat_ofNat']
  change (intnum.toNat / div.toNat + 48) % 4294967296 % 256 = _
  omega

theorem digit_ne_zero (hpos : 1 ≤ d) (h : d ≤ 9) : UInt8.ofNat (d + 48) ≠ 48 := by
  intro heq
  rw [← UInt8.toNat_inj, UInt8.toNat_ofNat'] at heq
  change (d + 48) % 256 = 48 at heq
  omega

theorem copyAt_left (a b : List α) (c : α) :
    copyAt (a ++ b) a.length [c] = a ++ [c] ++ b.drop 1 := by
  rw [copyAt, List.take_left, List.drop_append, List.drop_of_length_le (Nat.le_add_right _ _),
    List.nil_append, List.length_singleton, Nat.add_sub_cancel_left]

theorem ten_pow_div (k : Nat) : 10 ^ (k + 1) / 10 = 10 ^ k := by
  rw [Nat.pow_succ, Nat.mul_div_cancel _ (by decide)]

/-- Behind the first digit that is not zero every digit is kept. -/
theorem int2StrRounds_kept (intnum div : UInt32) (hdiv : div.toNat = 10 ^ k / 10)
    (hpos : status ≠ 0) (done rest : List UInt8) :
    int2StrRounds k (done ++ rest) intnum div done.length status =
      done ++ (decimal k intnum.toNat ++ rest.drop k) := by
  induction k generalizing intnum div status done rest with
  | zero => rfl
  | succ k ih =>
    rw [ten_pow_div] at hdiv
    have hrest := ih (intnum % div) (div / 10)
      (by rw [UInt32.toNat_div, hdiv]; rfl) (Nat.succ_ne_zero status)
      (done ++ [UInt8.ofNat (intnum.toNat / 10 ^ k + 48)]) (rest.drop 1)
    rw [int2StrRounds, digit_eq, hdiv, copyAt_left]
    rw [if_neg (fun h => hpos h.2)]
    rw [List.length_append, UInt32.toNat_mod, hdiv, List.drop_drop, Nat.add_comm 1 k] at hrest
    exact hrest.trans (List.append_assoc _ _ _)

/-- As long as all digits are zero the first place is written. -/
theorem int2StrRounds_first {intnum div : UInt32} (hdiv : div.toNat = 10 ^ k / 10) (hk : k ≠ 0)
    (hnum : intnum.toNat < 10 ^ k) (str : List UInt8) :
    int2StrRounds k str intnum div 0 0 = decimal (Nat.log 10 intnum.toNat + 1) intnum.toNat ++
      str.drop (Nat.log 10 intnum.toNat + 1) := by
  induction k generalizing intnum div str with
  | zero => exact absurd rfl hk
  | succ k ih =>
    rw [ten_pow_div] at hdiv
    have hnext : (div / 10).toNat = 10 ^ k / 10 := by
      rw [UInt32.toNat_div, hdiv]
      rfl
    rw [int2StrRounds, digit_eq, hdiv, copyAt_zero]
    by_cases hsmall : intnum.toNat < 10 ^ k
    · have hmod : (intnum % div).toNat = intnum.toNat := by
        rw [UInt32.toNat_mod, hdiv, Nat.mod_eq_of_lt hsmall]
      rw [Nat.div_eq_of_lt hsmall, if_pos ⟨rfl, rfl⟩]
      cases k with
      | zero =>
        rw [Nat.lt_one_iff.1 hsmall]
        rfl
      | succ k =>
        rw [ih hnext (Nat.succ_ne_zero k) (hmod ▸ hsmall), hmod, List.singleton_append,
          List.drop_succ_cons, List.drop_drop, Nat.add_comm]
        rfl
    · have hge : 10 ^ k ≤ intnum.toNat := Nat.not_lt.1 hsmall
      have hlog : Nat.log 10 intnum.toNat = k := Nat.log_eq_of_pow_le_of_lt_pow hge hnum
      have hdigit : UInt8.ofNat (intnum.toNat / 10 ^ k + 48) ≠ 48 :=
        digit_ne_zero (Nat.div_pos hge (Nat.pow_pos (by decide))) (decimal_digit hnum)
      have hkept := int2StrRounds_kept (intnum % div) _ hnext Nat.one_ne_zero
        [UInt8.ofNat (intnum.toNat / 10 ^ k + 48)] (str.drop 1)
      rw [UInt32.toNat_mod, hdiv, List.drop_drop, Nat.add_comm 1 k] at hkept
      rw [if_neg (fun h => hdigit h.1), hlog]
      exact hkept

/-- The digits of a number stand at the start, and the rest is what it was. -/
theorem int2Str_eq (str : List UInt8) (n : UInt32) :
    int2Str str n = decimal (Nat.log 10 n.toNat + 1) n.toNat ++
      str.drop (Nat.log 10 n.toNat + 1) :=
  int2StrRounds_first rfl (by decide) (Nat.lt_trans n.toNat_lt (by decide)) str

end Int2Str

/-- What ends a decimal number, with the bits that the number is shifted by. -/
def endShift (c : UInt8) : Option Nat :=
  if c = 0 then some 0
  else if c = 0x6B ∨ c = 0x4B then some 10
  else if c = 0x6D ∨ c = 0x4D then some 20
  else none

/-- The digits `es` and what ends them bring the number `n` to `w`. -/
def DecimalEnd (n : Nat) (es : List UInt8) (c : UInt8) (w : Nat) : Prop :=
  (∀ e ∈ es, isValidDec e = true) ∧
    ∃ s, endShift c = some s ∧ number 10 decValue n es * 2 ^ s % 2 ^ 32 = w

section Str2Int
variable {val : UInt32} {str es : List UInt8}

theorem isValidDec_iff (c : UInt8) :
    isValidDec c = true → endShift c = none ∧ c ≠ 0 ∧ c ≠ 32 ∧ decValue c < 10 ∧
      (c - 0x30).toNat = decValue c := by
  revert c
  apply forall_byte
  decide +kernel

theorem str2IntDec_digit (h : isValidDec c = true) (r : Nat) (first : Bool) (str : List UInt8)
    (val : UInt32) : str2IntDec (r + 1) first (c :: str) val =
      str2IntDec r false str (val * 10 + (c - 0x30).toUInt32) := by
  have hend := (isValidDec_iff c h).1
  unfold endShift at hend
  split at hend
  · cases hend
  · next hzero =>
    split at hend
    · cases hend
    · next hk =>
      split at hend
      · cases hend
      · next hm =>
        rw [str2IntDec, if_neg hzero, if_neg (fun h => hk h.1), if_neg (fun h => hm h.1), if_pos h]

theorem toNat_digit (h : isValidDec c = true) (val : UInt32) :
    (val * 10 + (c - 0x30).toUInt32).toNat = (val.toNat * 10 + decValue c) % 2 ^ 32 := by
  rw [UInt32.toNat_add, UInt32.toNat_mul, UInt8.toNat_toUInt32, (isValidDec_iff c h).2.2.2.2,
    Nat.mod_add_mod]
  rfl

theorem str2IntDec_end (h : endShift c = some s) (r : Nat) (str : List UInt8) (val : UInt32) :
    ∃ w, str2IntDec (r + 1) false (c :: str) val = some w ∧
      w.toNat = val.toNat * 2 ^ s % 2 ^ 32 := by
  unfold endShift at h
  split at h
  · next hzero =>
    cases h
    exact ⟨val, by rw [str2IntDec, if_pos hzero],
      by rw [Nat.pow_zero, Nat.mul_one, Nat.mod_eq_of_lt val.toNat_lt]⟩
  · next hzero =>
    split at h
    · next hk =>
      cases h
      refine ⟨val <<< 10, by rw [str2IntDec, if_neg hzero, if_pos ⟨hk, rfl⟩], ?_⟩
      rw [UInt32.toNat_shiftLeft, Nat.shiftLeft_eq]
      rfl
    · next hk =>
      split at h
      · next hm =>
        cases h
        refine ⟨val <<< 20, by rw [str2IntDec, if_neg hzero, if_neg (fun h => hk h.1),
          if_pos ⟨hm, rfl⟩], ?_⟩
        rw [UInt32.toNat_shiftLeft, Nat.shiftLeft_eq]
        rfl
      · cases h

theorem str2IntDec_other (h : endShift c = none) (hc : isValidDec c = false) (r : Nat)
    (first : Bool) (str : List UInt8) (val : UInt32) :
    str2IntDec (r + 1) first (c :: str) val = none := by
  unfold endShift at h
  split at h
  · cases h
  · next hzero =>
    split at h
    · cases h
    · next hk =>
      split at h
      · cases h
      · next hm =>
        rw [str2IntDec, if_neg hzero, if_neg (fun h => hk h.1), if_neg (fun h => hm h.1), hc]
        rfl

theorem decimalEnd_mod (n : Nat) (es : List UInt8) (c : UInt8) (w : Nat) :
    DecimalEnd (n % 2 ^ 32) es c w ↔ DecimalEnd n es c w := by
  have hmod : ∀ s, number 10 decValue (n % 2 ^ 32) es * 2 ^ s % 2 ^ 32 =
      number 10 decValue n es * 2 ^ s % 2 ^ 32 := by
    intro s
    rw [Nat.mul_mod, number_mod (Nat.mod_mod n (2 ^ 32)), ← Nat.mul_mod]
  unfold DecimalEnd
  simp only [hmod]

theorem decimalEnd_cons (hc : isValidDec c = true) (n : Nat) (es : List UInt8) (d : UInt8)
    (w : Nat) : DecimalEnd n (c :: es) d w ↔ DecimalEnd (n * 10 + decValue c) es d w := by
  constructor
  · rintro ⟨hes, hend⟩
    exact ⟨fun e he => hes e (List.mem_cons_of_mem c he), hend⟩
  · rintro ⟨hes, hend⟩
    refine ⟨fun e he => ?_, hend⟩
    obtain rfl | he := List.mem_cons.1 he
    · exact hc
    · exact hes e he

/-- The digits of a number are read, and what ends them settles the rest. -/
theorem str2IntDec_iff (r : Nat) (str : List UInt8) (val w : UInt32) :
    str2IntDec r false str val = some w ↔
      ∃ es c rest, str = es ++ c :: rest ∧ es.length < r ∧
        DecimalEnd val.toNat es c w.toNat := by
  induction r generalizing str val with
  | zero => exact iff_of_false nofun fun ⟨_, _, _, _, hlt, _⟩ => absurd hlt (Nat.not_lt_zero _)
  | succ r ih =>
    cases str with
    | nil =>
      refine iff_of_false nofun ?_
      rintro ⟨es, c, rest, heq, _⟩
      exact absurd heq.symm (List.append_ne_nil_of_right_ne_nil es (List.cons_ne_nil c rest))
    | cons c str =>
      cases hc : isValidDec c with
      | true =>
        rw [str2IntDec_digit hc, ih, toNat_digit hc]
        constructor
        · rintro ⟨es, d, rest, rfl, hlt, hend⟩
          rw [decimalEnd_mod, ← decimalEnd_cons hc] at hend
          exact ⟨c :: es, d, rest, rfl, Nat.succ_lt_succ hlt, hend⟩
        · rintro ⟨es, d, rest, heq, hlt, hend⟩
          cases es with
          | nil =>
            cases heq
            obtain ⟨_, s, hs, _⟩ := hend
            rw [(isValidDec_iff c hc).1] at hs
            cases hs
          | cons e es =>
            cases heq
            rw [decimalEnd_cons hc, ← decimalEnd_mod] at hend
            exact ⟨es, d, rest, rfl, Nat.lt_of_succ_lt_succ hlt, hend⟩
      | false =>
        have hnil : ∀ {es d rest}, c :: str = es ++ d :: rest → DecimalEnd val.toNat es d w.toNat →
            es = [] ∧ c = d := by
          intro es d rest heq hend
          cases es with
          | nil =>
            cases heq
            exact ⟨rfl, rfl⟩
          | cons e es =>
            cases heq
            have he := hend.1 c List.mem_cons_self
            rw [hc] at he
            cases he
        cases hend : endShift c with
        | none =>
          rw [str2IntDec_other hend hc]
          refine iff_of_false nofun ?_
          rintro ⟨es, d, rest, heq, _, h⟩
          obtain ⟨rfl, rfl⟩ := hnil heq h
          obtain ⟨_, s, hs, _⟩ := h
          rw [hend] at hs
          cases hs
        | some s =>
          obtain ⟨w', hread, hw'⟩ := str2IntDec_end hend r str val
          rw [hread]
          constructor
          · intro h
            cases h
            exact ⟨[], c, str, rfl, Nat.succ_pos r, nofun, s, hend, hw'.symm⟩
          · rintro ⟨es, d, rest, heq, _, h⟩
            obtain ⟨rfl, rfl⟩ := hnil heq h
            obtain ⟨_, s', hs', hw⟩ := h
            rw [hend] at hs'
            cases hs'
            rw [← UInt32.toNat_inj.1 (hw'.trans hw)]

theorem isValidDec_digit : ∀ d ≤ 9, isValidDec (UInt8.ofNat (d + 48)) = true ∧
    decValue (UInt8.ofNat (d + 48)) = d := by
  decide

theorem decimal_digits (h : n < 10 ^ k) : ∀ e ∈ decimal k n, isValidDec e = true := by
  induction k generalizing n with
  | zero => nofun
  | succ k ih =>
    intro e he
    obtain rfl | he := List.mem_cons.1 he
    · exact (isValidDec_digit _ (decimal_digit h)).1
    · exact ih (Nat.mod_lt _ (Nat.pow_pos (by decide))) e he

theorem number_decimal (h : n < 10 ^ k) (a : Nat) :
    number 10 decValue a (decimal k n) = a * 10 ^ k + n := by
  induction k generalizing a n with
  | zero => rw [Nat.lt_one_iff.1 h, Nat.pow_zero, Nat.mul_one, Nat.add_zero]; rfl
  | succ k ih =>
    rw [decimal, number_cons, (isValidDec_digit _ (decimal_digit h)).2,
      ih (Nat.mod_lt _ (Nat.pow_pos (by decide)))]
    calc
      (a * 10 + n / 10 ^ k) * 10 ^ k + n % 10 ^ k =
          a * (10 ^ k * 10) + (10 ^ k * (n / 10 ^ k) + n % 10 ^ k) := by ring
      _ = a * 10 ^ (k + 1) + n := by rw [Nat.div_add_mod, ← Nat.pow_succ]

theorem str2IntDec_digits (hes : ∀ e ∈ es, isValidDec e = true) (hne : es ≠ []) (r : Nat)
    (first : Bool) (str : List UInt8) (val : UInt32) :
    ∃ w, str2IntDec (es.length + r) first (es ++ str) val = str2IntDec r false str w ∧
      w.toNat = number 10 decValue val.toNat es % 2 ^ 32 := by
  induction es generalizing first val with
  | nil => exact absurd rfl hne
  | cons e es ih =>
    have he := hes e List.mem_cons_self
    rw [List.length_cons, Nat.add_right_comm, List.cons_append, str2IntDec_digit he, number_cons]
    cases es with
    | nil =>
      rw [List.length_nil, Nat.zero_add]
      exact ⟨_, rfl, toNat_digit he val⟩
    | cons e' es =>
      obtain ⟨w, hread, hw⟩ := ih (fun d hd => hes d (List.mem_cons_of_mem e hd))
        (List.cons_ne_nil e' es) false (val * 10 + (e - 0x30).toUInt32)
      refine ⟨w, hread, hw.trans ?_⟩
      rw [toNat_digit he]
      exact number_mod (Nat.mod_mod _ _)

theorem convertHex_zero_iff (c : UInt8) : isAF c ∨ isaf c ∨ isValidDec c →
    (convertHex c).toNat < 16 ∧ (convertHex c = 0 → c = 48) := by
  revert c
  apply forall_byte
  decide +kernel

/-- A number that is not zero stays so, as the digits that are left do not shift it out. -/
theorem str2IntHex_ne_zero (hr : r + m = 9) (hpos : val ≠ 0) (hval : val.toNat < 16 ^ m) :
    str2IntHex r str val ≠ some 0 := by
  induction r generalizing m str val with
  | zero => exact nofun
  | succ r ih =>
    cases str with
    | nil => exact nofun
    | cons c str =>
      rw [str2IntHex]
      split
      · intro h
        exact hpos (Option.some.inj h)
      · split
        · next hc =>
          obtain ⟨hlt, _⟩ := convertHex_zero_iff c hc
          cases r with
          | zero => exact nofun
          | succ r =>
            have hm : m ≤ 7 := by omega
            have hpow : 16 ^ m ≤ 16 ^ 7 := Nat.pow_le_pow_right (by decide) hm
            have hnext : ((val <<< 4) + convertHex c).toNat =
                val.toNat * 16 + (convertHex c).toNat := by
              rw [UInt32.toNat_add, UInt32.toNat_shiftLeft, Nat.shiftLeft_eq, Nat.mod_add_mod]
              exact Nat.mod_eq_of_lt (by change val.toNat * 16 + _ < _; omega)
            apply ih (m := m + 1) (by omega)
            · intro hzero
              rw [hzero] at hnext
              have hval0 : val.toNat = 0 := by
                have h0 : (0 : UInt32).toNat = 0 := rfl
                omega
              exact hpos (UInt32.toNat_inj.1 hval0)
            · rw [hnext, Nat.pow_succ]
              omega
        · exact nofun

theorem str2IntHex_zero_iff (hr : r ≤ 9) (str : List UInt8) : str2IntHex r str 0 = some 0 ↔
    ∃ k rest, str = List.replicate k 48 ++ 0 :: rest ∧ k < r := by
  induction r generalizing str with
  | zero => exact iff_of_false nofun fun ⟨_, _, _, hlt⟩ => absurd hlt (Nat.not_lt_zero _)
  | succ r ih =>
    cases str with
    | nil =>
      refine iff_of_false nofun ?_
      rintro ⟨k, rest, heq, _⟩
      exact absurd heq.symm (List.append_ne_nil_of_right_ne_nil _ (List.cons_ne_nil 0 rest))
    | cons c str =>
      rw [str2IntHex]
      by_cases hzero : c = 0
      · subst hzero
        exact iff_of_true (if_pos rfl) ⟨0, str, rfl, Nat.succ_pos r⟩
      rw [if_neg hzero]
      by_cases hdigit : c = 48
      · subst hdigit
        rw [if_pos (by decide)]
        have hval : ((0 : UInt32) <<< 4) + convertHex 48 = 0 := by decide
        rw [hval, ih (Nat.le_of_succ_le hr)]
        constructor
        · rintro ⟨k, rest, rfl, hlt⟩
          exact ⟨k + 1, rest, rfl, Nat.succ_lt_succ hlt⟩
        · rintro ⟨k, rest, heq, hlt⟩
          cases k with
          | zero => cases heq
          | succ k =>
            cases heq
            exact ⟨k, rest, rfl, Nat.lt_of_succ_lt_succ hlt⟩
      · refine iff_of_false ?_ ?_
        · split
          · next hc =>
            obtain ⟨hlt, hne⟩ := convertHex_zero_iff c hc
            have hval : ((0 : UInt32) <<< 4) + convertHex c = convertHex c := UInt32.zero_add _
            rw [hval]
            refine str2IntHex_ne_zero (m := 9 - r) (by omega) (fun h => hdigit (hne h)) ?_
            exact Nat.lt_of_lt_of_le hlt (Nat.le_self_pow (by omega) 16)
          · exact nofun
        · rintro ⟨k, rest, heq, _⟩
          cases k with
          | zero => exact hzero (List.cons.inj heq).1
          | succ k => exact hdigit (List.cons.inj heq).1

theorem str2Int_dec (h : ∀ x t, str = 0x30 :: x :: t → ¬ (x = 0x78 ∨ x = 0x58)) :
    str2Int str = str2IntDec 11 true str 0 := by
  unfold str2Int
  split
  · next x t => exact if_neg (h x t rfl)
  · rfl

end Str2Int

/-- What stands behind the digits of a number ends it, and changes nothing. -/
def ReadsBack (n : Nat) (tail : List UInt8) : Prop :=
  (∃ es c rest, tail = es ++ c :: rest ∧ Nat.log 10 n + 1 + es.length ≤ 10 ∧
      DecimalEnd n es c n) ∨
    n = 0 ∧ ∃ x k rest, tail = x :: (List.replicate k 48 ++ 0 :: rest) ∧ (x = 0x78 ∨ x = 0x58) ∧
      1 ≤ k ∧ k ≤ 8

section ReadsBack

/-- The characters that start a hexadecimal number end no decimal one. -/
theorem not_decimalEnd_hex (hx : x = 0x78 ∨ x = 0x58)
    (heq : x :: t = es ++ c :: rest) : ¬ DecimalEnd m es c w := by
  rintro ⟨hes, s, hs, _⟩
  cases es with
  | nil =>
    cases heq
    rcases hx with rfl | rfl
    · cases hs
    · cases hs
  | cons e es =>
    cases heq
    have he := hes x List.mem_cons_self
    rcases hx with rfl | rfl
    · exact absurd he (by decide)
    · exact absurd he (by decide)

theorem zero_readsBack_iff (tail : List UInt8) : str2Int (48 :: tail) = some 0 ↔
    ReadsBack 0 tail := by
  by_cases hhex : ∃ x t, tail = x :: t ∧ (x = 0x78 ∨ x = 0x58)
  · obtain ⟨x, t, rfl, hx⟩ := hhex
    rw [str2Int, if_pos hx]
    constructor
    · intro h
      refine .inr ⟨rfl, ?_⟩
      split at h
      · cases h
      · next hne =>
        obtain ⟨k, rest, rfl, hk⟩ := (str2IntHex_zero_iff (Nat.le_refl 9) t).1 h
        refine ⟨x, k, rest, rfl, hx, Nat.pos_of_ne_zero ?_, Nat.le_of_lt_succ hk⟩
        rintro rfl
        exact hne rfl
    · rintro (⟨es, c, rest, heq, _, hend⟩ | ⟨_, y, k, rest, heq, _, hpos, hk⟩)
      · exact absurd hend (not_decimalEnd_hex hx heq)
      · cases heq
        obtain _ | k := k
        · cases hpos
        · have hhead : (List.replicate (k + 1) (48 : UInt8) ++ 0 :: rest).head? ≠ some 0 :=
            fun h => absurd (Option.some.inj h) (by decide)
          rw [if_neg hhead]
          exact (str2IntHex_zero_iff (Nat.le_refl 9) _).2 ⟨k + 1, rest, rfl, Nat.lt_succ_of_le hk⟩
  · have hdec : str2Int (48 :: tail) = str2IntDec 11 true (48 :: tail) 0 := by
      apply str2Int_dec
      intro x t heq hx
      exact hhex ⟨x, t, (List.cons.inj heq).2, hx⟩
    rw [hdec, str2IntDec_digit (by decide), str2IntDec_iff]
    constructor
    · rintro ⟨es, c, rest, heq, hlt, hend⟩
      refine .inl ⟨es, c, rest, heq, ?_, hend⟩
      rw [Nat.log_zero_right]
      omega
    · rintro (⟨es, c, rest, heq, hlt, hend⟩ | ⟨_, x, k, rest, heq, hx, _⟩)
      · rw [Nat.log_zero_right] at hlt
        exact ⟨es, c, rest, heq, by omega, hend⟩
      · exact absurd ⟨x, _, heq, hx⟩ hhex

theorem str2Int_int2Str_iff (str : List UInt8) (n : UInt32) : str2Int (int2Str str n) = some n ↔
    ReadsBack n.toNat (str.drop (Nat.log 10 n.toNat + 1)) := by
  rw [int2Str_eq]
  by_cases hn : n = 0
  · subst hn
    exact zero_readsBack_iff _
  have hpos : n.toNat ≠ 0 := fun h => hn (UInt32.toNat_inj.1 h)
  have hlt : n.toNat < 10 ^ (Nat.log 10 n.toNat + 1) := Nat.lt_pow_succ_log_self (by decide) _
  have hlog : Nat.log 10 n.toNat < 10 :=
    Nat.log_lt_of_lt_pow hpos (Nat.lt_trans n.toNat_lt (by decide))
  generalize hL : Nat.log 10 n.toNat = L at *
  have hdec : str2Int (decimal (L + 1) n.toNat ++ str.drop (L + 1)) =
      str2IntDec 11 true (decimal (L + 1) n.toNat ++ str.drop (L + 1)) 0 := by
    apply str2Int_dec
    intro x t heq _
    have hfirst : UInt8.ofNat (n.toNat / 10 ^ L + 48) ≠ 48 := by
      have hle : 10 ^ L ≤ n.toNat := hL ▸ Nat.pow_log_le_self 10 hpos
      exact digit_ne_zero (Nat.div_pos hle (Nat.pow_pos (by decide))) (decimal_digit hlt)
    exact hfirst (List.cons.inj heq).1
  obtain ⟨w, hread, hw⟩ := str2IntDec_digits (decimal_digits hlt) (List.cons_ne_nil _ _) (10 - L)
    true (str.drop (L + 1)) 0
  have hwn : w = n := by
    rw [← UInt32.toNat_inj, hw, number_decimal hlt]
    change (0 * _ + _) % _ = _
    rw [Nat.zero_mul, Nat.zero_add]
    exact Nat.mod_eq_of_lt n.toNat_lt
  rw [length_decimal, show L + 1 + (10 - L) = 11 by omega] at hread
  rw [hdec, hread, hwn, str2IntDec_iff, ReadsBack, hL]
  constructor
  · rintro ⟨es, c, rest, heq, hes, hend⟩
    exact .inl ⟨es, c, rest, heq, by omega, hend⟩
  · rintro (⟨es, c, rest, heq, hes, hend⟩ | ⟨hzero, _⟩)
    · exact ⟨es, c, rest, heq, by omega, hend⟩
    · exact absurd hzero hpos

/-- Only so much is read, and it has no zero and no blank before its last character. -/
theorem ReadsBack.front {n : Nat} (h : ReadsBack n tail) : ∃ u c rest, tail = u ++ c :: rest ∧
    Nat.log 10 n + 1 + u.length ≤ 10 ∧ (∀ e ∈ u, e ≠ 0 ∧ e ≠ 32) ∧ c ≠ 32 ∧
      ∀ rest, ReadsBack n (u ++ c :: rest) := by
  obtain ⟨es, c, rest, rfl, hlen, hend⟩ | ⟨rfl, x, k, rest, rfl, hx, hpos, hk⟩ := h
  · refine ⟨es, c, rest, rfl, hlen, fun e he => ?_, ?_, fun rest => .inl
      ⟨es, c, rest, rfl, hlen, hend⟩⟩
    · obtain ⟨_, hzero, hblank, _⟩ := isValidDec_iff e (hend.1 e he)
      exact ⟨hzero, hblank⟩
    · rintro rfl
      obtain ⟨_, s, hs, _⟩ := hend
      cases hs
  · refine ⟨x :: List.replicate k 48, 0, rest, rfl, ?_, fun e he => ?_, by decide,
      fun rest => .inr ⟨rfl, x, k, rest, rfl, hx, hpos, hk⟩⟩
    · rw [Nat.log_zero_right, List.length_cons, List.length_replicate]
      omega
    · obtain rfl | he := List.mem_cons.1 he
      · rcases hx with rfl | rfl
        · decide
        · decide
      · rw [List.eq_of_mem_replicate he]
        decide

end ReadsBack

/-- The name and the size as the sender writes them into the header packet. -/
def nameText (fileName : List UInt8) : List UInt8 :=
  (fileName.take FILE_NAME_LENGTH).takeWhile (· ≠ 0)

def sizeText (str : List UInt8) (n : UInt32) : List UInt8 := (int2Str str n).takeWhile (· ≠ 0)

/-- The text of a number is read back, also by a receiver from a header packet that holds the name
and the text. `str` is what the array of the digits held before. -/
def SizeReadBack (str : List UInt8) (n : UInt32) : Prop :=
  str2Int (int2Str str n) = some n ∧
    ∀ fileName data packetData,
      (nameText fileName).length + 1 + (sizeText str n).length < PACKET_128B_SIZE →
      (∀ i < PACKET_HEADER + PACKET_128B_SIZE,
        packetData i = (ymodemPrepareIntialPacket str data fileName n).getD i 0) →
      str2Int (fileSize packetData) = some n

section SizeReadBack

theorem scan_append {data : Nat → UInt8} {text : List UInt8} (hstop : stop ∉ text)
    (hdata : ∀ i < text.length, data (p + i) = text.getD i 0) (m : Nat) :
    scan stop (text.length + m) data p = text ++ scan stop m data (p + text.length) := by
  induction text generalizing p with
  | nil => rw [List.length_nil, Nat.zero_add]; rfl
  | cons c text ih =>
    have hc : data p = c := hdata 0 (Nat.succ_pos _)
    have hne : c ≠ stop := by
      rintro rfl
      exact hstop List.mem_cons_self
    have hrest := ih (p := p + 1) (fun hmem => hstop (List.mem_cons_of_mem c hmem)) (fun i hi => by
      rw [Nat.add_right_comm]
      exact hdata (i + 1) (Nat.succ_lt_succ hi))
    rw [List.length_cons, Nat.add_right_comm, scan, hc, if_neg hne, hrest, List.cons_append,
      Nat.add_right_comm]
    rfl

theorem getD_middle (a b c : List UInt8) (hi : i < b.length) :
    (a ++ b ++ c).getD (a.length + i) 0 = b.getD i 0 := by
  rw [List.getD_eq_getElem?_getD, List.append_assoc,
    List.getElem?_append_right (Nat.le_add_right _ _),
    Nat.add_sub_cancel_left, List.getElem?_append_left hi, ← List.getD_eq_getElem?_getD]

/-- A header packet that holds both texts, with the zeros behind them. -/
theorem ymodemPrepareIntialPacket_eq (str data fileName : List UInt8) (n : UInt32)
    (hfit : (nameText fileName).length + 1 + (sizeText str n).length < PACKET_128B_SIZE) :
    ∃ rest, ymodemPrepareIntialPacket str data fileName n =
      [SOH, 0x00, 0xff] ++ (nameText fileName ++ [0]) ++ (sizeText str n ++ [0]) ++ rest := by
  obtain ⟨k, hk⟩ : ∃ k, PACKET_128B_SIZE + PACKET_HEADER -
      ([SOH, 0x00, 0xff] ++ nameText fileName ++
      [0] ++ sizeText str n).length = k + 1 := by
    refine Nat.exists_eq_succ_of_ne_zero ?_
    simp only [List.length_append, List.length_cons, List.length_nil, PACKET_HEADER] at hfit ⊢
    omega
  refine ⟨List.replicate k 0 ++ data.drop (([SOH, 0x00, 0xff] ++ nameText fileName ++ [0] ++
    sizeText str n ++ List.replicate (k + 1) 0).length), ?_⟩
  have hfront : ymodemPrepareIntialPacket str data fileName n =
      copyAt data 0 ([SOH, 0x00, 0xff] ++ nameText fileName ++ [0] ++ sizeText str n ++
        List.replicate (PACKET_128B_SIZE + PACKET_HEADER -
          ([SOH, 0x00, 0xff] ++ nameText fileName ++
          [0] ++ sizeText str n).length) 0) := rfl
  rw [hfront, hk, copyAt_zero, List.replicate_succ]
  simp only [List.append_assoc, List.cons_append, List.nil_append]

/-- The receiver finds the text of the size, up to what is read of it. -/
theorem fileSize_eq {str data fileName u rest : List UInt8} {n : UInt32} {packetData : Nat → UInt8}
    (hfit : (nameText fileName).length + 1 + (sizeText str n).length < PACKET_128B_SIZE)
    (hpacket : ∀ i < PACKET_HEADER + PACKET_128B_SIZE,
      packetData i = (ymodemPrepareIntialPacket str data fileName n).getD i 0)
    (htext : sizeText str n ++ [0] = u ++ rest) (hu : u.length ≤ FILE_SIZE_LENGTH)
    (hblank : 0x20 ∉ u) : ∃ rest', fileSize packetData = u ++ rest' := by
  obtain ⟨pad, hheader⟩ := ymodemPrepareIntialPacket_eq str data fileName n hfit
  have hlen : (nameText fileName).length + 1 + u.length ≤ PACKET_128B_SIZE := by
    have hle := congrArg List.length htext
    rw [List.length_append, List.length_append, List.length_singleton] at hle
    omega
  have hname : ∀ i < (nameText fileName ++ [0]).length,
      packetData (PACKET_HEADER + i) = (nameText fileName ++ [0]).getD i 0 := by
    intro i hi
    rw [List.length_append, List.length_singleton] at hi
    rw [hpacket _ (by omega), hheader, List.append_assoc _ _ pad]
    exact getD_middle _ _ _ (by rwa [List.length_append, List.length_singleton])
  have hsize : ∀ i < u.length,
      packetData (PACKET_HEADER + (nameText fileName).length + 1 + i) = u.getD i 0 := by
    intro i hi
    have hpos : PACKET_HEADER + (nameText fileName).length + 1 =
        ([SOH, 0x00, 0xff] ++ (nameText fileName ++ [0])).length := by
      simp only [List.length_append, List.length_cons, List.length_nil, PACKET_HEADER]
      omega
    rw [hpacket _ (by omega), hheader, htext, List.append_assoc _ _ pad, List.append_assoc u,
      ← List.append_assoc _ u, hpos]
    exact getD_middle _ _ _ hi
  have hzero : (0 : UInt8) ∉ nameText fileName := by
    intro hmem
    have hne := List.mem_takeWhile_imp hmem
    exact absurd hne (by decide)
  have hscan : scan 0 FILE_NAME_LENGTH packetData PACKET_HEADER = nameText fileName := by
    obtain ⟨m, hm⟩ : ∃ m, FILE_NAME_LENGTH = (nameText fileName).length + (m + 1) :=
      ⟨FILE_NAME_LENGTH - (nameText fileName).length - 1, by
        simp only [PACKET_128B_SIZE] at hlen
        simp only [FILE_NAME_LENGTH]
        omega⟩
    have hend : packetData (PACKET_HEADER + (nameText fileName).length) = 0 := by
      rw [hname _ (by rw [List.length_append, List.length_singleton]; omega)]
      simp
    rw [hm, scan_append hzero (fun i hi => ?_), scan, if_pos hend, List.append_nil]
    rw [hname i (by rw [List.length_append]; omega)]
    simp [List.getElem?_append_left hi]
  obtain ⟨m, hm⟩ := Nat.exists_eq_add_of_le hu
  refine ⟨scan 0x20 m packetData (PACKET_HEADER + (nameText fileName).length + 1 + u.length) ++ [0],
    ?_⟩
  rw [fileSize, hscan, hm, scan_append hblank hsize, List.append_assoc]

theorem sizeReadBack_iff (str : List UInt8) (n : UInt32) : SizeReadBack str n ↔
    ReadsBack n.toNat (str.drop (Nat.log 10 n.toNat + 1)) := by
  constructor
  · intro h
    exact (str2Int_int2Str_iff str n).1 h.1
  · intro h
    refine ⟨(str2Int_int2Str_iff str n).2 h, fun fileName data packetData hfit hpacket => ?_⟩
    obtain ⟨u, c, rest, htail, hlen, hu, hc, hreads⟩ := h.front
    generalize hds : decimal (Nat.log 10 n.toNat + 1) n.toNat = ds at *
    have hlength : ds.length = Nat.log 10 n.toNat + 1 := hds ▸ length_decimal _ _
    have hdigits : ∀ e ∈ ds, e ≠ 0 ∧ e ≠ 32 := by
      intro e he
      have hlt : n.toNat < 10 ^ (Nat.log 10 n.toNat + 1) := Nat.lt_pow_succ_log_self (by decide) _
      obtain ⟨_, hzero, hblank, _⟩ := isValidDec_iff e (decimal_digits hlt e (hds ▸ he))
      exact ⟨hzero, hblank⟩
    have hread : ∀ rest, str2Int (ds ++ u ++ c :: rest) = some n := by
      intro rest
      have hback := (str2Int_int2Str_iff (ds ++ (u ++ c :: rest)) n).2 (by
        rw [← hlength, List.drop_left]
        exact hreads rest)
      rw [int2Str_eq, hds, ← hlength, List.drop_left] at hback
      rwa [List.append_assoc]
    have hfront : ∀ e ∈ ds ++ u, e ≠ 0 ∧ e ≠ 32 := by
      intro e he
      obtain he | he := List.mem_append.1 he
      · exact hdigits e he
      · exact hu e he
    have htext : ∃ more, sizeText str n ++ [0] = (ds ++ u ++ [c]) ++ more := by
      have htake : ∀ e ∈ ds ++ u, decide (e ≠ 0) = true :=
        fun e he => decide_eq_true (hfront e he).1
      have hsize : sizeText str n = ds ++ u ++ (c :: rest).takeWhile (· ≠ 0) := by
        rw [sizeText, int2Str_eq, hds, htail, ← List.append_assoc,
          List.takeWhile_append_of_pos htake]
      rw [hsize, List.takeWhile_cons]
      split
      · exact ⟨rest.takeWhile (· ≠ 0) ++ [0], by simp only [List.append_assoc, List.cons_append,
          List.nil_append]⟩
      · next hzero =>
        have hc0 : c = 0 := by
          rw [decide_eq_true_eq] at hzero
          exact not_not.1 hzero
        exact ⟨[], by rw [hc0, List.append_nil, List.append_nil]⟩
    obtain ⟨more, hmore⟩ := htext
    have hblank : 0x20 ∉ ds ++ u ++ [c] := by
      intro hmem
      obtain hmem | hmem := List.mem_append.1 hmem
      · exact (hfront _ hmem).2 rfl
      · exact hc (List.mem_singleton.1 hmem).symm
    obtain ⟨rest', hfile⟩ := fileSize_eq hfit hpacket hmore (by
      rw [List.length_append, List.length_append, hlength, List.length_singleton, FILE_SIZE_LENGTH]
      omega) hblank
    rw [hfile, List.append_assoc]
    exact hread rest'

/-- The digits of 1 in front of more digits. -/
theorem not_sizeReadBack : ¬ SizeReadBack (List.replicate 16 49) 1 := by
  rintro ⟨hread, _⟩
  exact absurd hread (by decide)

end SizeReadBack

end BigBox.Ymodem
