import BigBox.Lib.Block
import BigBox.Lib.CInt
import BigBox.Lib.Numeral
import Mathlib.Data.Nat.Digits.Lemmas

namespace BigBox.Libnet
set_option autoImplicit true

open Numeral

/-- `http_isspace`. -/
def httpIsspace (x : UInt8) : Bool :=
  x = 32 ∨ x = 9 ∨ x = 10 ∨ x = 12 ∨ x = 8 ∨ x = 13

/-- `http_isdigit`. -/
def httpIsdigit (x : UInt8) : Bool := x ≤ 57 ∧ 48 ≤ x

/-- The loop of `http_atoi` over the digits. A sum that overflows and a read behind the memory have
no result. -/
def httpAtoiLoop : List UInt8 → Int → Option Int
  | [], _ => none
  | c :: nptr, total =>
    if httpIsdigit c then
      (checkedInt (10 * total)).bind fun total =>
        (checkedInt (total + (c.toNat - 48))).bind fun total => httpAtoiLoop nptr total
    else some total

/-- `http_atoi`. -/
def httpAtoi (nptr : List UInt8) : Option Int :=
  match nptr.dropWhile httpIsspace with
  | [] => none
  | sign :: nptr =>
    (httpAtoiLoop (if sign = 45 ∨ sign = 43 then nptr else sign :: nptr) 0).bind fun total =>
      if sign = 45 then checkedInt (-total) else some total

/-- The character of a digit in `http_itoa`. -/
def itoaDigit (i : Nat) : UInt8 := if i < 10 then .ofNat (i + 48) else .ofNat (i + 97 - 10)

/-- The loop of `http_itoa`, with the bytes of `tmp` that are written and the number of the others.
A write behind `tmp` has no result. -/
def httpItoaLoop (radix : Nat) : Nat → Nat → List UInt8 → Option (List UInt8)
  | 0, v, tmp => if v ≠ 0 ∨ tmp = [] then none else some tmp
  | room + 1, v, tmp =>
    if v ≠ 0 ∨ tmp = [] then
      httpItoaLoop radix room (v / radix) (tmp ++ [itoaDigit (v % radix)])
    else some tmp

/-- `http_itoa`: the memory at the string it returns, or a null pointer. What `malloc` gives is
written through unchecked. -/
def httpItoa (malloc : Option (Nat → UInt8)) (value : Int) (string : Option (List UInt8))
    (radix : Int) : Option (Option (List UInt8)) :=
  if radix > 36 ∨ radix ≤ 1 then some none
  else
    let sign : Bool := radix = 10 ∧ value < 0
    (if sign then checkedInt (-value) else some value).bind fun v =>
      (httpItoaLoop radix.toNat 33 (v % 4294967296).toNat []).bind fun tmp =>
        let string := match string with
          | some string => some string
          | none => malloc.map fun fresh => (List.range (tmp.length + sign.toNat + 1)).map fresh
        string.bind fun string =>
          (Block.write string 0 ((if sign then [45] else []) ++ tmp.reverse ++ [0])).map some

/-- The value of a digit. -/
def digitValue (c : UInt8) : Nat := if c < 58 then c.toNat - 48 else c.toNat - 87

/-- A digit of a base up to 36. -/
def IsDigit (radix : Nat) (c : UInt8) : Prop :=
  (48 ≤ c ∧ c ≤ 57 ∨ 97 ≤ c ∧ c ≤ 122) ∧ digitValue c < radix

/-- The text denotes the value: its magnitude behind a sign in decimal, else the unsigned value. -/
def Denotes (radix value : Int) (text : List UInt8) : Prop :=
  ∃ ds, ds ≠ [] ∧ (∀ c ∈ ds, IsDigit radix.toNat c) ∧
    if radix = 10 ∧ value < 0 then
      text = 45 :: ds ∧ (number radix.toNat digitValue 0 ds : Int) = -value
    else text = ds ∧ (number radix.toNat digitValue 0 ds : Int) = value % 4294967296

/-- A string with room for so many bytes, or memory for a new one. -/
def HasRoom (malloc : Option (Nat → UInt8)) (n : Nat) : Option (List UInt8) → Prop
  | some string => n ≤ string.length
  | none => malloc.isSome = true

/-- A value is written as a text that denotes it, and in decimal it is read back. -/
def Converts (radix value : Int) : Prop :=
  ∃ text, Denotes radix value text ∧
    ∀ malloc string, HasRoom malloc (text.length + 1) string →
      ∃ memory, httpItoa malloc value string radix = some (some memory) ∧
        text ++ [0] <+: memory ∧ (radix = 10 → httpAtoi memory = some value)

section Digits
variable {radix : Nat} {v : Nat}

theorem forall_digit {P : Nat → Prop} (h : ∀ i : Fin 36, P i) (hi : i < 36) : P i :=
  h ⟨i, hi⟩

theorem digitValue_itoaDigit (hi : i < 36) : digitValue (itoaDigit i) = i := by
  apply forall_digit (P := fun i => digitValue (itoaDigit i) = i) _ hi
  decide

theorem isDigit_itoaDigit (hi : i < radix) (hradix : radix ≤ 36) :
    IsDigit radix (itoaDigit i) := by
  have hi' : i < 36 := Nat.lt_of_lt_of_le hi hradix
  constructor
  · apply forall_digit (P := fun i => 48 ≤ itoaDigit i ∧ itoaDigit i ≤ 57 ∨
      97 ≤ itoaDigit i ∧ itoaDigit i ≤ 122) _ hi'
    decide
  · rw [digitValue_itoaDigit hi']
    exact hi

/-- The digits of a number, the lowest first. -/
def itoaDigits (radix v : Nat) : List UInt8 :=
  if v = 0 then [itoaDigit 0] else (Nat.digits radix v).map itoaDigit

theorem httpItoaLoop_digits (hradix : 2 ≤ radix) (room v : Nat) (tmp : List UInt8)
    (htmp : tmp ≠ []) (hroom : (Nat.digits radix v).length ≤ room) :
    httpItoaLoop radix room v tmp = some (tmp ++ (Nat.digits radix v).map itoaDigit) := by
  induction room generalizing v tmp with
  | zero =>
    have hnil : Nat.digits radix v = [] := List.length_eq_zero_iff.1 (Nat.le_zero.1 hroom)
    have hv : v = 0 := Nat.digits_eq_nil_iff_eq_zero.1 hnil
    rw [httpItoaLoop, if_neg (not_or.2 ⟨not_not.2 hv, htmp⟩), hnil, List.map_nil, List.append_nil]
  | succ room ih =>
    rw [httpItoaLoop]
    split
    case isTrue h =>
      have hv : 0 < v := Nat.pos_of_ne_zero (h.resolve_right htmp)
      have hdigits : Nat.digits radix v = v % radix :: Nat.digits radix (v / radix) :=
        Nat.digits_def' hradix hv
      rw [hdigits, List.length_cons] at hroom
      rw [ih (v / radix) _ (List.append_ne_nil_of_right_ne_nil _ (List.cons_ne_nil _ _))
        (Nat.le_of_succ_le_succ hroom), hdigits, List.map_cons, List.append_assoc,
        List.singleton_append]
    case isFalse h =>
      have hv : v = 0 := not_not.1 (not_or.1 h).1
      rw [hv, Nat.digits_zero, List.map_nil, List.append_nil]

/-- The digits of a 32-bit value fit in `tmp`. -/
theorem httpItoaLoop_eq (hradix : 2 ≤ radix) (hv : v < 4294967296) :
    httpItoaLoop radix 33 v [] = some (itoaDigits radix v) := by
  have hlen : (Nat.digits radix v).length ≤ 32 := by
    apply (Nat.digits_length_le_iff hradix v).2
    calc
      v < 2 ^ 32 := hv
      _ ≤ radix ^ 32 := Nat.pow_le_pow_left hradix 32
  rw [httpItoaLoop, if_pos (Or.inr rfl), List.nil_append, itoaDigits]
  split
  case isTrue hzero =>
    rw [hzero, Nat.zero_mod, Nat.zero_div]
    have hzeros : (Nat.digits radix 0).length ≤ 32 := by
      rw [Nat.digits_zero]
      exact Nat.zero_le 32
    rw [httpItoaLoop_digits hradix 32 0 _ (List.cons_ne_nil _ _) hzeros, Nat.digits_zero]
    rfl
  case isFalse hpos =>
    have hdigits : Nat.digits radix v = v % radix :: Nat.digits radix (v / radix) :=
      Nat.digits_def' hradix (Nat.pos_of_ne_zero hpos)
    rw [hdigits, List.length_cons] at hlen
    rw [httpItoaLoop_digits hradix 32 _ _ (List.cons_ne_nil _ _) (Nat.le_of_succ_le hlen),
      hdigits, List.map_cons, List.singleton_append]

theorem itoaDigits_ne_nil : itoaDigits radix v ≠ [] := by
  rw [itoaDigits]
  split
  case isTrue => exact List.cons_ne_nil _ _
  case isFalse hpos =>
    rw [Ne, List.map_eq_nil_iff, Nat.digits_eq_nil_iff_eq_zero]
    exact hpos

theorem isDigit_of_mem (hradix : 2 ≤ radix) (hmax : radix ≤ 36) (hc : c ∈ itoaDigits radix v) :
    IsDigit radix c := by
  rw [itoaDigits] at hc
  split at hc
  case isTrue =>
    rw [List.mem_singleton.1 hc]
    exact isDigit_itoaDigit (Nat.lt_of_lt_of_le Nat.zero_lt_two hradix) hmax
  case isFalse =>
    obtain ⟨i, hi, rfl⟩ := List.mem_map.1 hc
    exact isDigit_itoaDigit (Nat.digits_lt_base hradix hi) hmax

theorem number_reverse (value : α → Nat) (ds : List α) :
    number radix value 0 ds.reverse = Nat.ofDigits radix (ds.map value) := by
  induction ds with
  | nil => rfl
  | cons d ds ih =>
    rw [List.reverse_cons, number_concat, ih, List.map_cons, Nat.ofDigits_cons, Nat.mul_comm,
      Nat.add_comm]

/-- The reversed digits spell the number. -/
theorem number_itoaDigits (hradix : 2 ≤ radix) (hmax : radix ≤ 36) (v : Nat) :
    number radix digitValue 0 (itoaDigits radix v).reverse = v := by
  rw [number_reverse, itoaDigits]
  split
  case isTrue hzero =>
    rw [hzero]
    exact Nat.ofDigits_singleton
  case isFalse =>
    have hid : ∀ i ∈ Nat.digits radix v, digitValue (itoaDigit i) = i := fun i hi =>
      digitValue_itoaDigit (Nat.lt_of_lt_of_le (Nat.digits_lt_base hradix hi) hmax)
    rw [List.map_map]
    exact (congrArg _ ((List.map_congr_left hid).trans (List.map_id' _))).trans
      (Nat.ofDigits_digits radix v)

end Digits

section Atoi
variable {c : UInt8} {ds rest : List UInt8}

theorem range_of_isDigit (h : IsDigit 10 c) : 48 ≤ c.toNat ∧ c.toNat ≤ 57 := by
  obtain ⟨hrange, hvalue⟩ := h
  cases hrange with
  | inl hc => exact ⟨UInt8.le_iff_toNat_le.1 hc.1, UInt8.le_iff_toNat_le.1 hc.2⟩
  | inr hc =>
    have hlow : 97 ≤ c.toNat := UInt8.le_iff_toNat_le.1 hc.1
    have hletter : ¬c < 58 := fun hlt => absurd (UInt8.lt_iff_toNat_lt.1 hlt) (by simp; omega)
    rw [digitValue, if_neg hletter] at hvalue
    omega

theorem httpIsdigit_of_isDigit (h : IsDigit 10 c) : httpIsdigit c = true := by
  obtain ⟨hlow, hhigh⟩ := range_of_isDigit h
  exact decide_eq_true ⟨UInt8.le_iff_toNat_le.2 hhigh, UInt8.le_iff_toNat_le.2 hlow⟩

theorem digitValue_of_isDigit (h : IsDigit 10 c) : (c.toNat : Int) - 48 = digitValue c := by
  obtain ⟨hlow, hhigh⟩ := range_of_isDigit h
  have hdigit : c < 58 := UInt8.lt_iff_toNat_lt.2 (Nat.lt_succ_of_le hhigh)
  rw [digitValue, if_pos hdigit]
  omega

/-- The digits are read as the number that they spell, if it fits. -/
theorem httpAtoiLoop_digits (rest : List UInt8) (hds : ∀ c ∈ ds, IsDigit 10 c) (total : Nat)
    (hfit : number 10 digitValue total ds < 2147483648) :
    httpAtoiLoop (ds ++ 0 :: rest) total = some (number 10 digitValue total ds : Int) := by
  induction ds generalizing total with
  | nil => rfl
  | cons c ds ih =>
    obtain ⟨hc, hds⟩ := List.forall_mem_cons.1 hds
    rw [number_cons] at hfit
    have hle : total * 10 + digitValue c ≤ number 10 digitValue (total * 10 + digitValue c) ds :=
      le_number (by decide)
    have hmul : checkedInt (10 * (total : Int)) = some (10 * (total : Int)) :=
      checkedInt_of_lt (by omega) (by omega)
    have hsum : checkedInt (10 * (total : Int) + digitValue c) =
        some ((total * 10 + digitValue c : Nat) : Int) := by
      rw [checkedInt_of_lt (by omega) (by omega)]
      push_cast
      rw [Int.mul_comm]
    rw [List.cons_append, httpAtoiLoop, if_pos (httpIsdigit_of_isDigit hc), hmul, Option.bind_some,
      digitValue_of_isDigit hc, hsum, Option.bind_some, ih hds _ hfit, number_cons]

theorem not_isspace_of_isDigit (h : IsDigit 10 c) :
    httpIsspace c = false ∧ ¬(c = 45 ∨ c = 43) := by
  have hne (b : UInt8) (hb : b.toNat < 48) : c ≠ b := by
    rintro rfl
    exact Nat.not_lt.2 (range_of_isDigit h).1 hb
  constructor
  · apply decide_eq_false
    simp only [hne, UInt8.reduceToNat, Nat.reduceLT, or_self, not_false_iff]
  · simp only [hne, UInt8.reduceToNat, Nat.reduceLT, or_self, not_false_iff]

theorem httpAtoi_digits (hne : ds ≠ []) (hds : ∀ c ∈ ds, IsDigit 10 c)
    (hfit : number 10 digitValue 0 ds < 2147483648) :
    httpAtoi (ds ++ 0 :: rest) = some (number 10 digitValue 0 ds : Int) := by
  obtain ⟨c, ds, rfl⟩ := List.exists_cons_of_ne_nil hne
  obtain ⟨hspace, hsign⟩ := not_isspace_of_isDigit (hds c List.mem_cons_self)
  have hloop := httpAtoiLoop_digits rest hds 0 hfit
  rw [httpAtoi, List.cons_append, List.dropWhile_cons_of_neg (ne_true_of_eq_false hspace)]
  rw [Int.natCast_zero, List.cons_append] at hloop
  dsimp only
  rw [if_neg hsign, hloop, Option.bind_some,
    if_neg (not_or.1 hsign).1]

theorem httpAtoi_sign (hds : ∀ c ∈ ds, IsDigit 10 c)
    (hfit : number 10 digitValue 0 ds < 2147483648) :
    httpAtoi (45 :: (ds ++ 0 :: rest)) = some (-(number 10 digitValue 0 ds : Int)) := by
  have hloop := httpAtoiLoop_digits rest hds 0 hfit
  rw [httpAtoi, List.dropWhile_cons_of_neg (by decide)]
  rw [Int.natCast_zero] at hloop
  dsimp only
  rw [if_pos (Or.inl rfl), hloop, Option.bind_some, if_pos rfl,
    checkedInt_of_lt (by omega) (by omega)]

end Atoi

section Itoa
variable {radix value : Int} {text : List UInt8}

/-- The unsigned number whose digits are written. -/
def magnitude (radix value : Int) : Nat :=
  if radix = 10 ∧ value < 0 then value.natAbs else (value % 4294967296).toNat

/-- The text that is written. -/
def itoaText (radix value : Int) : List UInt8 :=
  (if radix = 10 ∧ value < 0 then [45] else []) ++
    (itoaDigits radix.toNat (magnitude radix value)).reverse

theorem magnitude_lt (hlow : -2147483648 ≤ value) : magnitude radix value < 4294967296 := by
  rw [magnitude]
  split
  case isTrue h => omega
  case isFalse => omega

theorem exists_memory (malloc : Option (Nat → UInt8)) (n : Nat) (string : Option (List UInt8))
    (h : HasRoom malloc n string) :
    ∃ memory, (match string with
      | some string => some string
      | none => malloc.map fun fresh => (List.range n).map fresh) = some memory ∧
      n ≤ memory.length := by
  cases string with
  | some string => exact ⟨string, rfl, h⟩
  | none =>
    obtain ⟨fresh, rfl⟩ := Option.isSome_iff_exists.1 h
    refine ⟨_, rfl, ?_⟩
    rw [List.length_map, List.length_range]

theorem write_front {block bytes : List UInt8} (h : bytes.length ≤ block.length) :
    ∃ rest, Block.write block 0 bytes = some (bytes ++ rest) := by
  have hlen : bytes.length = (block.take bytes.length).length :=
    (List.length_take_of_le h).symm
  have hwrite := Block.write_middle [] _ (block.drop bytes.length) bytes rfl hlen
  rw [List.nil_append, List.take_append_drop, List.nil_append] at hwrite
  exact ⟨_, hwrite⟩

/-- What `http_itoa` writes, unless the negation overflows. -/
theorem httpItoa_text (hlow : -2147483648 ≤ value) (hhigh : value < 2147483648)
    (hradix : 2 ≤ radix) (hmax : radix ≤ 36) (hmin : ¬(radix = 10 ∧ value = -2147483648))
    (hroom : HasRoom malloc ((itoaText radix value).length + 1) string) :
    ∃ memory, httpItoa malloc value string radix = some (some memory) ∧
      ∃ rest, memory = itoaText radix value ++ 0 :: rest := by
  have hv : (if decide (radix = 10 ∧ value < 0) = true then checkedInt (-value) else some value) =
      some (if radix = 10 ∧ value < 0 then -value else value) := by
    split
    case isTrue h =>
      rw [decide_eq_true_eq] at h
      rw [if_pos h, checkedInt_of_lt (by omega) (by omega)]
    case isFalse h =>
      rw [decide_eq_true_eq] at h
      rw [if_neg h]
  have hnat : ((if radix = 10 ∧ value < 0 then -value else value) % 4294967296).toNat =
      magnitude radix value := by
    rw [magnitude]
    split
    case isTrue h => omega
    case isFalse => rfl
  have hdigits : httpItoaLoop radix.toNat 33 (magnitude radix value) [] =
      some (itoaDigits radix.toNat (magnitude radix value)) :=
    httpItoaLoop_eq (by omega) (magnitude_lt hlow)
  have hlen : (itoaDigits radix.toNat (magnitude radix value)).length +
      (decide (radix = 10 ∧ value < 0)).toNat = (itoaText radix value).length := by
    rw [itoaText, List.length_append, List.length_reverse, Nat.add_comm]
    by_cases h : radix = 10 ∧ value < 0
    · rw [if_pos h, decide_eq_true h]
      rfl
    · rw [if_neg h, decide_eq_false h]
      rfl
  obtain ⟨string', hstring, hfits⟩ := exists_memory malloc _ string hroom
  have hlength : (itoaText radix value ++ [0]).length ≤ string'.length := by
    rw [List.length_append]
    exact hfits
  obtain ⟨rest, hwrite⟩ := write_front hlength
  rw [List.append_assoc _ [0] rest, itoaText] at hwrite
  refine ⟨_, ?_, rest, rfl⟩
  rw [httpItoa, if_neg (by omega)]
  dsimp only
  rw [hv, Option.bind_some, hnat, hdigits, Option.bind_some, hlen, hstring, Option.bind_some]
  simp only [decide_eq_true_eq]
  rw [hwrite, itoaText]
  rfl

example : httpItoa none 255 (some [9, 9, 9, 9]) 16 = some (some [102, 102, 0, 9]) := by
  decide

/-- The text denotes the value. -/
theorem denotes_itoaText (hradix : 2 ≤ radix) (hmax : radix ≤ 36) :
    Denotes radix value (itoaText radix value) := by
  have hle : 2 ≤ radix.toNat := by omega
  have hle' : radix.toNat ≤ 36 := by omega
  have hnumber := number_itoaDigits hle hle' (magnitude radix value)
  refine ⟨(itoaDigits radix.toNat (magnitude radix value)).reverse, ?_, fun c hc =>
    isDigit_of_mem hle hle' (List.mem_reverse.1 hc), ?_⟩
  · rw [Ne, List.reverse_eq_nil_iff]
    exact itoaDigits_ne_nil
  · split
    case isTrue h =>
      refine ⟨?_, ?_⟩
      · rw [itoaText, if_pos h]
        rfl
      · rw [hnumber, magnitude, if_pos h]
        omega
    case isFalse h =>
      refine ⟨?_, ?_⟩
      · rw [itoaText, if_neg h]
        rfl
      · rw [hnumber, magnitude, if_neg h]
        omega

theorem httpAtoi_itoaText (hlow : -2147483648 < value) (hhigh : value < 2147483648)
    (rest : List UInt8) : httpAtoi (itoaText 10 value ++ 0 :: rest) = some value := by
  have hdigits : ∀ c ∈ (itoaDigits 10 (magnitude 10 value)).reverse, IsDigit 10 c := fun c hc =>
    isDigit_of_mem (by decide) (by decide) (List.mem_reverse.1 hc)
  have hnumber : number 10 digitValue 0 (itoaDigits 10 (magnitude 10 value)).reverse =
      magnitude 10 value := number_itoaDigits (by decide) (by decide) _
  rw [itoaText]
  by_cases h : value < 0
  · have hmag : magnitude 10 value = value.natAbs := if_pos ⟨rfl, h⟩
    rw [if_pos ⟨rfl, h⟩, List.singleton_append, List.cons_append]
    refine (httpAtoi_sign hdigits ?_).trans ?_
    · rw [hnumber, hmag]
      omega
    · rw [hnumber, hmag]
      exact congrArg some (by omega)
  · have hmag : magnitude 10 value = (value % 4294967296).toNat :=
      if_neg (not_and_of_not_right _ h)
    rw [if_neg (not_and_of_not_right _ h), List.nil_append]
    refine (httpAtoi_digits ?_ hdigits ?_).trans ?_
    · rw [Ne, List.reverse_eq_nil_iff]
      exact itoaDigits_ne_nil
    · rw [hnumber, hmag]
      omega
    · rw [hnumber, hmag]
      exact congrArg some (by omega)

/-- The negation of the least value overflows. -/
theorem httpItoa_min (malloc : Option (Nat → UInt8)) (string : Option (List UInt8)) :
    httpItoa malloc (-2147483648) string 10 = none := by
  rw [httpItoa, if_neg (by decide)]
  rfl

theorem Converts.exists_string (h : Converts radix value) :
    ∃ string, httpItoa none value string radix ≠ none := by
  obtain ⟨text, _, hall⟩ := h
  obtain ⟨memory, hrun, _⟩ := hall none (some (List.replicate (text.length + 1) 0))
    (Nat.le_of_eq List.length_replicate.symm)
  exact ⟨_, Option.ne_none_iff_exists'.2 ⟨_, hrun⟩⟩

/-- Every value is converted in every base, but for the least one in decimal. -/
theorem itoa_converts_iff (hlow : -2147483648 ≤ value) (hhigh : value < 2147483648)
    (hradix : 2 ≤ radix) (hmax : radix ≤ 36) :
    Converts radix value ↔ ¬(radix = 10 ∧ value = -2147483648) := by
  constructor
  · rintro h ⟨rfl, rfl⟩
    obtain ⟨string, hne⟩ := h.exists_string
    exact hne (httpItoa_min none string)
  · intro hmin
    refine ⟨itoaText radix value, denotes_itoaText hradix hmax, fun malloc string hroom => ?_⟩
    obtain ⟨memory, hrun, rest, rfl⟩ := httpItoa_text hlow hhigh hradix hmax hmin hroom
    refine ⟨_, hrun, ⟨rest, List.append_assoc _ _ _⟩, ?_⟩
    rintro rfl
    exact httpAtoi_itoaText (lt_of_le_of_ne hlow fun h => hmin ⟨rfl, h.symm⟩) hhigh rest

theorem itoa_converts_iff_hundred :
    Converts 10 (-100) ↔ ¬((10 : Int) = 10 ∧ (-100 : Int) = -2147483648) :=
  itoa_converts_iff (by decide) (by decide) (by decide) (by decide)

theorem not_converts_min : ¬Converts 10 (-2147483648) := by
  intro h
  obtain ⟨string, hne⟩ := h.exists_string
  exact hne (httpItoa_min none string)

end Itoa

end BigBox.Libnet
