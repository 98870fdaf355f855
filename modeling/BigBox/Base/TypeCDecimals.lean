import BigBox.Base.TypeC
import Mathlib.Data.List.GetD

namespace BigBox.TypeC
open Hex
set_option autoImplicit true

/-- The number of entries of `decimals`. -/
def DECIMALS : Nat := 256

/-- What a parser has read before the floating-point numbers are put together. -/
inductive Parsed where
  | nan
  | inf (sign : Bool)
  | number (sign : Bool) (lhs : UInt64) (decimals : List UInt8)

def Parsed.decimals : Parsed → List UInt8
  | .nan => []
  | .inf _ => []
  | .number _ _ decimals => decimals

/-- The variables of the loop. The entries in front of `d` are the list `decimals`. -/
structure Scan where
  dec : Bool
  lhs : UInt64
  zeros : Nat
  decimals : List UInt8

/-- A write behind the array has no result, nor has an overflow of `zeros`. -/
def Scan.save (p : Scan) (ch v : UInt8) : Option Scan :=
  if p.decimals.length < DECIMALS then
    if ch ≠ 48 then
      if p.decimals.length + p.zeros < DECIMALS then
        some { p with zeros := 0, decimals := p.decimals ++ List.replicate p.zeros 0 ++ [v] }
      else none
    else if p.zeros < 2147483647 then some { p with zeros := p.zeros + 1 }
    else none
  else some p

def scanLoop (value : UInt8 → Option UInt8) (shift : UInt64 → UInt64) (p : Scan) :
    List UInt8 → Option Scan
  | [] => some p
  | ch :: s =>
    if ch = 46 then
      if p.dec then some p else scanLoop value shift { p with dec := true } s
    else
      match value ch with
      | none => some p
      | some v =>
        if p.dec then (p.save ch v).bind fun p => scanLoop value shift p s
        else scanLoop value shift { p with lhs := shift p.lhs + v.toUInt64 } s

/-- What the four parsers have in common. -/
def parse (skip : List UInt8 → List UInt8) (value : UInt8 → Option UInt8)
    (shift : UInt64 → UInt64) (s : List UInt8) : Option Parsed :=
  let (sign, s) := takeSign (s.dropWhile tIsspace)
  if s.take 3 = [110, 97, 110] then some .nan
  else if s.take 3 = [105, 110, 102] then some (.inf sign)
  else
    (scanLoop value shift ⟨false, 0, 0, []⟩ (skip s)).map fun p => .number sign p.lhs p.decimals

def value2 (ch : UInt8) : Option UInt8 := if tIsdigit2 ch then some (ch - 48) else none
def value8 (ch : UInt8) : Option UInt8 := if tIsdigit8 ch then some (ch - 48) else none
def value10 (ch : UInt8) : Option UInt8 := if tIsdigit10 ch then some (ch - 48) else none

def value16 (ch : UInt8) : Option UInt8 :=
  if tIsdigit10 ch then some (ch - 48)
  else if ch > 96 ∧ ch < 103 then some (ch - 97 + 10)
  else if ch > 64 ∧ ch < 71 then some (ch - 65 + 10)
  else none

def tS2ToD : List UInt8 → Option Parsed := parse (skip0 98 66) value2 (· <<< 1)
def tS8ToD : List UInt8 → Option Parsed := parse (List.dropWhile (· = 48)) value8 (· <<< 3)
def tS10ToD : List UInt8 → Option Parsed := parse (List.dropWhile (· = 48)) value10 (· * 10)
def tS16ToD : List UInt8 → Option Parsed := parse (skip0 120 88) value16 (· <<< 4)

def digitOf (c : UInt8) : UInt8 := .ofNat (hexValue c)

/-- The digits behind the point of a number that starts a string. -/
def fractionOf (base : Nat) (s : List UInt8) : List UInt8 :=
  match s.dropWhile (isDigit base) with
  | 46 :: s => (s.takeWhile (isDigit base)).map digitOf
  | _ => []

/-- The digits behind the point of the number that a string spells in a base. -/
def fraction (base : Nat) (s : List UInt8) : List UInt8 :=
  fractionOf base (afterPrefix base (afterSign (s.dropWhile isspace)))

/-- The parser stays inside the array and leaves the first digits in it. -/
def Parses (base : Nat) (toD : List UInt8 → Option Parsed) (s : List UInt8) : Prop :=
  ∃ parsed, toD s = some parsed ∧
    parsed.decimals = ((fraction base s).take DECIMALS).rdropWhile (· = 0)

/-- The last entry is taken by a digit that is not zero, or no such digit follows and the zeros
at the end can be counted. -/
def FitsDecimals (ds : List UInt8) : Prop :=
  ds.getD (DECIMALS - 1) 0 ≠ 0 ∨ (∀ v ∈ ds.drop DECIMALS, v = 0) ∧
    ds.length < (ds.rdropWhile (· = 0)).length + 2147483648

section save
variable {p : Scan} {ds : List UInt8}

/-- What the loop has kept of the digits it has seen. -/
structure Kept (p : Scan) (ds : List UInt8) : Prop where
  dec : p.dec = true
  zeros : p.zeros < 2147483648
  bound : p.decimals.length ≤ DECIMALS
  significant : ∀ v, p.decimals.getLast? = some v → decide (v = 0) = false
  split : ∃ rest, ds = p.decimals ++ rest ∧
    (p.decimals.length < DECIMALS → rest = List.replicate p.zeros 0)

theorem all_replicate (n : Nat) : ∀ v ∈ List.replicate n (0 : UInt8), decide (v = 0) = true := by
  intro v hv
  exact decide_eq_true (List.eq_of_mem_replicate hv)

theorem Kept.decimals_eq (h : Kept p ds) :
    p.decimals = (ds.take DECIMALS).rdropWhile (· = 0) := by
  obtain ⟨rest, hds, hrest⟩ := h.split
  rw [hds, List.take_append, List.take_of_length_le h.bound]
  rcases Nat.lt_or_eq_of_le h.bound with hlt | heq
  · rw [hrest hlt, List.take_replicate, rdropWhile_append_of_all (all_replicate _),
      rdropWhile_eq_self h.significant]
  · rw [heq, Nat.sub_self, List.take_zero, List.append_nil, rdropWhile_eq_self h.significant]

/-- An array that is full ends with a digit that is not zero. -/
theorem Kept.last_ne (h : Kept p ds) (hfull : p.decimals.length = DECIMALS) :
    ds.getD (DECIMALS - 1) 0 ≠ 0 := by
  obtain ⟨rest, hds, _⟩ := h.split
  have hlt : DECIMALS - 1 < p.decimals.length :=
    Nat.lt_of_lt_of_eq (Nat.lt_succ_self 255) hfull.symm
  have hlast := h.significant p.decimals[DECIMALS - 1]
  rw [List.getLast?_eq_getElem?, hfull, List.getElem?_eq_getElem hlt] at hlast
  rw [hds, List.getD_append _ _ _ _ hlt, List.getD_eq_getElem _ _ hlt]
  exact of_decide_eq_false (hlast rfl)

theorem Kept.fits (h : Kept p ds) : FitsDecimals ds := by
  rcases Nat.lt_or_eq_of_le h.bound with hlt | heq
  · obtain ⟨rest, hds, hrest⟩ := h.split
    rw [hrest hlt] at hds
    refine .inr ⟨fun v hv => ?_, ?_⟩
    · rw [hds, List.drop_append, List.drop_eq_nil_of_le h.bound, List.nil_append] at hv
      exact List.eq_of_mem_replicate (List.mem_of_mem_drop hv)
    · have hzeros := h.zeros
      rw [hds, rdropWhile_append_of_all (all_replicate _), rdropWhile_eq_self h.significant,
        List.length_append, List.length_replicate]
      exact Nat.add_lt_add_left hzeros _
  · exact .inl (h.last_ne heq)

/-- The zeros at the end reach over the last entry. -/
theorem Kept.last_zero (h : Kept p ds) (hlt : p.decimals.length < DECIMALS)
    (hzeros : DECIMALS ≤ p.decimals.length + p.zeros) (rest : List UInt8) :
    (ds ++ rest).getD (DECIMALS - 1) 0 = 0 ∧ DECIMALS ≤ ds.length := by
  obtain ⟨tail, hds, htail⟩ := h.split
  rw [htail hlt] at hds
  have hlen : ds.length = p.decimals.length + p.zeros := by
    rw [hds, List.length_append, List.length_replicate]
  have hle : p.decimals.length ≤ DECIMALS - 1 := Nat.le_sub_one_of_lt hlt
  have hidx : DECIMALS - 1 < ds.length := hlen ▸ Nat.lt_of_lt_of_le (by decide) hzeros
  refine ⟨?_, hlen ▸ hzeros⟩
  rw [List.getD_append _ _ _ _ hidx, hds, List.getD_append_right _ _ _ _ hle]
  apply List.getD_replicate
  exact Nat.sub_lt_left_of_lt_add hle (hlen ▸ hidx)

/-- A digit behind zeros that reach over the last entry does not fit. -/
theorem Kept.not_fits (h : Kept p ds) (hlt : p.decimals.length < DECIMALS)
    (hzeros : DECIMALS ≤ p.decimals.length + p.zeros) (hv : v ≠ 0) (rest : List UInt8) :
    ¬ FitsDecimals (ds ++ v :: rest) := by
  obtain ⟨hlast, hlen⟩ := h.last_zero hlt hzeros (v :: rest)
  intro hfits
  rcases hfits with hne | ⟨hall, _⟩
  · exact hne hlast
  · apply hv
    apply hall
    rw [List.drop_append_of_le_length hlen]
    exact List.mem_append_right _ List.mem_cons_self

/-- Zeros at the end that cannot be counted do not fit. -/
theorem Kept.not_fits_zero (h : Kept p ds) (hlt : p.decimals.length < DECIMALS)
    (hzeros : 2147483647 ≤ p.zeros) (rest : List UInt8) : ¬ FitsDecimals (ds ++ 0 :: rest) := by
  have hover : DECIMALS ≤ p.decimals.length + p.zeros :=
    Nat.le_trans (Nat.le_trans (by decide) hzeros) (Nat.le_add_left _ _)
  obtain ⟨hlast, hlen⟩ := h.last_zero hlt hover (0 :: rest)
  obtain ⟨tail, hds, htail⟩ := h.split
  rw [htail hlt] at hds
  intro hfits
  rcases hfits with hne | ⟨hall, hcount⟩
  · exact hne hlast
  · have hrest : ∀ v ∈ List.replicate p.zeros 0 ++ 0 :: rest, decide (v = 0) = true := by
      intro v hv
      rcases List.mem_append.1 hv with hv | hv
      · exact all_replicate _ v hv
      · apply decide_eq_true
        apply hall
        rw [List.drop_append_of_le_length hlen]
        exact List.mem_append_right _ hv
    rw [hds, List.append_assoc, rdropWhile_append_of_all hrest, rdropWhile_eq_self h.significant,
      List.length_append, List.length_append, List.length_replicate, List.length_cons] at hcount
    omega

/-- One digit behind the point. -/
theorem Kept.save (h : Kept p ds) (hv : v = 0 ↔ ch = 48) (rest : List UInt8) :
    (∃ p', p.save ch v = some p' ∧ Kept p' (ds ++ [v])) ∨
      p.save ch v = none ∧ ¬ FitsDecimals (ds ++ v :: rest) := by
  obtain ⟨tail, hds, htail⟩ := h.split
  unfold Scan.save
  by_cases hlt : p.decimals.length < DECIMALS
  · rw [if_pos hlt]
    rw [htail hlt] at hds
    by_cases hch : ch = 48
    · rw [if_neg (not_not_intro hch)]
      by_cases hzeros : p.zeros < 2147483647
      · rw [if_pos hzeros]
        refine .inl ⟨_, rfl, ⟨h.dec, Nat.succ_lt_succ hzeros, h.bound, h.significant, ?_⟩⟩
        refine ⟨List.replicate (p.zeros + 1) 0, ?_, fun _ => rfl⟩
        rw [hds, hv.2 hch, List.replicate_succ', List.append_assoc]
      · rw [if_neg hzeros, hv.2 hch]
        exact .inr ⟨rfl, h.not_fits_zero hlt (Nat.le_of_not_lt hzeros) rest⟩
    · rw [if_pos hch]
      by_cases hroom : p.decimals.length + p.zeros < DECIMALS
      · rw [if_pos hroom]
        refine .inl ⟨_, rfl, ⟨h.dec, (by decide : 0 < 2147483648), ?_, ?_, [], ?_, fun _ => rfl⟩⟩
        · rw [List.length_append, List.length_append, List.length_replicate]
          exact hroom
        · intro w hw
          rw [List.getLast?_concat] at hw
          cases hw
          exact decide_eq_false fun hzero => hch (hv.1 hzero)
        · rw [hds, List.append_nil]
      · rw [if_neg hroom]
        exact .inr ⟨rfl,
          h.not_fits hlt (Nat.le_of_not_lt hroom) (fun hzero => hch (hv.1 hzero)) rest⟩
  · rw [if_neg hlt]
    refine .inl ⟨p, rfl, ⟨h.dec, h.zeros, h.bound, h.significant, tail ++ [v], ?_, ?_⟩⟩
    · rw [hds, List.append_assoc]
    · exact fun hlt' => absurd hlt' hlt

end save

/-- What the tests of a parser say about the digits of its base. -/
structure Spells (base : Nat) (value : UInt8 → Option UInt8) : Prop where
  value : ∀ c, value c = if isDigit base c then some (digitOf c) else none
  zero : ∀ c, isDigit base c = true → (digitOf c = 0 ↔ c = 48)
  point : isDigit base 46 = false
  letter : isDigit base 110 = false ∧ isDigit base 105 = false

section scanLoop
variable {base : Nat} {value : UInt8 → Option UInt8} {shift : UInt64 → UInt64}
variable {p : Scan} {ds : List UInt8}

theorem scanLoop_fraction (hspells : Spells base value) (h : Kept p ds) (s : List UInt8) :
    (∃ p', scanLoop value shift p s = some p' ∧
      Kept p' (ds ++ (s.takeWhile (isDigit base)).map digitOf)) ∨
    scanLoop value shift p s = none ∧
      ¬ FitsDecimals (ds ++ (s.takeWhile (isDigit base)).map digitOf) := by
  induction s generalizing p ds with
  | nil => exact .inl ⟨p, rfl, by rwa [List.takeWhile_nil, List.map_nil, List.append_nil]⟩
  | cons ch s ih =>
    rw [scanLoop, hspells.value, List.takeWhile_cons]
    by_cases hpoint : ch = 46
    · rw [hpoint, if_pos rfl, h.dec, if_pos rfl, hspells.point]
      exact .inl ⟨p, rfl, by rwa [if_neg Bool.false_ne_true, List.map_nil, List.append_nil]⟩
    rw [if_neg hpoint]
    cases hdigit : isDigit base ch with
    | false =>
      exact .inl ⟨p, rfl, by rwa [if_neg Bool.false_ne_true, List.map_nil, List.append_nil]⟩
    | true =>
      rw [if_pos rfl, if_pos rfl, List.map_cons]
      dsimp only
      rw [h.dec, if_pos rfl]
      rcases h.save (hspells.zero ch hdigit) ((s.takeWhile (isDigit base)).map digitOf) with
        ⟨p', hsave, hkept⟩ | ⟨hsave, hnot⟩
      · rw [hsave, Option.bind_some, List.append_cons]
        exact ih hkept
      · rw [hsave]
        exact .inr ⟨rfl, hnot⟩

/-- The digits in front of the point. -/
theorem scanLoop_integer (hspells : Spells base value) (lhs : UInt64) (s : List UInt8) :
    ∃ lhs', scanLoop value shift ⟨false, lhs, 0, []⟩ s =
      match s.dropWhile (isDigit base) with
      | 46 :: s => scanLoop value shift ⟨true, lhs', 0, []⟩ s
      | _ => some ⟨false, lhs', 0, []⟩ := by
  induction s generalizing lhs with
  | nil => exact ⟨lhs, rfl⟩
  | cons ch s ih =>
    rw [scanLoop, hspells.value, List.dropWhile_cons]
    by_cases hpoint : ch = 46
    · rw [hpoint, if_pos rfl, hspells.point]
      exact ⟨lhs, rfl⟩
    rw [if_neg hpoint]
    cases hdigit : isDigit base ch with
    | true => exact ih _
    | false =>
      refine ⟨lhs, ?_⟩
      rw [if_neg Bool.false_ne_true, if_neg Bool.false_ne_true]
      dsimp only
      split
      · next heq => exact absurd (List.cons.inj heq).1 hpoint
      · rfl

theorem kept_nil (lhs : UInt64) : Kept ⟨true, lhs, 0, []⟩ [] where
  dec := rfl
  zeros := Nat.zero_lt_succ _
  bound := Nat.zero_le _
  significant := nofun
  split := ⟨[], rfl, fun _ => rfl⟩

theorem fitsDecimals_nil : FitsDecimals [] := .inr ⟨nofun, by decide⟩

/-- The array after the number at the start of a string. -/
theorem scanLoop_eq (hspells : Spells base value) (s : List UInt8) :
    (∃ p, scanLoop value shift ⟨false, 0, 0, []⟩ s = some p ∧
      p.decimals = ((fractionOf base s).take DECIMALS).rdropWhile (· = 0) ∧
      FitsDecimals (fractionOf base s)) ∨
    scanLoop value shift ⟨false, 0, 0, []⟩ s = none ∧ ¬ FitsDecimals (fractionOf base s) := by
  obtain ⟨lhs, hscan⟩ := @scanLoop_integer base value shift hspells 0 s
  rw [hscan, fractionOf]
  split
  · next s _ =>
    rcases scanLoop_fraction hspells (kept_nil lhs) s with ⟨p, hp, hkept⟩ | hnone
    · exact .inl ⟨p, hp, hkept.decimals_eq, hkept.fits⟩
    · exact .inr hnone
  · exact .inl ⟨_, rfl, rfl, fitsDecimals_nil⟩

end scanLoop

section parse
variable {base : Nat} {value : UInt8 → Option UInt8} {shift : UInt64 → UInt64}
variable {skip : List UInt8 → List UInt8} {s : List UInt8}

theorem head_of_mem_prefixes (h : t ∈ basePrefixes base) : t.head? = some 48 := by
  unfold basePrefixes at h
  split at h
  · rcases List.mem_pair.1 h with rfl | rfl <;> rfl
  split at h
  · rcases List.mem_pair.1 h with rfl | rfl <;> rfl
  · cases h

/-- No number starts with a letter that is no digit. -/
theorem fractionOf_word (hc : isDigit base c = false) (hpoint : c ≠ 46) (hzero : c ≠ 48)
    (h : s.head? = some c) : fractionOf base (afterPrefix base s) = [] := by
  obtain ⟨s, rfl⟩ := List.head?_eq_some_iff.1 h
  have hnoPrefix : afterPrefix base (c :: s) = c :: s := by
    rw [afterPrefix, if_neg]
    intro hmem
    exact hzero (Option.some.inj (head_of_mem_prefixes hmem))
  rw [hnoPrefix, fractionOf, List.dropWhile_cons_of_neg (Bool.not_eq_true _ ▸ hc)]
  split
  · next heq => exact absurd (List.cons.inj heq).1 hpoint
  · rfl

theorem head_of_take {a b c : UInt8} (h : s.take 3 = [a, b, c]) : s.head? = some a := by
  have hhead := congrArg List.head? h
  rwa [List.head?_take, if_neg (by decide)] at hhead

/-- The parser of a base writes behind the array unless the digits fit. -/
theorem parse_iff (hspells : Spells base value)
    (hskip : ∀ s, fractionOf base (skip s) = fractionOf base (afterPrefix base s))
    (s : List UInt8) : Parses base (parse skip value shift) s ↔ FitsDecimals (fraction base s) := by
  have hblank : tIsspace = isspace := funext tIsspace_eq
  unfold Parses parse fraction
  rw [hblank, takeSign_eq]
  dsimp only
  split
  · next hnan =>
    rw [fractionOf_word hspells.letter.1 (by decide) (by decide) (head_of_take hnan)]
    exact iff_of_true ⟨_, rfl, rfl⟩ fitsDecimals_nil
  split
  · next hinf =>
    rw [fractionOf_word hspells.letter.2 (by decide) (by decide) (head_of_take hinf)]
    exact iff_of_true ⟨_, rfl, rfl⟩ fitsDecimals_nil
  · rw [← hskip]
    rcases @scanLoop_eq base value shift hspells (skip (afterSign (s.dropWhile isspace))) with
      ⟨p, hp, hdecimals, hfits⟩ | ⟨hnone, hnot⟩
    · rw [hp]
      exact iff_of_true ⟨_, rfl, hdecimals⟩ hfits
    · rw [hnone]
      refine iff_of_false ?_ hnot
      rintro ⟨parsed, hparsed, _⟩
      cases hparsed

end parse

theorem spells (c : UInt8) :
    value2 c = (if isDigit 2 c then some (digitOf c) else none) ∧
    value8 c = (if isDigit 8 c then some (digitOf c) else none) ∧
    value10 c = (if isDigit 10 c then some (digitOf c) else none) ∧
    value16 c = (if isDigit 16 c then some (digitOf c) else none) ∧
    (isDigit 16 c = true → (digitOf c = 0 ↔ c = 48)) := by
  revert c
  apply forall_byte
  decide +kernel

theorem digitOf_eq_zero (hle : base ≤ 16) (c : UInt8) (h : isDigit base c = true) :
    digitOf c = 0 ↔ c = 48 := by
  apply (spells c).2.2.2.2
  unfold isDigit at h ⊢
  rw [decide_eq_true_eq] at h ⊢
  exact ⟨h.1, Nat.lt_of_lt_of_le h.2 hle⟩

theorem spells2 : Spells 2 value2 :=
  ⟨fun c => (spells c).1, digitOf_eq_zero (by decide), rfl, rfl, rfl⟩

theorem spells8 : Spells 8 value8 :=
  ⟨fun c => (spells c).2.1, digitOf_eq_zero (by decide), rfl, rfl, rfl⟩

theorem spells10 : Spells 10 value10 :=
  ⟨fun c => (spells c).2.2.1, digitOf_eq_zero (by decide), rfl, rfl, rfl⟩

theorem spells16 : Spells 16 value16 :=
  ⟨fun c => (spells c).2.2.2.1, digitOf_eq_zero (by decide), rfl, rfl, rfl⟩

/-- Zeros in front of the number change no digit behind the point. -/
theorem fractionOf_dropWhile (hzero : isDigit base 48 = true) (s : List UInt8) :
    fractionOf base (s.dropWhile (· = 48)) = fractionOf base s := by
  induction s with
  | nil => rfl
  | cons c s ih =>
    by_cases hc : c = 48
    · subst hc
      rw [List.dropWhile_cons, if_pos (decide_eq_true rfl), ih, fractionOf, fractionOf,
        List.dropWhile_cons_of_pos hzero]
    · rw [List.dropWhile_cons_of_neg (by rwa [decide_eq_true_eq])]

theorem tS2ToD_iff (s : List UInt8) : Parses 2 tS2ToD s ↔ FitsDecimals (fraction 2 s) :=
  parse_iff spells2 (fun s => by rw [skip0_eq]; rfl) s

theorem tS8ToD_iff (s : List UInt8) : Parses 8 tS8ToD s ↔ FitsDecimals (fraction 8 s) :=
  parse_iff spells8 (fun s => by
    rw [fractionOf_dropWhile rfl, afterPrefix_none (by decide) (by decide)]) s

theorem tS10ToD_iff (s : List UInt8) : Parses 10 tS10ToD s ↔ FitsDecimals (fraction 10 s) :=
  parse_iff spells10 (fun s => by
    rw [fractionOf_dropWhile rfl, afterPrefix_none (by decide) (by decide)]) s

theorem tS16ToD_iff (s : List UInt8) : Parses 16 tS16ToD s ↔ FitsDecimals (fraction 16 s) :=
  parse_iff spells16 (fun s => by rw [skip0_eq]; rfl) s

/-- A run of zeros that ends behind the array is written out in full. -/
theorem parses_iff (s : List UInt8) :
    (Parses 2 tS2ToD s ↔ FitsDecimals (fraction 2 s)) ∧
    (Parses 8 tS8ToD s ↔ FitsDecimals (fraction 8 s)) ∧
    (Parses 10 tS10ToD s ↔ FitsDecimals (fraction 10 s)) ∧
    (Parses 16 tS16ToD s ↔ FitsDecimals (fraction 16 s)) :=
  ⟨tS2ToD_iff s, tS8ToD_iff s, tS10ToD_iff s, tS16ToD_iff s⟩

/-- A point, 256 zeros and a one. -/
def zerosThenOne : List UInt8 := 46 :: List.replicate 256 48 ++ [49]

/-- A parser that leaves the array on it. -/
theorem not_parses_of_isNone (h : (toD s).isNone = true) : ¬ Parses base toD s := by
  rintro ⟨parsed, hparsed, _⟩
  rw [hparsed] at h
  cases h

theorem not_parses : ¬ Parses 2 tS2ToD zerosThenOne ∧ ¬ Parses 8 tS8ToD zerosThenOne ∧
    ¬ Parses 10 tS10ToD zerosThenOne ∧ ¬ Parses 16 tS16ToD zerosThenOne := by
  have hnone : (tS2ToD zerosThenOne).isNone ∧ (tS8ToD zerosThenOne).isNone ∧
      (tS10ToD zerosThenOne).isNone ∧ (tS16ToD zerosThenOne).isNone := by decide +kernel
  obtain ⟨h2, h8, h10, h16⟩ := hnone
  exact ⟨not_parses_of_isNone h2, not_parses_of_isNone h8, not_parses_of_isNone h10,
    not_parses_of_isNone h16⟩

end BigBox.TypeC
