import BigBox.StrOpt.StrOpt

namespace BigBox.StrOpt
open Hex Loop
set_option autoImplicit true

/-- What the decoder makes of a text that its index can reach. -/
def percentDecode : List UInt8 → List UInt8
  | [] => []
  | [a] => [a]
  | [a, b] => [a, b]
  | c :: a :: b :: rest =>
    if c = 37 then UInt8.ofInt (strtolHex [a, b]) :: percentDecode rest
    else c :: percentDecode (a :: b :: rest)

theorem percentDecode_cons (h : c ≠ 37) (rest : List UInt8) :
    percentDecode (c :: rest) = c :: percentDecode rest := by
  match rest with
  | [] => rfl
  | [_] => rfl
  | _ :: _ :: _ => rw [percentDecode, if_neg h]

theorem percentDecode_percent (a b : UInt8) (rest : List UInt8) :
    percentDecode (37 :: a :: b :: rest) =
      UInt8.ofInt (strtolHex [a, b]) :: percentDecode rest := by
  rw [percentDecode, if_pos rfl]

theorem length_percentDecode_le (text : List UInt8) :
    (percentDecode text).length ≤ text.length := by
  induction text using percentDecode.induct with
  | case1 => exact Nat.le_refl _
  | case2 a => exact Nat.le_refl _
  | case3 a b => exact Nat.le_refl _
  | case4 a b rest ih =>
    rw [percentDecode_percent]
    simp only [List.length_cons]
    omega
  | case5 c a b rest hc ih =>
    rw [percentDecode_cons hc]
    exact Nat.succ_le_succ ih

/-- A text decodes to itself where no percent sign has two characters behind it. -/
theorem percentDecode_eq_self_iff (text : List UInt8) : percentDecode text = text ↔
    ∀ i, text[i]? = some 37 → text.length ≤ i + 2 := by
  induction text using percentDecode.induct with
  | case1 => exact iff_of_true rfl fun i _ => Nat.zero_le _
  | case2 a =>
    refine iff_of_true rfl fun i _ => ?_
    simp only [List.length_cons, List.length_nil]
    omega
  | case3 a b =>
    refine iff_of_true rfl fun i _ => ?_
    simp only [List.length_cons, List.length_nil]
    omega
  | case4 a b rest ih =>
    refine iff_of_false (fun h => ?_) fun h => ?_
    · have hlen := congrArg List.length h
      have hle := length_percentDecode_le rest
      rw [percentDecode_percent, List.length_cons, List.length_cons, List.length_cons,
        List.length_cons] at hlen
      omega
    · have hlen := h 0 rfl
      simp only [List.length_cons] at hlen
      omega
  | case5 c a b rest hc ih =>
    rw [percentDecode_cons hc, List.cons_inj_right, ih]
    constructor
    · intro h i hi
      cases i with
      | zero => exact absurd (Option.some.inj hi) hc
      | succ i =>
        have hlen := h i hi
        rw [List.length_cons]
        omega
    · intro h i hi
      have hlen := h (i + 1) hi
      rw [List.length_cons] at hlen
      omega

section Decode
variable {input pre rest sout out : List UInt8}

theorem getD_behind (pre : List UInt8) (c : UInt8) (rest : List UInt8) :
    (pre ++ c :: rest).getD pre.length 0 = c := by
  rw [List.getD_eq_getElem?_getD, List.getElem?_append_right (Nat.le_refl _), Nat.sub_self]
  rfl

/-- The index wraps around at a percent sign that is the last of 2 ^ 32 - 1 characters. -/
def NoWrap (input : List UInt8) : Prop :=
  input.length + 1 < 4294967296 ∨ input.getLast? ≠ some 37

theorem percentRound_plain (hlen : (pre ++ c :: rest).length < 4294967296)
    (hwrap : NoWrap (pre ++ c :: rest)) (h : c ≠ 37 ∨ rest.length < 2) :
    percentRound (pre ++ c :: rest) (pre.length, sout) =
      some (.next ((pre ++ [c]).length, sout ++ [c])) := by
  have hlength : (pre ++ c :: rest).length = pre.length + rest.length + 1 := by
    rw [List.length_append, List.length_cons, Nat.add_assoc]
  have hnext : unsigned (pre.length + 1) = (pre ++ [c]).length := by
    rw [unsigned_of_lt (by omega), List.length_append, List.length_singleton]
  rw [percentRound, if_pos (by omega), getD_behind]
  dsimp only
  split
  · next hc =>
    have hbehind : ¬ unsigned (pre.length + 2) < (pre ++ c :: rest).length := by
      have hshort := h.resolve_left fun hne => hne hc
      have hroom : pre.length + 2 < 4294967296 := by
        obtain hroom | hlast := hwrap
        · omega
        · by_contra hno
          have hnil : rest = [] := List.eq_nil_of_length_eq_zero (by omega)
          rw [hnil, hc, List.getLast?_append] at hlast
          exact hlast rfl
      rw [unsigned_of_lt hroom]
      omega
    rw [if_neg hbehind, hnext]
  · rw [hnext]

theorem percentRound_percent {a b : UInt8}
    (hlen : (pre ++ 37 :: a :: b :: rest).length < 4294967296) :
    percentRound (pre ++ 37 :: a :: b :: rest) (pre.length, sout) =
      some (.next ((pre ++ [37, a, b]).length, sout ++ [UInt8.ofInt (strtolHex [a, b])])) := by
  have hlength : (pre ++ 37 :: a :: b :: rest).length = pre.length + rest.length + 3 := by
    simp only [List.length_append, List.length_cons]
    omega
  have hnext : unsigned (unsigned (pre.length + 2) + 1) = (pre ++ [37, a, b]).length := by
    rw [unsigned_of_lt (n := pre.length + 2) (by omega), unsigned_of_lt (by omega),
      List.length_append]
    rfl
  have hsub : substr (pre ++ 37 :: a :: b :: rest) (unsigned (pre.length + 1)) 2 = [a, b] := by
    rw [substr, unsigned_of_lt (by omega), List.drop_append, List.drop_of_length_le (by omega),
      Nat.add_sub_cancel_left]
    rfl
  rw [percentRound, if_pos (by omega), getD_behind]
  dsimp only
  rw [if_pos rfl, if_pos (by rw [unsigned_of_lt (by omega)]; omega), hsub, hnext]

theorem percentRound_end : percentRound input (input.length, sout) = some (.done sout) := by
  rw [percentRound, if_neg (Nat.lt_irrefl _)]

theorem returns_percent (hlen : (pre ++ rest).length < 4294967296) (hwrap : NoWrap (pre ++ rest)) :
    Returns (percentRound (pre ++ rest)) (pre.length, sout) out ↔
      sout ++ percentDecode rest = out := by
  have hplain : ∀ {pre sout out} {c : UInt8} {rest : List UInt8},
      (pre ++ c :: rest).length < 4294967296 → NoWrap (pre ++ c :: rest) →
      c ≠ 37 ∨ rest.length < 2 →
      (Returns (percentRound ((pre ++ [c]) ++ rest)) ((pre ++ [c]).length, sout ++ [c]) out ↔
        sout ++ [c] ++ percentDecode rest = out) →
      (Returns (percentRound (pre ++ c :: rest)) (pre.length, sout) out ↔
        sout ++ c :: percentDecode rest = out) := by
    intro pre sout out c rest hlen hwrap h hrest
    rw [List.append_assoc, List.append_assoc] at hrest
    rw [returns_next (percentRound_plain hlen hwrap h)]
    exact hrest
  have hend : ∀ {input sout out : List UInt8},
      Returns (percentRound (input ++ [])) (input.length, sout) out ↔
        sout ++ percentDecode [] = out := by
    intro input sout out
    rw [List.append_nil]
    rw [returns_done percentRound_end, percentDecode, List.append_nil]
  induction rest using percentDecode.induct generalizing pre sout with
  | case1 => exact hend
  | case2 a => exact hplain hlen hwrap (.inr (by decide)) hend
  | case3 a b =>
    refine hplain hlen hwrap (.inr (Nat.lt_succ_self 1)) (hplain ?_ ?_ (.inr (by decide)) hend)
    · rwa [List.append_assoc]
    · rwa [List.append_assoc]
  | case4 a b rest ih =>
    have hsplit : pre ++ 37 :: a :: b :: rest = (pre ++ [37, a, b]) ++ rest := by
      rw [List.append_assoc]
      rfl
    have hlen' : (pre ++ [37, a, b] ++ rest).length < 4294967296 := hsplit ▸ hlen
    have hwrap' : NoWrap (pre ++ [37, a, b] ++ rest) := hsplit ▸ hwrap
    rw [returns_next (percentRound_percent hlen), percentDecode_percent, hsplit]
    refine (ih hlen' hwrap').trans ?_
    rw [List.append_assoc]
    rfl
  | case5 c a b rest hc ih =>
    have hsplit : pre ++ c :: a :: b :: rest = (pre ++ [c]) ++ a :: b :: rest := by
      rw [List.append_assoc]
      rfl
    rw [percentDecode_cons hc]
    exact hplain hlen hwrap (.inl hc) (ih (hsplit ▸ hlen) (hsplit ▸ hwrap))

theorem returns_percent_start (hlen : input.length < 4294967296) (hwrap : NoWrap input) :
    Returns (percentRound input) (0, []) out ↔ percentDecode input = out :=
  @returns_percent [] input [] out hlen hwrap

/-- A loop whose index wraps around is over only where the index can reach. -/
theorem not_returns_long {round : Nat × List UInt8 → Option (Round (Nat × List UInt8) (List UInt8))}
    (hdone : ∀ i sout out, i < 4294967296 → round (i, sout) ≠ some (.done out))
    (hnext : ∀ i sout s', round (i, sout) = some (.next s') → s'.1 < 4294967296) :
    ¬ Returns round (0, []) out := by
  intro h
  obtain ⟨s, hlt, hover⟩ := h.last (P := fun s => s.1 < 4294967296) (Nat.zero_lt_succ _)
    fun s s' _ hround => hnext s.1 s.2 s' hround
  exact hdone s.1 s.2 out hlt hover

theorem percentRound_index (h : percentRound input (i, sout) = some (.next s')) :
    s'.1 < 4294967296 := by
  rw [percentRound] at h
  dsimp only at h
  split at h
  · split at h
    · split at h
      · cases h
        exact unsigned_lt _
      · cases h
        exact unsigned_lt _
    · cases h
      exact unsigned_lt _
  · cases h

theorem percentRound_done (h : percentRound input (i, sout) = some (.done out)) :
    input.length ≤ i := by
  rw [percentRound] at h
  dsimp only at h
  split at h
  · split at h
    · split at h
      · cases h
      · cases h
    · cases h
  · next hlt => exact Nat.le_of_not_lt hlt

theorem not_returns_percent (hlen : 4294967296 ≤ input.length) :
    ¬ Returns (percentRound input) (0, []) out := by
  refine not_returns_long (fun i sout out hlt hdone => ?_) fun i sout s' => percentRound_index
  exact Nat.not_lt_of_le (percentRound_done hdone) (Nat.lt_of_lt_of_le hlt hlen)

/-- A digit and a percent sign are not the number of a percent sign. -/
theorem strtolHex_percent (x : UInt8) : UInt8.ofInt (strtolHex [x, 37]) ≠ 37 := by
  revert x
  apply forall_byte
  decide +kernel

/-- Where the index wraps around at the last percent sign, nothing that is returned has one. -/
theorem getLast_of_wrap (hlen : input.length + 1 = 4294967296) (hlast : input.getLast? = some 37)
    (h : Returns (percentRound input) (0, []) out) : out.getLast? ≠ some 37 := by
  have hend : ∀ i, i + 1 = input.length → input.getD i 0 = 37 := by
    intro i hi
    rw [List.getLast?_eq_getElem?, ← hi, Nat.add_sub_cancel] at hlast
    rw [List.getD_eq_getElem?_getD, hlast]
    rfl
  have hkeep : ∀ s s', (s.1 < input.length ∨ s.2.getLast? ≠ some 37) →
      percentRound input s = some (.next s') →
      s'.1 < input.length ∨ s'.2.getLast? ≠ some 37 := by
    rintro ⟨i, sout⟩ s' - hnext
    rw [percentRound] at hnext
    dsimp only at hnext
    split at hnext
    case isFalse => cases hnext
    case isTrue hlt =>
      have hone : i + 1 < input.length ∨ input.getD i 0 = 37 := by
        by_cases hi : i + 1 = input.length
        · exact .inr (hend i hi)
        · exact .inl (by omega)
      split at hnext
      case isFalse hc =>
        cases hnext
        left
        dsimp only
        have hi := hone.resolve_right hc
        rwa [unsigned_of_lt (by omega)]
      case isTrue hc =>
        split at hnext
        case isFalse hroom =>
          cases hnext
          left
          dsimp only
          have hi : i + 1 < input.length := by
            by_contra hno
            have hzero : unsigned (i + 2) = 0 := by
              have hsum : i + 2 = 4294967296 := by omega
              rw [hsum]
              unfold unsigned
              rfl
            omega
          rwa [unsigned_of_lt (by omega)]
        case isTrue hroom =>
          cases hnext
          by_cases hi : i + 3 = input.length
          · right
            have hsub : substr input (unsigned (i + 1)) 2 = [input.getD (i + 1) 0, 37] := by
              rw [unsigned_of_lt (by omega), substr, ← hend (i + 2) (by omega)]
              rw [List.getD_eq_getElem _ _ (by omega), List.getD_eq_getElem _ _ (by omega)]
              rw [List.drop_eq_getElem_cons (by omega), List.drop_eq_getElem_cons (by omega)]
              rfl
            rw [hsub, List.getLast?_append]
            intro heq
            exact strtolHex_percent _ (Option.some.inj heq)
          · left
            dsimp only
            by_cases hwrap : i + 2 < 4294967296
            · rw [unsigned_of_lt hwrap] at hroom ⊢
              rw [unsigned_of_lt (by omega)]
              omega
            · have hzero : unsigned (i + 2) = 0 := by
                have hsum : i + 2 = 4294967296 := by omega
                rw [hsum]
                unfold unsigned
                rfl
              rw [hzero, unsigned_of_lt (by omega)]
              omega
  obtain ⟨⟨i, sout⟩, hinv, hdone⟩ := h.last (.inl (by dsimp only; omega)) hkeep
  have hle := percentRound_done hdone
  rw [percentRound, if_neg (Nat.not_lt_of_le hle)] at hdone
  cases hdone
  exact hinv.resolve_left (Nat.not_lt_of_le hle)

end Decode

end BigBox.StrOpt
