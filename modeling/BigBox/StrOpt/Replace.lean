import BigBox.StrOpt.Percent

namespace BigBox.StrOpt
open Hex Loop
set_option autoImplicit true

/-- What a character is replaced by decodes to it, and the percent sign is replaced. -/
structure Escapes (case : UInt8 → Option (List UInt8)) : Prop where
  spell : ∀ c text, case c = some text →
    ∃ a b, text = [37, a, b] ∧ UInt8.ofInt (strtolHex [a, b]) = c ∧ b ≠ 37
  percent : case 37 ≠ none

theorem hexDigit_ne (h : n < 16) : hexDigit n ≠ 37 := by
  revert n
  decide

theorem hexPair_spell (c : UInt8) : ∃ a b, 37 :: hexPair c = [37, a, b] ∧
    UInt8.ofInt (strtolHex [a, b]) = c ∧ b ≠ 37 := by
  have hlt := c.toNat_lt
  exact ⟨_, _, rfl, strtolHex_hexPair c, hexDigit_ne (by omega)⟩

theorem escapes_pathEl : Escapes pathElCase := by
  refine ⟨fun c text h => ?_, by decide⟩
  rw [pathElCase] at h
  split at h
  · next hc =>
    cases h
    exact ⟨50, 102, rfl, by rw [hc]; decide, by decide⟩
  · split at h
    · next hc =>
      cases h
      exact ⟨50, 53, rfl, by rw [hc]; decide, by decide⟩
    · cases h

theorem escapes_httpURL : Escapes httpURLCase := by
  refine ⟨fun c text h => ?_, by decide⟩
  rw [httpURLCase] at h
  split at h
  · next hc =>
    cases h
    exact ⟨50, 53, rfl, by rw [hc]; decide, by decide⟩
  · split at h
    · next hc =>
      cases h
      exact ⟨50, 48, rfl, by rw [hc]; decide, by decide⟩
    · split at h
      · next hc =>
        cases h
        exact ⟨48, 57, rfl, by rw [hc]; decide, by decide⟩
      · split at h
        · cases h
          exact hexPair_spell c
        · cases h

section Replace
variable {case : UInt8 → Option (List UInt8)} {pre rest t s out : List UInt8}

theorem Escapes.ne (h : Escapes case) (hc : case c = none) : c ≠ 37 := by
  rintro rfl
  exact h.percent hc

theorem Escapes.length (h : Escapes case) (hc : case c = some text) : text.length = 3 := by
  obtain ⟨a, b, rfl, _⟩ := h.spell c text hc
  rfl

theorem Escapes.decode (h : Escapes case) (hc : case c = some text) (rest : List UInt8) :
    percentDecode (text ++ rest) = c :: percentDecode rest := by
  obtain ⟨a, b, rfl, hspell, _⟩ := h.spell c text hc
  exact (percentDecode_percent a b rest).trans (congrArg (· :: percentDecode rest) hspell)

/-- What the loop makes of what is behind `p` characters, if there are less than 2 ^ 32. -/
def replaced (case : UInt8 → Option (List UInt8)) : Nat → List UInt8 → Option (List UInt8)
  | _, [] => some []
  | p, c :: rest =>
    if p + rest.length + 1 < 2147483648 then
      match case c with
      | some text =>
        if p + 3 < 2147483648 then (replaced case (p + 3) rest).map (text ++ ·) else none
      | none => (replaced case (p + 1) rest).map (c :: ·)
    else some (c :: rest)

theorem addInt_eq (i n : Nat) (h : i + n < 2147483648) : addInt i n = some (i + n) := if_pos h

theorem addInt_addInt (i : Nat) : ((addInt i 2).bind fun i => addInt i 1) = addInt i 3 := by
  rw [addInt, addInt]
  split
  · rw [Option.bind_some, addInt]
  · rw [Option.bind_none, if_neg (by omega)]

theorem replaceRound_end (h : 2147483648 ≤ t.length ∨ t.length ≤ i)
    (hlen : t.length < 4294967296) : replaceRound case (i, t) = some (.done t) := by
  have hend : ¬ (i : Int) < toInt t.length := by
    by_cases hbig : 2147483648 ≤ t.length
    · rw [toInt_of_le hbig hlen]
      omega
    · rw [toInt_of_lt (by omega)]
      omega
  rw [replaceRound, if_neg hend]

theorem replaceRound_some (hsize : pre.length + rest.length + 1 < 2147483648)
    (hc : case c = some text) :
    replaceRound case (pre.length, pre ++ c :: rest) =
      (addInt pre.length 3).map fun i => .next (i, pre ++ text ++ rest) := by
  have hlength : (pre ++ c :: rest).length = pre.length + rest.length + 1 := by
    rw [List.length_append, List.length_cons, Nat.add_assoc]
  have hdrop : (pre ++ c :: rest).drop (pre.length + 1) = rest := by
    rw [List.drop_append, List.drop_of_length_le (by omega), Nat.add_sub_cancel_left]
    rfl
  rw [replaceRound, if_pos (by rw [hlength, toInt_of_lt hsize]; omega), getD_behind, hc,
    ← addInt_addInt]
  dsimp only
  rw [List.take_left' rfl, hdrop]
  cases addInt pre.length 2 with
  | none => rfl
  | some i =>
    rw [Option.bind_some]
    cases h : addInt i 1 with
    | none =>
      simp only [Option.bind_eq_bind, Option.bind_some, h, Option.bind_none, Option.map_none]
    | some j => simp only [Option.bind_eq_bind, Option.bind_some, h, Option.map_some]; rfl

theorem replaceRound_none (hsize : pre.length + rest.length + 1 < 2147483648)
    (hc : case c = none) :
    replaceRound case (pre.length, pre ++ c :: rest) =
      some (.next (pre.length + 1, pre ++ c :: rest)) := by
  have hlength : (pre ++ c :: rest).length = pre.length + rest.length + 1 := by
    rw [List.length_append, List.length_cons, Nat.add_assoc]
  rw [replaceRound, if_pos (by rw [hlength, toInt_of_lt hsize]; omega), getD_behind, hc]
  dsimp only
  rw [addInt_eq _ _ (by omega)]
  rfl

theorem returns_replace (hcase : Escapes case) (hsize : pre.length + rest.length < 4294967296) :
    Returns (replaceRound case) (pre.length, pre ++ rest) out ↔
      ∃ t, replaced case pre.length rest = some t ∧ pre ++ t = out := by
  induction rest generalizing pre with
  | nil =>
    rw [List.append_nil]
    rw [returns_done (replaceRound_end (.inr (Nat.le_refl _)) hsize), replaced]
    constructor
    · rintro rfl
      exact ⟨[], rfl, List.append_nil _⟩
    · rintro ⟨t, ht, rfl⟩
      cases ht
      exact (List.append_nil _).symm
  | cons c rest ih =>
    rw [List.length_cons] at hsize
    rw [replaced]
    by_cases hsmall : pre.length + rest.length + 1 < 2147483648
    · rw [if_pos hsmall]
      cases hc : case c with
      | some text =>
        have htext := hcase.length hc
        have hround := replaceRound_some hsmall hc
        dsimp only
        by_cases hroom : pre.length + 3 < 2147483648
        · rw [addInt_eq _ _ hroom, Option.map_some] at hround
          have hlength : (pre ++ text).length = pre.length + 3 := by
            rw [List.length_append, htext]
          rw [if_pos hroom, returns_next hround, ← hlength, ih (by omega)]
          constructor
          · rintro ⟨t, ht, rfl⟩
            exact ⟨text ++ t, by rw [ht]; rfl, (List.append_assoc ..).symm⟩
          · rintro ⟨t, ht, rfl⟩
            obtain ⟨t', ht', rfl⟩ := Option.map_eq_some_iff.1 ht
            exact ⟨t', ht', List.append_assoc ..⟩
        · rw [addInt, if_neg hroom, Option.map_none] at hround
          rw [if_neg hroom]
          refine iff_of_false (not_returns_of_none hround) ?_
          rintro ⟨t, ht, _⟩
          cases ht
      | none =>
        have hsplit : pre ++ c :: rest = pre ++ [c] ++ rest := by
          rw [List.append_assoc]
          rfl
        have hlength : (pre ++ [c]).length = pre.length + 1 := by
          rw [List.length_append, List.length_singleton]
        dsimp only
        rw [returns_next (replaceRound_none hsmall hc), hsplit, ← hlength, ih (by omega)]
        constructor
        · rintro ⟨t, ht, rfl⟩
          exact ⟨c :: t, by rw [ht]; rfl, by rw [List.append_assoc]; rfl⟩
        · rintro ⟨t, ht, rfl⟩
          obtain ⟨t', ht', rfl⟩ := Option.map_eq_some_iff.1 ht
          exact ⟨t', ht', by rw [List.append_assoc]; rfl⟩
    · have hlength : (pre ++ c :: rest).length = pre.length + rest.length + 1 := by
        rw [List.length_append, List.length_cons, Nat.add_assoc]
      rw [if_neg hsmall, returns_done (replaceRound_end (.inl (by omega)) (by omega))]
      constructor
      · rintro rfl
        exact ⟨_, rfl, rfl⟩
      · rintro ⟨t, ht, rfl⟩
        cases ht
        rfl

theorem replaced_big (hbig : 2147483648 ≤ p + rest.length) : replaced case p rest = some rest := by
  cases rest with
  | nil => rfl
  | cons c rest =>
    rw [List.length_cons] at hbig
    rw [replaced, if_neg (by omega)]

/-- The text stops growing shortly behind 2 ^ 31 characters. -/
theorem replaced_length (hcase : Escapes case) (hp : p < 2147483648)
    (h : replaced case p rest = some t) :
    t = rest ∧ 2147483648 ≤ p + rest.length ∨ p + t.length < 2147483650 := by
  induction rest generalizing p t with
  | nil =>
    cases h
    exact .inr (by rw [List.length_nil]; omega)
  | cons c rest ih =>
    rw [replaced] at h
    split at h
    case isFalse hbig =>
      cases h
      exact .inl ⟨rfl, by rw [List.length_cons]; omega⟩
    case isTrue hsmall =>
      cases hc : case c with
      | some text =>
        rw [hc] at h
        dsimp only at h
        split at h
        case isFalse => cases h
        case isTrue hroom =>
          obtain ⟨t', ht', rfl⟩ := Option.map_eq_some_iff.1 h
          rw [List.length_append, hcase.length hc]
          obtain ⟨rfl, _⟩ | hlen := ih hroom ht'
          · exact .inr (by omega)
          · exact .inr (by omega)
      | none =>
        rw [hc] at h
        obtain ⟨t', ht', rfl⟩ := Option.map_eq_some_iff.1 h
        right
        rw [List.length_cons]
        obtain ⟨rfl, _⟩ | hlen := ih (by omega) ht'
        · omega
        · omega

/-- The number of characters that are replaced. -/
def escapedCount (case : UInt8 → Option (List UInt8)) (s : List UInt8) : Nat :=
  s.countP fun c => (case c).isSome

/-- What the rest of a text has to be like behind `p` characters. The index does not overflow at a
character that is replaced, and where the text has grown to 2 ^ 31 characters and is left as it is,
no percent sign has two characters behind it. -/
structure RestFits (case : UInt8 → Option (List UInt8)) (p : Nat) (rest : List UInt8) : Prop where
  index : ∀ k c, rest[k]? = some c → case c ≠ none →
    p + rest.length + 2 * escapedCount case (rest.take k) < 2147483648 →
    p + k + 2 * escapedCount case (rest.take k) + 3 < 2147483648
  plain : ∀ k i, 2147483648 ≤ p + rest.length + 2 * escapedCount case (rest.take k) → k ≤ i →
    rest[i]? = some 37 → rest.length ≤ i + 2

theorem escapedCount_cons (case : UInt8 → Option (List UInt8)) (c : UInt8) (s : List UInt8) :
    escapedCount case (c :: s) = escapedCount case s + if (case c).isSome then 1 else 0 :=
  List.countP_cons

theorem restFits_nil (p : Nat) : RestFits case p [] := by
  refine ⟨fun k c hk => ?_, fun k i _ _ hi => ?_⟩
  · rw [List.getElem?_nil] at hk
    cases hk
  · rw [List.getElem?_nil] at hi
    cases hi

theorem restFits_some (hc : case c = some text) (hsmall : p + rest.length + 1 < 2147483648) :
    RestFits case p (c :: rest) ↔ p + 3 < 2147483648 ∧ RestFits case (p + 3) rest := by
  have hcount : ∀ k, escapedCount case ((c :: rest).take (k + 1)) =
      escapedCount case (rest.take k) + 1 := by
    intro k
    rw [List.take_succ_cons, escapedCount_cons, hc]
    rfl
  constructor
  · intro h
    have hzero := h.index 0 c rfl (by rw [hc]; exact Option.some_ne_none _)
      (by rw [List.length_cons]; exact hsmall)
    refine ⟨hzero, ⟨fun k d hk hd hlen => ?_, fun k i hlen hki hi => ?_⟩⟩
    · have hsucc := h.index (k + 1) d hk hd (by rw [hcount, List.length_cons]; omega)
      rw [hcount] at hsucc
      omega
    · have hsucc := h.plain (k + 1) (i + 1) (by rw [hcount, List.length_cons]; omega)
        (Nat.succ_le_succ hki) hi
      rw [List.length_cons] at hsucc
      omega
  · rintro ⟨hzero, h⟩
    refine ⟨fun k d hk hd hlen => ?_, fun k i hlen hki hi => ?_⟩
    · cases k with
      | zero => exact hzero
      | succ k =>
        rw [hcount, List.length_cons] at hlen
        have hrest := h.index k d hk hd (by omega)
        rw [hcount]
        omega
    · cases k with
      | zero =>
        rw [List.length_cons] at hlen
        exact absurd hlen (Nat.not_le_of_lt hsmall)
      | succ k =>
        rw [hcount, List.length_cons] at hlen
        cases i with
        | zero => omega
        | succ i =>
          have hrest := h.plain k i (by omega) (Nat.le_of_succ_le_succ hki) hi
          rw [List.length_cons]
          omega

theorem restFits_none (hc : case c = none) (hsmall : p + rest.length + 1 < 2147483648) :
    RestFits case p (c :: rest) ↔ RestFits case (p + 1) rest := by
  have hcount : ∀ k, escapedCount case ((c :: rest).take (k + 1)) =
      escapedCount case (rest.take k) := by
    intro k
    rw [List.take_succ_cons, escapedCount_cons, hc]
    rfl
  constructor
  · intro h
    refine ⟨fun k d hk hd hlen => ?_, fun k i hlen hki hi => ?_⟩
    · have hsucc := h.index (k + 1) d hk hd (by rw [hcount, List.length_cons]; omega)
      rw [hcount] at hsucc
      omega
    · have hsucc := h.plain (k + 1) (i + 1) (by rw [hcount, List.length_cons]; omega)
        (Nat.succ_le_succ hki) hi
      rw [List.length_cons] at hsucc
      omega
  · intro h
    refine ⟨fun k d hk hd hlen => ?_, fun k i hlen hki hi => ?_⟩
    · cases k with
      | zero =>
        cases hk
        exact absurd hc hd
      | succ k =>
        rw [hcount, List.length_cons] at hlen
        have hrest := h.index k d hk hd (by omega)
        rw [hcount]
        omega
    · cases k with
      | zero =>
        rw [List.length_cons] at hlen
        exact absurd hlen (Nat.not_le_of_lt hsmall)
      | succ k =>
        rw [hcount, List.length_cons] at hlen
        cases i with
        | zero => omega
        | succ i =>
          have hrest := h.plain k i (by omega) (Nat.le_of_succ_le_succ hki) hi
          rw [List.length_cons]
          omega

theorem restFits_big (hbig : 2147483648 ≤ p + rest.length) :
    RestFits case p rest ↔ percentDecode rest = rest := by
  rw [percentDecode_eq_self_iff]
  constructor
  · intro h i hi
    exact h.plain 0 i (by omega) (Nat.zero_le i) hi
  · intro h
    refine ⟨fun k d hk hd hlen => ?_, fun k i _ _ hi => h i hi⟩
    omega

theorem replaced_decode_iff (hcase : Escapes case) :
    (∃ t, replaced case p rest = some t ∧ percentDecode t = rest) ↔ RestFits case p rest := by
  induction rest generalizing p with
  | nil => exact iff_of_true ⟨[], rfl, rfl⟩ (restFits_nil p)
  | cons c rest ih =>
    rw [replaced]
    split
    case isFalse hbig =>
      rw [restFits_big (by rw [List.length_cons]; omega)]
      constructor
      · rintro ⟨t, ht, hdecode⟩
        cases ht
        exact hdecode
      · exact fun hdecode => ⟨_, rfl, hdecode⟩
    case isTrue hsmall =>
      cases hc : case c with
      | some text =>
        rw [restFits_some hc hsmall, ← ih]
        dsimp only
        constructor
        · rintro ⟨t, ht, hdecode⟩
          split at ht
          case isFalse => cases ht
          case isTrue hroom =>
            obtain ⟨t', ht', rfl⟩ := Option.map_eq_some_iff.1 ht
            rw [hcase.decode hc] at hdecode
            exact ⟨hroom, t', ht', (List.cons.inj hdecode).2⟩
        · rintro ⟨hroom, t', ht', hdecode⟩
          rw [if_pos hroom, ht']
          exact ⟨_, rfl, by rw [hcase.decode hc, hdecode]⟩
      | none =>
        rw [restFits_none hc hsmall, ← ih]
        dsimp only
        constructor
        · rintro ⟨t, ht, hdecode⟩
          obtain ⟨t', ht', rfl⟩ := Option.map_eq_some_iff.1 ht
          rw [percentDecode_cons (hcase.ne hc)] at hdecode
          exact ⟨t', ht', (List.cons.inj hdecode).2⟩
        · rintro ⟨t', ht', hdecode⟩
          rw [ht']
          exact ⟨_, rfl, by rw [percentDecode_cons (hcase.ne hc), hdecode]⟩

theorem length_le_of_returns (hcase : Escapes case)
    (h : Returns (replaceRound case) (0, s) out) : s.length ≤ out.length := by
  have hkeep : ∀ r r' : Nat × List UInt8, s.length ≤ r.2.length →
      replaceRound case r = some (.next r') → s.length ≤ r'.2.length := by
    rintro ⟨i, sout⟩ r' hle hnext
    rw [replaceRound] at hnext
    split at hnext
    case isFalse => cases hnext
    case isTrue hlt =>
      have hi : i < sout.length := by
        have hle := toInt_le sout.length
        omega
      split at hnext
      case h_1 text hc =>
        simp only [Option.bind_eq_bind, Option.bind_eq_some_iff] at hnext
        obtain ⟨_, _, _, _, hnext⟩ := hnext
        cases hnext
        have htext := hcase.length hc
        simp only [List.length_append, List.length_take, List.length_drop, htext]
        dsimp only at hle
        omega
      case h_2 =>
        simp only [Option.bind_eq_bind, Option.bind_eq_some_iff] at hnext
        obtain ⟨_, _, hnext⟩ := hnext
        cases hnext
        exact hle
  obtain ⟨⟨i, sout⟩, hle, hdone⟩ := h.last (Nat.le_refl s.length) hkeep
  rw [replaceRound] at hdone
  split at hdone
  case isFalse =>
    cases hdone
    exact hle
  case isTrue =>
    split at hdone
    case h_1 =>
      simp only [Option.bind_eq_bind, Option.bind_eq_some_iff] at hdone
      obtain ⟨_, _, _, _, hdone⟩ := hdone
      cases hdone
    case h_2 =>
      simp only [Option.bind_eq_bind, Option.bind_eq_some_iff] at hdone
      obtain ⟨_, _, hdone⟩ := hdone
      cases hdone

/-- The texts that survive a replacement in place. -/
structure ReplaceFits (case : UInt8 → Option (List UInt8)) (s : List UInt8) : Prop where
  length : s.length < 4294967296
  wrap : NoWrap s
  rest : RestFits case 0 s

theorem replace_roundTrip_iff (hcase : Escapes case) (s : List UInt8) :
    (∃ t, Returns (replaceRound case) (0, s) t ∧ Returns (percentRound t) (0, []) s) ↔
      ReplaceFits case s := by
  have hencode : s.length < 4294967296 → ∀ t, Returns (replaceRound case) (0, s) t ↔
      replaced case 0 s = some t := by
    intro hlen t
    have hsize : ([] : List UInt8).length + s.length < 4294967296 := by
      rwa [List.length_nil, Nat.zero_add]
    refine (@returns_replace case [] s t hcase hsize).trans ⟨?_, fun ht => ⟨t, ht, rfl⟩⟩
    rintro ⟨t, ht, rfl⟩
    exact ht
  have hfits : ∀ t, s.length < 4294967296 → NoWrap s → replaced case 0 s = some t →
      (Returns (percentRound t) (0, []) s ↔ percentDecode t = s) := by
    intro t hlen hwrap ht
    have hdecode : t.length < 4294967296 → NoWrap t →
        (Returns (percentRound t) (0, []) s ↔ percentDecode t = s) :=
      returns_percent_start
    obtain ⟨rfl, _⟩ | hshort := replaced_length hcase (by decide) ht
    · exact hdecode hlen hwrap
    · exact hdecode (by omega) (.inl (by omega))
  constructor
  · rintro ⟨t, hencodes, hdecodes⟩
    have hlen : s.length < 4294967296 := by
      by_contra hbig
      have hle := length_le_of_returns hcase hencodes
      exact not_returns_percent (by omega) hdecodes
    rw [hencode hlen] at hencodes
    have hwrap : NoWrap s := by
      by_contra hno
      obtain ⟨hlong, hlast⟩ := not_or.1 hno
      have hlast := Classical.not_not.1 hlast
      cases (replaced_big (by omega)).symm.trans hencodes
      exact getLast_of_wrap (by omega) hlast hdecodes hlast
    exact ⟨hlen, hwrap, (replaced_decode_iff hcase).1
      ⟨t, hencodes, (hfits t hlen hwrap hencodes).1 hdecodes⟩⟩
  · rintro ⟨hlen, hwrap, hrest⟩
    obtain ⟨t, ht, hdecode⟩ := (replaced_decode_iff hcase).2 hrest
    exact ⟨t, (hencode hlen t).2 ht, (hfits t hlen hwrap ht).2 hdecode⟩

end Replace

end BigBox.StrOpt
