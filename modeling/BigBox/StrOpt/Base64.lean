import BigBox.StrOpt.Custom

namespace BigBox.StrOpt
open Hex Loop
set_option autoImplicit true

/-- What stands in front of the group of the byte `i`. -/
def lineBreak (opt1 : List UInt8) (i : Nat) : List UInt8 :=
  if i ≠ 0 ∧ i % 57 = 0 ∧ opt1.length ≠ 0 then opt1 else []

/-- The letters of the first three bytes, or of as many as there are. -/
def base64Group : List UInt8 → List UInt8
  | [] => []
  | [a] => [base64alph (a.toNat / 4), base64alph (a.toNat % 4 * 16), 61, 61]
  | [a, b] =>
    [base64alph (a.toNat / 4), base64alph (a.toNat % 4 * 16 + b.toNat / 16),
      base64alph (b.toNat % 16 * 4), 61]
  | a :: b :: c :: _ =>
    [base64alph (a.toNat / 4), base64alph (a.toNat % 4 * 16 + b.toNat / 16),
      base64alph (b.toNat % 16 * 4 + c.toNat / 64), base64alph (c.toNat % 64)]

/-- The text of bytes, the first of which is the byte `i`. -/
def base64Text (opt1 : List UInt8) (i : Nat) (rest : List UInt8) : List UInt8 :=
  if rest.length = 0 then []
  else lineBreak opt1 i ++ base64Group rest ++ base64Text opt1 (i + 3) (rest.drop 3)
termination_by rest.length
decreasing_by
  rw [List.length_drop]
  omega

theorem base64Text_nil (opt1 : List UInt8) (i : Nat) : base64Text opt1 i [] = [] := by
  rw [base64Text, if_pos List.length_nil]

theorem base64Text_group (h : 0 < rest.length) : base64Text opt1 i rest =
    lineBreak opt1 i ++ base64Group rest ++ base64Text opt1 (i + 3) (rest.drop 3) := by
  rw [base64Text, if_neg (by omega)]

section Encode
variable {input opt1 pre rest sout out : List UInt8} {i j k : Nat}

theorem length_reached (input : List UInt8) :
    (reached input).length = (toInt input.length).toNat := by
  have hle := toInt_le input.length
  rw [reached, List.length_take]
  omega

theorem reached_getD (h : j < (reached input).length) :
    (reached input).getD j 0 = input.getD j 0 := by
  have hlen := h
  rw [reached, List.length_take] at hlen
  rw [List.getD_eq_getElem _ _ h, List.getD_eq_getElem _ _ (by omega)]
  exact List.getElem_take

/-- The bytes that the group at an index reads. -/
theorem reached_at (hsplit : reached input = pre ++ rest) (hk : k < rest.length) :
    input.getD (pre.length + k) 0 = rest.getD k 0 := by
  have hlen : pre.length + k < (reached input).length := by
    rw [hsplit, List.length_append]
    omega
  rw [← reached_getD hlen, hsplit, List.getD_append_right _ _ _ _ (Nat.le_add_right _ _),
    Nat.add_sub_cancel_left]

theorem letters (a b c : Nat) : a >>> 2 = a / 4 ∧ (a &&& 3) <<< 4 = a % 4 * 16 ∧
    (b &&& 15) <<< 2 = b % 16 * 4 ∧ c &&& 63 = c % 64 := by
  have hand : ∀ x n, x &&& (2 ^ n - 1) = x % 2 ^ n := fun x n => Nat.and_two_pow_sub_one_eq_mod x n
  refine ⟨Nat.shiftRight_eq_div_pow a 2, ?_, ?_, hand c 6⟩
  · rw [Nat.shiftLeft_eq]
    exact congrArg (· * 2 ^ 4) (hand a 2)
  · rw [Nat.shiftLeft_eq]
    exact congrArg (· * 2 ^ 2) (hand b 4)

theorem letters_or (hb : b < 256) (hc : c < 256) :
    a % 4 * 16 ||| b >>> 4 = a % 4 * 16 + b / 16 ∧
      b % 16 * 4 ||| c >>> 6 = b % 16 * 4 + c / 64 := by
  rw [Nat.shiftRight_eq_div_pow, Nat.shiftRight_eq_div_pow, Nat.or_comm, Nat.or_comm (b % 16 * 4)]
  exact ⟨or_mul_two_pow (k := 4) (by omega), or_mul_two_pow (k := 2) (by omega)⟩

theorem lineBreak_eq (opt1 sout : List UInt8) (i : Nat) :
    (if i ≠ 0 ∧ i % 57 = 0 ∧ opt1.length ≠ 0 then sout ++ opt1 else sout) =
      sout ++ lineBreak opt1 i := by
  rw [lineBreak]
  split
  · rfl
  · exact (List.append_nil sout).symm

/-- A round writes the next group. -/
theorem base64Round_group (hsplit : reached input = pre ++ rest) (hrest : 0 < rest.length) :
    base64Round input opt1 (pre.length, sout) = (addInt pre.length 3).map fun j =>
      .next (j, sout ++ (lineBreak opt1 pre.length ++ base64Group rest)) := by
  have hreach := length_reached input
  have hlen := congrArg List.length hsplit
  rw [List.length_append, hreach] at hlen
  have hat := fun k hk => reached_at (k := k) hsplit hk
  have hgroup : base64Group rest = base64alph ((input.getD pre.length 0).toNat / 4) ::
      if toInt input.length ≤ (pre.length + 1 : Nat) then
        [base64alph ((input.getD pre.length 0).toNat % 4 * 16), 61, 61]
      else
        base64alph ((input.getD pre.length 0).toNat % 4 * 16 +
          (input.getD (pre.length + 1) 0).toNat / 16) ::
        if toInt input.length ≤ (pre.length + 2 : Nat) then
          [base64alph ((input.getD (pre.length + 1) 0).toNat % 16 * 4), 61]
        else
          [base64alph ((input.getD (pre.length + 1) 0).toNat % 16 * 4 +
            (input.getD (pre.length + 2) 0).toNat / 64),
            base64alph ((input.getD (pre.length + 2) 0).toNat % 64)] := by
    have hat0 : input.getD pre.length 0 = rest.getD 0 0 := hat 0 hrest
    rw [hat0]
    match rest, hlen, hat with
    | [a], hlen, hat =>
      rw [List.length_singleton] at hlen
      rw [if_pos (by omega)]
      rfl
    | [a, b], hlen, hat =>
      have hlength : [a, b].length = 2 := rfl
      rw [if_neg (by omega), if_pos (by omega), hat 1 (by omega)]
      rfl
    | a :: b :: c :: rest, hlen, hat =>
      have hlength : (a :: b :: c :: rest).length = rest.length + 3 := rfl
      rw [if_neg (by omega), if_neg (by omega), hat 1 (by omega), hat 2 (by omega)]
      rfl
  have hlt : (pre.length : Int) < toInt input.length := by omega
  obtain ⟨h0, h1, h2, h3⟩ := letters (input.getD pre.length 0).toNat
    (input.getD (pre.length + 1) 0).toNat (input.getD (pre.length + 2) 0).toNat
  obtain ⟨h4, h5⟩ := @letters_or (input.getD (pre.length + 1) 0).toNat
    (input.getD (pre.length + 2) 0).toNat (input.getD pre.length 0).toNat
    (UInt8.toNat_lt _) (UInt8.toNat_lt _)
  rw [base64Round, if_pos hlt, lineBreak_eq]
  simp only [h0, h1, h2, h3, h4, h5, hgroup]
  cases addInt pre.length 3 with
  | none => rfl
  | some j =>
    rw [Option.map_some]
    refine congrArg some (congrArg Round.next (congrArg (Prod.mk j) ?_))
    split
    · simp only [List.append_assoc, List.cons_append, List.nil_append]
    · split
      · simp only [List.append_assoc, List.cons_append, List.nil_append]
      · simp only [List.append_assoc, List.cons_append, List.nil_append]

theorem base64Round_end (h : toInt input.length ≤ (i : Int)) :
    base64Round input opt1 (i, sout) = some (.done sout) := by
  rw [base64Round, if_neg (Int.not_lt.2 h)]

theorem returns_base64 (hsplit : reached input = pre ++ rest) (hpre : pre.length % 3 = 0) :
    Returns (base64Round input opt1) (pre.length, sout) out ↔
      toInt input.length ≠ 2147483647 ∧ sout ++ base64Text opt1 pre.length rest = out := by
  have hreach := length_reached input
  have hmax := toInt_lt input.length
  induction hn : rest.length using Nat.strong_induction_on generalizing pre rest sout with
  | _ n ih =>
    have hlen := congrArg List.length hsplit
    rw [List.length_append, hreach] at hlen
    by_cases hrest : 0 < rest.length
    · have hround := @base64Round_group input opt1 pre rest sout hsplit hrest
      rw [base64Text_group hrest, List.append_assoc (lineBreak opt1 pre.length),
        ← List.append_assoc, ← List.append_assoc]
      by_cases hthree : 3 ≤ rest.length
      · rw [addInt_eq _ _ (by omega), Option.map_some] at hround
        have hsplit' : reached input = (pre ++ rest.take 3) ++ rest.drop 3 := by
          rw [List.append_assoc, List.take_append_drop, hsplit]
        have hlength : (pre ++ rest.take 3).length = pre.length + 3 := by
          rw [List.length_append, List.length_take]
          omega
        have hless : (rest.drop 3).length < n := by
          rw [List.length_drop]
          omega
        rw [returns_next hround, ← hlength, List.append_assoc sout]
        exact ih _ hless hsplit' (by omega) rfl
      · have hdrop : rest.drop 3 = [] := List.drop_of_length_le (by omega)
        rw [hdrop, base64Text_nil, List.append_nil]
        by_cases hroom : toInt input.length = 2147483647
        · rw [addInt, if_neg (by omega), Option.map_none] at hround
          exact iff_of_false (not_returns_of_none hround) fun h => h.1 hroom
        · rw [addInt_eq _ _ (by omega), Option.map_some] at hround
          rw [returns_next hround, returns_done (base64Round_end (by omega)),
            and_iff_right hroom, List.append_assoc]
    · have hnil := List.eq_nil_of_length_eq_zero (Nat.eq_zero_of_not_pos hrest)
      have hne : toInt input.length ≠ 2147483647 := by omega
      rw [returns_done (base64Round_end (by omega)), hnil, base64Text_nil, List.append_nil,
        and_iff_right hne]

end Encode

open Hex Loop
set_option autoImplicit true

theorem base64alph_letter (h : v < 64) : isspace (base64alph v) = false ∧ base64alph v ≠ 61 ∧
    getBase64Code (base64alph v) = UInt8.ofNat v := by
  revert v
  decide +kernel

/-- The bytes of four letters. -/
def groupBytes (s1 s2 s3 s4 : UInt8) : List UInt8 :=
  if s2 ≠ 61 then
    (getBase64Code s1 <<< 2 ||| getBase64Code s2 >>> 4) ::
      if s3 ≠ 61 then
        (getBase64Code s2 <<< 4 ||| getBase64Code s3 >>> 2) ::
          if s4 ≠ 61 then [getBase64Code s3 <<< 6 ||| getBase64Code s4] else []
      else []
  else []

theorem base64Group_bytes (rest : List UInt8) (h : 0 < rest.length) : ∃ s1 s2 s3 s4,
    base64Group rest = [s1, s2, s3, s4] ∧ isspace s1 = false ∧
      groupBytes s1 s2 s3 s4 = rest.take 3 := by
  have hbyte : ∀ (x : UInt8) n, n = x.toNat → UInt8.ofNat n = x := by
    rintro x _ rfl
    exact UInt8.ofNat_toNat
  match rest, h with
  | [a], _ =>
    have ha := a.toNat_lt
    have h1 : a.toNat / 4 < 64 := by omega
    have h2 : a.toNat % 4 * 16 < 64 := by omega
    refine ⟨_, _, _, _, rfl, (base64alph_letter h1).1, ?_⟩
    rw [groupBytes, if_pos (base64alph_letter h2).2.1, if_neg (by decide),
      (base64alph_letter h1).2.2, (base64alph_letter h2).2.2, (codes_or h1 h2).1,
      hbyte a _ (by omega)]
    rfl
  | [a, b], _ =>
    have ha := a.toNat_lt
    have hb := b.toNat_lt
    have h1 : a.toNat / 4 < 64 := by omega
    have h2 : a.toNat % 4 * 16 + b.toNat / 16 < 64 := by omega
    have h3 : b.toNat % 16 * 4 < 64 := by omega
    refine ⟨_, _, _, _, rfl, (base64alph_letter h1).1, ?_⟩
    rw [groupBytes, if_pos (base64alph_letter h2).2.1, if_pos (base64alph_letter h3).2.1,
      if_neg (by decide), (base64alph_letter h1).2.2, (base64alph_letter h2).2.2,
      (base64alph_letter h3).2.2, (codes_or h1 h2).1, (codes_or h2 h3).2.1,
      hbyte a _ (by omega), hbyte b _ (by omega)]
    rfl
  | a :: b :: c :: rest, _ =>
    have ha := a.toNat_lt
    have hb := b.toNat_lt
    have hc := c.toNat_lt
    have h1 : a.toNat / 4 < 64 := by omega
    have h2 : a.toNat % 4 * 16 + b.toNat / 16 < 64 := by omega
    have h3 : b.toNat % 16 * 4 + c.toNat / 64 < 64 := by omega
    have h4 : c.toNat % 64 < 64 := by omega
    refine ⟨_, _, _, _, rfl, (base64alph_letter h1).1, ?_⟩
    rw [groupBytes, if_pos (base64alph_letter h2).2.1, if_pos (base64alph_letter h3).2.1,
      if_pos (base64alph_letter h4).2.1, (base64alph_letter h1).2.2, (base64alph_letter h2).2.2,
      (base64alph_letter h3).2.2, (base64alph_letter h4).2.2, (codes_or h1 h2).1,
      (codes_or h2 h3).2.1, (codes_or h3 h4).2.2, hbyte a _ (by omega), hbyte b _ (by omega),
      hbyte c _ (by omega)]
    rfl

section Decode
variable {input opt1 pre rest sep sout out : List UInt8} {i : Nat}

theorem base64DecodeRound_blank (hlen : (pre ++ c :: rest).length < 4294967296)
    (hc : isspace c = true) : base64DecodeRound (pre ++ c :: rest) (pre.length, sout) =
      some (.next ((pre ++ [c]).length, sout)) := by
  rw [List.length_append, List.length_cons] at hlen
  have hlt : pre.length < (pre ++ c :: rest).length := by
    rw [List.length_append, List.length_cons]
    omega
  rw [base64DecodeRound, if_pos hlt, getD_behind, if_pos hc, unsigned_of_lt (by omega),
    List.length_append, List.length_singleton]

theorem charAt_of_getElem? (h : input[i]? = some c) : charAt input i = some c := by
  obtain ⟨hi, hget⟩ := List.getElem?_eq_some_iff.1 h
  rw [charAt, if_pos hi, List.getD_eq_getElem _ _ hi, hget]

theorem base64DecodeRound_group {s1 s2 s3 s4 : UInt8}
    (hlen : (pre ++ [s1, s2, s3, s4] ++ rest).length < 4294967296) (hs : isspace s1 = false) :
    base64DecodeRound (pre ++ [s1, s2, s3, s4] ++ rest) (pre.length, sout) =
      some (.next ((pre ++ [s1, s2, s3, s4]).length, sout ++ groupBytes s1 s2 s3 s4)) := by
  have hlength : (pre ++ [s1, s2, s3, s4] ++ rest).length = pre.length + rest.length + 4 := by
    simp only [List.length_append, List.length_cons, List.length_nil]
    omega
  have hat : ∀ k, (pre ++ [s1, s2, s3, s4] ++ rest)[pre.length + k]? =
      ([s1, s2, s3, s4] ++ rest)[k]? := by
    intro k
    rw [List.append_assoc, List.getElem?_append_right (Nat.le_add_right _ _),
      Nat.add_sub_cancel_left]
  have h0 : (pre ++ [s1, s2, s3, s4] ++ rest).getD pre.length 0 = s1 := by
    rw [List.append_assoc]
    exact getD_behind pre s1 _
  have hroom : unsigned (pre.length + 3) < (pre ++ [s1, s2, s3, s4] ++ rest).length := by
    rw [unsigned_of_lt (by omega)]
    omega
  have hnext : unsigned (pre.length + 4) = (pre ++ [s1, s2, s3, s4]).length := by
    rw [unsigned_of_lt (by omega), List.length_append]
    rfl
  rw [base64DecodeRound, if_pos (by omega), h0, hs, if_neg Bool.false_ne_true, if_pos hroom,
    unsigned_of_lt (n := pre.length + 1) (by omega),
    unsigned_of_lt (n := pre.length + 2) (by omega),
    unsigned_of_lt (n := pre.length + 3) (by omega), hnext,
    charAt_of_getElem? (hat 1), charAt_of_getElem? (hat 2), charAt_of_getElem? (hat 3)]
  refine congrArg some (congrArg Round.next (congrArg (Prod.mk _) ?_))
  rw [groupBytes]
  split
  · split
    · split
      · simp only [List.append_assoc, List.cons_append, List.nil_append]
      · simp only [List.append_assoc, List.cons_append, List.nil_append]
    · rfl
  · exact (List.append_nil sout).symm

theorem base64DecodeRound_end : base64DecodeRound input (input.length, sout) =
    some (.done sout) := by
  rw [base64DecodeRound, if_neg (Nat.lt_irrefl _)]

/-- White space is skipped. -/
theorem returns_skip (hlen : (pre ++ sep ++ rest).length < 4294967296)
    (hsep : ∀ c ∈ sep, isspace c = true) :
    Returns (base64DecodeRound (pre ++ sep ++ rest)) (pre.length, sout) out ↔
      Returns (base64DecodeRound (pre ++ sep ++ rest)) ((pre ++ sep).length, sout) out := by
  induction sep generalizing pre with
  | nil => rw [List.append_nil]
  | cons c sep ih =>
    obtain ⟨hc, hsep⟩ := List.forall_mem_cons.1 hsep
    have hsplit : pre ++ c :: sep = pre ++ [c] ++ sep := by
      rw [List.append_assoc]
      rfl
    have hround : base64DecodeRound (pre ++ c :: sep ++ rest) (pre.length, sout) =
        some (.next ((pre ++ [c]).length, sout)) := by
      rw [List.append_assoc, List.cons_append] at hlen ⊢
      exact base64DecodeRound_blank hlen hc
    rw [returns_next hround, hsplit]
    exact ih (hsplit ▸ hlen) hsep

theorem lineBreak_blank (h : ∀ c ∈ opt1, isspace c = true) (i : Nat) :
    ∀ c ∈ lineBreak opt1 i, isspace c = true := by
  rw [lineBreak]
  split
  · exact h
  · exact fun c hc => absurd hc List.not_mem_nil

theorem returns_base64Decode (hblank : ∀ c ∈ opt1, isspace c = true)
    (hlen : (pre ++ base64Text opt1 i rest).length < 4294967296) :
    Returns (base64DecodeRound (pre ++ base64Text opt1 i rest)) (pre.length, sout) out ↔
      sout ++ rest = out := by
  induction hn : rest.length using Nat.strong_induction_on generalizing i pre rest sout with
  | _ n ih =>
    by_cases hrest : 0 < rest.length
    · obtain ⟨s1, s2, s3, s4, hgroup, hspace, hbytes⟩ := base64Group_bytes rest hrest
      have hsplit : pre ++ base64Text opt1 i rest = pre ++ lineBreak opt1 i ++
          ([s1, s2, s3, s4] ++ base64Text opt1 (i + 3) (rest.drop 3)) := by
        rw [base64Text_group hrest, hgroup]
        simp only [List.append_assoc]
      have hsplit' : pre ++ base64Text opt1 i rest = pre ++ lineBreak opt1 i ++
          [s1, s2, s3, s4] ++ base64Text opt1 (i + 3) (rest.drop 3) := by
        rw [hsplit]
        simp only [List.append_assoc]
      have hless : (rest.drop 3).length < n := by
        rw [List.length_drop]
        omega
      have hlong := hlen
      rw [hsplit] at hlen ⊢
      rw [returns_skip hlen (lineBreak_blank hblank i), ← hsplit, hsplit',
        returns_next (base64DecodeRound_group (hsplit' ▸ hlong) hspace)]
      refine (ih _ hless (hsplit' ▸ hlong) rfl).trans ?_
      rw [hbytes, List.append_assoc, List.take_append_drop]
    · have hnil := List.eq_nil_of_length_eq_zero (Nat.eq_zero_of_not_pos hrest)
      rw [hnil, base64Text_nil, List.append_nil, List.append_nil]
      exact returns_done base64DecodeRound_end

theorem not_returns_base64Decode (hlen : 4294967296 ≤ input.length) :
    ¬ Returns (base64DecodeRound input) (0, []) out := by
  refine not_returns_long (fun i sout out hlt hdone => ?_) fun i sout s' hnext => ?_
  · rw [base64DecodeRound, if_pos (Nat.lt_of_lt_of_le hlt hlen)] at hdone
    split at hdone
    · cases hdone
    · split at hdone
      · simp only [Option.bind_eq_bind, Option.bind_eq_some_iff] at hdone
        obtain ⟨_, _, _, _, _, _, hdone⟩ := hdone
        cases hdone
      · cases hdone
  · rw [base64DecodeRound] at hnext
    split at hnext
    · split at hnext
      · cases hnext
        exact unsigned_lt _
      · split at hnext
        · simp only [Option.bind_eq_bind, Option.bind_eq_some_iff] at hnext
          obtain ⟨_, _, _, _, _, _, hnext⟩ := hnext
          cases hnext
          exact unsigned_lt _
        · cases hnext
          exact unsigned_lt _
    · cases hnext

/-- Four letters for three bytes, and an option for every 57. -/
theorem length_base64Text (opt1 : List UInt8) (hi : i % 3 = 0) (rest : List UInt8) :
    (base64Text opt1 i rest).length = 4 * ((rest.length + 2) / 3) +
      opt1.length * ((i + rest.length - 1) / 57 - (i - 1) / 57) := by
  induction hn : rest.length using Nat.strong_induction_on generalizing i rest with
  | _ n ih =>
    by_cases hrest : 0 < rest.length
    · obtain ⟨s1, s2, s3, s4, hgroup, _⟩ := base64Group_bytes rest hrest
      have hless : (rest.drop 3).length < n := by
        rw [List.length_drop]
        omega
      have hbreak : (lineBreak opt1 i).length =
          opt1.length * (if i ≠ 0 ∧ i % 57 = 0 then 1 else 0) := by
        rw [lineBreak]
        by_cases hzero : opt1.length = 0
        · rw [if_neg fun h => h.2.2 hzero, hzero, Nat.zero_mul, List.length_nil]
        · by_cases hi : i ≠ 0 ∧ i % 57 = 0
          · rw [if_pos ⟨hi.1, hi.2, hzero⟩, if_pos hi, Nat.mul_one]
          · rw [if_neg fun h => hi ⟨h.1, h.2.1⟩, if_neg hi, Nat.mul_zero, List.length_nil]
      have hbreaks : (i + rest.length - 1) / 57 - (i - 1) / 57 =
          (if i ≠ 0 ∧ i % 57 = 0 then 1 else 0) +
            ((i + 3 + (rest.length - 3) - 1) / 57 - (i + 3 - 1) / 57) := by
        split
        · omega
        · omega
      rw [base64Text_group hrest, hgroup, List.length_append, List.length_append, hbreak,
        ih _ hless (by omega) _ rfl, List.length_drop, ← hn, hbreaks, Nat.mul_add]
      simp only [List.length_cons, List.length_nil]
      omega
    · have hnil := List.eq_nil_of_length_eq_zero (Nat.eq_zero_of_not_pos hrest)
      have hzero : (i + 0 - 1) / 57 - (i - 1) / 57 = 0 := Nat.sub_self _
      rw [← hn, hnil, base64Text_nil, List.length_nil, hzero]
      rfl

/-- The texts that survive base64. -/
structure Base64Fits (opt1 s : List UInt8) : Prop where
  length : s.length < 2147483647
  encoded : 4 * ((s.length + 2) / 3) + opt1.length * ((s.length - 1) / 57) < 4294967296

theorem base64_roundTrip_iff (hblank : ∀ c ∈ opt1, isspace c = true) (s : List UInt8) :
    (∃ t, Returns (base64Round s opt1) (0, []) t ∧ Returns (base64DecodeRound t) (0, []) s) ↔
      Base64Fits opt1 s := by
  have hencode : ∀ t, Returns (base64Round s opt1) (0, []) t ↔
      toInt s.length ≠ 2147483647 ∧ base64Text opt1 0 (reached s) = t := by
    intro t
    have hreturns := @returns_base64 s opt1 [] (reached s) [] t (List.nil_append _).symm rfl
    rwa [List.nil_append, List.length_nil] at hreturns
  have hdecode : ∀ r, (base64Text opt1 0 r).length < 4294967296 →
      (Returns (base64DecodeRound (base64Text opt1 0 r)) (0, []) s ↔ r = s) :=
    fun r hlen => @returns_base64Decode opt1 [] r [] s 0 hblank hlen
  have hlength : ∀ r, (base64Text opt1 0 r).length =
      4 * ((r.length + 2) / 3) + opt1.length * ((r.length - 1) / 57) := by
    intro r
    rw [length_base64Text opt1 rfl, Nat.zero_add]
    rfl
  constructor
  · rintro ⟨t, hencodes, hdecodes⟩
    obtain ⟨hroom, rfl⟩ := (hencode t).1 hencodes
    have hlen : (base64Text opt1 0 (reached s)).length < 4294967296 := by
      by_contra hbig
      exact not_returns_base64Decode (Nat.le_of_not_lt hbig) hdecodes
    have hall := (hdecode _ hlen).1 hdecodes
    have hshort := reached_eq_self_iff.1 hall
    rw [toInt_of_lt hshort] at hroom
    rw [hall, hlength] at hlen
    exact ⟨by omega, hlen⟩
  · rintro ⟨hshort, hencoded⟩
    have hsmall : s.length < 2147483648 := by omega
    have hall := reached_eq_self_iff.2 hsmall
    have hroom : toInt s.length ≠ 2147483647 := by
      rw [toInt_of_lt hsmall]
      omega
    refine ⟨_, (hencode _).2 ⟨hroom, rfl⟩, (hdecode _ ?_).2 hall⟩
    rwa [hall, hlength]

end Decode

end BigBox.StrOpt
