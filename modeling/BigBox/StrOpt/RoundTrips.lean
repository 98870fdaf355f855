import BigBox.StrOpt.Base64
import BigBox.StrOpt.Percent

namespace BigBox.StrOpt
open Hex Loop
set_option autoImplicit true

/-- What stands in front of the byte `i` of a listing. -/
def separator (opt1 : List UInt8) (i : Nat) : List UInt8 :=
  if i ≠ 0 ∧ opt1.length ≠ 0 then if i % 16 ≠ 0 then cString opt1 else [10] else []

/-- The listing of bytes, the first of which is the byte `i`. -/
def binText (opt1 : List UInt8) : Nat → List UInt8 → List UInt8
  | _, [] => []
  | i, c :: rest => separator opt1 i ++ hexPair c ++ binText opt1 (i + 1) rest

theorem length_separator_le (opt1 : List UInt8) (i : Nat) :
    (separator opt1 i).length ≤ opt1.length := by
  rw [separator]
  split
  · next h =>
    split
    · exact (List.takeWhile_sublist _).length_le
    · rw [List.length_singleton]
      omega
  · exact Nat.zero_le _

section Decode
variable {input opt1 pre rest sout out : List UInt8} {i : Nat}

theorem binDecodeRound_next (hlt : i < input.length) (hlen : input.length < 4294967296)
    (hopt : 3 + opt1.length < 2147483648) : binDecodeRound input opt1 (i, sout) =
      some (.next (i + 1, sout ++ (separator opt1 i ++ hexPair (input.getD i 0)))) := by
  have hle := length_separator_le opt1 i
  have htake : (separator opt1 i ++ hexPair (input.getD i 0)).take (3 + opt1.length - 1) =
      separator opt1 i ++ hexPair (input.getD i 0) := by
    refine List.take_of_length_le ?_
    rw [List.length_append]
    have hpair : (hexPair (input.getD i 0)).length = 2 := rfl
    omega
  rw [binDecodeRound, if_pos hlt, unsigned_of_lt (n := i + 1) (by omega)]
  dsimp only
  rw [snprintf, if_pos hopt]
  exact congrArg some (congrArg Round.next (congrArg (fun text => (i + 1, sout ++ text)) htake))

theorem binDecodeRound_end (h : input.length ≤ i) :
    binDecodeRound input opt1 (i, sout) = some (.done sout) := by
  rw [binDecodeRound, if_neg (Nat.not_lt_of_le h)]

theorem returns_binDecode (hlen : input.length < 4294967296) (hopt : 3 + opt1.length < 2147483648)
    (hsplit : input = pre ++ rest) :
    Returns (binDecodeRound input opt1) (pre.length, sout) out ↔
      sout ++ binText opt1 pre.length rest = out := by
  induction rest generalizing pre sout with
  | nil =>
    rw [List.append_nil] at hsplit
    rw [returns_done (binDecodeRound_end (by rw [hsplit])), binText, List.append_nil]
  | cons c rest ih =>
    have hlt : pre.length < input.length := by
      rw [hsplit, List.length_append, List.length_cons]
      omega
    have hget : input.getD pre.length 0 = c := by rw [hsplit, getD_behind]
    have hsplit' : input = pre ++ [c] ++ rest := by
      rw [hsplit, List.append_assoc]
      rfl
    have hlength : (pre ++ [c]).length = pre.length + 1 := by
      rw [List.length_append, List.length_singleton]
    rw [returns_next (binDecodeRound_next hlt hlen hopt), hget, binText, ← hlength]
    refine (ih hsplit').trans ?_
    rw [List.append_assoc]

theorem not_returns_binDecode (h : 4294967296 ≤ input.length ∨
    input ≠ [] ∧ 2147483648 ≤ 3 + opt1.length) :
    ¬ Returns (binDecodeRound input opt1) (0, []) out := by
  obtain hlen | ⟨hne, hopt⟩ := h
  · refine not_returns_long (fun i sout out hlt hdone => ?_) fun i sout s' hnext => ?_
    · rw [binDecodeRound, if_pos (Nat.lt_of_lt_of_le hlt hlen)] at hdone
      simp only [Option.bind_eq_bind, Option.bind_eq_some_iff] at hdone
      obtain ⟨_, _, hdone⟩ := hdone
      cases hdone
    · rw [binDecodeRound] at hnext
      split at hnext
      · simp only [Option.bind_eq_bind, Option.bind_eq_some_iff] at hnext
        obtain ⟨_, _, hnext⟩ := hnext
        cases hnext
        exact unsigned_lt _
      · cases hnext
  · refine not_returns_of_none ?_
    rw [binDecodeRound, if_pos (List.length_pos_of_ne_nil hne)]
    dsimp only
    rw [snprintf, if_neg (Nat.not_lt_of_le hopt)]
    rfl

end Decode

section Encode
variable {input opt1 sep pre rest sout out : List UInt8} {i : Nat}

theorem binRound_other (hlen : (pre ++ c :: rest).length < 4294967296)
    (hc : isxdigit c = false) : binRound (pre ++ c :: rest) (pre.length, sout) =
      some (.next ((pre ++ [c]).length, sout)) := by
  rw [List.length_append, List.length_cons] at hlen
  have hlt : pre.length < (pre ++ c :: rest).length := by
    rw [List.length_append, List.length_cons]
    omega
  rw [binRound, if_pos hlt, getD_behind, hc, if_neg Bool.false_ne_true,
    unsigned_of_lt (by omega), List.length_append, List.length_singleton]

theorem binRound_pair (hlen : (pre ++ hexPair c ++ rest).length < 4294967296) :
    binRound (pre ++ hexPair c ++ rest) (pre.length, sout) =
      some (.next ((pre ++ hexPair c).length, sout ++ [c])) := by
  have hbyte := c.toNat_lt
  have hlength : (pre ++ hexPair c ++ rest).length = pre.length + rest.length + 2 := by
    rw [List.length_append, List.length_append]
    have hpair : (hexPair c).length = 2 := rfl
    omega
  have hget : (pre ++ hexPair c ++ rest).getD pre.length 0 = hexDigit (c.toNat / 16) := by
    rw [List.append_assoc]
    exact getD_behind pre _ _
  have hsub : substr (pre ++ hexPair c ++ rest) pre.length 2 = hexPair c := by
    rw [substr, List.append_assoc, List.drop_left' rfl]
    rfl
  have hnext : unsigned (unsigned (pre.length + 1) + 1) = (pre ++ hexPair c).length := by
    rw [unsigned_of_lt (n := pre.length + 1) (by omega), unsigned_of_lt (by omega),
      List.length_append]
    rfl
  rw [binRound, if_pos (by omega), hget, if_pos (isxdigit_hexDigit (by omega)), hsub, hnext,
    strtolHex_hexPair]

theorem binRound_end : binRound input (input.length, sout) = some (.done sout) := by
  rw [binRound, if_neg (Nat.lt_irrefl _)]

/-- What is no digit is skipped. -/
theorem returns_binSkip (hlen : (pre ++ sep ++ rest).length < 4294967296)
    (hsep : ∀ c ∈ sep, isxdigit c = false) :
    Returns (binRound (pre ++ sep ++ rest)) (pre.length, sout) out ↔
      Returns (binRound (pre ++ sep ++ rest)) ((pre ++ sep).length, sout) out := by
  induction sep generalizing pre with
  | nil => rw [List.append_nil]
  | cons c sep ih =>
    obtain ⟨hc, hsep⟩ := List.forall_mem_cons.1 hsep
    have hsplit : pre ++ c :: sep = pre ++ [c] ++ sep := by
      rw [List.append_assoc]
      rfl
    have hround : binRound (pre ++ c :: sep ++ rest) (pre.length, sout) =
        some (.next ((pre ++ [c]).length, sout)) := by
      rw [List.append_assoc, List.cons_append] at hlen ⊢
      exact binRound_other hlen hc
    rw [returns_next hround, hsplit]
    exact ih (hsplit ▸ hlen) hsep

theorem separator_no_digit (h : ∀ c ∈ opt1, isxdigit c = false) (i : Nat) :
    ∀ c ∈ separator opt1 i, isxdigit c = false := by
  rw [separator]
  split
  · split
    · exact fun c hc => h c ((List.takeWhile_sublist _).subset hc)
    · exact List.forall_mem_singleton.2 (by decide)
  · exact fun c hc => absurd hc List.not_mem_nil

theorem returns_bin (hopt : ∀ c ∈ opt1, isxdigit c = false)
    (hlen : (pre ++ binText opt1 i rest).length < 4294967296) :
    Returns (binRound (pre ++ binText opt1 i rest)) (pre.length, sout) out ↔
      sout ++ rest = out := by
  induction rest generalizing i pre sout with
  | nil =>
    rw [binText, List.append_nil, List.append_nil]
    exact returns_done binRound_end
  | cons c rest ih =>
    have hsplit : pre ++ binText opt1 i (c :: rest) =
        pre ++ separator opt1 i ++ (hexPair c ++ binText opt1 (i + 1) rest) := by
      rw [binText]
      simp only [List.append_assoc]
    have hsplit' : pre ++ separator opt1 i ++ (hexPair c ++ binText opt1 (i + 1) rest) =
        pre ++ separator opt1 i ++ hexPair c ++ binText opt1 (i + 1) rest :=
      (List.append_assoc ..).symm
    rw [hsplit] at hlen ⊢
    rw [returns_binSkip hlen (separator_no_digit hopt i)]
    rw [hsplit'] at hlen ⊢
    rw [returns_next (binRound_pair hlen)]
    refine (ih hlen).trans ?_
    rw [List.append_assoc]
    rfl

theorem not_returns_bin (hlen : 4294967296 ≤ input.length) :
    ¬ Returns (binRound input) (0, []) out := by
  refine not_returns_long (fun i sout out hlt hdone => ?_) fun i sout s' hnext => ?_
  · rw [binRound, if_pos (Nat.lt_of_lt_of_le hlt hlen)] at hdone
    split at hdone
    · cases hdone
    · cases hdone
  · rw [binRound] at hnext
    split at hnext
    · split at hnext
      · cases hnext
        exact unsigned_lt _
      · cases hnext
        exact unsigned_lt _
    · cases hnext

end Encode

/-- The length of the listing of `n` bytes, the first of which is the byte `i`. -/
def binLength (opt1 : List UInt8) (i : Nat) : Nat → Nat
  | 0 => 0
  | n + 1 => (separator opt1 i).length + 2 + binLength opt1 (i + 1) n

theorem length_binText (opt1 : List UInt8) (i : Nat) (s : List UInt8) :
    (binText opt1 i s).length = binLength opt1 i s.length := by
  induction s generalizing i with
  | nil => rfl
  | cons c s ih =>
    rw [binText, List.length_append, List.length_append, ih]
    rfl

/-- The bytes that survive a listing. -/
structure BinFits (opt1 s : List UInt8) : Prop where
  length : s.length < 4294967296
  option : s = [] ∨ 3 + opt1.length < 2147483648
  listing : binLength opt1 0 s.length < 4294967296

theorem bin_roundTrip_iff (hopt : ∀ c ∈ opt1, isxdigit c = false) (s : List UInt8) :
    (∃ t, Returns (binDecodeRound s opt1) (0, []) t ∧ Returns (binRound t) (0, []) s) ↔
      BinFits opt1 s := by
  have hdecode : s.length < 4294967296 → 3 + opt1.length < 2147483648 → ∀ t,
      (Returns (binDecodeRound s opt1) (0, []) t ↔ binText opt1 0 s = t) :=
    fun hlen hopt t => @returns_binDecode s opt1 [] s [] t hlen hopt rfl
  have hencode : (binText opt1 0 s).length < 4294967296 →
      Returns (binRound (binText opt1 0 s)) (0, []) s :=
    fun hlen => (@returns_bin opt1 [] s [] s 0 hopt hlen).2 rfl
  obtain rfl | hne := List.eq_nil_or_concat s
  · refine iff_of_true ⟨[], ?_, ?_⟩ ⟨by decide, .inl rfl, Nat.zero_lt_succ _⟩
    · exact (returns_done (binDecodeRound_end (Nat.le_refl 0))).2 rfl
    · exact (returns_done binRound_end).2 rfl
  · have hne : s ≠ [] := by
      obtain ⟨l, c, rfl⟩ := hne
      rw [List.concat_eq_append]
      exact List.concat_ne_nil c l
    constructor
    · rintro ⟨t, hdecodes, hencodes⟩
      have hlen : s.length < 4294967296 := by
        by_contra hbig
        exact not_returns_binDecode (.inl (Nat.le_of_not_lt hbig)) hdecodes
      have hroom : 3 + opt1.length < 2147483648 := by
        by_contra hbig
        exact not_returns_binDecode (.inr ⟨hne, Nat.le_of_not_lt hbig⟩) hdecodes
      obtain rfl := (hdecode hlen hroom t).1 hdecodes
      refine ⟨hlen, .inr hroom, ?_⟩
      rw [← length_binText]
      by_contra hbig
      exact not_returns_bin (Nat.le_of_not_lt hbig) hencodes
    · rintro ⟨hlen, hroom, hlisting⟩
      rw [← length_binText] at hlisting
      exact ⟨_, (hdecode hlen (hroom.resolve_left hne) _).2 rfl, hencode hlisting⟩

variable (listing : List UInt8 → Option (List UInt8))

/-- What is encoded decodes to what it was. -/
def EncodeDecode (tp : Code) (opt1 s : List UInt8) : Prop :=
  ∃ t, (∃ fuel, strEncode fuel s tp opt1 = some t) ∧
    ∃ fuel, strDecode listing fuel t tp opt1 = some s

/-- What is listed as hexadecimal bytes is read back. -/
def DecodeEncode (opt1 s : List UInt8) : Prop :=
  ∃ t, (∃ fuel, strDecode listing fuel s .Bin opt1 = some t) ∧
    ∃ fuel, strEncode fuel t .Bin [] = some s

/-- The texts that come back from each of the codes. -/
theorem strOpt_roundTrips_iff (opt1 s : List UInt8) :
    (EncodeDecode listing .PathEl opt1 s ↔ ReplaceFits pathElCase s) ∧
      (EncodeDecode listing .HttpURL opt1 s ↔ ReplaceFits httpURLCase s) ∧
      (37 ∈ opt1 → (EncodeDecode listing .Custom opt1 s ↔ CustomFits opt1 s)) ∧
      ((∀ c ∈ opt1, isspace c = true) →
        (EncodeDecode listing .base64 opt1 s ↔ Base64Fits opt1 s)) ∧
      ((∀ c ∈ opt1, isxdigit c = false) → (DecodeEncode listing opt1 s ↔ BinFits opt1 s)) := by
  refine ⟨replace_roundTrip_iff escapes_pathEl s, replace_roundTrip_iff escapes_httpURL s,
    fun h => custom_roundTrip_iff h s, fun h => base64_roundTrip_iff h s, fun h => ?_⟩
  have hoption : opt1 ≠ textOption := by
    rintro rfl
    exact absurd (h 101 (by decide)) (by decide)
  have hdecode : ∀ fuel, strDecode listing fuel s .Bin opt1 =
      iterate (binDecodeRound s opt1) fuel (0, []) := fun fuel => if_neg hoption
  rw [← bin_roundTrip_iff h, DecodeEncode]
  simp only [hdecode]
  rfl

theorem strOpt_roundTrips_short :
    EncodeDecode (fun _ => none) .Custom [37, 47] [47, 97, 37] ∧
      EncodeDecode (fun _ => none) .base64 [10] [0, 255] ∧
      DecodeEncode (fun _ => none) [58] [0, 255] := by
  obtain ⟨_, _, hcustom, _, _⟩ := strOpt_roundTrips_iff (fun _ => none) [37, 47] [47, 97, 37]
  obtain ⟨_, _, _, hbase64, _⟩ := strOpt_roundTrips_iff (fun _ => none) [10] [0, 255]
  obtain ⟨_, _, _, _, hbin⟩ := strOpt_roundTrips_iff (fun _ => none) [58] [0, 255]
  refine ⟨(hcustom (by decide)).2 ⟨by decide, by decide, fun c _ => .inr (by decide)⟩,
    (hbase64 (List.forall_mem_singleton.2 (by decide))).2 ⟨by decide, by decide⟩,
    (hbin (List.forall_mem_singleton.2 (by decide))).2 ⟨by decide, .inr (by decide), by decide⟩⟩

/-- A text of 2 ^ 31 characters is lost. -/
theorem not_strOpt_roundTrips : ¬ ∀ s, EncodeDecode (fun _ => none) .Custom [37] s := by
  intro h
  have hfits := (custom_roundTrip_iff (by decide) _).1 (h (List.replicate 2147483648 97))
  have hlen := hfits.length
  rw [List.length_replicate] at hlen
  exact absurd hlen (Nat.lt_irrefl _)

end BigBox.StrOpt
