import BigBox.StrOpt.Replace

namespace BigBox.StrOpt
open Hex Loop
set_option autoImplicit true

section Escaped
variable {case : UInt8 → Option (List UInt8)}

/-- A text with every character replaced. -/
def escaped (case : UInt8 → Option (List UInt8)) (s : List UInt8) : List UInt8 :=
  s.flatMap fun c => (case c).getD [c]

theorem escaped_cons (case : UInt8 → Option (List UInt8)) (c : UInt8) (s : List UInt8) :
    escaped case (c :: s) = (case c).getD [c] ++ escaped case s :=
  List.flatMap_cons

theorem percentDecode_escaped (hcase : Escapes case) (s : List UInt8) :
    percentDecode (escaped case s) = s := by
  induction s with
  | nil => rfl
  | cons c s ih =>
    rw [escaped_cons]
    cases hc : case c with
    | some text => rw [Option.getD_some, hcase.decode hc, ih]
    | none =>
      rw [Option.getD_none, List.singleton_append, percentDecode_cons (hcase.ne hc), ih]

theorem length_escaped (hcase : Escapes case) (s : List UInt8) :
    (escaped case s).length = s.length + 2 * escapedCount case s := by
  induction s with
  | nil => rfl
  | cons c s ih =>
    rw [escaped_cons, escapedCount_cons, List.length_append, List.length_cons, ih]
    cases hc : case c with
    | some text =>
      rw [Option.getD_some, hcase.length hc, Option.isSome_some, if_pos rfl]
      omega
    | none =>
      rw [Option.getD_none, List.length_singleton, Option.isSome_none,
        if_neg Bool.false_ne_true]
      omega

theorem getLast_escaped (hcase : Escapes case) (s : List UInt8) :
    (escaped case s).getLast? ≠ some 37 := by
  obtain rfl | ⟨s, c, rfl⟩ := List.eq_nil_or_concat s
  · rintro ⟨⟩
  · rw [List.concat_eq_append, escaped, List.flatMap_append, List.flatMap_singleton,
      List.getLast?_append]
    cases hc : case c with
    | some text =>
      obtain ⟨a, b, rfl, _, hb⟩ := hcase.spell c text hc
      exact fun hlast => hb (Option.some.inj hlast)
    | none => exact fun hlast => hcase.ne hc (Option.some.inj hlast)

end Escaped

/-- What `StrOpt::Custom` replaces. -/
def customCase (opt1 : List UInt8) (c : UInt8) : Option (List UInt8) :=
  if c ∈ opt1 then some (37 :: hexPair c) else none

theorem escapes_custom (h : 37 ∈ opt1) : Escapes (customCase opt1) := by
  refine ⟨fun c text hc => ?_, ?_⟩
  · rw [customCase] at hc
    split at hc
    · cases hc
      exact hexPair_spell c
    · cases hc
  · rw [customCase, if_pos h]
    exact Option.some_ne_none _

/-- The search of a character is over. -/
def Searchable (opt1 : List UInt8) (c : UInt8) : Prop :=
  c ∈ opt1.take 4294967296 ∨ opt1.length < 4294967296

section Custom
variable {input opt1 pre rest sout out : List UInt8} {i j : Nat} {c : UInt8}

/-- The characters that the index reaches. -/
def reached (input : List UInt8) : List UInt8 := input.take (toInt input.length).toNat

theorem addInt_one (h : (i : Int) < toInt input.length) : addInt i 1 = some (i + 1) := by
  have hlt := toInt_lt input.length
  exact if_pos (by omega)

theorem customRound_found (hi : (i : Int) < toInt input.length) (hc : input.getD i 0 = c)
    (hj : j < opt1.length) (hfound : opt1.getD j 0 = c) :
    customRound input opt1 (i, j, sout) = some (.next (i + 1, 0, sout ++ 37 :: hexPair c)) := by
  rw [customRound, if_pos hi]
  dsimp only
  rw [if_pos hj, hc, hfound, if_pos rfl, addInt_one hi]
  rfl

theorem customRound_other (hi : (i : Int) < toInt input.length) (hc : input.getD i 0 = c)
    (hj : j < opt1.length) (hother : opt1.getD j 0 ≠ c) :
    customRound input opt1 (i, j, sout) = some (.next (i, unsigned (j + 1), sout)) := by
  rw [customRound, if_pos hi]
  dsimp only
  rw [if_pos hj, hc, if_neg hother.symm]

theorem customRound_missing (hi : (i : Int) < toInt input.length) (hc : input.getD i 0 = c) :
    customRound input opt1 (i, opt1.length, sout) = some (.next (i + 1, 0, sout ++ [c])) := by
  rw [customRound, if_pos hi]
  dsimp only
  rw [if_neg (Nat.lt_irrefl _), hc, addInt_one hi]
  rfl

theorem take_split (h : opt1.take n = pre ++ d :: rest) :
    pre.length < opt1.length ∧ opt1.getD pre.length 0 = d ∧ pre.length < n := by
  have hlen := congrArg List.length h
  rw [List.length_take, List.length_append, List.length_cons] at hlen
  have hget : (opt1.take n).getD pre.length 0 = d := by rw [h, getD_behind]
  rw [List.getD_eq_getElem _ _ (by rw [List.length_take]; omega), List.getElem_take] at hget
  refine ⟨by omega, ?_, by omega⟩
  rw [List.getD_eq_getElem _ _ (by omega), hget]

theorem returns_found (hi : (i : Int) < toInt input.length) (hc : input.getD i 0 = c)
    (hsplit : opt1.take 4294967296 = pre ++ rest) (hmem : c ∈ rest) :
    Returns (customRound input opt1) (i, pre.length, sout) out ↔
      Returns (customRound input opt1) (i + 1, 0, sout ++ 37 :: hexPair c) out := by
  induction rest generalizing pre with
  | nil => cases hmem
  | cons d rest ih =>
    obtain ⟨hj, hget, _⟩ := take_split hsplit
    by_cases hd : d = c
    · exact returns_next (customRound_found hi hc hj (hget.trans hd))
    · obtain hmem | hmem := List.mem_cons.1 hmem
      · exact absurd hmem.symm hd
      · have hsplit' : opt1.take 4294967296 = pre ++ [d] ++ rest := by
          rw [hsplit, List.append_assoc]
          rfl
        have hnext : unsigned (pre.length + 1) = (pre ++ [d]).length := by
          obtain ⟨e, rest, rfl⟩ := List.exists_cons_of_ne_nil (List.ne_nil_of_mem hmem)
          have hreach := (take_split hsplit').2.2
          rw [List.length_append, List.length_singleton] at hreach
          rw [unsigned_of_lt hreach, List.length_append, List.length_singleton]
        rw [returns_next (customRound_other hi hc hj (hget ▸ hd)), hnext]
        exact ih hsplit' hmem

theorem returns_missing (hi : (i : Int) < toInt input.length) (hc : input.getD i 0 = c)
    (hlen : opt1.length < 4294967296) (hsplit : opt1 = pre ++ rest) (hmem : c ∉ rest) :
    Returns (customRound input opt1) (i, pre.length, sout) out ↔
      Returns (customRound input opt1) (i + 1, 0, sout ++ [c]) out := by
  induction rest generalizing pre with
  | nil =>
    have hend : pre.length = opt1.length := by rw [hsplit, List.append_nil]
    rw [hend]
    exact returns_next (customRound_missing hi hc)
  | cons d rest ih =>
    obtain ⟨hd, hmem⟩ := not_or.1 (List.mem_cons.not.1 hmem)
    have hget : opt1.getD pre.length 0 = d := by rw [hsplit, getD_behind]
    have hsplit' : opt1 = pre ++ [d] ++ rest := by
      rw [hsplit, List.append_assoc]
      rfl
    have hlength : opt1.length = pre.length + rest.length + 1 := by
      rw [hsplit, List.length_append, List.length_cons, Nat.add_assoc]
    have hnext : unsigned (pre.length + 1) = (pre ++ [d]).length := by
      rw [unsigned_of_lt (by omega), List.length_append, List.length_singleton]
    rw [returns_next (customRound_other hi hc (by omega) (hget ▸ Ne.symm hd)), hnext]
    exact ih hsplit' hmem

theorem not_returns_search (hi : (i : Int) < toInt input.length) (hc : input.getD i 0 = c)
    (hlen : 4294967296 ≤ opt1.length) (hmem : c ∉ opt1.take 4294967296) :
    ¬ Returns (customRound input opt1) (i, 0, sout) out := by
  intro h
  have hround : ∀ j sout, j < 4294967296 → customRound input opt1 (i, j, sout) =
      some (.next (i, unsigned (j + 1), sout)) := by
    intro j sout hj
    refine customRound_other hi hc (by omega) fun hget => hmem ?_
    rw [List.getD_eq_getElem _ _ (by omega)] at hget
    exact List.mem_take_iff_getElem.2 ⟨j, by omega, hget⟩
  have hkeep : ∀ r r' : Nat × Nat × List UInt8, r.1 = i ∧ r.2.1 < 4294967296 →
      customRound input opt1 r = some (.next r') → r'.1 = i ∧ r'.2.1 < 4294967296 := by
    rintro ⟨_, j, sout⟩ r' ⟨rfl, hj⟩ hnext
    rw [hround j sout hj] at hnext
    cases hnext
    exact ⟨rfl, unsigned_lt _⟩
  obtain ⟨⟨_, j, sout⟩, ⟨rfl, hj⟩, hdone⟩ := h.last ⟨rfl, Nat.zero_lt_succ _⟩ hkeep
  rw [hround j sout hj] at hdone
  cases hdone

theorem returns_custom (hsplit : reached input = pre ++ rest) :
    Returns (customRound input opt1) (pre.length, 0, sout) out ↔
      (∀ c ∈ rest, Searchable opt1 c) ∧ sout ++ escaped (customCase opt1) rest = out := by
  have hle := toInt_le input.length
  induction rest generalizing pre sout with
  | nil =>
    have hlen := congrArg List.length hsplit
    rw [reached, List.length_take, List.append_nil] at hlen
    have hend : customRound input opt1 (pre.length, 0, sout) = some (.done sout) := by
      rw [customRound, if_neg (by omega)]
    rw [returns_done hend, escaped, List.flatMap_nil, List.append_nil]
    exact (and_iff_right nofun).symm
  | cons c rest ih =>
    obtain ⟨_, hget, hi⟩ := take_split hsplit
    have hi : (pre.length : Int) < toInt input.length := by omega
    have hsplit' : reached input = pre ++ [c] ++ rest := by
      rw [hsplit, List.append_assoc]
      rfl
    have hnext : ∀ {sout}, Returns (customRound input opt1) (pre.length + 1, 0, sout) out ↔
        (∀ c ∈ rest, Searchable opt1 c) ∧ sout ++ escaped (customCase opt1) rest = out := by
      intro sout
      have hlength : (pre ++ [c]).length = pre.length + 1 := by
        rw [List.length_append, List.length_singleton]
      rw [← hlength]
      exact ih hsplit'
    rw [List.forall_mem_cons, escaped_cons, customCase]
    by_cases hfound : c ∈ opt1.take 4294967296
    · have hsearch : Searchable opt1 c := .inl hfound
      rw [if_pos (List.mem_of_mem_take hfound), Option.getD_some]
      have hsplit := (List.nil_append (opt1.take 4294967296)).symm
      refine (returns_found hi hget hsplit hfound).trans ?_
      rw [hnext, and_iff_right hsearch, List.append_assoc]
    · by_cases hlen : opt1.length < 4294967296
      · have hsearch : Searchable opt1 c := .inr hlen
        rw [List.take_of_length_le (Nat.le_of_lt hlen)] at hfound
        rw [if_neg hfound, Option.getD_none]
        have hsplit := (List.nil_append opt1).symm
        refine (returns_missing hi hget hlen hsplit hfound).trans ?_
        rw [hnext, and_iff_right hsearch, List.append_assoc]
      · refine iff_of_false (not_returns_search hi hget (Nat.le_of_not_lt hlen) hfound) ?_
        rintro ⟨⟨hsearch | hsearch, _⟩, _⟩
        · exact hfound hsearch
        · exact hlen hsearch

/-- All of a text is reached by an `int` where it is shorter than 2 ^ 31. -/
theorem reached_eq_self_iff : reached input = input ↔ input.length < 2147483648 := by
  have hlt := toInt_lt input.length
  constructor
  · intro h
    have hlen := congrArg List.length h
    rw [reached, List.length_take] at hlen
    omega
  · intro h
    rw [reached, toInt_of_lt h]
    exact List.take_of_length_le (Nat.le_refl _)

/-- The texts that survive the encoding of the characters of an option. -/
structure CustomFits (opt1 s : List UInt8) : Prop where
  length : s.length < 2147483648
  encoded : s.length + 2 * s.countP (· ∈ opt1) < 4294967296
  search : ∀ c ∈ s, Searchable opt1 c

theorem escapedCount_custom (opt1 s : List UInt8) :
    escapedCount (customCase opt1) s = s.countP (· ∈ opt1) := by
  refine List.countP_congr fun c _ => ?_
  rw [customCase]
  split
  · next h => simp only [Option.isSome_some, h, decide_true]
  · next h => simp only [Option.isSome_none, h, decide_false]

theorem custom_roundTrip_iff (h : 37 ∈ opt1) (s : List UInt8) :
    (∃ t, Returns (customRound s opt1) (0, 0, []) t ∧ Returns (percentRound t) (0, []) s) ↔
      CustomFits opt1 s := by
  have hcase := escapes_custom h
  have hdecode : ∀ r, (escaped (customCase opt1) r).length < 4294967296 →
      (Returns (percentRound (escaped (customCase opt1) r)) (0, []) s ↔ r = s) := by
    intro r hlen
    rw [returns_percent_start hlen (.inr (getLast_escaped hcase r)), percentDecode_escaped hcase]
  have hencode : ∀ t, Returns (customRound s opt1) (0, 0, []) t ↔
      (∀ c ∈ reached s, Searchable opt1 c) ∧ escaped (customCase opt1) (reached s) = t := by
    intro t
    have hreturns := @returns_custom s opt1 [] (reached s) [] t (List.nil_append _).symm
    rwa [List.nil_append, List.length_nil] at hreturns
  constructor
  · rintro ⟨t, hencodes, hdecodes⟩
    obtain ⟨hsearch, rfl⟩ := (hencode t).1 hencodes
    have hlen : (escaped (customCase opt1) (reached s)).length < 4294967296 := by
      by_contra hbig
      exact not_returns_percent (Nat.le_of_not_lt hbig) hdecodes
    have hall := (hdecode _ hlen).1 hdecodes
    rw [hall] at hlen hsearch
    rw [length_escaped hcase, escapedCount_custom] at hlen
    exact ⟨reached_eq_self_iff.1 hall, hlen, hsearch⟩
  · rintro ⟨hlength, hencoded, hsearch⟩
    have hall := reached_eq_self_iff.2 hlength
    refine ⟨_, (hencode _).2 ⟨by rwa [hall], rfl⟩, (hdecode _ ?_).2 hall⟩
    rwa [hall, length_escaped hcase, escapedCount_custom]

end Custom

end BigBox.StrOpt
