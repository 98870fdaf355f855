import BigBox.Regex.Matches

namespace BigBox.Regex
open Backtrack
set_option autoImplicit true

section Search
variable {dollar caret : Bool} {atoms : List (Atom × Quantifier)} {pattern : List RegexT}
  {text : List Int8} {idx n : Nat}

/-- A compiled pattern: there may be a caret in front of the atoms and a dollar sign behind them. -/
def Compiled (caret dollar : Bool) (atoms : List (Atom × Quantifier)) (pattern : List RegexT) :
    Prop :=
  if caret then ∃ p rest, p.type = .begin ∧ pattern = p :: rest ∧ Spells dollar atoms rest
  else Spells dollar atoms pattern

/-- The pattern matches at an index of the text. -/
def MatchesAt (caret dollar : Bool) (atoms : List (Atom × Quantifier)) (text : List Int8)
    (idx : Nat) : Prop :=
  idx < text.length ∧ (caret = true → idx = 0) ∧
    ∃ n, Matches dollar (items atoms) (text.drop idx) n

/-- The smallest index that the pattern matches at, and what the match there consumes. -/
def FirstMatch (caret dollar : Bool) (atoms : List (Atom × Quantifier)) (text : List Int8)
    (idx n : Nat) : Prop :=
  MatchesAt caret dollar atoms text idx ∧ (∀ j, j < idx → ¬ MatchesAt caret dollar atoms text j) ∧
    found dollar (items atoms) (text.drop idx) = some n

/-- What `re_matchp` has to return and to leave in `*matchlength`. -/
def Answers (caret dollar : Bool) (atoms : List (Atom × Quantifier)) (text : List Int8)
    (ret matchlength : Int) : Prop :=
  (∃ idx n, FirstMatch caret dollar atoms text idx n ∧ ret = idx ∧ matchlength = n) ∨
    (∀ idx, ¬ MatchesAt caret dollar atoms text idx) ∧ ret = -1

/-- What the attempts up to an index add to the counter beyond what is consumed. -/
def excess (dollar : Bool) (atoms : List (Atom × Quantifier)) (text : List Int8) (idx : Nat) :
    Nat :=
  ((List.range (idx + 1)).map fun j => (surplus dollar (items atoms) (text.drop j)).getD 0).sum

theorem matchpattern_finds (h : Spells dollar atoms pattern) :
    Finds (matchpattern pattern) (found dollar (items atoms)) (surplus dollar (items atoms)) :=
  patternOutcome_finds (matchLoop_eq h)

theorem excess_zero (dollar : Bool) (atoms : List (Atom × Quantifier)) (text : List Int8) :
    excess dollar atoms text 0 = (surplus dollar (items atoms) text).getD 0 := by
  simp [excess]

theorem excess_cons (dollar : Bool) (atoms : List (Atom × Quantifier)) (c : Int8)
    (text : List Int8) (k : Nat) :
    excess dollar atoms (c :: text) (k + 1) =
      (surplus dollar (items atoms) (c :: text)).getD 0 + excess dollar atoms text k := by
  rw [excess, List.range_succ_eq_map, List.map_cons, List.sum_cons, List.map_map]
  rfl

/-- What the loop of `re_matchp` ends with. -/
theorem searchLoop_eq (h : Spells dollar atoms pattern) (text : List Int8) (start n : Int) :
    (∃ k m, k < text.length ∧ (∀ j, j < k → found dollar (items atoms) (text.drop j) = none) ∧
      found dollar (items atoms) (text.drop k) = some m ∧
      searchLoop pattern text start n = (start + 1 + k, n + m + excess dollar atoms text k)) ∨
    (∀ k, k < text.length → found dollar (items atoms) (text.drop k) = none) ∧
      (searchLoop pattern text start n).1 = -1 := by
  induction text generalizing start n with
  | nil => exact .inr ⟨fun k hk => (Nat.not_lt_zero k hk).elim, rfl⟩
  | cons c text ih =>
    have hfinds := matchpattern_finds h
    rw [searchLoop]
    cases hfound : found dollar (items atoms) (c :: text) with
    | some m =>
      rw [hfinds.some hfound]
      refine .inl ⟨0, m, Nat.succ_pos _, fun j hj => (Nat.not_lt_zero j hj).elim, hfound, ?_⟩
      rw [excess_zero]
      exact congrArg₂ Prod.mk (by simp) rfl
    | none =>
      rw [hfinds.none hfound]
      simp only [Bool.false_eq_true, if_false]
      rcases ih (start + 1) (n + ((surplus dollar (items atoms) (c :: text)).getD 0 : Nat)) with
        ⟨k, m, hk, hno, hm, hrun⟩ | ⟨hno, hrun⟩
      · refine .inl ⟨k + 1, m, Nat.succ_lt_succ hk, fun j hj => ?_, hm, ?_⟩
        · cases j with
          | zero => exact hfound
          | succ j => exact hno j (Nat.lt_of_succ_lt_succ hj)
        · rw [hrun, excess_cons]
          exact congrArg₂ Prod.mk (by omega) (by omega)
      · refine .inr ⟨fun k hk => ?_, hrun⟩
        cases k with
        | zero => exact hfound
        | succ k => exact hno k (Nat.lt_of_succ_lt_succ hk)

theorem matchesAt_iff : MatchesAt caret dollar atoms text idx ↔
    idx < text.length ∧ (caret = true → idx = 0) ∧
      ∃ n, found dollar (items atoms) (text.drop idx) = some n := by
  rw [MatchesAt, exists_matches_iff]

theorem not_matchesAt (h : found dollar (items atoms) (text.drop idx) = none) :
    ¬ MatchesAt caret dollar atoms text idx := by
  rw [matchesAt_iff, h]
  rintro ⟨_, _, n, hn⟩
  cases hn

/-- What `re_matchp` counts, before it is an `int`: either the first match, and the characters it
consumes with the excess, or there is none. -/
theorem reMatchp_eq (h : Compiled caret dollar atoms pattern) (hne : text ≠ []) :
    (∃ idx n, FirstMatch caret dollar atoms text idx n ∧
      reMatchp (some pattern) text = (int idx, int (n + excess dollar atoms text idx : Nat))) ∨
    (∀ idx, ¬ MatchesAt caret dollar atoms text idx) ∧ (reMatchp (some pattern) text).1 = -1 := by
  have hminus : int (-1) = -1 := by
    unfold int
    decide
  cases caret with
  | true =>
    obtain ⟨p, rest, hp, rfl, hrest⟩ := h
    have hfinds := matchpattern_finds hrest
    have hpos : 0 < text.length := List.length_pos_iff.2 hne
    cases hfound : found dollar (items atoms) text with
    | some m =>
      refine .inl ⟨0, m, ⟨matchesAt_iff.2 ⟨hpos, fun _ => rfl, m, hfound⟩,
        fun j hj => (Nat.not_lt_zero j hj).elim, hfound⟩, ?_⟩
      simp only [reMatchp, if_pos hp, hfinds.some hfound, if_true, excess_zero, Int.zero_add,
        Nat.cast_add]
      rfl
    | none =>
      refine .inr ⟨fun idx hmatch => ?_, ?_⟩
      · have hzero := (matchesAt_iff.1 hmatch).2.1 rfl
        rw [hzero] at hmatch
        exact not_matchesAt hfound hmatch
      · simp only [reMatchp, if_pos hp, hfinds.none hfound, Bool.false_eq_true, if_false, hminus]
  | false =>
    have hrun : reMatchp (some pattern) text =
        (int (searchLoop pattern text (-1) 0).1, int (searchLoop pattern text (-1) 0).2) := by
      cases pattern with
      | nil => rfl
      | cons p rest =>
        have hp : p.type ≠ .begin := by
          intro he
          rcases Spells.head h with hatom | hend
          · rw [he] at hatom
            cases hatom
          · rw [he] at hend
            cases hend
        simp only [reMatchp, if_neg hp]
    rw [hrun]
    rcases searchLoop_eq h text (-1) 0 with ⟨k, m, hk, hno, hm, hsearch⟩ | ⟨hno, hsearch⟩
    · refine .inl ⟨k, m, ⟨matchesAt_iff.2 ⟨hk, nofun, m, hm⟩, fun j hj => not_matchesAt (hno j hj),
        hm⟩, ?_⟩
      rw [hsearch, Nat.cast_add]
      simp only [Int.reduceNeg, Int.reduceAdd, Int.zero_add]
    · refine .inr ⟨fun idx hmatch => ?_, by rw [hsearch, hminus]⟩
      exact not_matchesAt (hno idx hmatch.1) hmatch

theorem int_eq_iff (n : Nat) : int n = n ↔ n < 2147483648 := by
  rw [int, Int.bmod_def]
  split <;> omega

theorem int_add_eq_iff (n e : Nat) :
    int (n + e : Nat) = n ↔ n < 2147483648 ∧ 4294967296 ∣ e := by
  rw [int, Int.bmod_def, Nat.cast_add]
  split <;> omega

theorem FirstMatch.unique {idx' n' : Nat} (h : FirstMatch caret dollar atoms text idx n)
    (h' : FirstMatch caret dollar atoms text idx' n') : idx' = idx ∧ n' = n := by
  have hidx : idx' = idx := by
    rcases Nat.lt_trichotomy idx idx' with hlt | he | hlt
    · exact (h'.2.1 idx hlt h.1).elim
    · exact he.symm
    · exact (h.2.1 idx' hlt h'.1).elim
  subst hidx
  exact ⟨rfl, Option.some.inj (h'.2.2.symm.trans h.2.2)⟩

/-- `re_matchp` returns the first index of a match, and leaves its length, exactly when both fit in
an `int` and the attempts up to it leave nothing in the counter (or a multiple of 2 ^ 32). -/
theorem reMatchp_iff (h : Compiled caret dollar atoms pattern) (hne : text ≠ []) :
    Answers caret dollar atoms text (reMatchp (some pattern) text).1
      (reMatchp (some pattern) text).2 ↔
    ∀ idx n, FirstMatch caret dollar atoms text idx n →
      idx < 2147483648 ∧ n < 2147483648 ∧ 4294967296 ∣ excess dollar atoms text idx := by
  rcases reMatchp_eq h hne with ⟨idx, n, hfirst, hrun⟩ | ⟨hno, hrun⟩
  · rw [hrun]
    constructor
    · rintro (⟨idx', n', hfirst', hret, hlength⟩ | ⟨hno, _⟩) idx'' n'' hfirst''
      · obtain ⟨rfl, rfl⟩ := hfirst.unique hfirst'
        obtain ⟨rfl, rfl⟩ := hfirst.unique hfirst''
        exact ⟨(int_eq_iff _).1 hret, (int_add_eq_iff _ _).1 hlength⟩
      · exact (hno idx hfirst.1).elim
    · intro hok
      obtain ⟨hidx, hn⟩ := hok idx n hfirst
      exact .inl ⟨idx, n, hfirst, (int_eq_iff _).2 hidx, (int_add_eq_iff _ _).2 hn⟩
  · refine iff_of_true (.inr ⟨hno, hrun⟩) fun idx n hfirst => ?_
    exact (hno idx hfirst.1).elim

end Search

section Witness

def charAtom (ch : UInt8) : Atom := ⟨⟨.char, ch, []⟩, rfl⟩

/-- The pattern `ab*c`. -/
def abStarC : List RegexT :=
  [(charAtom 97).regex, (charAtom 98).regex, ⟨.star, 0, []⟩, (charAtom 99).regex]

def abStarCAtoms : List (Atom × Quantifier) :=
  [(charAtom 97, .one), (charAtom 98, .star), (charAtom 99, .one)]

theorem abStarC_compiled : Compiled false false abStarCAtoms abStarC :=
  ⟨_, rfl, _, _, rfl, rfl, _, rfl, rfl⟩

/-- The text is `abc`. -/
theorem reMatchp_iff_abc :
    Answers false false abStarCAtoms [97, 98, 99] (reMatchp (some abStarC) [97, 98, 99]).1
      (reMatchp (some abStarC) [97, 98, 99]).2 ↔
    ∀ idx n, FirstMatch false false abStarCAtoms [97, 98, 99] idx n →
      idx < 2147483648 ∧ n < 2147483648 ∧
        4294967296 ∣ excess false abStarCAtoms [97, 98, 99] idx :=
  reMatchp_iff abStarC_compiled (by decide)

/-- The text is `axabc`: what the first attempt has counted stays counted. -/
theorem not_reMatchp :
    ¬ Answers false false abStarCAtoms [97, 120, 97, 98, 99]
      (reMatchp (some abStarC) [97, 120, 97, 98, 99]).1
      (reMatchp (some abStarC) [97, 120, 97, 98, 99]).2 := by
  have hrun : reMatchp (some abStarC) [97, 120, 97, 98, 99] = (2, 4) := by decide +kernel
  rw [hrun]
  rintro (⟨idx, n, hfirst, hret, hlength⟩ | ⟨_, hret⟩)
  · have hidx : idx = 2 := by
      have hret' : (2 : Int) = idx := hret
      omega
    have hn : n = 4 := by
      have hlength' : (4 : Int) = n := hlength
      omega
    have hfound : found false (items abStarCAtoms) [97, 98, 99] = some 3 := by decide +kernel
    have hthree := hfirst.2.2
    rw [hidx, hn] at hthree
    rw [show List.drop 2 [97, 120, 97, 98, 99] = ([97, 98, 99] : List Int8) from rfl, hfound]
      at hthree
    cases hthree
  · exact absurd hret (by decide)

end Witness

end BigBox.Regex
