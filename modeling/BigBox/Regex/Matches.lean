import BigBox.Regex.Regex

namespace BigBox.Regex
open Backtrack
set_option autoImplicit true

def SymbolType.isAtom : SymbolType → Bool
  | .unused => false
  | .begin => false
  | .end => false
  | .questionmark => false
  | .star => false
  | .plus => false
  | _ => true

structure Atom where
  regex : RegexT
  isAtom : regex.type.isAtom = true

/-- The symbol behind an atom. -/
def symbolType : Quantifier → Option SymbolType
  | .one => none
  | .star => some .star
  | .plus => some .plus
  | .question => some .questionmark

/-- The symbols of a list of atoms with their quantifiers, and of a dollar sign behind them. -/
def Spells (dollar : Bool) : List (Atom × Quantifier) → List RegexT → Prop
  | [], pattern => if dollar then ∃ p, p.type = .end ∧ pattern = [p] else pattern = []
  | (a, q) :: atoms, pattern =>
    match symbolType q with
    | none => ∃ rest, pattern = a.regex :: rest ∧ Spells dollar atoms rest
    | some type => ∃ s rest, s.type = type ∧ pattern = a.regex :: s :: rest ∧
        Spells dollar atoms rest

/-- Atoms as sets of characters. -/
def items (atoms : List (Atom × Quantifier)) : List (Item Int8) :=
  atoms.map fun a => ⟨matchone a.1.regex, a.2⟩

/-- A sum up to the first number that a test holds of. -/
def sumTo (done : Nat → Bool) (f : Nat → Nat) : List Nat → Nat
  | [] => 0
  | k :: ks => if done k then f k else f k + sumTo done f ks

/-- How much an attempt adds to the counter beyond the characters it consumes. It is `none` when it
sets the counter back: it does so where a plain atom fails, but where what is behind plain atoms
fails they stay counted. -/
def surplus (dollar : Bool) : List (Item Int8) → List Int8 → Option Nat
  | [], _ => some 0
  | item :: items, text =>
    let tries := item.quantifier.tries (runLength item.accepts text)
    let done := fun k => (found dollar items (text.drop k)).isSome
    let sum := sumTo done (fun k => (surplus dollar items (text.drop k)).getD 0) tries
    match item.quantifier with
    | .one =>
      if 0 < runLength item.accepts text then
        if done 1 then surplus dollar items (text.drop 1)
        else (surplus dollar items (text.drop 1)).map (· + 1)
      else none
    | .star => some (if tries.any done then sum else 0)
    | .plus => some sum
    | .question => some sum

section Repeats
variable {matchRest : List Int8 → Int → Outcome} {find extra : List Int8 → Option Nat}

/-- What a matcher does: it finds a match, and adds what that consumes and something more. -/
def Finds (matchRest : List Int8 → Int → Outcome) (find extra : List Int8 → Option Nat) : Prop :=
  ∀ text n, matchRest text n =
    ((find text).isSome, n + (find text).getD 0 + (extra text).getD 0)

/-- The first of the tries that finds a match, and what it consumes. -/
def firstTry (find : List Int8 → Option Nat) (text : List Int8) (tries : List Nat) : Option Nat :=
  tries.findSome? fun k => (find (text.drop k)).map (k + ·)

def triesSum (find extra : List Int8 → Option Nat) (text : List Int8) (tries : List Nat) : Nat :=
  sumTo (fun k => (find (text.drop k)).isSome) (fun k => (extra (text.drop k)).getD 0) tries

theorem firstTry_some (h : find (text.drop k) = some m) (ks : List Nat) :
    firstTry find text (k :: ks) = some (k + m) := by
  rw [firstTry, List.findSome?_cons, h]
  rfl

theorem firstTry_none (h : find (text.drop k) = none) (ks : List Nat) :
    firstTry find text (k :: ks) = firstTry find text ks := by
  rw [firstTry, List.findSome?_cons, h]
  rfl

theorem triesSum_some (h : find (text.drop k) = some m) (ks : List Nat) :
    triesSum find extra text (k :: ks) = (extra (text.drop k)).getD 0 := by
  rw [triesSum, sumTo, h]
  exact if_pos rfl

theorem triesSum_none (h : find (text.drop k) = none) (ks : List Nat) :
    triesSum find extra text (k :: ks) =
      (extra (text.drop k)).getD 0 + triesSum find extra text ks := by
  rw [triesSum, sumTo, h]
  exact if_neg Bool.false_ne_true

theorem Finds.some (h : Finds matchRest find extra) (hfind : find text = some m) (n : Int) :
    matchRest text n = (true, n + m + (extra text).getD 0) := by
  rw [h, hfind]
  rfl

theorem Finds.none (h : Finds matchRest find extra) (hfind : find text = none) (n : Int) :
    matchRest text n = (false, n + (extra text).getD 0) := by
  rw [h, hfind, Option.getD_none, Nat.cast_zero, Int.add_zero]
  rfl

/-- What a loop over tries ends with. When none of them finds a match, it is off by `miss`. -/
def triesOutcome (find extra : List Int8 → Option Nat) (text : List Int8) (n miss : Int)
    (tries : List Nat) : Outcome :=
  match firstTry find text tries with
  | .some m => (true, n + m + triesSum find extra text tries)
  | .none => (false, n + miss + triesSum find extra text tries)

theorem triesOutcome_some (h : find (text.drop k) = some m) (n miss : Int) (ks : List Nat) :
    triesOutcome find extra text n miss (k :: ks) =
      (true, n + (k + m : Nat) + (extra (text.drop k)).getD 0) := by
  rw [triesOutcome, firstTry_some h, triesSum_some h]

theorem triesOutcome_none (h : find (text.drop k) = none) (n miss : Int) (ks : List Nat) :
    triesOutcome find extra text n miss (k :: ks) =
      triesOutcome find extra text (n + (extra (text.drop k)).getD 0) miss ks := by
  rw [triesOutcome, triesOutcome, firstTry_none h, triesSum_none h]
  cases firstTry find text ks with
  | none =>
    simp only [Nat.cast_add]
    congr 1
    omega
  | some m =>
    simp only [Nat.cast_add]
    congr 1
    omega

theorem starLoop_eq (h : Finds matchRest find extra) (text : List Int8) (k : Nat) (n : Int) :
    starLoop matchRest text k (n + k) =
      triesOutcome find extra text n (-1) (downFrom k ++ [0]) := by
  induction k generalizing n with
  | zero =>
    rw [starLoop, downFrom, List.nil_append]
    cases hfind : find text with
    | none =>
      rw [triesOutcome_none (k := 0) hfind, h.none hfind]
      exact congrArg (Prod.mk false) (by simp [triesSum, sumTo]; omega)
    | some m =>
      rw [triesOutcome_some (k := 0) hfind, h.some hfind]
      exact congrArg (Prod.mk true) (by simp)
  | succ k ih =>
    rw [starLoop, downFrom, List.cons_append]
    cases hfind : find (text.drop (k + 1)) with
    | none =>
      rw [triesOutcome_none hfind, ← ih, h.none hfind]
      simp only [Bool.false_eq_true, if_false]
      congr 1
      omega
    | some m =>
      rw [triesOutcome_some hfind, h.some hfind]
      exact congrArg (Prod.mk true) (by omega)

theorem plusLoop_eq (h : Finds matchRest find extra) (text : List Int8) (k : Nat) (n : Int) :
    plusLoop matchRest text k (n + k) = triesOutcome find extra text n 0 (downFrom k) := by
  induction k generalizing n with
  | zero => simp [plusLoop, downFrom, triesOutcome, firstTry, triesSum, sumTo]
  | succ k ih =>
    rw [plusLoop, downFrom]
    cases hfind : find (text.drop (k + 1)) with
    | none =>
      rw [triesOutcome_none hfind, ← ih, h.none hfind]
      simp only [Bool.false_eq_true, if_false]
      congr 1
      omega
    | some m =>
      rw [triesOutcome_some hfind, h.some hfind]
      exact congrArg (Prod.mk true) (by omega)

theorem matchstar_eq (h : Finds matchRest find extra) (p : RegexT) (text : List Int8) (n : Int) :
    matchstar matchRest p text n =
      match firstTry find text (Quantifier.star.tries (runLength (matchone p) text)) with
      | .some m => (true, n + m + triesSum find extra text
          (Quantifier.star.tries (runLength (matchone p) text)))
      | .none => (false, n) := by
  rw [matchstar, starLoop_eq h, triesOutcome, Quantifier.tries]
  cases firstTry find text (downFrom (runLength (matchone p) text) ++ [0]) <;> rfl

theorem matchplus_eq (h : Finds matchRest find extra) (p : RegexT) (text : List Int8) (n : Int) :
    matchplus matchRest p text n = triesOutcome find extra text n 0
      (Quantifier.plus.tries (runLength (matchone p) text)) :=
  plusLoop_eq h text _ n

theorem matchquestion_eq (h : Finds matchRest find extra) {p : RegexT} (hp : p.type ≠ .unused)
    (text : List Int8) (n : Int) :
    matchquestion matchRest p text n = triesOutcome find extra text n 0
      (Quantifier.question.tries (runLength (matchone p) text)) := by
  have hlast : ∀ n, triesOutcome find extra text n 0 [] = (false, n) := by
    intro n
    simp [triesOutcome, firstTry, triesSum, sumTo]
  rw [matchquestion, if_neg hp, Quantifier.tries]
  cases hfind : find text with
  | some m =>
    have hsome : ∀ ks, triesOutcome find extra text n 0 (0 :: ks) =
        (true, n + (0 + m : Nat) + (extra (text.drop 0)).getD 0) :=
      fun ks => triesOutcome_some (k := 0) hfind n 0 ks
    rw [h.some hfind]
    by_cases hrun : 0 < runLength (matchone p) text
    · rw [if_pos hrun, hsome]
      exact congrArg (Prod.mk true) (by simp)
    · rw [if_neg hrun, hsome]
      exact congrArg (Prod.mk true) (by simp)
  | none =>
    have hnone : ∀ ks, triesOutcome find extra text n 0 (0 :: ks) =
        triesOutcome find extra text (n + (extra (text.drop 0)).getD 0) 0 ks :=
      fun ks => triesOutcome_none (k := 0) hfind n 0 ks
    rw [h.none hfind]
    cases text with
    | nil =>
      rw [runLength, if_neg (Nat.lt_irrefl 0), hnone, hlast]
      rfl
    | cons c text =>
      rw [runLength]
      by_cases hc : matchone p c = true
      · rw [if_pos hc, if_pos (Nat.succ_pos _), hnone]
        cases hrest : find text with
        | some m =>
          rw [triesOutcome_some (k := 1) hrest]
          simp only [hc, h.some hrest, Bool.false_eq_true, if_false, if_true, List.drop_zero,
            List.drop_succ_cons]
          congr 1
          omega
        | none =>
          rw [triesOutcome_none (k := 1) hrest, hlast]
          simp only [hc, h.none hrest, Bool.false_eq_true, if_false, if_true, List.drop_zero,
            List.drop_succ_cons]
      · rw [if_neg hc, if_neg (Nat.lt_irrefl 0), hnone, hlast]
        simp only [hc, Bool.false_eq_true, if_false, List.drop_zero]

end Repeats

section Pattern
variable {dollar : Bool} {atoms : List (Atom × Quantifier)} {pattern : List RegexT}

theorem Atom.type_ne (a : Atom) : a.regex.type ≠ .unused := by
  intro he
  have hatom := a.isAtom
  rw [he] at hatom
  cases hatom

/-- What follows an atom without a quantifier is none. -/
theorem Spells.head (h : Spells dollar atoms (q :: pattern)) :
    q.type.isAtom = true ∨ q.type = .end := by
  cases atoms with
  | nil =>
    cases dollar with
    | false => cases h
    | true =>
      obtain ⟨p, hp, he⟩ := h
      cases he
      exact .inr hp
  | cons a atoms =>
    obtain ⟨a, quantifier⟩ := a
    rw [Spells] at h
    cases hs : symbolType quantifier with
    | none =>
      rw [hs] at h
      obtain ⟨rest, he, _⟩ := h
      cases he
      exact .inl a.isAtom
    | some type =>
      rw [hs] at h
      obtain ⟨s, rest, _, he, _⟩ := h
      cases he
      exact .inl a.isAtom

/-- A plain atom is none of the cases that return. -/
theorem matchReturn_plain (matchRest : List Int8 → Int → Outcome) {p q : RegexT}
    (hp : p.type.isAtom = true) (hq : q.type.isAtom = true ∨ q.type = .end ∨ q.type = .unused)
    (text : List Int8) (n : Int) : matchReturn matchRest p q text n = none := by
  have hunused : p.type ≠ .unused := fun he => by
    rw [he] at hp
    cases hp
  have hend : p.type ≠ .end := fun he => by
    rw [he] at hp
    cases hp
  have hno : q.type ≠ .questionmark ∧ q.type ≠ .star ∧ q.type ≠ .plus := by
    rcases hq with hq | hq | hq
    · refine ⟨fun he => ?_, fun he => ?_, fun he => ?_⟩ <;>
      · rw [he] at hq
        cases hq
    · rw [hq]
      decide
    · rw [hq]
      decide
  rw [matchReturn, if_neg (not_or.2 ⟨hunused, hno.1⟩), if_neg hno.2.1, if_neg hno.2.2,
    if_neg fun h => hend h.1]

theorem firstTry_eq (item : Item Int8) (items : List (Item Int8)) (text : List Int8) :
    found dollar (item :: items) text = firstTry (found dollar items) text
      (item.quantifier.tries (runLength item.accepts text)) := rfl

theorem surplus_eq (item : Item Int8) (items : List (Item Int8)) (text : List Int8)
    (hq : item.quantifier = .plus ∨ item.quantifier = .question) :
    surplus dollar (item :: items) text = some (triesSum (found dollar items)
      (surplus dollar items) text (item.quantifier.tries (runLength item.accepts text))) := by
  rcases hq with hq | hq <;>
  · rw [surplus, hq]
    rfl

theorem firstTry_isSome (find : List Int8 → Option Nat) (text : List Int8) (tries : List Nat) :
    (firstTry find text tries).isSome = tries.any fun k => (find (text.drop k)).isSome := by
  induction tries with
  | nil => rfl
  | cons k tries ih =>
    rw [List.any_cons]
    cases hfind : find (text.drop k) with
    | none =>
      rw [firstTry_none hfind, ih]
      rfl
    | some m =>
      rw [firstTry_some hfind]
      rfl

theorem surplus_star (item : Item Int8) (items : List (Item Int8)) (text : List Int8)
    (hq : item.quantifier = .star) :
    surplus dollar (item :: items) text =
      some (if (found dollar (item :: items) text).isSome then triesSum (found dollar items)
        (surplus dollar items) text (item.quantifier.tries (runLength item.accepts text))
      else 0) := by
  rw [firstTry_eq, firstTry_isSome, surplus, hq]
  rfl

theorem surplus_one (item : Item Int8) (items : List (Item Int8)) (text : List Int8)
    (hq : item.quantifier = .one) :
    surplus dollar (item :: items) text =
      if 0 < runLength item.accepts text then
        if (found dollar items (text.drop 1)).isSome then surplus dollar items (text.drop 1)
        else (surplus dollar items (text.drop 1)).map (· + 1)
      else none := by
  rw [surplus, hq]

theorem matchLoop_return {p q : RegexT}
    (h : matchReturn (fun text n => matchLoop n pattern text n) p q text n = some result)
    (pre : Int) : matchLoop pre (p :: q :: pattern) text n = result := by
  unfold matchLoop
  rw [h]

theorem matchLoop_end {p : RegexT} (hp : p.type = .end) (pre : Int) (text : List Int8) (n : Int) :
    matchLoop pre [p] text n = (decide (text = []), n) := by
  simp [matchLoop, matchReturn, hp, unused]

/-- A round of the loop with a plain atom. -/
theorem matchLoop_plain {p : RegexT} (hp : p.type.isAtom = true) (h : Spells dollar atoms pattern)
    (pre : Int) (text : List Int8) (n : Int) :
    matchLoop pre (p :: pattern) text n =
      match text with
      | [] => (false, pre)
      | c :: text =>
        if matchone p c then matchLoop pre pattern text (n + 1) else (false, pre) := by
  cases pattern with
  | nil =>
    conv_lhs => unfold matchLoop
    rw [matchReturn_plain _ hp (.inr (.inr rfl))]
    all_goals rfl
  | cons q pattern =>
    conv_lhs => unfold matchLoop
    rw [matchReturn_plain _ hp (h.head.imp_right .inl)]
    all_goals rfl

/-- What `matchpattern` finds, and what it adds to the counter. It is set back to `pre`
where a plain atom fails. -/
def patternOutcome (dollar : Bool) (items : List (Item Int8)) (pre : Int) (text : List Int8)
    (n : Int) : Outcome :=
  match found dollar items text with
  | some m => (true, n + m + (surplus dollar items text).getD 0)
  | none => (false, match surplus dollar items text with
    | some x => n + x
    | none => pre)

theorem patternOutcome_finds {items : List (Item Int8)}
    (h : ∀ pre text n, matchLoop pre pattern text n =
      patternOutcome dollar items pre text n) :
    Finds (fun text n => matchLoop n pattern text n) (found dollar items)
      (surplus dollar items) := by
  intro text n
  dsimp only
  rw [h, patternOutcome]
  cases found dollar items text with
  | some m => rfl
  | none =>
    cases surplus dollar items text <;> simp

/-- A plain atom in front. -/
theorem patternOutcome_one (item : Item Int8) (items : List (Item Int8)) (pre : Int)
    (text : List Int8) (n : Int) (hq : item.quantifier = .one) :
    patternOutcome dollar (item :: items) pre text n =
      match text with
      | [] => (false, pre)
      | c :: text =>
        if item.accepts c then patternOutcome dollar items pre text (n + 1) else (false, pre) := by
  rw [patternOutcome, surplus_one item items text hq, firstTry_eq, hq, Quantifier.tries]
  cases text with
  | nil => rfl
  | cons c text =>
    rw [runLength]
    by_cases hc : item.accepts c = true
    · rw [if_pos hc, if_pos (Nat.succ_pos _), if_pos (Nat.succ_pos _), List.drop_succ_cons,
        List.drop_zero]
      dsimp only
      rw [if_pos hc, patternOutcome]
      cases hfound : found dollar items text with
      | some m =>
        rw [firstTry_some (k := 1) hfound, Option.isSome_some, if_pos rfl]
        exact congrArg (Prod.mk true) (by omega)
      | none =>
        rw [firstTry_none (k := 1) hfound, Option.isSome_none, if_neg Bool.false_ne_true]
        cases surplus dollar items text with
        | none => rfl
        | some x =>
          dsimp only [Option.map_some]
          exact congrArg (Prod.mk false) (by omega)
    · rw [if_neg hc, if_neg (Nat.lt_irrefl 0), if_neg (Nat.lt_irrefl 0)]
      dsimp only
      rw [if_neg hc]
      rfl

theorem patternOutcome_star (item : Item Int8) (items : List (Item Int8)) (pre : Int)
    (text : List Int8) (n : Int) (hq : item.quantifier = .star) :
    patternOutcome dollar (item :: items) pre text n =
      match firstTry (found dollar items) text
        (item.quantifier.tries (runLength item.accepts text)) with
      | some m => (true, n + m + triesSum (found dollar items) (surplus dollar items) text
          (item.quantifier.tries (runLength item.accepts text)))
      | none => (false, n) := by
  rw [patternOutcome, surplus_star item items text hq, firstTry_eq]
  cases firstTry (found dollar items) text
      (item.quantifier.tries (runLength item.accepts text)) with
  | some m => rfl
  | none => exact congrArg (Prod.mk false) (Int.add_zero n)

theorem patternOutcome_tries (item : Item Int8) (items : List (Item Int8)) (pre : Int)
    (text : List Int8) (n : Int) (hq : item.quantifier = .plus ∨ item.quantifier = .question) :
    patternOutcome dollar (item :: items) pre text n =
      triesOutcome (found dollar items) (surplus dollar items) text n 0
        (item.quantifier.tries (runLength item.accepts text)) := by
  rw [patternOutcome, surplus_eq item items text hq, firstTry_eq, triesOutcome]
  cases firstTry (found dollar items) text
      (item.quantifier.tries (runLength item.accepts text)) with
  | some m => rfl
  | none => exact congrArg (Prod.mk false) (by rw [Int.add_zero])

theorem items_cons (a : Atom) (q : Quantifier) (atoms : List (Atom × Quantifier)) :
    items ((a, q) :: atoms) = ⟨matchone a.regex, q⟩ :: items atoms := rfl

/-- The outcome of the loop of `matchpattern`. -/
theorem matchLoop_eq (h : Spells dollar atoms pattern) (pre : Int) (text : List Int8) (n : Int) :
    matchLoop pre pattern text n = patternOutcome dollar (items atoms) pre text n := by
  induction atoms generalizing pattern pre text n with
  | nil =>
    cases dollar with
    | false =>
      cases h
      simp [matchLoop, items, patternOutcome, found, surplus]
    | true =>
      obtain ⟨p, hp, rfl⟩ := h
      rw [matchLoop_end hp]
      cases text <;> simp [items, patternOutcome, found, surplus]
  | cons a atoms ih =>
    obtain ⟨a, quantifier⟩ := a
    rw [Spells] at h
    cases quantifier with
    | one =>
      obtain ⟨rest, rfl, hrest⟩ := h
      rw [matchLoop_plain a.isAtom hrest, items_cons, patternOutcome_one _ _ _ _ _ rfl]
      cases text with
      | nil => rfl
      | cons c text =>
        dsimp only
        rw [ih hrest]
    | star =>
      obtain ⟨s, rest, hs, rfl, hrest⟩ := h
      have hreturn : matchReturn (fun text n => matchLoop n rest text n) a.regex s text n =
          some (matchstar (fun text n => matchLoop n rest text n) a.regex text n) := by
        simp [matchReturn, a.type_ne, hs]
      rw [matchLoop_return hreturn, matchstar_eq (patternOutcome_finds (ih hrest)), items_cons,
        patternOutcome_star _ _ _ _ _ rfl]
    | plus =>
      obtain ⟨s, rest, hs, rfl, hrest⟩ := h
      have hreturn : matchReturn (fun text n => matchLoop n rest text n) a.regex s text n =
          some (matchplus (fun text n => matchLoop n rest text n) a.regex text n) := by
        simp [matchReturn, a.type_ne, hs]
      rw [matchLoop_return hreturn, matchplus_eq (patternOutcome_finds (ih hrest)), items_cons,
        patternOutcome_tries _ _ _ _ _ (.inl rfl)]
    | question =>
      obtain ⟨s, rest, hs, rfl, hrest⟩ := h
      have hreturn : matchReturn (fun text n => matchLoop n rest text n) a.regex s text n =
          some (matchquestion (fun text n => matchLoop n rest text n) a.regex text n) := by
        simp [matchReturn, hs]
      rw [matchLoop_return hreturn,
        matchquestion_eq (patternOutcome_finds (ih hrest)) a.type_ne, items_cons,
        patternOutcome_tries _ _ _ _ _ (.inr rfl)]

end Pattern

end BigBox.Regex
