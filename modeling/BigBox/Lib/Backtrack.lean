import Mathlib.Algebra.Order.Ring.Int
import Mathlib.Data.List.Basic

namespace BigBox.Backtrack
set_option autoImplicit true

/-- How often an atom may be repeated. -/
inductive Quantifier where
  | one
  | star
  | plus
  | question
  deriving DecidableEq, Repr

structure Item (α : Type) where
  accepts : α → Bool
  quantifier : Quantifier

def Quantifier.Allows : Quantifier → Nat → Prop
  | .one, k => k = 1
  | .star, _ => True
  | .plus, k => 1 ≤ k
  | .question, k => k ≤ 1

/-- The items consume the first `n` characters of a text, and the whole of it if they have to. -/
def Matches (toEnd : Bool) : List (Item α) → List α → Nat → Prop
  | [], text, n => n = 0 ∧ (toEnd = true → text = [])
  | item :: items, text, n => ∃ k m, item.quantifier.Allows k ∧ k ≤ text.length ∧
      (∀ c ∈ text.take k, item.accepts c = true) ∧ Matches toEnd items (text.drop k) m ∧ n = k + m

/-- The numbers down to 1. -/
def downFrom : Nat → List Nat
  | 0 => []
  | k + 1 => (k + 1) :: downFrom k

/-- The numbers of repetitions in the order they are tried, of the `n` that are possible: as many as
possible first for a star and a plus, none first for a question mark. -/
def Quantifier.tries : Quantifier → Nat → List Nat
  | .one, n => if 0 < n then [1] else []
  | .star, n => downFrom n ++ [0]
  | .plus, n => downFrom n
  | .question, n => if 0 < n then [0, 1] else [0]

/-- How many characters at the start of a text are accepted. -/
def runLength (accepts : α → Bool) : List α → Nat
  | [] => 0
  | c :: text => if accepts c then runLength accepts text + 1 else 0

/-- How many characters the first match consumes. -/
def found (toEnd : Bool) : List (Item α) → List α → Option Nat
  | [], text => if toEnd = true ∧ text ≠ [] then none else some 0
  | item :: items, text =>
    (item.quantifier.tries (runLength item.accepts text)).findSome? fun k =>
      (found toEnd items (text.drop k)).map (k + ·)

section Backtrack
variable {α : Type} {accepts : α → Bool} {text : List α} {items : List (Item α)} {toEnd : Bool}

theorem mem_downFrom : k ∈ downFrom n ↔ 1 ≤ k ∧ k ≤ n := by
  induction n with
  | zero =>
    rw [downFrom]
    exact iff_of_false List.not_mem_nil (by omega)
  | succ n ih =>
    rw [downFrom, List.mem_cons, ih]
    omega

/-- What is tried is what is allowed. -/
theorem mem_tries {q : Quantifier} : k ∈ q.tries n ↔ q.Allows k ∧ k ≤ n := by
  cases q with
  | one =>
    rw [Quantifier.tries, Quantifier.Allows]
    split
    · rw [List.mem_singleton]
      omega
    · exact iff_of_false List.not_mem_nil (by omega)
  | star =>
    rw [Quantifier.tries, Quantifier.Allows, List.mem_append, List.mem_singleton, mem_downFrom,
      true_and]
    omega
  | plus => exact mem_downFrom
  | question =>
    rw [Quantifier.tries, Quantifier.Allows]
    split
    · rw [List.mem_cons, List.mem_singleton]
      omega
    · rw [List.mem_singleton]
      omega

theorem le_runLength : k ≤ runLength accepts text ↔
    k ≤ text.length ∧ ∀ c ∈ text.take k, accepts c = true := by
  induction text generalizing k with
  | nil =>
    rw [runLength, List.length_nil, List.take_nil]
    exact (and_iff_left nofun).symm
  | cons c text ih =>
    cases k with
    | zero =>
      rw [List.take_zero]
      exact iff_of_true (Nat.zero_le _) ⟨Nat.zero_le _, nofun⟩
    | succ k =>
      rw [runLength, List.length_cons, List.take_succ_cons, List.forall_mem_cons]
      split
      case isTrue hc =>
        rw [Nat.succ_le_succ_iff, Nat.succ_le_succ_iff, ih]
        exact and_congr_right fun _ => (and_iff_right hc).symm
      case isFalse hc => exact iff_of_false (Nat.not_succ_le_zero k) fun h => hc h.2.1

/-- The first match is a match. -/
theorem matches_of_found (h : found toEnd items text = some n) : Matches toEnd items text n := by
  induction items generalizing text n with
  | nil =>
    rw [found] at h
    split at h
    case isTrue => cases h
    case isFalse hno =>
      cases h
      refine ⟨rfl, fun hend => ?_⟩
      by_contra htext
      exact hno ⟨hend, htext⟩
  | cons item items ih =>
    rw [found] at h
    obtain ⟨k, hk, hfound⟩ := List.exists_of_findSome?_eq_some h
    obtain ⟨m, hm, rfl⟩ := Option.map_eq_some_iff.1 hfound
    obtain ⟨hallows, hle⟩ := mem_tries.1 hk
    obtain ⟨hlen, haccepts⟩ := le_runLength.1 hle
    exact ⟨k, m, hallows, hlen, haccepts, ih hm, rfl⟩

/-- When there is a match, one is found. -/
theorem found_of_matches (h : Matches toEnd items text n) :
    ∃ m, found toEnd items text = some m := by
  induction items generalizing text n with
  | nil =>
    refine ⟨0, if_neg fun hno => ?_⟩
    exact hno.2 (h.2 hno.1)
  | cons item items ih =>
    obtain ⟨k, m, hallows, hlen, haccepts, hrest, _⟩ := h
    obtain ⟨m', hm'⟩ := ih hrest
    have hk : k ∈ item.quantifier.tries (runLength item.accepts text) :=
      mem_tries.2 ⟨hallows, le_runLength.2 ⟨hlen, haccepts⟩⟩
    rw [found]
    rw [← Option.isSome_iff_exists, List.findSome?_isSome_iff]
    exact ⟨k, hk, by rw [hm']; rfl⟩

theorem exists_matches_iff :
    (∃ n, Matches toEnd items text n) ↔ ∃ n, found toEnd items text = some n :=
  ⟨fun ⟨_, h⟩ => found_of_matches h, fun ⟨n, h⟩ => ⟨n, matches_of_found h⟩⟩

end Backtrack

end BigBox.Backtrack
