import BigBox.Lib.Block
import BigBox.Lib.Fields
import BigBox.StrOpt.StrEncodeSql
import BigBox.StrOpt.StrParse

namespace BigBox.StrOpt
open Fields Loop
set_option autoImplicit true

/-- A round of the loop over the blanks in front. A text of blanks has no start. -/
def leadRound (val : List UInt8) (start : Nat) : Option (Round Nat (Option Nat)) := do
  let ch ← charAt val start
  if isspace ch = false then return .done (some start)
  else if start + 1 = val.length then return .done none
  else return .next (start + 1)

/-- A round of the loop over the blanks at the end. -/
def trailRound (val : List UInt8) : Nat → Option (Round Nat Nat)
  | 0 => none
  | fromEnd + 1 => do
    let ch ← charAt val fromEnd
    if isspace ch then return .next fromEnd else return .done (fromEnd + 1)

/-- A round of the search for a gap to be simplified: without one the text is returned, else the
place in the gap and `copyCount`. -/
def scanRound (val : List UInt8) (copyFrom fromEnd : Nat) (place : Nat) :
    Option (Round Nat (List UInt8 ⊕ Nat × Int)) :=
  let place := place + 1
  if place = fromEnd then
    some (.done (.inl (substr val copyFrom (place - copyFrom))))
  else do
    let ch ← charAt val place
    if isspace ch = false then return .next place
    else if ch ≠ 32 then return .done (.inr (place, toInt (place - copyFrom)))
    else
      let place := place + 1
      let ch ← charAt val place
      if isspace ch then return .done (.inr (place, toInt (place - copyFrom - 1)))
      else return .next place

/-- The places in the last loop: in front of the blank that is written, in the loop over blanks,
and in the loop over a word. -/
inductive Tail where
  | gap (place dest : Nat) (result : List UInt8)
  | skip (place dest : Nat) (result : List UInt8)
  | word (place dest : Nat) (result : List UInt8) (ch : UInt8)

def tailRound (val : List UInt8) (fromEnd : Nat) :
    Tail → Option (Round Tail (Nat × List UInt8 × UInt8))
  | .gap place dest result => do
    let result ← Block.write result dest [32]
    return .next (.skip place (dest + 1) result)
  | .skip place dest result => do
    let ch ← charAt val (place + 1)
    if isspace ch then return .next (.skip (place + 1) dest result)
    else if place + 1 = fromEnd then return .done (dest, result, ch)
    else return .next (.word (place + 1) dest result ch)
  | .word place dest result ch => do
    let result ← Block.write result dest [ch]
    let ch ← charAt val (place + 1)
    if place + 1 = fromEnd then return .done (dest + 1, result, ch)
    else if isspace ch = false then return .next (.word (place + 1) (dest + 1) result ch)
    else return .next (.gap (place + 1) (dest + 1) result)

/-- The result of a size, with its zero, after the bulk copy of twice the count. -/
def copied (val : List UInt8) (copyFrom : Nat) (copyCount size : Int) : Option (List UInt8) :=
  if size < 0 then none
  else do
    let n ← checkedInt (copyCount * 2)
    let bytes ← Block.read (val ++ [0]) copyFrom (sizeOfInt n)
    Block.write (List.replicate size.toNat 48 ++ [0]) 0 bytes

/-- The last character is written and the result is cut behind it. -/
def finished (size : Nat) (dest : Nat) (result : List UInt8) (ch : UInt8) :
    Option (List UInt8) := do
  let result ← Block.write result dest [ch]
  if dest + 1 ≤ size then return result.take (dest + 1)
  else return result.take size ++ List.replicate (dest + 1 - size) 0

/-- What follows the search for a gap. -/
def simplifyGap (fuel : Nat) (val : List UInt8) (copyFrom fromEnd place : Nat) (copyCount : Int) :
    Option (List UInt8) := do
  let size := ((fromEnd - place : Nat) : Int) + copyCount
  let result ← copied val copyFrom copyCount size
  -- a negative count leads in front of the result
  if copyCount < 0 then none
  else
    let (dest, result, ch) ←
      iterate (tailRound val (fromEnd - 1)) fuel (.gap place copyCount.toNat result)
    finished size.toNat dest result ch

/-- `StrOpt::strSimplified`, up to so many rounds of each loop. -/
def strSimplified (fuel : Nat) (val : List UInt8) : Option (List UInt8) :=
  if val.length = 0 then some val
  else do
    match ← iterate (leadRound val) fuel 0 with
    | none => return val
    | some copyFrom =>
      let fromEnd ← iterate (trailRound val) fuel val.length
      match ← iterate (scanRound val copyFrom fromEnd) fuel copyFrom with
      | .inl text => return text
      | .inr (place, copyCount) => simplifyGap fuel val copyFrom fromEnd place copyCount

/-- The words of a text with single blanks between them. -/
def joined (s : List UInt8) : List UInt8 := [32].intercalate (words isspace s)

/-- Simplifying gives the words with single blanks between them, and once more the same. -/
def Simplifies (s : List UInt8) : Prop :=
  (∃ fuel, strSimplified fuel s = some (joined s)) ∧
    ∃ fuel, strSimplified fuel (joined s) = some (joined s)

/-- A blank that is not a single space. -/
def Gap (t w : List UInt8) (x y : UInt8) (r : List UInt8) : Prop :=
  t = w ++ x :: y :: r ∧ isspace x = true ∧ (x ≠ 32 ∨ isspace y = true)

/-- The first of the gaps: what is in front of it and behind its first blank. -/
def firstGap : List UInt8 → Option (List UInt8 × UInt8 × List UInt8)
  | x :: y :: r =>
    if isspace x = true ∧ (x ≠ 32 ∨ isspace y = true) then some ([], x, y :: r)
    else (firstGap (y :: r)).map fun (w, gap) => (x :: w, gap)
  | _ => none

section Joined
variable {c y : UInt8} {l r s t w : List UInt8}

theorem joined_blank (h : isspace c = true) (l : List UInt8) : joined (c :: l) = joined l := by
  rw [joined, words_cons h, joined]

theorem joined_single (h : isspace c = false) : joined [c] = [c] := by
  rw [joined, words_last (List.cons_ne_nil c []) (List.forall_mem_singleton.2 h),
    List.intercalate_singleton]

/-- The last character is no blank. -/
def Closed (l : List UInt8) : Prop := ∀ d, l.getLast? = some d → isspace d = false

theorem closed_tail (h : Closed (c :: y :: r)) : Closed (y :: r) := by
  intro d hd
  apply h d
  rw [List.getLast?_cons_cons, hd]

theorem words_ne_nil (h : Closed l) (hne : l ≠ []) : words isspace l ≠ [] := by
  induction l with
  | nil => exact absurd rfl hne
  | cons c l ih =>
    cases l with
    | nil =>
      have hc := h c rfl
      rw [words_last (List.cons_ne_nil c []) (List.forall_mem_singleton.2 hc)]
      exact List.cons_ne_nil _ _
    | cons y r =>
      cases hc : isspace c with
      | true =>
        rw [words_cons hc]
        exact ih (closed_tail h) (List.cons_ne_nil _ _)
      | false =>
        rw [words, List.splitOnP_cons_eq_if_modifyHead, if_neg (ne_true_of_eq_false hc)]
        obtain ⟨head, rest, hsplit⟩ := List.exists_cons_of_ne_nil
          (List.splitOnP_ne_nil isspace (y :: r))
        rw [hsplit, List.modifyHead_cons, List.filter_cons_of_pos rfl]
        exact List.cons_ne_nil _ _

/-- A blank between a character and the rest of the words. -/
theorem joined_cut (hc : isspace c = false) (hb : isspace b = true) (hl : Closed l) (hne : l ≠ []) :
    joined (c :: b :: l) = c :: 32 :: joined l := by
  have hcut := words_cut (List.cons_ne_nil c []) (List.forall_mem_singleton.2 hc) hb l
  obtain ⟨head, rest, hwords⟩ := List.exists_cons_of_ne_nil (words_ne_nil hl hne)
  rw [List.singleton_append] at hcut
  rw [joined, hcut, joined, hwords, List.intercalate_cons_cons]
  rfl

/-- A character in front of a word. -/
theorem joined_cons (hc : isspace c = false) (hy : isspace y = false) (r : List UInt8) :
    joined (c :: y :: r) = c :: joined (y :: r) := by
  obtain ⟨head, rest, hsplit⟩ := List.exists_cons_of_ne_nil (List.splitOnP_ne_nil isspace r)
  have hwords : words isspace (y :: r) = (y :: head) :: rest.filter (! ·.isEmpty) := by
    rw [words, List.splitOnP_cons_eq_if_modifyHead, if_neg (ne_true_of_eq_false hy), hsplit,
      List.modifyHead_cons, List.filter_cons_of_pos rfl]
  have hmore : words isspace (c :: y :: r) = (c :: y :: head) :: rest.filter (! ·.isEmpty) := by
    rw [words, List.splitOnP_cons_eq_if_modifyHead, if_neg (ne_true_of_eq_false hc),
      List.splitOnP_cons_eq_if_modifyHead, if_neg (ne_true_of_eq_false hy), hsplit,
      List.modifyHead_cons, List.modifyHead_cons, List.filter_cons_of_pos rfl]
  rw [joined, joined, hwords, hmore, List.intercalate_cons_cons_left]

theorem firstGap_cons (hy : isspace y = false) (r : List UInt8) :
    firstGap (y :: r) = (firstGap r).map fun (w, gap) => (y :: w, gap) := by
  cases r with
  | nil => rfl
  | cons z r =>
    rw [firstGap, if_neg]
    rintro ⟨hblank, -⟩
    rw [hy] at hblank
    cases hblank

theorem firstGap_space (hy : isspace y = false) (r : List UInt8) :
    firstGap (32 :: y :: r) = (firstGap r).map fun (w, gap) => (32 :: y :: w, gap) := by
  have hno : ¬(isspace 32 = true ∧ ((32 : UInt8) ≠ 32 ∨ isspace y = true)) := by
    rintro ⟨-, hne | hblank⟩
    · exact hne rfl
    · rw [hy] at hblank
      cases hblank
  rw [firstGap, if_neg hno, firstGap_cons hy, Option.map_map]
  rfl

theorem firstGap_some {x : UInt8} (h : firstGap l = some (w, x, s)) :
    ∃ y r, s = y :: r ∧ Gap l w x y r ∧
      ∀ w' x' y' r', Gap l w' x' y' r' → w.length ≤ w'.length := by
  induction l generalizing w with
  | nil => cases h
  | cons c l ih =>
    cases l with
    | nil => cases h
    | cons y r =>
      rw [firstGap] at h
      split at h
      case isTrue hgap =>
        cases h
        exact ⟨y, r, rfl, ⟨rfl, hgap⟩, fun _ _ _ _ _ => Nat.zero_le _⟩
      case isFalse hno =>
        obtain ⟨⟨w, x, s⟩, hfirst, heq⟩ := Option.map_eq_some_iff.1 h
        cases heq
        obtain ⟨y', r', rfl, ⟨hsplit, hgap⟩, hmin⟩ := ih hfirst
        refine ⟨y', r', rfl, ⟨congrArg (c :: ·) hsplit, hgap⟩, ?_⟩
        rintro w' x' y₁ r₁ ⟨hsplit', hgap'⟩
        cases w' with
        | nil =>
          cases hsplit'
          exact absurd hgap' hno
        | cons c' w' =>
          obtain ⟨rfl, hrest⟩ := List.cons.inj hsplit'
          exact Nat.succ_le_succ (hmin w' x' y₁ r₁ ⟨hrest, hgap'⟩)

theorem firstGap_none (h : firstGap l = none) (w : List UInt8) (x y : UInt8) (r : List UInt8) :
    ¬Gap l w x y r := by
  induction l generalizing w with
  | nil =>
    rintro ⟨hsplit, -⟩
    exact absurd hsplit.symm (List.append_ne_nil_of_right_ne_nil _ (List.cons_ne_nil _ _))
  | cons c l ih =>
    rintro ⟨hsplit, hgap⟩
    cases w with
    | nil =>
      cases hsplit
      rw [firstGap, if_pos hgap] at h
      cases h
    | cons c' w =>
      obtain ⟨-, hrest⟩ := List.cons.inj hsplit
      cases l with
      | nil =>
        exact absurd hrest.symm (List.append_ne_nil_of_right_ne_nil _ (List.cons_ne_nil _ _))
      | cons z l =>
        rw [firstGap] at h
        split at h
        case isTrue => cases h
        case isFalse => exact ih (Option.map_eq_none_iff.1 h) w ⟨hrest, hgap⟩

/-- Up to its first gap the text stays, and behind it the rest is joined. -/
theorem joined_eq {c : UInt8} {l : List UInt8} (hc : isspace c = false)
    (hl : Closed (c :: l)) :
    joined (c :: l) =
      match firstGap (c :: l) with
      | none => c :: l
      | some (w, _, r) => w ++ 32 :: joined r := by
  match l, hl with
  | [], _ => exact joined_single hc
  | y :: r, hl =>
    have hr := closed_tail hl
    rw [firstGap_cons hc]
    cases hy : isspace y with
    | false =>
      rw [joined_cons hc hy, joined_eq hy hr]
      cases firstGap (y :: r) <;> rfl
    | true =>
      cases r with
      | nil => exact absurd (hr y rfl) (ne_false_of_eq_true hy)
      | cons z r =>
        rw [joined_cut hc hy (closed_tail hr) (List.cons_ne_nil _ _)]
        by_cases hgap : y ≠ 32 ∨ isspace z = true
        · rw [firstGap, if_pos ⟨hy, hgap⟩]
          rfl
        · obtain ⟨hspace, hz⟩ := not_or.1 hgap
          obtain rfl := not_not.1 hspace
          have hz := eq_false_of_ne_true hz
          rw [firstGap_space hz, joined_eq hz (closed_tail hr), firstGap_cons hz]
          cases firstGap r <;> rfl
termination_by l.length

theorem length_joined_le {l : List UInt8} (hl : Closed l) : (joined l).length ≤ l.length := by
  match l, hl with
  | [], _ => exact Nat.le_refl _
  | [c], hl =>
    rw [joined_single (hl c rfl)]
  | c :: y :: r, hl =>
    have hr := closed_tail hl
    cases hc : isspace c with
    | true =>
      rw [joined_blank hc]
      exact Nat.le_succ_of_le (length_joined_le hr)
    | false =>
      cases hy : isspace y with
      | false =>
        rw [joined_cons hc hy, List.length_cons, List.length_cons]
        exact Nat.succ_le_succ (length_joined_le hr)
      | true =>
        cases r with
        | nil => exact absurd (hr y rfl) (ne_false_of_eq_true hy)
        | cons z r =>
          have hle := length_joined_le (closed_tail hr)
          rw [joined_cut hc hy (closed_tail hr) (List.cons_ne_nil _ _), List.length_cons,
            List.length_cons, List.length_cons, List.length_cons]
          omega
termination_by l.length

/-- What is joined has no gap, and no blank at its ends. -/
theorem joined_simple {l : List UInt8} (hl : Closed l) (hne : l ≠ []) :
    ∃ c l', joined l = c :: l' ∧ isspace c = false ∧ Closed (c :: l') ∧
      firstGap (c :: l') = none := by
  match l, hl, hne with
  | [c], hl, _ => exact ⟨c, [], joined_single (hl c rfl), hl c rfl, hl, rfl⟩
  | b :: y :: r, hl, _ =>
    have hr := closed_tail hl
    obtain ⟨c, l', heq, hc, hclosed, hnone⟩ := joined_simple hr (List.cons_ne_nil _ _)
    have hclosed' : ∀ a, Closed (a :: c :: l') := by
      intro a d hd
      rw [List.getLast?_cons_cons] at hd
      exact hclosed d hd
    cases hb : isspace b with
    | true =>
      rw [joined_blank hb]
      exact ⟨c, l', heq, hc, hclosed, hnone⟩
    | false =>
      cases hy : isspace y with
      | false =>
        refine ⟨b, c :: l', (joined_cons hb hy r).trans (congrArg _ heq), hb, hclosed' b, ?_⟩
        rw [firstGap_cons hb, hnone]
        rfl
      | true =>
        have hnil : r ≠ [] := by
          rintro rfl
          exact absurd (hr y rfl) (ne_false_of_eq_true hy)
        obtain ⟨z, r, rfl⟩ := List.exists_cons_of_ne_nil hnil
        rw [joined_blank hy] at heq
        refine ⟨b, 32 :: c :: l', ?_, hb, ?_, ?_⟩
        · rw [joined_cut hb hy (closed_tail hr) hnil, heq]
        · intro d hd
          rw [List.getLast?_cons_cons] at hd
          exact hclosed' 32 d hd
        · rw [firstGap_cons hc, Option.map_eq_none_iff] at hnone
          rw [firstGap_cons hb, firstGap_space hc, hnone]
          rfl
termination_by l.length

end Joined

section Loops
variable {val lead p l trail w : List UInt8} {c : UInt8} {copyFrom fromEnd : Nat}

theorem charAt_append (p : List UInt8) (c : UInt8) (l : List UInt8) (h : val = p ++ c :: l)
    (hi : i = p.length) : charAt val i = some c := by
  rw [h, hi, charAt_behind]

theorem returns_lead (a b : List UInt8) (hb : ∀ d ∈ b, isspace d = true)
    (hc : isspace c = false) (hval : val = a ++ (b ++ c :: l)) :
    Returns (leadRound val) a.length (some (a.length + b.length)) := by
  induction b generalizing a with
  | nil =>
    rw [returns_done]
    rw [leadRound, charAt_append a c l hval rfl, Option.bind_eq_bind, Option.bind_some, if_pos hc]
    rfl
  | cons d b ih =>
    obtain ⟨hd, hb⟩ := List.forall_mem_cons.1 hb
    have hnext := ih (a ++ [d]) hb (by rw [hval, List.append_assoc]; rfl)
    have hlen := congrArg List.length hval
    rw [List.length_append, List.cons_append, List.length_cons, List.length_append,
      List.length_cons] at hlen
    have hround : leadRound val a.length = some (.next (a ++ [d]).length) := by
      rw [leadRound, charAt_append a d (b ++ c :: l) hval rfl, Option.bind_eq_bind,
        Option.bind_some, if_neg (ne_false_of_eq_true hd), if_neg (by omega), List.length_append]
      rfl
    have hsum : (a ++ [d]).length + b.length = a.length + (d :: b).length := by
      rw [List.length_append, List.length_singleton, List.length_cons]
      omega
    rwa [returns_next hround, ← hsum]

theorem returns_lead_blank (a b : List UInt8) (hb : ∀ d ∈ b, isspace d = true) (hne : b ≠ [])
    (hval : val = a ++ b) : Returns (leadRound val) a.length none := by
  induction b generalizing a with
  | nil => exact absurd rfl hne
  | cons d b ih =>
    obtain ⟨hd, hb⟩ := List.forall_mem_cons.1 hb
    have hlen := congrArg List.length hval
    rw [List.length_append, List.length_cons] at hlen
    cases b with
    | nil =>
      rw [returns_done]
      rw [leadRound, charAt_append a d [] hval rfl, Option.bind_eq_bind, Option.bind_some,
        if_neg (ne_false_of_eq_true hd)]
      exact if_pos hlen.symm
    | cons e b =>
      have hnext := ih (a ++ [d]) hb (List.cons_ne_nil _ _) (by rw [hval, List.append_assoc]; rfl)
      rw [List.length_cons] at hlen
      have hround : leadRound val a.length = some (.next (a ++ [d]).length) := by
        rw [leadRound, charAt_append a d (e :: b) hval rfl, Option.bind_eq_bind,
          Option.bind_some, if_neg (ne_false_of_eq_true hd), if_neg (by omega), List.length_append]
        rfl
      rwa [returns_next hround]

theorem returns_trail (a b r : List UInt8) (hb : ∀ d ∈ b, isspace d = true)
    (hc : isspace c = false) (hval : val = a ++ c :: (b ++ r)) :
    Returns (trailRound val) (a.length + 1 + b.length) (a.length + 1) := by
  induction b using List.reverseRecOn generalizing r with
  | nil =>
    rw [returns_done]
    rw [List.length_nil, Nat.add_zero, trailRound, charAt_append a c r hval rfl,
      Option.bind_eq_bind, Option.bind_some, hc]
    rfl
  | append_singleton b d ih =>
    have hd := hb d (List.mem_append_right _ List.mem_cons_self)
    have hb : ∀ e ∈ b, isspace e = true := fun e he => hb e (List.mem_append_left _ he)
    rw [List.append_assoc, List.singleton_append] at hval
    have hplace : a.length + 1 + b.length = (a ++ c :: b).length := by
      rw [List.length_append, List.length_cons, Nat.add_assoc, Nat.add_comm 1]
    have hround : trailRound val (a.length + 1 + b.length + 1) =
        some (.next (a.length + 1 + b.length)) := by
      rw [trailRound, charAt_append (a ++ c :: b) d r (by rw [hval, List.append_assoc]; rfl) hplace,
        Option.bind_eq_bind, Option.bind_some, if_pos hd]
      rfl
    rw [List.length_append, List.length_singleton, ← Nat.add_assoc, returns_next hround]
    exact ih (d :: r) hb hval

/-- What the search ends with. -/
def scanned (val : List UInt8) (copyFrom fromEnd place : Nat) (l : List UInt8) :
    List UInt8 ⊕ Nat × Int :=
  match firstGap l with
  | none => .inl (substr val copyFrom (fromEnd - copyFrom))
  | some (w, x, _) =>
    .inr (place + w.length + (if x = 32 then 1 else 0), toInt (place + w.length - copyFrom))

theorem returns_scan {c : UInt8} {p l : List UInt8} (hl : Closed (c :: l))
    (hval : val = p ++ c :: (l ++ trail)) (hend : fromEnd = p.length + 1 + l.length) :
    Returns (scanRound val copyFrom fromEnd) p.length
      (scanned val copyFrom fromEnd (p.length + 1) l) := by
  match l, hl with
  | [], _ =>
    have hplace : p.length + 1 = fromEnd := hend.symm
    rw [returns_done]
    rw [scanRound, if_pos hplace, hplace]
    rfl
  | x :: l, hl =>
    rw [List.length_cons] at hend
    have hne : ¬p.length + 1 = fromEnd := by
      omega
    have hx : charAt val (p.length + 1) = some x := by
      apply charAt_append (p ++ [c]) x (l ++ trail)
      · rw [hval, List.append_assoc]
        rfl
      · rw [List.length_append]
        rfl
    have hr := closed_tail hl
    cases hblank : isspace x with
    | false =>
      have hround : scanRound val copyFrom fromEnd p.length = some (.next (p ++ [c]).length) := by
        rw [scanRound, if_neg hne, hx, Option.bind_eq_bind, Option.bind_some, if_pos hblank,
          List.length_append]
        rfl
      have hsplit : val = (p ++ [c]) ++ x :: (l ++ trail) := by
        rw [hval, List.append_assoc]
        rfl
      have hplace : fromEnd = (p ++ [c]).length + 1 + l.length := by
        rw [List.length_append, List.length_singleton]
        omega
      have hnext := returns_scan hr hsplit hplace
      rw [returns_next hround]
      rw [List.length_append, List.length_singleton] at hnext ⊢
      have hsame : scanned val copyFrom fromEnd (p.length + 1) (x :: l) =
          scanned val copyFrom fromEnd (p.length + 1 + 1) l := by
        rw [scanned, firstGap_cons hblank, scanned]
        cases firstGap l with
        | none => rfl
        | some gap =>
          obtain ⟨w, x', r⟩ := gap
          have hplace : p.length + 1 + (x :: w).length = p.length + 1 + 1 + w.length := by
            rw [List.length_cons]
            omega
          rw [Option.map_some]
          dsimp only
          rw [hplace]
      rwa [hsame]
    | true =>
      cases l with
      | nil => exact absurd (hr x rfl) (ne_false_of_eq_true hblank)
      | cons y r =>
        by_cases hspace : x = 32
        case neg =>
          have hfirst : firstGap (x :: y :: r) = some ([], x, y :: r) :=
            if_pos ⟨hblank, Or.inl hspace⟩
          rw [returns_done]
          rw [scanRound, if_neg hne, hx, Option.bind_eq_bind, Option.bind_some,
            if_neg (ne_false_of_eq_true hblank), if_pos hspace, scanned, hfirst]
          dsimp only
          rw [if_neg hspace]
          rfl
        case pos =>
          subst hspace
          have hy : charAt val (p.length + 1 + 1) = some y := by
            apply charAt_append (p ++ [c, 32]) y (r ++ trail)
            · rw [hval, List.append_assoc]
              rfl
            · rw [List.length_append]
              rfl
          cases hyblank : isspace y with
          | true =>
            have hfirst : firstGap (32 :: y :: r) = some ([], 32, y :: r) :=
              if_pos ⟨hblank, Or.inr hyblank⟩
            have hcount : p.length + 1 + 1 - copyFrom - 1 = p.length + 1 - copyFrom := by
              omega
            rw [returns_done]
            rw [scanRound, if_neg hne, hx, Option.bind_eq_bind, Option.bind_some,
              if_neg (ne_false_of_eq_true hblank), if_neg (not_not.2 rfl)]
            dsimp only
            rw [hy, Option.bind_some, if_pos hyblank, scanned, hfirst, hcount]
            rfl
          | false =>
            have hround : scanRound val copyFrom fromEnd p.length =
                some (.next (p ++ [c, 32]).length) := by
              rw [scanRound, if_neg hne, hx, Option.bind_eq_bind, Option.bind_some,
                if_neg (ne_false_of_eq_true hblank), if_neg (not_not.2 rfl)]
              dsimp only
              rw [hy, Option.bind_some, if_neg (ne_true_of_eq_false hyblank),
                List.length_append]
              rfl
            have hsplit : val = (p ++ [c, 32]) ++ y :: (r ++ trail) := by
              rw [hval, List.append_assoc]
              rfl
            have hplace : fromEnd = (p ++ [c, 32]).length + 1 + r.length := by
              rw [hend, List.length_append]
              simp only [List.length_cons, List.length_nil]
              omega
            have hnext := returns_scan (closed_tail hr) hsplit hplace
            rw [returns_next hround]
            have hsame : scanned val copyFrom fromEnd (p.length + 1) (32 :: y :: r) =
                scanned val copyFrom fromEnd ((p ++ [c, 32]).length + 1) r := by
              rw [scanned, firstGap_space hyblank, scanned, List.length_append]
              cases firstGap r with
              | none => rfl
              | some gap =>
                obtain ⟨w, x', r⟩ := gap
                have hplace : p.length + 1 + (32 :: y :: w).length =
                    p.length + [c, 32].length + 1 + w.length := by
                  simp only [List.length_cons, List.length_nil]
                  omega
                rw [Option.map_some]
                dsimp only
                rw [hplace]
            rwa [hsame]
termination_by l.length

/-- What the last loop leaves: the words behind what is written already. -/
def Writes (val : List UInt8) (fromEnd : Nat) (state : Tail) (front : List UInt8) (l : List UInt8) :
    Prop :=
  ∃ dest result ch free, Returns (tailRound val fromEnd) state (dest, result, ch) ∧
    Block.write result dest [ch] = some (front ++ joined l ++ free) ∧
    dest + 1 = front.length + (joined l).length

theorem writes_next {state state' : Tail} {front front' l' : List UInt8}
    (h : tailRound val fromEnd state = some (.next state'))
    (hsame : front' ++ joined l' = front ++ joined l)
    (hw : Writes val fromEnd state' front' l') : Writes val fromEnd state front l := by
  obtain ⟨dest, result, ch, free, hret, hwrite, hdest⟩ := hw
  have hlen := congrArg List.length hsame
  rw [List.length_append, List.length_append] at hlen
  exact ⟨dest, result, ch, free, (returns_next h).2 hret, hsame ▸ hwrite, hdest.trans hlen⟩

theorem tailRound_gap (front free : List UInt8) (f : UInt8) (place : Nat) :
    tailRound val fromEnd (.gap place front.length (front ++ f :: free)) =
      some (.next (.skip place (front ++ [32]).length ((front ++ [32]) ++ free))) := by
  rw [tailRound, Block.write_cons front f 32 free rfl, List.length_append, List.append_assoc]
  rfl

/-- The loop over blanks and the loop over a word write what is left of the text. -/
theorem writes_tail (hl : Closed l) (hne : l ≠ []) (hval : val = p ++ (l ++ trail))
    (hend : fromEnd + 1 = p.length + l.length) (front free : List UInt8) :
    ((joined l).length ≤ free.length → ∀ place, place + 1 = p.length →
      Writes val fromEnd (.skip place front.length (front ++ free)) front l) ∧
    ∀ c, isspace c = false → (joined (c :: l)).length ≤ free.length →
      ∀ place, place + 1 = p.length →
        Writes val fromEnd (.word place front.length (front ++ free) c) front (c :: l) := by
  induction l generalizing p front free with
  | nil => exact absurd rfl hne
  | cons b l ih =>
    rw [List.length_cons] at hend
    have hb : charAt val p.length = some b := charAt_append p b (l ++ trail) hval rfl
    have hsplit : val = (p ++ [b]) ++ (l ++ trail) := by
      rw [hval, List.append_assoc]
      rfl
    have hplace : p.length + 1 = (p ++ [b]).length := by
      rw [List.length_append, List.length_singleton]
    have hend' : fromEnd + 1 = (p ++ [b]).length + l.length := by
      omega
    constructor
    case left =>
      intro hfree place hp
      cases hblank : isspace b with
      | true =>
        cases l with
        | nil => exact absurd (hl b rfl) (ne_false_of_eq_true hblank)
        | cons y r =>
          rw [joined_blank hblank] at hfree
          have hrest := (ih (closed_tail hl) (List.cons_ne_nil _ _) hsplit hend' front free).1 hfree
            (place + 1) (hp ▸ hplace)
          refine writes_next ?_ (congrArg (front ++ ·) (joined_blank hblank _).symm) hrest
          rw [tailRound, hp, hb, Option.bind_eq_bind, Option.bind_some, if_pos hblank]
          rfl
      | false =>
        cases l with
        | nil =>
          rw [joined_single hblank] at hfree
          obtain ⟨f, free, rfl⟩ := List.exists_cons_of_length_pos hfree
          have hlast : p.length = fromEnd := by
            rw [List.length_nil] at hend
            omega
          refine ⟨front.length, front ++ f :: free, b, free, ?_, ?_, ?_⟩
          · rw [returns_done]
            rw [tailRound, hp, hb, Option.bind_eq_bind, Option.bind_some,
              if_neg (ne_true_of_eq_false hblank), if_pos hlast]
            rfl
          · rw [Block.write_cons front f b free rfl, joined_single hblank, List.append_assoc]
            rfl
          · rw [joined_single hblank]
            rfl
        | cons y r =>
          have hmore : ¬p.length = fromEnd := by
            rw [List.length_cons] at hend
            omega
          have hrest := (ih (closed_tail hl) (List.cons_ne_nil _ _) hsplit hend' front free).2 b
            hblank hfree (place + 1) (hp ▸ hplace)
          refine writes_next ?_ rfl hrest
          rw [tailRound, hp, hb, Option.bind_eq_bind, Option.bind_some,
            if_neg (ne_true_of_eq_false hblank), if_neg hmore]
          rfl
    case right =>
      intro c hc hfree place hp
      have hwrite (f : UInt8) (free : List UInt8) :
          Block.write (front ++ f :: free) front.length [c] = some ((front ++ [c]) ++ free) := by
        rw [Block.write_cons front f c free rfl, List.append_assoc]
        rfl
      have hdest : front.length + 1 = (front ++ [c]).length := by
        rw [List.length_append, List.length_singleton]
      cases l with
      | nil =>
        have hblank := hl b rfl
        have hjoin : joined [c, b] = [c, b] := by
          rw [joined_cons hc hblank, joined_single hblank]
        have hlast : p.length = fromEnd := by
          rw [List.length_nil] at hend
          omega
        rw [hjoin] at hfree
        obtain ⟨f, free, rfl⟩ := List.exists_cons_of_length_pos (Nat.lt_of_succ_le
          (Nat.le_of_succ_le hfree))
        obtain ⟨f', free, rfl⟩ := List.exists_cons_of_length_pos (Nat.le_of_succ_le_succ hfree)
        refine ⟨front.length + 1, (front ++ [c]) ++ f' :: free, b, free, ?_, ?_, ?_⟩
        · rw [returns_done]
          rw [tailRound, hwrite, Option.bind_eq_bind, Option.bind_some, hp, hb, Option.bind_eq_bind,
            Option.bind_some, if_pos hlast]
          rfl
        · rw [Block.write_cons (front ++ [c]) f' b free hdest, hjoin, List.append_assoc,
            List.append_assoc]
          rfl
        · rw [hjoin]
          rfl
      | cons y r =>
        have hmore : ¬p.length = fromEnd := by
          rw [List.length_cons] at hend
          omega
        have hr := closed_tail hl
        cases hblank : isspace b with
        | false =>
          rw [joined_cons hc hblank] at hfree
          obtain ⟨f, free, rfl⟩ := List.exists_cons_of_length_pos (Nat.lt_of_lt_of_le
            (Nat.zero_lt_succ _) hfree)
          have hrest := (ih hr (List.cons_ne_nil _ _) hsplit hend' (front ++ [c]) free).2 b hblank
            (Nat.le_of_succ_le_succ hfree) (place + 1) (hp ▸ hplace)
          refine writes_next ?_ ?_ hrest
          · rw [tailRound, hwrite, Option.bind_eq_bind, Option.bind_some, hp, hb,
              Option.bind_eq_bind, Option.bind_some, if_neg hmore, if_pos hblank, hdest]
            rfl
          · rw [joined_cons hc hblank, List.append_assoc]
            rfl
        | true =>
          have hjoin := joined_cut hc hblank hr (List.cons_ne_nil y r)
          rw [hjoin] at hfree
          obtain ⟨f, free, rfl⟩ := List.exists_cons_of_length_pos (Nat.lt_of_lt_of_le
            (Nat.zero_lt_succ _) hfree)
          obtain ⟨f', free, rfl⟩ := List.exists_cons_of_length_pos (Nat.lt_of_lt_of_le
            (Nat.zero_lt_succ _) (Nat.le_of_succ_le_succ hfree))
          have hrest := (ih hr (List.cons_ne_nil _ _) hsplit hend' ((front ++ [c]) ++ [32]) free).1
            (Nat.le_of_succ_le_succ (Nat.le_of_succ_le_succ hfree)) (place + 1) (hp ▸ hplace)
          have hround : tailRound val fromEnd
              (.word place front.length (front ++ f :: f' :: free) c) =
                some (.next (.gap (place + 1) (front ++ [c]).length
                  ((front ++ [c]) ++ f' :: free))) := by
            rw [tailRound, hwrite, Option.bind_eq_bind, Option.bind_some, hp, hb,
              Option.bind_eq_bind, Option.bind_some, if_neg hmore,
              if_neg (ne_false_of_eq_true hblank), hdest]
            rfl
          refine writes_next hround rfl (writes_next (tailRound_gap _ _ _ _) ?_ hrest)
          rw [hjoin, List.append_assoc, List.append_assoc]
          rfl

end Loops

section Runs
variable {val out : List UInt8} {copyFrom fromEnd : Nat}

theorem iterate_mono {round : σ → Option (Round σ β)} {s : σ} {out : β} {fuel fuel' : Nat}
    (h : iterate round fuel s = some out) (hle : fuel ≤ fuel') :
    iterate round fuel' s = some out := by
  induction fuel generalizing s fuel' with
  | zero => cases h
  | succ fuel ih =>
    obtain ⟨n, rfl⟩ := Nat.exists_eq_add_of_le' hle
    cases hr : round s with
    | none =>
      rw [iterate, hr] at h
      cases h
    | some r =>
      cases r with
      | next s' =>
        rw [iterate_next hr] at h
        exact (iterate_next hr _).trans (ih h (Nat.le_add_left _ _))
      | done out' =>
        rw [iterate_done hr] at h
        exact (iterate_done hr _).trans h

theorem simplifyGap_mono {place fuel fuel' : Nat} {copyCount : Int}
    (h : simplifyGap fuel val copyFrom fromEnd place copyCount = some out) (hle : fuel ≤ fuel') :
    simplifyGap fuel' val copyFrom fromEnd place copyCount = some out := by
  rw [simplifyGap] at h ⊢
  obtain ⟨result, hcopied, hrun⟩ := Option.bind_eq_some_iff.1 h
  rw [Option.bind_eq_bind, hcopied, Option.bind_some]
  split at hrun
  case isTrue => cases hrun
  case isFalse hnot =>
    obtain ⟨last, hlast, hrest⟩ := Option.bind_eq_some_iff.1 hrun
    rw [if_neg hnot, iterate_mono hlast hle]
    exact hrest

/-- A text of blanks is returned as it is. -/
theorem simplified_blank (hlead : Returns (leadRound val) 0 none) :
    (∃ fuel, strSimplified fuel val = some out) ↔ val = out := by
  by_cases hnil : val.length = 0
  · simp only [strSimplified, if_pos hnil, exists_const, Option.some.injEq]
  · simp only [strSimplified, if_neg hnil, Option.bind_eq_bind, Option.bind_eq_some_iff]
    constructor
    · rintro ⟨fuel, start, hstart, hrun⟩
      cases Returns.unique ⟨fuel, hstart⟩ hlead
      exact Option.some.inj hrun
    · rintro rfl
      obtain ⟨fuel, hstart⟩ := hlead
      exact ⟨fuel, none, hstart, rfl⟩

/-- What is returned after the search for a gap. -/
def Follows (val : List UInt8) (copyFrom fromEnd : Nat) (out : List UInt8) :
    List UInt8 ⊕ Nat × Int → Prop
  | .inl text => text = out
  | .inr (place, copyCount) =>
    ∃ fuel, simplifyGap fuel val copyFrom fromEnd place copyCount = some out

theorem simplified_iff (hne : val.length ≠ 0) (hlead : Returns (leadRound val) 0 (some copyFrom))
    (htrail : Returns (trailRound val) val.length fromEnd) {found : List UInt8 ⊕ Nat × Int}
    (hscan : Returns (scanRound val copyFrom fromEnd) copyFrom found) :
    (∃ fuel, strSimplified fuel val = some out) ↔ Follows val copyFrom fromEnd out found := by
  simp only [strSimplified, if_neg hne, Option.bind_eq_bind, Option.bind_eq_some_iff]
  constructor
  · rintro ⟨fuel, start, hstart, hrun⟩
    cases Returns.unique ⟨fuel, hstart⟩ hlead
    obtain ⟨last, hlast, found', hfound, hrest⟩ := by
      simpa only [Option.bind_eq_some_iff] using hrun
    cases Returns.unique ⟨fuel, hlast⟩ htrail
    cases Returns.unique ⟨fuel, hfound⟩ hscan
    cases found with
    | inl text => exact Option.some.inj hrest
    | inr gap => exact ⟨fuel, hrest⟩
  · intro h
    obtain ⟨fuel₁, hlead⟩ := hlead
    obtain ⟨fuel₂, htrail⟩ := htrail
    obtain ⟨fuel₃, hscan⟩ := hscan
    cases found with
    | inl text =>
      refine ⟨fuel₁ + fuel₂ + fuel₃, some copyFrom, iterate_mono hlead (by omega), ?_⟩
      simp only [Option.bind_eq_some_iff]
      exact ⟨fromEnd, iterate_mono htrail (by omega), _, iterate_mono hscan (by omega),
        congrArg some h⟩
    | inr gap =>
      obtain ⟨fuel₄, hgap⟩ := h
      refine ⟨fuel₁ + fuel₂ + fuel₃ + fuel₄, some copyFrom, iterate_mono hlead (by omega), ?_⟩
      simp only [Option.bind_eq_some_iff]
      exact ⟨fromEnd, iterate_mono htrail (by omega), _, iterate_mono hscan (by omega),
        simplifyGap_mono hgap (by omega)⟩

end Runs

section Gap
variable {val out lead t trail p l : List UInt8} {k place : Nat}

/-- The bulk copy stays inside the result, or there is no result. -/
theorem copied_eq (hval : val = lead ++ (t ++ trail)) (hroom : k + l.length + 1 ≤ t.length) :
    (copied val lead.length k ((l.length + 1 : Nat) + k) = none ∧
        ¬(k < 1073741824 ∧ k ≤ l.length + 2)) ∨
      (k < 1073741824 ∧ k ≤ l.length + 2) ∧ ∃ f free,
        copied val lead.length k ((l.length + 1 : Nat) + k) = some (t.take k ++ f :: free) ∧
          free.length = l.length + 1 := by
  have hsize : ¬((l.length + 1 : Nat) : Int) + k < 0 := by
    omega
  have hcount : (((l.length + 1 : Nat) : Int) + k).toNat = l.length + 1 + k := by
    omega
  rw [copied, if_neg hsize, hcount]
  by_cases hint : k < 1073741824
  case neg =>
    left
    have hnone : checkedInt ((k : Int) * 2) = none := by
      apply if_neg
      omega
    rw [hnone]
    exact ⟨rfl, fun h => hint h.1⟩
  case pos =>
    have hcheck : checkedInt ((k : Int) * 2) = some ((k * 2 : Nat) : Int) := by
      rw [checkedInt_of_lt (by omega) (by omega)]
      rfl
    have hbytes : sizeOfInt ((k * 2 : Nat) : Int) = k * 2 := sizeOfInt_natCast (by omega)
    rw [hcheck, Option.bind_eq_bind, Option.bind_some, hbytes]
    have hblock : (List.replicate (l.length + 1 + k) (48 : UInt8) ++ [0]).length =
        l.length + 2 + k := by
      rw [List.length_append, List.length_replicate, List.length_singleton]
      omega
    have hsource : (val ++ [0]).drop lead.length = t ++ (trail ++ [0]) := by
      rw [hval, List.append_assoc, List.drop_left, List.append_assoc]
    have hlen : (val ++ [0]).length = lead.length + (t.length + trail.length) + 1 := by
      rw [hval, List.length_append, List.length_append, List.length_append, List.length_singleton]
    rw [Block.read, hsource, hlen]
    by_cases hle : k ≤ l.length + 2
    case neg =>
      left
      refine ⟨?_, fun h => hle h.2⟩
      split
      case isTrue hread =>
        apply Block.write_none
        rw [hblock, List.length_take, List.length_append, List.length_append, List.length_singleton]
        omega
      case isFalse => rfl
    case pos =>
      right
      refine ⟨⟨hint, hle⟩, ?_⟩
      have hbytes : ((t ++ (trail ++ [0])).take (k * 2)).length = k * 2 := by
        rw [List.length_take, List.length_append, List.length_append, List.length_singleton]
        omega
      have htake : ((t ++ (trail ++ [0])).take (k * 2)).take k = t.take k := by
        rw [List.take_take, Nat.min_eq_left (by omega), List.take_append_of_le_length (by omega)]
      rw [if_pos (by omega), Option.bind_eq_bind, Option.bind_some, Block.write, if_pos (by omega),
        copyAt_zero]
      generalize (t ++ (trail ++ [0])).take (k * 2) = bytes at hbytes htake ⊢
      generalize List.replicate (l.length + 1 + k) (48 : UInt8) ++ [0] = block at hblock ⊢
      have hfree : ((bytes ++ block.drop bytes.length).drop k).length = l.length + 2 := by
        rw [List.length_drop, List.length_append, List.length_drop]
        omega
      obtain ⟨f, free, hsplit⟩ := List.exists_cons_of_length_pos
        (Nat.lt_of_lt_of_eq (Nat.zero_lt_succ _) hfree.symm)
      refine ⟨f, free, ?_, ?_⟩
      · have hsame : (bytes ++ block.drop bytes.length).take k = bytes.take k :=
          List.take_append_of_le_length (by omega)
        rw [← htake, ← hsplit, ← hsame, List.take_append_drop]
      · rw [hsplit, List.length_cons] at hfree
        omega

/-- From a gap on the copied characters, a blank and the words of the rest are written. -/
theorem simplifyGap_iff (hl : Closed l) (hne : l ≠ []) (hval : val = lead ++ (t ++ trail))
    (hrest : val = p ++ (l ++ trail)) (hplace : place + 1 = p.length)
    (hroom : k + l.length + 1 ≤ t.length) :
    (∃ fuel, simplifyGap fuel val lead.length (p.length + l.length) place k = some out) ↔
      (k < 1073741824 ∧ k ≤ l.length + 2) ∧ t.take k ++ 32 :: joined l = out := by
  have hcount : p.length + l.length - place = l.length + 1 := by
    omega
  have hfront : (t.take k).length = k := by
    rw [List.length_take]
    omega
  have hnot : ¬(k : Int) < 0 := by
    omega
  have hsize : (((l.length + 1 : Nat) : Int) + k).toNat = l.length + 1 + k := by
    omega
  have hjoin := length_joined_le hl
  have hlast : p.length + l.length - 1 + 1 = p.length + l.length := by
    omega
  simp only [simplifyGap, hcount, hsize, if_neg hnot, Int.toNat_natCast]
  rcases copied_eq hval hroom with ⟨hnone, hbad⟩ | ⟨hgood, f, free, hsome, hfree⟩
  · simp only [hnone, Option.bind_eq_bind, Option.bind_none, reduceCtorEq, exists_const, hbad,
      false_and]
  · obtain ⟨dest, result, ch, free', hret, hwrite, hdest⟩ :=
      (writes_tail hl hne hrest hlast (t.take k ++ [32]) free).1 (by omega) place hplace
    have hgap : Returns (tailRound val (p.length + l.length - 1))
        (.gap place k (t.take k ++ f :: free)) (dest, result, ch) := by
      have hround : tailRound val (p.length + l.length - 1)
          (.gap place (t.take k).length (t.take k ++ f :: free)) = _ := tailRound_gap _ free f place
      rw [hfront] at hround
      exact (returns_next hround).2 hret
    have hfinish : finished (l.length + 1 + k) dest result ch =
        some (t.take k ++ 32 :: joined l) := by
      rw [List.length_append, hfront, List.length_singleton] at hdest
      have htotal : (t.take k ++ [32] ++ joined l).length = dest + 1 := by
        rw [List.length_append, List.length_append, hfront, List.length_singleton, hdest]
      rw [finished, hwrite, Option.bind_eq_bind, Option.bind_some, if_pos (by omega),
        List.take_left' htotal, List.append_assoc]
      rfl
    simp only [hsome, Option.bind_eq_bind, Option.bind_some, hgood, true_and, and_self]
    constructor
    · rintro ⟨fuel, hrun⟩
      obtain ⟨last, hlast', hrun⟩ := Option.bind_eq_some_iff.1 hrun
      cases Returns.unique ⟨fuel, hlast'⟩ hgap
      exact Option.some.inj (hfinish.symm.trans hrun)
    · rintro rfl
      obtain ⟨fuel, hrun⟩ := hgap
      refine ⟨fuel, ?_⟩
      rw [hrun]
      exact hfinish

end Gap

section Simplifies
variable {val out lead l trail s t w : List UInt8} {c x : UInt8}

theorem words_behind (hb : ∀ c ∈ trail, isspace c = true) (s : List UInt8) :
    words isspace (s ++ trail) = words isspace s := by
  induction s using words_induction (p := isspace) with
  | blank b hblank => rw [words_append hblank, words_blank hb, words_blank hblank]
  | last b a hblank hne ha =>
    rw [List.append_assoc, words_append hblank, words_append hblank, words_last hne ha]
    cases trail with
    | nil => rw [List.append_nil, words_last hne ha]
    | cons d trail =>
      obtain ⟨hd, hb⟩ := List.forall_mem_cons.1 hb
      rw [words_cut hne ha hd, words_blank hb]
  | cut b a d s hblank hne ha hd ih =>
    rw [List.append_assoc, List.append_assoc, List.cons_append, words_append hblank,
      words_append hblank, words_cut hne ha hd, words_cut hne ha hd, ih]

theorem simplified_text (hc : isspace c = false) (hl : Closed (c :: l))
    (hlead : ∀ d ∈ lead, isspace d = true) (htrail : ∀ d ∈ trail, isspace d = true)
    (hval : val = lead ++ ((c :: l) ++ trail)) :
    (∃ fuel, strSimplified fuel val = some out) ↔
      match firstGap l with
      | none => c :: l = out
      | some (w, x, _) =>
        ∃ fuel, simplifyGap fuel val lead.length (lead.length + (l.length + 1))
          (lead.length + 1 + w.length + (if x = 32 then 1 else 0)) (toInt (w.length + 1)) =
            some out := by
  have hlen := congrArg List.length hval
  rw [List.length_append, List.length_append, List.length_cons] at hlen
  have hne : val.length ≠ 0 := by
    omega
  have hstart : Returns (leadRound val) 0 (some lead.length) := by
    have hrun := @returns_lead val (l ++ trail) c [] lead hlead hc hval
    rwa [List.length_nil, Nat.zero_add] at hrun
  have hlast : Returns (trailRound val) val.length (lead.length + (l.length + 1)) := by
    obtain ⟨a, d, hsplit⟩ : ∃ a d, c :: l = a ++ [d] :=
      ⟨_, _, (List.dropLast_append_getLast (List.cons_ne_nil c l)).symm⟩
    have hd : isspace d = false := by
      apply hl
      rw [hsplit, List.getLast?_concat]
    have hlast := congrArg List.length hsplit
    rw [List.length_cons, List.length_append, List.length_singleton] at hlast
    have hrun := @returns_trail val d (lead ++ a) trail [] htrail hd (by
      rw [hval, hsplit, List.append_nil, List.append_assoc, List.append_assoc]
      rfl)
    have hfrom : (lead ++ a).length + 1 + trail.length = val.length := by
      rw [List.length_append]
      omega
    have hto : (lead ++ a).length + 1 = lead.length + (l.length + 1) := by
      rw [List.length_append]
      omega
    rwa [hfrom, hto] at hrun
  have hscan := @returns_scan val trail lead.length (lead.length + (l.length + 1)) c lead l hl hval
    (by omega)
  rw [simplified_iff hne hstart hlast hscan, scanned]
  cases firstGap l with
  | none =>
    have htext : substr val lead.length (lead.length + (l.length + 1) - lead.length) = c :: l := by
      rw [substr, hval, List.drop_left, Nat.add_sub_cancel_left]
      exact List.take_left' rfl
    dsimp only [Follows]
    rw [htext]
  | some gap =>
    obtain ⟨w, x, r⟩ := gap
    have hcount : lead.length + 1 + w.length - lead.length = w.length + 1 := by
      omega
    dsimp only [Follows]
    rw [hcount]

/-- A text without a gap is only trimmed. -/
theorem simplified_simple (hc : isspace c = false) (hl : Closed (c :: l))
    (hnone : firstGap (c :: l) = none) : ∃ fuel, strSimplified fuel (c :: l) = some (c :: l) := by
  rw [firstGap_cons hc, Option.map_eq_none_iff] at hnone
  have hval : c :: l = [] ++ ((c :: l) ++ []) := (List.append_nil _).symm
  rw [simplified_text hc hl (List.forall_mem_nil _) (List.forall_mem_nil _) hval, hnone]

theorem simplifyGap_neg {copyFrom fromEnd place fuel : Nat} {copyCount : Int} (h : copyCount < 0) :
    simplifyGap fuel val copyFrom fromEnd place copyCount ≠ some out := by
  intro hrun
  rw [simplifyGap] at hrun
  obtain ⟨result, -, hrun⟩ := Option.bind_eq_some_iff.1 hrun
  rw [if_pos h] at hrun
  cases hrun

/-- The bulk copy of twice the characters in front of a gap fits in an `int` and in the result. -/
def CopyFits (t w : List UInt8) (x : UInt8) : Prop :=
  w.length < 1073741824 ∧ 2 * w.length ≤ if x = 32 then t.length else t.length + 1

/-- The text has a character that is no blank, and it has no gap, or one in its first half. -/
def Simplifiable (s : List UInt8) : Prop :=
  s = [] ∨ trim s ≠ [] ∧ ((∀ w x y r, ¬Gap (trim s) w x y r) ∨
    ∃ w x y r, Gap (trim s) w x y r ∧ CopyFits (trim s) w x)

/-- If the copy for some gap fits, so does the one for the first. -/
theorem copyFits_first {y : UInt8} {r w' r' : List UInt8} {x' y' : UInt8} (h : Gap t w x y r)
    (h' : Gap t w' x' y' r') (hle : w.length ≤ w'.length) (hfits : CopyFits t w' x') :
    CopyFits t w x := by
  obtain ⟨hsmall, hhalf⟩ := hfits
  by_cases hsame : w.length = w'.length
  · obtain ⟨rfl, hrest⟩ := List.append_inj (h.1.symm.trans h'.1) hsame
    obtain ⟨rfl, -⟩ := List.cons.inj hrest
    exact ⟨hsmall, hhalf⟩
  · refine ⟨by omega, ?_⟩
    split at hhalf <;> split <;> omega

/-- The text up to its first gap fits in the result. -/
theorem simplifyGap_first {y : UInt8} {r : List UInt8} (hl : Closed t) (hgap : Gap t w x y r)
    (hval : val = lead ++ (t ++ trail)) :
    (∃ fuel, simplifyGap fuel val lead.length (lead.length + t.length)
      (lead.length + w.length + (if x = 32 then 1 else 0)) (toInt w.length) =
        some (w ++ 32 :: joined (y :: r))) ↔ CopyFits t w x := by
  obtain ⟨hsplit, hblank, hcase⟩ := hgap
  have hlen := congrArg List.length hsplit
  rw [List.length_append, List.length_cons, List.length_cons] at hlen
  by_cases hneg : toInt w.length < 0
  · constructor
    · rintro ⟨fuel, hrun⟩
      exact absurd hrun (simplifyGap_neg hneg)
    · rintro ⟨hsmall, -⟩
      rw [toInt_of_lt (by omega)] at hneg
      omega
  · obtain ⟨k, hk⟩ := Int.eq_ofNat_of_zero_le (Int.not_lt.1 hneg)
    have hkw := toInt_le w.length
    rw [hk] at hkw
    have hk' : k ≤ w.length := by
      omega
    obtain ⟨p, l, hp, hl', hne, hrest, hjoin, hbound, hroom⟩ : ∃ p l,
        p.length = lead.length + w.length + (if x = 32 then 1 else 0) + 1 ∧ Closed l ∧ l ≠ [] ∧
          val = p ++ (l ++ trail) ∧ joined (y :: r) = joined l ∧
          (w.length ≤ l.length + 2 ↔ 2 * w.length ≤ if x = 32 then t.length else t.length + 1) ∧
          t.length = w.length + l.length + 1 + (if x = 32 then 1 else 0) := by
      have hbehind : Closed (x :: y :: r) := by
        intro d hd
        apply hl d
        rw [hsplit, List.getLast?_append, hd]
        rfl
      by_cases hspace : x = 32
      case neg =>
        have hy := closed_tail hbehind
        refine ⟨lead ++ (w ++ [x]), y :: r, ?_, hy, List.cons_ne_nil _ _, ?_, rfl, ?_, ?_⟩
        · rw [List.length_append, List.length_append, List.length_singleton, if_neg hspace]
          omega
        · rw [hval, hsplit]
          simp only [List.append_assoc, List.cons_append, List.nil_append]
        · rw [if_neg hspace, List.length_cons]
          omega
        · rw [if_neg hspace, List.length_cons]
          omega
      case pos =>
        subst hspace
        have hy : isspace y = true := hcase.resolve_left (not_not.2 rfl)
        have hne : r ≠ [] := by
          rintro rfl
          exact absurd (closed_tail hbehind y rfl) (ne_false_of_eq_true hy)
        obtain ⟨z, r, rfl⟩ := List.exists_cons_of_ne_nil hne
        refine ⟨lead ++ (w ++ [32, y]), z :: r, ?_, closed_tail (closed_tail hbehind), hne, ?_,
          joined_blank hy _, ?_, ?_⟩
        · rw [List.length_append, List.length_append, if_pos rfl]
          rfl
        · rw [hval, hsplit]
          simp only [List.append_assoc, List.cons_append, List.nil_append]
        · rw [if_pos rfl]
          omega
        · rw [if_pos rfl]
          omega
    have hplace := hp.symm
    have hend : lead.length + t.length = p.length + l.length := by
      rw [hp, hroom]
      omega
    rw [hk, hend, simplifyGap_iff hl' hne hval hrest hplace (by omega), hjoin]
    constructor
    · rintro ⟨⟨hsmall, hle⟩, hout⟩
      have hcount := congrArg List.length hout
      rw [List.length_append, List.length_append, List.length_take] at hcount
      have hkeq : k = w.length := by
        omega
      subst hkeq
      exact ⟨hsmall, hbound.1 hle⟩
    · rintro ⟨hsmall, hhalf⟩
      have hkeq : k = w.length := by
        rw [toInt_of_lt (by omega)] at hk
        omega
      subst hkeq
      refine ⟨⟨hsmall, hbound.2 hhalf⟩, ?_⟩
      rw [hsplit, List.take_left]

/-- What is left of a text in its middle. -/
theorem trim_split (s : List UInt8) (h : trim s ≠ []) :
    ∃ lead c l trail, s = lead ++ ((c :: l) ++ trail) ∧ trim s = c :: l ∧ isspace c = false ∧
      Closed (c :: l) ∧ (∀ d ∈ lead, isspace d = true) ∧ ∀ d ∈ trail, isspace d = true := by
  have hrest : s.dropWhile isspace ≠ [] := by
    intro hnil
    exact h (trim_eq_nil_iff.2 (List.dropWhile_eq_nil_iff.1 hnil))
  obtain ⟨c, m, hm⟩ := List.exists_cons_of_ne_nil hrest
  have hc : isspace c = false := by
    have hfirst := List.head?_dropWhile_not isspace s
    rwa [hm] at hfirst
  have hlead : ∀ d ∈ s.takeWhile isspace, isspace d = true := fun d hd => List.mem_takeWhile_imp hd
  obtain ⟨trail, hsplit, htrail⟩ := exists_rdropWhile_append m
  have hs : s = s.takeWhile isspace ++ c :: m := by
    rw [← hm, List.takeWhile_append_dropWhile]
  refine ⟨_, c, m.rdropWhile isspace, trail, ?_, ?_, hc, ?_, hlead, htrail⟩
  · rw [List.cons_append, ← hsplit, ← hs]
  · have htrim := trim_middle (a := s.takeWhile isspace) (b := m) hc
    rw [← hs, List.dropWhile_eq_nil_iff.2 hlead] at htrim
    exact htrim
  · intro d hd
    by_cases hnil : m.rdropWhile isspace = []
    · rw [hnil] at hd
      cases hd
      exact hc
    · rw [List.getLast?_cons_of_ne_nil hnil, List.getLast?_eq_some_getLast hnil] at hd
      cases hd
      exact eq_false_of_ne_true (List.rdropWhile_last_not isspace m hnil)

theorem joined_text (hlead : ∀ d ∈ lead, isspace d = true)
    (htrail : ∀ d ∈ trail, isspace d = true) :
    joined (lead ++ (t ++ trail)) = joined t := by
  rw [joined, words_append hlead, words_behind htrail, joined]

/-- A text is simplified if and only if the bulk copy fits. -/
theorem simplifies_iff (s : List UInt8) : Simplifies s ↔ Simplifiable s := by
  by_cases hnil : s = []
  case pos =>
    subst hnil
    exact iff_of_true ⟨⟨0, rfl⟩, 0, rfl⟩ (Or.inl rfl)
  case neg =>
    by_cases hblank : trim s = []
    case pos =>
      have hall := trim_eq_nil_iff.1 hblank
      constructor
      · rintro ⟨hrun, -⟩
        have hsame := (simplified_blank (returns_lead_blank [] s hall hnil rfl)).1 hrun
        rw [joined, words_blank hall] at hsame
        exact absurd hsame hnil
      · rintro (h | ⟨hne, -⟩)
        · exact absurd h hnil
        · exact absurd hblank hne
    case neg =>
      obtain ⟨lead, c, l, trail, hval, htrim, hc, hl, hlead, htrail⟩ := trim_split s hblank
      have hjoin : joined s = joined (c :: l) := by
        rw [hval, joined_text hlead htrail]
      have hagain : ∃ fuel, strSimplified fuel (joined s) = some (joined s) := by
        obtain ⟨c', l', heq, hc', hl', hnone⟩ := joined_simple hl (List.cons_ne_nil c l)
        rw [hjoin, heq]
        exact simplified_simple hc' hl' hnone
      have hfirst : (∃ fuel, strSimplified fuel s = some (joined s)) ↔
          (∀ w x y r, ¬Gap (c :: l) w x y r) ∨
            ∃ w x y r, Gap (c :: l) w x y r ∧ CopyFits (c :: l) w x := by
        rw [simplified_text hc hl hlead htrail hval, hjoin, joined_eq hc hl, firstGap_cons hc]
        cases hgap : firstGap l with
        | none =>
          have hnone : firstGap (c :: l) = none := by
            rw [firstGap_cons hc, hgap]
            rfl
          exact iff_of_true rfl (Or.inl (firstGap_none hnone))
        | some gap =>
          obtain ⟨w, x, r⟩ := gap
          have hsome : firstGap (c :: l) = some (c :: w, x, r) := by
            rw [firstGap_cons hc, hgap]
            rfl
          obtain ⟨y, r, rfl, hsplit, hmin⟩ := firstGap_some hsome
          have hplace : lead.length + 1 + w.length = lead.length + (c :: w).length := by
            rw [List.length_cons]
            omega
          rw [Option.map_some]
          dsimp only
          rw [hplace]
          refine (simplifyGap_first hl hsplit hval).trans ?_
          constructor
          · exact fun hfits => Or.inr ⟨_, _, _, _, hsplit, hfits⟩
          · rintro (hno | ⟨w', x', y', r', hgap', hfits⟩)
            · exact absurd hsplit (hno _ _ _ _)
            · exact copyFits_first hsplit hgap' (hmin _ _ _ _ hgap') hfits
      rw [Simplifies, Simplifiable, htrim, hfirst]
      constructor
      · rintro ⟨h, -⟩
        exact Or.inr ⟨List.cons_ne_nil _ _, h⟩
      · rintro (h | ⟨-, h⟩)
        · exact absurd h hnil
        · exact ⟨h, hagain⟩

/-- A word of 40 letters is copied with as many characters behind it, into a result of 42. -/
theorem not_simplifies : ¬Simplifies (97 :: (List.replicate 39 97 ++ [32, 32, 98])) := by
  rintro ⟨hrun, -⟩
  have hl : Closed (97 :: (List.replicate 39 97 ++ [32, 32, 98])) := by
    rintro d ⟨⟩
    rfl
  have hgap : firstGap (List.replicate 39 97 ++ [32, 32, 98]) =
      some (List.replicate 39 97, 32, [32, 98]) := rfl
  have hsplit : Gap (97 :: (List.replicate 39 97 ++ [32, 32, 98])) (97 :: List.replicate 39 97)
      32 32 [98] := ⟨rfl, rfl, Or.inr rfl⟩
  have hval : (97 : UInt8) :: (List.replicate 39 97 ++ [32, 32, 98]) =
      [] ++ ((97 :: (List.replicate 39 97 ++ [32, 32, 98])) ++ []) := rfl
  have hempty : ∀ d ∈ ([] : List UInt8), isspace d = true := nofun
  have hjoin : joined (97 :: (List.replicate 39 97 ++ [32, 32, 98])) =
      (97 :: List.replicate 39 97) ++ 32 :: joined [32, 98] := by
    rw [joined_eq rfl hl, firstGap_cons rfl, hgap]
    rfl
  rw [simplified_text rfl hl hempty hempty hval, hgap, hjoin] at hrun
  have hfits := (simplifyGap_first hl hsplit hval).1 hrun
  exact absurd hfits.2 (by decide)

end Simplifies

end BigBox.StrOpt
