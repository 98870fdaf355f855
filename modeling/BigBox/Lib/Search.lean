import Mathlib.Algebra.Order.Ring.Int
import Mathlib.Data.List.Basic
import Mathlib.Data.List.Infix

namespace BigBox
set_option autoImplicit true

section Search
variable {α : Type} [DecidableEq α] {c : α} {s r pat : List α}

/-- The part of a string from the first of a character on. -/
def strchr (c : α) : List α → Option (List α)
  | [] => none
  | a :: s => if a = c then some (a :: s) else strchr c s

/-- The part of a string from the first place of a pattern on. -/
def strstr (pat : List α) : List α → Option (List α)
  | [] => if pat = [] then some [] else none
  | a :: s => if pat <+: a :: s then some (a :: s) else strstr pat s

/-- What lies between two places of one string. -/
def between (front rear : List α) : List α := front.take (front.length - rear.length)

omit [DecidableEq α] in
@[simp] theorem between_append (a b : List α) : between (a ++ b) b = a := by
  rw [between, List.length_append, Nat.add_sub_cancel]
  exact List.take_left

omit [DecidableEq α] in
theorem between_sublist (front rear : List α) : (between front rear).Sublist front :=
  List.take_sublist _ _

theorem strchr_append (h : c ∉ s) (t : List α) : strchr c (s ++ t) = strchr c t := by
  induction s with
  | nil => rfl
  | cons a s ih =>
    obtain ⟨ha, hs⟩ := not_or.1 (List.mem_cons.not.1 h)
    rw [List.cons_append, strchr, if_neg fun he => ha he.symm, ih hs]

@[simp] theorem strchr_self (c : α) (s : List α) : strchr c (c :: s) = some (c :: s) := if_pos rfl

theorem strchr_at (h : c ∉ s) (t : List α) : strchr c (s ++ c :: t) = some (c :: t) := by
  rw [strchr_append h, strchr_self]

theorem strchr_none (h : c ∉ s) : strchr c s = none := by
  have happend := strchr_append h []
  rwa [List.append_nil] at happend

theorem strchr_some (h : strchr c s = some r) : ∃ a t, s = a ++ c :: t ∧ r = c :: t ∧ c ∉ a := by
  induction s with
  | nil => cases h
  | cons b s ih =>
    rw [strchr] at h
    split at h
    case isTrue hb =>
      cases h
      exact ⟨[], s, by rw [hb]; rfl, by rw [hb], List.not_mem_nil⟩
    case isFalse hb =>
      obtain ⟨a, t, rfl, hr, ha⟩ := ih h
      refine ⟨b :: a, t, rfl, hr, ?_⟩
      rw [List.mem_cons, not_or]
      exact ⟨fun he => hb he.symm, ha⟩

theorem strstr_some (h : strstr pat s = some r) : ∃ a t, s = a ++ r ∧ r = pat ++ t := by
  induction s with
  | nil =>
    rw [strstr] at h
    split at h
    case isTrue hp =>
      cases h
      exact ⟨[], [], rfl, by rw [hp]; rfl⟩
    case isFalse => cases h
  | cons a s ih =>
    rw [strstr] at h
    split at h
    case isTrue hp =>
      obtain ⟨t, ht⟩ := hp
      cases h
      exact ⟨[], t, rfl, ht.symm⟩
    case isFalse =>
      obtain ⟨b, t, rfl, hr⟩ := ih h
      exact ⟨a :: b, t, rfl, hr⟩

/-- A pattern is not found at the start of a string without its first character. -/
theorem strstr_append (h : c ∉ s) (pat t : List α) :
    strstr (c :: pat) (s ++ t) = strstr (c :: pat) t := by
  induction s with
  | nil => rfl
  | cons a s ih =>
    obtain ⟨ha, hs⟩ := not_or.1 (List.mem_cons.not.1 h)
    have hno : ¬ c :: pat <+: a :: (s ++ t) := by
      rintro ⟨r, hr⟩
      exact ha (List.cons.inj hr).1
    rw [List.cons_append, strstr, if_neg hno, ih hs]

theorem strstr_cons (h : ¬ pat <+: a :: s) : strstr pat (a :: s) = strstr pat s := if_neg h

@[simp] theorem strstr_self (pat t : List α) : strstr pat (pat ++ t) = some (pat ++ t) := by
  cases h : pat ++ t with
  | nil =>
    rw [(List.append_eq_nil_iff.1 h).1]
    rfl
  | cons a s => exact if_pos ⟨t, h⟩

theorem strstr_none (h : c ∉ s) (pat : List α) : strstr (c :: pat) s = none := by
  have happend := strstr_append h pat []
  rw [List.append_nil] at happend
  exact happend

/-- A pattern that has a character at its end alone and is not in a string ending in it is looked
for behind that string. -/
theorem strstr_past (hc : c ∉ pat.dropLast) (h : ¬ pat <:+: s ++ [c]) (t : List α) :
    strstr pat (s ++ c :: t) = strstr pat t := by
  have hno : ∀ u, u <:+ s → ¬ pat <+: u ++ c :: t := by
    rintro u ⟨a, rfl⟩ hpre
    have hu : u ++ c :: t = u ++ [c] ++ t := List.append_cons u c t
    rw [hu] at hpre
    rcases List.prefix_or_prefix_of_prefix hpre (List.prefix_append (u ++ [c]) t) with hp | hp
    · apply h
      rw [List.append_assoc]
      exact hp.isInfix.trans (List.suffix_append a (u ++ [c])).isInfix
    · obtain ⟨r, rfl⟩ := hp
      cases r with
      | nil =>
        apply h
        rw [List.append_nil, List.append_assoc]
        exact (List.suffix_append a (u ++ [c])).isInfix
      | cons d r =>
        apply hc
        rw [List.dropLast_append_cons]
        exact List.mem_append_left _ (List.mem_append_right _ (List.mem_singleton_self c))
  induction s with
  | nil => exact strstr_cons (hno [] (List.suffix_refl []))
  | cons a s ih =>
    refine (strstr_cons (hno (a :: s) (List.suffix_refl _))).trans (ih ?_ ?_)
    · exact fun hin => h (List.infix_cons hin)
    · exact fun u hu => hno u (hu.trans (List.suffix_cons a s))

omit [DecidableEq α] in
/-- What stands in front of the first place of a character is determined. -/
theorem append_cons_inj (hs : c ∉ s) (hr : c ∉ r) {t u : List α} (h : s ++ c :: t = r ++ c :: u) :
    s = r ∧ t = u := by
  classical
  have hrear := congrArg (strchr c) h
  rw [strchr_at hs, strchr_at hr] at hrear
  cases hrear
  exact ⟨List.append_cancel_right h, rfl⟩

/-- The first place of a pattern in a string does not depend on what is behind the string. -/
theorem strstr_inside (h : pat <:+: s) :
    ∃ a b, s = a ++ (pat ++ b) ∧ ∀ t, strstr pat (s ++ t) = some (pat ++ b ++ t) := by
  induction s with
  | nil =>
    have hpat := List.infix_nil.1 h
    subst hpat
    refine ⟨[], [], rfl, fun t => ?_⟩
    exact strstr_self [] t
  | cons c s ih =>
    by_cases hp : pat <+: c :: s
    · obtain ⟨b, hb⟩ := hp
      refine ⟨[], b, hb.symm, fun t => ?_⟩
      rw [← hb, List.append_assoc]
      exact strstr_self pat (b ++ t)
    · obtain ⟨a, b, hs, hrun⟩ := ih ((List.infix_cons_iff.1 h).resolve_left hp)
      refine ⟨c :: a, b, congrArg (c :: ·) hs, fun t => ?_⟩
      have hno : ¬ pat <+: c :: (s ++ t) := by
        intro hpre
        apply hp
        apply List.prefix_of_prefix_length_le hpre (List.prefix_append (c :: s) t)
        have hle := (List.infix_cons_iff.1 h).resolve_left hp |>.length_le
        rw [List.length_cons]
        exact Nat.le_succ_of_le hle
      rw [List.cons_append, strstr_cons hno, hrun]

end Search

end BigBox
