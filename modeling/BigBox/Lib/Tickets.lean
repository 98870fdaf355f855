import BigBox.Lib.TryRun
import Mathlib.Data.List.ReduceOption

namespace BigBox
set_option autoImplicit true

theorem reduceOption_set_some {l : List (Option α)} (h : l[i]? = some none) (a : α) :
    (l.set i (some a)).reduceOption.Perm (a :: l.reduceOption) := by
  obtain ⟨hlt, hget⟩ := List.getElem?_eq_some_iff.1 h
  obtain ⟨l₁, l₂, hl, _, hset⟩ : ∃ l₁ l₂, l = l₁ ++ l[i] :: l₂ ∧ l₁.length = i ∧
      l.set i (some a) = l₁ ++ some a :: l₂ := List.exists_of_set hlt
  rw [hget] at hl
  rw [hset, hl, List.reduceOption_append, List.reduceOption_append,
    List.reduceOption_cons_of_some, List.reduceOption_cons_of_none]
  exact List.perm_middle

theorem reduceOption_set_none {l : List (Option α)} (h : l[i]? = some (some a)) :
    l.reduceOption.Perm (a :: (l.set i none).reduceOption) := by
  obtain ⟨hlt, hget⟩ := List.getElem?_eq_some_iff.1 h
  have hnone : (l.set i none)[i]? = some none := List.getElem?_set_self hlt
  have hset := reduceOption_set_some hnone a
  rwa [List.set_set, ← hget, List.set_getElem_self] at hset

/-- Tickets are numbered as they are drawn and taken in that order. A party holds one until it is
done with it. -/
structure Tickets where
  drawn : Nat
  taken : Nat
  held : List (Option Nat)
  done : List Nat

namespace Tickets

def start (n : Nat) : Tickets := ⟨0, 0, List.replicate n none, []⟩

def draw (t : Tickets) : Tickets := { t with drawn := t.drawn + 1 }

def take (t : Tickets) (w : Nat) : Tickets :=
  if t.taken < t.drawn ∧ t.held[w]? = some none then
    { t with taken := t.taken + 1, held := t.held.set w (some t.taken) }
  else t

def finish (t : Tickets) (w : Nat) : Tickets :=
  match t.held[w]? with
  | some (some k) => { t with held := t.held.set w none, done := t.done ++ [k] }
  | _ => t

/-- Every ticket that was taken is held once or done once. -/
structure Holds (t : Tickets) : Prop where
  le : t.taken ≤ t.drawn
  perm : (t.done ++ t.held.reduceOption).Perm (List.range t.taken)

theorem Holds.start (n : Nat) : Holds (start n) := by
  refine ⟨Nat.le_refl 0, ?_⟩
  rw [Tickets.start, List.reduceOption_replicate_none]
  exact .refl _

theorem Holds.draw {t : Tickets} (h : t.Holds) : t.draw.Holds :=
  ⟨Nat.le_succ_of_le h.le, h.perm⟩

theorem Holds.take {t : Tickets} (h : t.Holds) (w : Nat) : (t.take w).Holds := by
  rw [Tickets.take]
  split
  · rename_i hcond
    refine ⟨hcond.1, ?_⟩
    have hset := (reduceOption_set_some hcond.2 t.taken).append_left t.done
    have hmiddle := hset.trans (List.perm_middle.trans (List.perm_append_singleton _ _).symm)
    rw [List.range_succ]
    exact hmiddle.trans (h.perm.append_right _)
  · exact h

theorem Holds.finish {t : Tickets} (h : t.Holds) (w : Nat) : (t.finish w).Holds := by
  rw [Tickets.finish]
  split
  · rename_i k hk
    refine ⟨h.le, ?_⟩
    have hset := (reduceOption_set_none hk).append_left t.done
    rw [List.append_cons] at hset
    exact hset.symm.trans h.perm
  · exact h

theorem Holds.nodup {t : Tickets} (h : t.Holds) : (t.done ++ t.held.reduceOption).Nodup :=
  h.perm.nodup_iff.2 List.nodup_range

theorem Holds.lt_of_done {t : Tickets} (h : t.Holds) (hk : k ∈ t.done) : k < t.taken :=
  List.mem_range.1 (h.perm.mem_iff.1 (List.mem_append_left _ hk))

theorem Holds.lt_of_held {t : Tickets} (h : t.Holds) (hk : some k ∈ t.held) : k < t.taken :=
  List.mem_range.1 (h.perm.mem_iff.1
    (List.mem_append_right _ (List.reduceOption_mem_iff.2 hk)))

/-- A ticket that is held is not done. -/
theorem Holds.not_done {t : Tickets} (h : t.Holds) (hk : some k ∈ t.held) : k ∉ t.done :=
  fun hdone => (List.nodup_append.1 h.nodup).2.2 k hdone k (List.reduceOption_mem_iff.2 hk) rfl

/-- When nothing is left, every ticket drawn has been done once. -/
theorem Holds.all_done {t : Tickets} (h : t.Holds) (htaken : t.taken = t.drawn)
    (hheld : ∀ x ∈ t.held, x = none) : t.done.Perm (List.range t.drawn) := by
  have hnil : t.held.reduceOption = [] := by
    rw [List.eq_replicate_of_mem hheld, List.reduceOption_replicate_none]
  have hperm := h.perm
  rwa [hnil, List.append_nil, htaken] at hperm

end Tickets
end BigBox
