import Mathlib.Algebra.Order.Ring.Int
import Mathlib.Data.List.Basic
import Mathlib.Data.List.Count

namespace BigBox
set_option autoImplicit true

/-- The memory with `xs` written from address `a` on. -/
def writeBytes (mem : Nat → α) (a : Nat) (xs : List α) : Nat → α :=
  fun i => if a ≤ i then xs[i - a]?.getD (mem i) else mem i

/-- The `n` cells from address `a` on. -/
def readBytes (mem : Nat → α) (a n : Nat) : List α := (List.range n).map fun i => mem (a + i)

@[simp] theorem length_readBytes (mem : Nat → α) (a n : Nat) : (readBytes mem a n).length = n := by
  rw [readBytes, List.length_map, List.length_range]

@[simp] theorem writeBytes_nil (mem : Nat → α) (a : Nat) : writeBytes mem a [] = mem := by
  funext i
  simp only [writeBytes, List.getElem?_nil, Option.getD_none, ite_self]

theorem writeBytes_inside (mem : Nat → α) (a : Nat) (h : i < xs.length) :
    writeBytes mem a xs (a + i) = xs[i] := by
  simp only [writeBytes, Nat.le_add_right, ↓reduceIte, Nat.add_sub_cancel_left,
    List.getElem?_eq_getElem h, Option.getD_some]

theorem writeBytes_before (mem : Nat → α) (xs : List α) (h : i < a) :
    writeBytes mem a xs i = mem i := by
  rw [writeBytes, if_neg (Nat.not_le.2 h)]

theorem writeBytes_behind (mem : Nat → α) (xs : List α) (h : a + xs.length ≤ i) :
    writeBytes mem a xs i = mem i := by
  have hnone : xs[i - a]? = none := List.getElem?_eq_none (by omega)
  rw [writeBytes, hnone, Option.getD_none, ite_self]

/-- Writing a list is writing its head, then its tail behind it. -/
theorem writeBytes_cons (mem : Nat → α) (a : Nat) (x : α) (xs : List α) :
    writeBytes mem a (x :: xs) = writeBytes (writeBytes mem a [x]) (a + 1) xs := by
  funext i
  rcases Nat.lt_trichotomy i a with h | rfl | h
  · rw [writeBytes_before _ _ h, writeBytes_before _ _ (by omega), writeBytes_before _ _ h]
  · have hl : writeBytes mem i (x :: xs) (i + 0) = x := writeBytes_inside mem i (Nat.succ_pos _)
    have hr : writeBytes mem i [x] (i + 0) = x := writeBytes_inside mem i Nat.zero_lt_one
    rw [writeBytes_before (a := i + 1) _ _ (Nat.lt_succ_self i)]
    exact hl.trans hr.symm
  · obtain ⟨k, rfl⟩ : ∃ k, i = a + 1 + k := ⟨i - (a + 1), by omega⟩
    have hk : a + 1 + k - a = k + 1 := by omega
    have hk' : a + 1 + k - (a + 1) = k := by omega
    have ha : a ≤ a + 1 + k := by omega
    have ha' : a + 1 ≤ a + 1 + k := by omega
    have hbehind : writeBytes mem a [x] (a + 1 + k) = mem (a + 1 + k) :=
      writeBytes_behind mem [x] ha'
    rw [writeBytes, writeBytes, hbehind, hk, hk', if_pos ha, if_pos ha', List.getElem?_cons_succ]

/-- What was written is read back. -/
theorem readBytes_writeBytes (mem : Nat → α) (h : ys.length = n) :
    readBytes (writeBytes mem a (xs ++ ys ++ zs)) (a + xs.length) n = ys := by
  apply List.ext_getElem
  · rw [length_readBytes, h]
  · intro i _ hi
    have hin : xs.length + i < (xs ++ ys ++ zs).length := by
      simp only [List.length_append]
      omega
    simp only [readBytes, List.getElem_map, List.getElem_range, Nat.add_assoc]
    have hin' : xs.length + i < (xs ++ ys).length := by
      rw [List.length_append]
      omega
    rw [writeBytes_inside mem a hin, List.getElem_append_left hin',
      List.getElem_append_right (Nat.le_add_right ..)]
    simp only [Nat.add_sub_cancel_left]

theorem readBytes_congr {mem mem' : Nat → α} (h : ∀ i, i < n → mem' (a' + i) = mem (a + i)) :
    readBytes mem' a' n = readBytes mem a n :=
  List.map_congr_left fun i hi => h i (List.mem_range.1 hi)

theorem readBytes_append (mem : Nat → α) (a m n : Nat) :
    readBytes mem a (m + n) = readBytes mem a m ++ readBytes mem (a + m) n := by
  rw [readBytes, List.range_add, List.map_append, List.map_map]
  simp only [readBytes, Function.comp_def, Nat.add_assoc]

theorem readBytes_self (mem : Nat → α) (a : Nat) (xs : List α) :
    readBytes (writeBytes mem a xs) a xs.length = xs := by
  have h :
      readBytes (writeBytes mem a ([] ++ xs ++ [])) (a + ([] : List α).length) xs.length = xs :=
    readBytes_writeBytes mem rfl
  rwa [List.nil_append, List.append_nil, List.length_nil, Nat.add_zero] at h

/-- Cells apart from those written stay. -/
theorem writeBytes_apart (mem : Nat → α) (xs : List α) (h : i < a ∨ a + xs.length ≤ i) :
    writeBytes mem a xs i = mem i := by
  rcases h with h | h
  · exact writeBytes_before mem xs h
  · exact writeBytes_behind mem xs h

/-- `memmove`. -/
def memmove (mem : Nat → α) (dst src n : Nat) : Nat → α :=
  writeBytes mem dst (readBytes mem src n)

theorem memmove_inside (mem : Nat → α) (dst src : Nat) (h : i < n) :
    memmove mem dst src n (dst + i) = mem (src + i) := by
  have hlen : i < (readBytes mem src n).length := by rwa [length_readBytes]
  rw [memmove, writeBytes_inside mem dst hlen]
  simp only [readBytes, List.getElem_map, List.getElem_range]

theorem memmove_apart (mem : Nat → α) (src : Nat) (h : i < dst ∨ dst + n ≤ i) :
    memmove mem dst src n i = mem i := by
  apply writeBytes_apart
  rwa [length_readBytes]

/-- All blocks are freed. -/
theorem diff_of_perm {l l' : List Nat} (h : l.Perm l') : l.diff l' = [] := by
  have hself : ∀ l : List Nat, l.diff l = [] := by
    intro l
    induction l with
    | nil => rfl
    | cons a l ih => rw [List.diff_cons, List.erase_cons_head, ih]
  exact (h.symm.diff_left l).trans (hself l)

/-- An allocator that never fails: it picks an address apart from the blocks in use. -/
structure Allocator where
  pick : List Nat → Nat
  fresh : ∀ used, pick used ∉ used

theorem le_foldr_max (h : a ∈ used) : a ≤ List.foldr max 0 used := by
  induction used with
  | nil => cases h
  | cons b used ih =>
    rcases List.mem_cons.1 h with rfl | h
    · exact Nat.le_max_left _ _
    · exact Nat.le_trans (ih h) (Nat.le_max_right _ _)

/-- The allocator that goes upwards. -/
def Allocator.next : Allocator where
  pick used := used.foldr max 0 + 1
  fresh _ h := Nat.not_succ_le_self _ (le_foldr_max h)

end BigBox
