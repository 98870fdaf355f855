import BigBox.Lib.Block
import BigBox.Lib.CInt
import Mathlib.Algebra.Order.Ring.Int
import Mathlib.Data.List.Nodup
import Mathlib.Logic.Function.Basic

namespace BigBox.Darray
open Function
set_option autoImplicit true

/-- `darray_find` from the start. -/
def darrayFind [DecidableEq α] (item : α) (da : List α) : Option Nat :=
  da.findIdx? fun compare => compare = item

/-- `darray_erase`. The last item is erased without a move. -/
def darrayErase (dst : List α) (idx : Nat) : List α :=
  if dst.length ≤ idx then dst
  else if dst.length - 1 = 0 then []
  else dst.take idx ++ dst.drop (idx + 1)

def darrayEraseItem [DecidableEq α] (dst : List α) (item : α) : List α :=
  match darrayFind item dst with
  | some idx => darrayErase dst idx
  | none => dst

def darrayPushBack (dst : List α) (item : α) : List α := dst ++ [item]

theorem darrayErase_eq (dst : List α) (idx : Nat) : darrayErase dst idx = dst.eraseIdx idx := by
  rw [darrayErase, List.eraseIdx_eq_take_drop_succ]
  split
  · next hidx =>
    rw [List.take_of_length_le hidx, List.drop_of_length_le (by omega), List.append_nil]
  · next hidx =>
    split
    · next hlen =>
      obtain rfl : idx = 0 := by omega
      rw [List.take_zero, List.drop_of_length_le (by omega), List.append_nil]
    · rfl

theorem darrayEraseItem_eq [DecidableEq α] (dst : List α) (item : α) :
    darrayEraseItem dst item = dst.erase item := by
  rw [darrayEraseItem, List.erase_eq_eraseIdx, List.idxOf?, darrayFind]
  have hfind : (dst.findIdx? fun compare => decide (compare = item)) =
      dst.findIdx? (· == item) := rfl
  rw [hfind]
  cases dst.findIdx? (· == item) with
  | none => rfl
  | some idx => exact darrayErase_eq dst idx

/-- A `struct darray`. The empty block stands for `NULL`. -/
structure DarrayT where
  array : List UInt8
  num : Nat
  capacity : Nat

def darrayInit : DarrayT := ⟨[], 0, 0⟩

def darrayFree (_ : DarrayT) : DarrayT := ⟨[], 0, 0⟩

/-- The bytes that `malloc` finds are whatever they are. -/
def darrayEnsureCapacity (elementSize : Nat) (dst : DarrayT) (newSize : Nat) (fresh : Nat → UInt8) :
    Option DarrayT :=
  if newSize ≤ dst.capacity then some dst
  else
    let newCap := if dst.capacity = 0 then newSize else sizeT (dst.capacity * 2)
    let newCap := if newSize > newCap then newSize else newCap
    let ptr := (List.range (sizeT (elementSize * newCap))).map fresh
    let copied := if dst.capacity = 0 then some ptr
      else (Block.read dst.array 0 (sizeT (elementSize * dst.capacity))).bind (Block.write ptr 0)
    copied.map fun ptr => { dst with array := ptr, capacity := newCap }

def darrayResize (elementSize : Nat) (dst : DarrayT) (size : Nat) (fresh : Nat → UInt8) :
    Option DarrayT :=
  if size = dst.num then some dst
  else if size = 0 then some { dst with num := 0 }
  else
    let bClear := size > dst.num
    let oldNum := dst.num
    (darrayEnsureCapacity elementSize dst size fresh).bind fun dst =>
      if bClear then
        let zeros := List.replicate (sizeT (elementSize * (size - oldNum))) 0
        (Block.write dst.array (sizeT (elementSize * oldNum)) zeros).map fun array =>
          { dst with array, num := size }
      else some { dst with num := size }

def darrayCopyArray (elementSize : Nat) (dst : DarrayT) (array : List UInt8) (num : Nat)
    (fresh : Nat → UInt8) : Option DarrayT :=
  (darrayResize elementSize dst num fresh).bind fun dst =>
    (Block.read array 0 (sizeT (elementSize * dst.num))).bind fun bytes =>
      (Block.write dst.array 0 bytes).map fun array => { dst with array }

def darrayCopy (elementSize : Nat) (dst da : DarrayT) (fresh : Nat → UInt8) : Option DarrayT :=
  if da.num = 0 then some (darrayFree dst)
  else
    (darrayResize elementSize dst da.num fresh).bind fun dst =>
      (Block.read da.array 0 (sizeT (elementSize * da.num))).bind fun bytes =>
        (Block.write dst.array 0 bytes).map fun array => { dst with array }

/-- `darray_split` in a memory of arrays. The one to split may be one of the results. -/
def darraySplit (elementSize : Nat) (m : Nat → DarrayT) (dst1 dst2 da idx : Nat)
    (fresh : Nat → UInt8) : Option (Nat → DarrayT) :=
  if (m da).num < idx then some m
  else if dst1 = dst2 then some m
  else
    (darrayCopy elementSize darrayInit (m da) fresh).bind fun temp =>
      let m := update m dst1 (darrayFree (m dst1))
      let m := update m dst2 (darrayFree (m dst2))
      if (m da).num = 0 then some m
      else
        let first := if idx ≠ 0 then
            (darrayCopyArray elementSize (m dst1) temp.array temp.num fresh).map (update m dst1)
          else some m
        first.bind fun m =>
          if idx < temp.num - 1 then
            let item := temp.array.drop (sizeT (elementSize * idx))
            (darrayCopyArray elementSize (m dst2) item (temp.num - idx) fresh).map (update m dst2)
          else some m

/-- The array holds these elements, each of them `elementSize` bytes. -/
structure Holds (elementSize : Nat) (d : DarrayT) (xs : List (List UInt8)) : Prop where
  size : ∀ x ∈ xs, x.length = elementSize
  num : d.num = xs.length
  array : ∃ rest, d.array = xs.flatten ++ rest
  length : d.array.length = elementSize * d.capacity
  room : d.num ≤ d.capacity
  bound : d.array.length < 18446744073709551616

/-- The results are the elements in front of the index and those from it on. -/
def Splits (elementSize : Nat) (m : Nat → DarrayT) (dst1 dst2 da idx : Nat) (fresh : Nat → UInt8)
    (xs : List (List UInt8)) : Prop :=
  ∃ m', darraySplit elementSize m dst1 dst2 da idx fresh = some m' ∧
    Holds elementSize (m' dst1) (xs.take idx) ∧ Holds elementSize (m' dst2) (xs.drop idx)

section Split
variable {elementSize : Nat} {xs : List (List UInt8)} {d : DarrayT}

theorem holds_init (elementSize : Nat) : Holds elementSize darrayInit [] :=
  ⟨fun _ hx => absurd hx List.not_mem_nil, rfl, ⟨[], rfl⟩, (Nat.mul_zero _).symm, Nat.le_refl _,
    by decide⟩

/-- The elements lie inside the block, so their size does not wrap around. -/
theorem Holds.sizeT_num (h : Holds elementSize d xs) (hle : n ≤ xs.length) :
    sizeT (elementSize * n) = elementSize * n := by
  apply sizeT_of_lt
  apply Nat.lt_of_le_of_lt _ h.bound
  rw [h.length]
  exact Nat.mul_le_mul_left _ (Nat.le_trans hle (h.num ▸ h.room))

theorem read_front (a b : List UInt8) (hn : n = a.length) :
    Block.read (a ++ b) 0 n = some a := by
  rw [Block.read, Nat.zero_add, if_pos (by rw [hn, List.length_append]; exact Nat.le_add_right ..),
    hn, List.drop_zero, List.take_left]

theorem write_all (block bytes : List α) (h : bytes.length = block.length) :
    Block.write block 0 bytes = some bytes := by
  have hwrite := Block.write_middle [] block [] bytes rfl h
  rwa [List.nil_append, List.append_nil, List.nil_append, List.append_nil] at hwrite

theorem darrayEnsureCapacity_init (hpos : num ≠ 0) (fresh : Nat → UInt8) :
    darrayEnsureCapacity elementSize darrayInit num fresh =
      some ⟨(List.range (sizeT (elementSize * num))).map fresh, 0, num⟩ := by
  have hcap : (if num > num then num else num) = num := if_neg (Nat.lt_irrefl num)
  have hgrow : ¬ num ≤ darrayInit.capacity := Nat.not_le.2 (Nat.pos_of_ne_zero hpos)
  have hzero : darrayInit.capacity = 0 := rfl
  simp only [darrayEnsureCapacity, if_neg hgrow, if_pos hzero, hcap]
  rfl

/-- A block of that many elements is all zeros. -/
theorem darrayResize_init (hpos : num ≠ 0) (fresh : Nat → UInt8) :
    darrayResize elementSize darrayInit num fresh =
      some ⟨List.replicate (sizeT (elementSize * num)) 0, num, num⟩ := by
  have hzero : sizeT (elementSize * 0) = 0 := by
    rw [Nat.mul_zero]
    exact sizeT_of_lt (by decide)
  have hclear : num > darrayInit.num := Nat.pos_of_ne_zero hpos
  have hnew : num ≠ darrayInit.num := hpos
  have hnum : darrayInit.num = 0 := rfl
  rw [darrayResize, if_neg hnew, if_neg hpos, darrayEnsureCapacity_init hpos]
  simp only [Option.bind_some, hnum, hzero, Nat.sub_zero]
  rw [write_all]
  · exact if_pos hclear
  · rw [List.length_replicate, List.length_map, List.length_range]

theorem darrayCopyArray_init (hpos : num ≠ 0) (a b : List UInt8) (fresh : Nat → UInt8)
    (h : sizeT (elementSize * num) = a.length) :
    darrayCopyArray elementSize darrayInit (a ++ b) num fresh = some ⟨a, num, num⟩ := by
  rw [darrayCopyArray, darrayResize_init hpos, Option.bind_some, read_front a b h,
    Option.bind_some, write_all _ _ (by rw [List.length_replicate, h])]
  rfl

theorem darrayCopy_init (hpos : d.num ≠ 0) (fresh : Nat → UInt8) :
    darrayCopy elementSize darrayInit d fresh =
      darrayCopyArray elementSize darrayInit d.array d.num fresh := by
  rw [darrayCopy, if_neg hpos, darrayCopyArray, darrayResize_init hpos]
  rfl

/-- The array that is made for these elements. -/
def exactly (xs : List (List UInt8)) : DarrayT := ⟨xs.flatten, xs.length, xs.length⟩

theorem length_elements (hsize : ∀ x ∈ xs, x.length = elementSize) :
    xs.flatten.length = elementSize * xs.length := by
  rw [length_flatten hsize, Nat.mul_comm]

theorem holds_exactly (hsize : ∀ x ∈ xs, x.length = elementSize)
    (hbound : xs.flatten.length < 18446744073709551616) :
    Holds elementSize (exactly xs) xs :=
  ⟨hsize, rfl, ⟨[], (List.append_nil _).symm⟩, length_elements hsize, Nat.le_refl _, hbound⟩

theorem darrayCopyArray_elements (hne : xs ≠ []) (hsize : ∀ x ∈ xs, x.length = elementSize)
    (hbound : xs.flatten.length < 18446744073709551616) (rest : List UInt8)
    (fresh : Nat → UInt8) :
    darrayCopyArray elementSize darrayInit (xs.flatten ++ rest) xs.length fresh =
      some (exactly xs) := by
  have hlength := length_elements hsize
  apply darrayCopyArray_init
  · exact fun hzero => hne (List.eq_nil_of_length_eq_zero hzero)
  · rw [sizeT_of_lt (hlength ▸ hbound), hlength]

theorem Holds.bound_elements (h : Holds elementSize d xs) :
    xs.flatten.length < 18446744073709551616 := by
  obtain ⟨rest, hrest⟩ := h.array
  apply Nat.lt_of_le_of_lt _ h.bound
  rw [hrest, List.length_append]
  exact Nat.le_add_right _ _

theorem Holds.copy (h : Holds elementSize d xs) (hne : xs ≠ []) (fresh : Nat → UInt8) :
    darrayCopy elementSize darrayInit d fresh = some (exactly xs) := by
  obtain ⟨rest, hrest⟩ := h.array
  have hpos : d.num ≠ 0 := by
    rw [h.num]
    exact fun hzero => hne (List.eq_nil_of_length_eq_zero hzero)
  rw [darrayCopy_init hpos, hrest, h.num]
  exact darrayCopyArray_elements hne h.size h.bound_elements rest fresh

/-- The array that the source makes for the elements in front of the index. -/
def firstPart (xs : List (List UInt8)) (idx : Nat) : DarrayT :=
  if idx ≠ 0 then exactly xs else darrayInit

/-- The array that the source makes for the elements from the index on. -/
def secondPart (xs : List (List UInt8)) (idx : Nat) : DarrayT :=
  if idx < xs.length - 1 then exactly (xs.drop idx) else darrayInit

/-- An array is made in the place of an empty one, or nothing happens. -/
theorem update_part {m : Nat → DarrayT} {c : Prop} [Decidable c] (hempty : m dst = darrayInit)
    {made : Option DarrayT} {d : DarrayT} (hmade : c → made = some d) :
    (if c then made.map (update m dst) else some m) =
      some (update m dst (if c then d else darrayInit)) := by
  split
  · next hc =>
    rw [hmade hc]
    rfl
  · rw [← hempty, update_eq_self]

theorem Holds.split_eq (h : Holds elementSize (m da) xs) (hidx : idx ≤ xs.length)
    (hdst : dst1 ≠ dst2) (hne : xs ≠ []) (h1 : da ≠ dst1) (h2 : da ≠ dst2)
    (fresh : Nat → UInt8) :
    darraySplit elementSize m dst1 dst2 da idx fresh =
      some (update (update m dst1 (firstPart xs idx)) dst2 (secondPart xs idx)) := by
  have hlength : xs.length ≠ 0 := fun hzero => hne (List.eq_nil_of_length_eq_zero hzero)
  have hsmall := h.bound_elements
  have hnum : (update (update m dst1 darrayInit) dst2 darrayInit da).num = xs.length := by
    rw [update_of_ne h2, update_of_ne h1, h.num]
  have hitem : xs.flatten.drop (sizeT (elementSize * idx)) = (xs.drop idx).flatten := by
    rw [h.sizeT_num hidx, Nat.mul_comm, drop_flatten h.size]
  have hfirst : darrayCopyArray elementSize darrayInit (exactly xs).array (exactly xs).num fresh =
      some (exactly xs) := by
    have hcopy := darrayCopyArray_elements hne h.size hsmall [] fresh
    rwa [List.append_nil] at hcopy
  have hsecond : idx < (exactly xs).num - 1 → darrayCopyArray elementSize darrayInit
      ((exactly xs).array.drop (sizeT (elementSize * idx))) ((exactly xs).num - idx) fresh =
        some (exactly (xs.drop idx)) := by
    intro hlt
    change idx < xs.length - 1 at hlt
    have hdrop : xs.drop idx ≠ [] := by
      intro hnil
      have hle := List.drop_eq_nil_iff.1 hnil
      omega
    have hpart : (xs.drop idx).flatten.length < 18446744073709551616 := by
      rw [← hitem, List.length_drop]
      exact Nat.lt_of_le_of_lt (Nat.sub_le _ _) hsmall
    have hcopy := darrayCopyArray_elements hdrop
      (fun x hx => h.size x (List.mem_of_mem_drop hx)) hpart [] fresh
    rwa [List.append_nil, List.length_drop, ← hitem] at hcopy
  have hfree : ∀ d, darrayFree d = darrayInit := fun _ => rfl
  have hother : update (update m dst1 darrayInit) dst2 darrayInit dst1 = darrayInit := by
    rw [update_of_ne hdst, update_self]
  have hswap : update (update (update m dst1 darrayInit) dst2 darrayInit) dst1
      (firstPart xs idx) = update (update m dst1 (firstPart xs idx)) dst2 darrayInit := by
    rw [update_comm hdst.symm, update_idem]
  rw [darraySplit, if_neg (h.num ▸ Nat.not_lt.2 hidx), if_neg hdst, h.copy hne fresh,
    Option.bind_some]
  simp only [hfree]
  rw [if_neg (hnum ▸ hlength), hother, update_part hother fun _ => hfirst, Option.bind_some,
    ← firstPart, hswap, update_self, update_part (update_self ..) hsecond, update_idem]
  rfl

/-- The array to split is looked at again once the results are freed. -/
theorem Holds.split_freed (h : Holds elementSize (m da) xs) (hidx : idx ≤ xs.length)
    (hdst : dst1 ≠ dst2) (hfreed : xs = [] ∨ da = dst1 ∨ da = dst2) (fresh : Nat → UInt8) :
    darraySplit elementSize m dst1 dst2 da idx fresh =
      some (update (update m dst1 darrayInit) dst2 darrayInit) := by
  have hcopied : ∃ temp, darrayCopy elementSize darrayInit (m da) fresh = some temp := by
    by_cases hne : xs = []
    · exact ⟨darrayFree darrayInit, if_pos (by rw [h.num, hne, List.length_nil])⟩
    · exact ⟨exactly xs, h.copy hne fresh⟩
  obtain ⟨temp, htemp⟩ := hcopied
  have hnum : (update (update m dst1 darrayInit) dst2 darrayInit da).num = 0 := by
    by_cases h2 : da = dst2
    · rw [h2, update_self]
      rfl
    · rw [update_of_ne h2]
      by_cases h1 : da = dst1
      · rw [h1, update_self]
        rfl
      · obtain hnil | rfl | rfl := hfreed
        · rw [update_of_ne h1, h.num, hnil, List.length_nil]
        · exact absurd rfl h1
        · exact absurd rfl h2
  rw [darraySplit, if_neg (h.num ▸ Nat.not_lt.2 hidx), if_neg hdst, htemp, Option.bind_some]
  exact if_pos hnum

theorem splits_iff_holds (hdst : dst1 ≠ dst2) (heq : darraySplit elementSize m dst1 dst2 da idx
      fresh = some (update (update m dst1 d1) dst2 d2)) :
    Splits elementSize m dst1 dst2 da idx fresh xs ↔
      Holds elementSize d1 (xs.take idx) ∧ Holds elementSize d2 (xs.drop idx) := by
  have h1 : update (update m dst1 d1) dst2 d2 dst1 = d1 := by rw [update_of_ne hdst, update_self]
  constructor
  · rintro ⟨_, hsplit, hfirst, hsecond⟩
    cases heq.symm.trans hsplit
    rw [h1] at hfirst
    rw [update_self] at hsecond
    exact ⟨hfirst, hsecond⟩
  · rintro ⟨hfirst, hsecond⟩
    refine ⟨_, heq, ?_, ?_⟩
    · rwa [h1]
    · rwa [update_self]

/-- The parts of the source are the right ones where the index is at an end. -/
theorem Holds.parts_iff (h : Holds elementSize d xs) (hidx : idx ≤ xs.length) (hne : xs ≠ []) :
    Holds elementSize (firstPart xs idx) (xs.take idx) ∧
        Holds elementSize (secondPart xs idx) (xs.drop idx) ↔
      idx = xs.length ∨ idx = 0 ∧ xs.length ≠ 1 := by
  have hinit := holds_init elementSize
  have hpos : xs.length ≠ 0 := fun hzero => hne (List.eq_nil_of_length_eq_zero hzero)
  have hexactly := holds_exactly h.size h.bound_elements
  constructor
  · rintro ⟨hfirst, hsecond⟩
    have hleft := hfirst.num
    have hright := hsecond.num
    rw [List.length_take_of_le hidx] at hleft
    rw [List.length_drop] at hright
    by_cases hzero : idx = 0
    · refine .inr ⟨hzero, fun hone => ?_⟩
      rw [secondPart, if_neg (by omega), hzero, hone] at hright
      exact absurd hright (by decide)
    · rw [firstPart, if_pos hzero] at hleft
      exact .inl hleft.symm
  · rintro (rfl | ⟨rfl, hone⟩)
    · rw [firstPart, if_pos hpos, List.take_length, secondPart, if_neg (by omega), List.drop_length]
      exact ⟨hexactly, hinit⟩
    · rw [firstPart, if_neg (not_not_intro rfl), List.take_zero, secondPart, if_pos (by omega),
        List.drop_zero]
      exact ⟨hinit, hexactly⟩

/-- Only an index at an end splits the array, and not in front of a single element. Where one
of the results is the array itself, everything is lost. -/
theorem darraySplit_iff (h : Holds elementSize (m da) xs) (hidx : idx ≤ xs.length)
    (hdst : dst1 ≠ dst2) (fresh : Nat → UInt8) :
    Splits elementSize m dst1 dst2 da idx fresh xs ↔
      xs = [] ∨ da ≠ dst1 ∧ da ≠ dst2 ∧ (idx = xs.length ∨ idx = 0 ∧ xs.length ≠ 1) := by
  by_cases hfreed : xs = [] ∨ da = dst1 ∨ da = dst2
  · rw [splits_iff_holds hdst (h.split_freed hidx hdst hfreed fresh)]
    constructor
    · rintro ⟨hfirst, hsecond⟩
      have hlength := congrArg List.length (List.take_append_drop idx xs)
      rw [List.length_append, ← hfirst.num, ← hsecond.num] at hlength
      exact .inl (List.eq_nil_of_length_eq_zero hlength.symm)
    · intro hok
      have hnil : xs = [] := by
        obtain hnil | ⟨h1, h2, _⟩ := hok
        · exact hnil
        · obtain hnil | heq | heq := hfreed
          · exact hnil
          · exact absurd heq h1
          · exact absurd heq h2
      rw [hnil, List.take_nil, List.drop_nil]
      exact ⟨holds_init elementSize, holds_init elementSize⟩
  · obtain ⟨hne, hother⟩ := not_or.1 hfreed
    obtain ⟨h1, h2⟩ := not_or.1 hother
    rw [splits_iff_holds hdst (h.split_eq hidx hdst hne h1 h2 fresh), h.parts_iff hidx hne]
    constructor
    · exact fun hends => .inr ⟨h1, h2, hends⟩
    · intro hok
      obtain hnil | ⟨_, _, hends⟩ := hok
      · exact absurd hnil hne
      · exact hends

theorem holds_two : Holds 1 (exactly [[1], [2]]) [[1], [2]] :=
  holds_exactly (by decide) (by decide)

/-- Three arrays that hold the same two elements. -/
def twos (_ : Nat) : DarrayT := exactly [[1], [2]]

theorem darraySplit_iff_two : Splits 1 twos 0 1 2 0 (fun _ => 0) [[1], [2]] := by
  have h : Holds 1 (twos 2) [[1], [2]] := holds_two
  have hdst : 0 ≠ 1 := by decide
  exact (darraySplit_iff h (by decide) hdst _).2
    (.inr ⟨by decide, by decide, .inr ⟨rfl, by decide⟩⟩)

/-- The last of two elements gets lost, and both are in the first result. -/
theorem not_darraySplit : ¬ ∀ (elementSize : Nat) (m : Nat → DarrayT) (dst1 dst2 da idx : Nat)
    (fresh : Nat → UInt8) (xs : List (List UInt8)), Holds elementSize (m da) xs →
      idx ≤ xs.length → dst1 ≠ dst2 → Splits elementSize m dst1 dst2 da idx fresh xs := by
  intro hall
  have h : Holds 1 (twos 2) [[1], [2]] := holds_two
  have hdst : 0 ≠ 1 := by decide
  have hsplits := hall 1 twos 0 1 2 1 (fun _ => 0) _ h (by decide) hdst
  have heq := h.split_eq (show 1 ≤ 2 by decide) hdst (by decide) (by decide) (by decide) fun _ => 0
  exact absurd ((splits_iff_holds hdst heq).1 hsplits).1.num (by decide)

end Split

end BigBox.Darray
