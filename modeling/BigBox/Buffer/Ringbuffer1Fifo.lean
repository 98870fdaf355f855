import BigBox.Buffer.Ringbuffer1
import BigBox.Lib.Block
import Mathlib.Data.Nat.Bitwise

namespace BigBox.Ringbuffer1
set_option autoImplicit true

theorem uint_natCast (n : Nat) : uint n = n % 4294967296 := by
  unfold uint
  omega

theorem int_natCast {n : Nat} (h : n < 2147483648) : int n = n := by
  unfold int
  apply Int.bmod_eq_of_le
  · omega
  · omega

/-- The sizes of a ring buffer and of its items. -/
structure RingBuff.Sized (rb : RingBuff) : Prop where
  power : ∃ k, k ≤ 30 ∧ rb.count = 2 ^ k
  data_length : rb.data.length = rb.count * rb.itemSz
  head_lt : rb.head < 4294967296
  tail_lt : rb.tail < 4294967296

/-- A ring buffer that holds some items. -/
structure RingBuff.Holds (rb : RingBuff) (items : List (List UInt8)) : Prop extends rb.Sized where
  length_le : items.length ≤ rb.count
  head_eq : rb.head = (rb.tail + items.length) % 4294967296
  sizes : ∀ item ∈ items, item.length = rb.itemSz
  bytes : window rb.data (indT rb * rb.itemSz) (items.length * rb.itemSz) = items.flatten

section Sizes
variable {rb : RingBuff} {items : List (List UInt8)}

theorem RingBuff.Sized.count_le (h : rb.Sized) : rb.count ≤ 1073741824 := by
  obtain ⟨k, hk, hcount⟩ := h.power
  rw [hcount]
  exact Nat.pow_le_pow_right (by decide) hk

theorem RingBuff.Sized.count_pos (h : rb.Sized) : 0 < rb.count := by
  obtain ⟨k, _, hcount⟩ := h.power
  rw [hcount]
  exact Nat.two_pow_pos k

theorem RingBuff.Sized.dvd (h : rb.Sized) : rb.count ∣ 4294967296 := by
  obtain ⟨k, hk, hcount⟩ := h.power
  have hpow : (4294967296 : Nat) = 2 ^ 32 := rfl
  rw [hcount, hpow]
  exact Nat.pow_dvd_pow 2 (by omega)

theorem RingBuff.Sized.mask (h : rb.Sized) (n : Nat) : n &&& (rb.count - 1) = n % rb.count := by
  obtain ⟨k, _, hcount⟩ := h.power
  rw [hcount, Nat.and_two_pow_sub_one_eq_mod]

theorem RingBuff.Sized.indH_eq (h : rb.Sized) : indH rb = rb.head % rb.count := h.mask rb.head

theorem RingBuff.Sized.indT_eq (h : rb.Sized) : indT rb = rb.tail % rb.count := h.mask rb.tail

theorem RingBuff.Sized.indH_lt (h : rb.Sized) : indH rb < rb.count := by
  rw [h.indH_eq]
  exact Nat.mod_lt _ h.count_pos

theorem RingBuff.Sized.indT_lt (h : rb.Sized) : indT rb < rb.count := by
  rw [h.indT_eq]
  exact Nat.mod_lt _ h.count_pos

/-- A counter that wraps around keeps its index. -/
theorem RingBuff.Sized.uint_mod (h : rb.Sized) (n m : Nat) :
    uint ((n : Int) + m) % rb.count = (n % rb.count + m) % rb.count := by
  rw [← Nat.cast_add, uint_natCast, Nat.mod_mod_of_dvd _ h.dvd, Nat.mod_add_mod]

theorem RingBuff.Holds.getCount_eq (h : rb.Holds items) : getCount rb = items.length := by
  have hlen := h.length_le
  have hcount := h.count_le
  have htail := h.tail_lt
  have hhead := h.head_eq
  rw [getCount]
  unfold int
  rw [Int.bmod_def]
  omega

theorem RingBuff.Holds.getFree_toNat (h : rb.Holds items) :
    (getFree rb).toNat = rb.count - items.length := by
  rw [getFree, h.getCount_eq]
  omega

/-- The index of the head is behind the stored items. -/
theorem RingBuff.Holds.wraps (h : rb.Holds items) :
    WrapsTo rb.count (indT rb + items.length) (indH rb) := by
  have hlt := h.indT_lt
  have hlen := h.length_le
  have hindex : indH rb = (indT rb + items.length) % rb.count := by
    rw [h.indH_eq, h.head_eq, Nat.mod_mod_of_dvd _ h.dvd, h.indT_eq, Nat.mod_add_mod]
  rcases Nat.lt_or_ge (indT rb + items.length) rb.count with hin | hover
  · rw [Nat.mod_eq_of_lt hin] at hindex
    exact .inl hindex.symm
  · rw [Nat.mod_eq_sub_mod hover, Nat.mod_eq_of_lt (by omega)] at hindex
    exact .inr (by omega)

theorem RingBuff.Holds.wraps_bytes (h : rb.Holds items) :
    WrapsTo rb.data.length (indT rb * rb.itemSz + items.length * rb.itemSz)
      (indH rb * rb.itemSz) := by
  rw [h.data_length, ← Nat.add_mul]
  rcases h.wraps with he | he
  · exact .inl (by rw [he])
  · exact .inr (by rw [he, Nat.add_mul])

theorem RingBuff.Holds.room (h : rb.Holds items) :
    items.length * rb.itemSz ≤ rb.data.length := by
  rw [h.data_length]
  exact Nat.mul_le_mul_right _ h.length_le

end Sizes

section Lists

/-- Two copies one behind the other are one copy. -/
theorem copyAt_append (dst a b : List α) (h : off ≤ dst.length) :
    copyAt dst off (a ++ b) = copyAt (copyAt dst off a) (off + a.length) b := by
  have hfront : (dst.take off ++ a).length = off + a.length := by
    rw [List.length_append, List.length_take, Nat.min_eq_left h]
  have htake : (copyAt dst off a).take (off + a.length) = dst.take off ++ a := by
    rw [copyAt, ← hfront, List.take_left]
  have hdrop : (copyAt dst off a).drop (off + a.length + b.length) =
      dst.drop (off + (a.length + b.length)) := by
    rw [← List.drop_drop, copyAt, ← hfront, List.drop_left, hfront, List.drop_drop, Nat.add_assoc]
  rw [copyAt, copyAt, htake, hdrop, List.length_append, ← List.append_assoc]

end Lists

section Steps
variable {rb : RingBuff} {items new : List (List UInt8)}

theorem offset_eq (h : ind * rb.itemSz < 4294967296) : offset rb ind = ind * rb.itemSz := by
  rw [offset, ← Nat.cast_mul, uint_natCast, Nat.mod_eq_of_lt h]

/-- An item is written into the free space. -/
theorem RingBuff.Holds.written (h : rb.Holds items) (hfree : items.length < rb.count)
    (hitem : item.length = rb.itemSz) (hreach : indH rb * rb.itemSz < 4294967296) :
    (write rb item 1).Holds (items ++ [item]) := by
  have hroom : indH rb * rb.itemSz + item.length ≤ rb.data.length := by
    rw [h.data_length, hitem, ← Nat.succ_mul]
    exact Nat.mul_le_mul_right _ h.indH_lt
  have hover := overlaid_copyAt rb.data hroom
  have hbytes : items.length * rb.itemSz + item.length ≤ rb.data.length := by
    rw [h.data_length, hitem, ← Nat.succ_mul]
    exact Nat.mul_le_mul_right _ hfree
  have hwindow := hover.window_append h.wraps_bytes hbytes
  have hhead : (write rb item 1).head =
      ((write rb item 1).tail + (items ++ [item]).length) % 4294967296 := by
    have hcast : uint ((rb.head : Int) + 1) = (rb.head + 1) % 4294967296 :=
      uint_natCast (rb.head + 1)
    have hlength : (items ++ [item]).length = items.length + 1 := List.length_append
    rw [write, hcast, h.head_eq, hlength, Nat.mod_add_mod, Nat.add_assoc]
  refine ⟨⟨h.power, ?_, ?_, h.tail_lt⟩, ?_, hhead, ?_, ?_⟩
  · rw [write, offset_eq hreach, hover.length_eq]
    exact h.data_length
  · rw [hhead]
    exact Nat.mod_lt _ (by decide)
  · rw [List.length_append]
    exact hfree
  · intro item' hin
    rcases List.mem_append.1 hin with hin | hin
    · exact h.sizes item' hin
    · rw [List.mem_singleton.1 hin]
      exact hitem
  · rw [List.length_append, List.length_singleton, Nat.succ_mul, List.flatten_append,
      List.flatten_singleton, ← h.bytes, ← hwindow, hitem, write, offset_eq hreach]
    rfl

theorem ringBufferInsert_full (h : rb.Holds items) (hfull : items.length = rb.count)
    (item : List UInt8) : ringBufferInsert rb item = (rb, 0) := by
  rw [ringBufferInsert, if_pos]
  rw [h.getCount_eq, hfull]

theorem ringBufferInsert_free (h : rb.Holds items) (hfree : items.length < rb.count)
    (hitem : item.length = rb.itemSz) : ringBufferInsert rb item = (write rb item 1, 1) := by
  rw [ringBufferInsert, if_neg, ← hitem, List.take_length]
  rw [h.getCount_eq]
  omega

theorem indH_write (h : rb.Sized) (bytes : List UInt8) (n : Nat) :
    indH (write rb bytes n) = (indH rb + n) % rb.count := by
  have hmask : indH (write rb bytes n) = uint ((rb.head : Int) + n) % rb.count := h.mask _
  rw [hmask, h.uint_mod, h.indH_eq]

/-- The rest of the items fits behind the first one. -/
theorem InReach.tail (h : rb.Sized) (hreach : InReach rb (indH rb) (n + 1)) (item : List UInt8) :
    InReach (write rb item 1) (indH (write rb item 1)) n := by
  intro i hi
  have hindex : indH (write rb item 1) = (indH rb + 1) % rb.count := indH_write h item 1
  have hnext := hreach (i + 1) (by omega)
  rw [Nat.add_comm i 1, ← Nat.add_assoc] at hnext
  rwa [hindex, write, Nat.mod_add_mod]

theorem InReach.head (h : rb.Sized) (hreach : InReach rb (indH rb) (n + 1)) :
    indH rb * rb.itemSz < 4294967296 := by
  have hzero := hreach 0 (Nat.succ_pos n)
  rwa [Nat.add_zero, Nat.mod_eq_of_lt h.indH_lt] at hzero

/-- Items are inserted one at a time as long as there is room. -/
theorem RingBuff.Holds.inserted (h : rb.Holds items) (hnew : ∀ item ∈ new, item.length = rb.itemSz)
    (hfree : items.length + new.length ≤ rb.count) (hreach : InReach rb (indH rb) new.length) :
    (inserts rb new).1.Holds (items ++ new) ∧ (inserts rb new).1.itemSz = rb.itemSz ∧
      (inserts rb new).1.count = rb.count ∧ (inserts rb new).2.sum = new.length := by
  induction new generalizing rb items with
  | nil =>
    rw [List.append_nil]
    exact ⟨h, rfl, rfl, rfl⟩
  | cons item new ih =>
    rw [List.length_cons] at hfree hreach
    have hitem := hnew item List.mem_cons_self
    have hstep := ringBufferInsert_free h (by omega) hitem
    have hholds := h.written (by omega) hitem (hreach.head h.toSized)
    have hlength : (items ++ [item]).length = items.length + 1 := List.length_append
    obtain ⟨hrest, hsize, hcount, hsum⟩ := ih hholds
      (fun item' hin => hnew item' (List.mem_cons_of_mem _ hin))
      (by rw [hlength]; change items.length + 1 + new.length ≤ rb.count; omega)
      (hreach.tail h.toSized item)
    rw [inserts, run_cons_fst, run_cons_snd, hstep]
    rw [List.append_assoc] at hrest
    refine ⟨hrest, hsize, hcount, ?_⟩
    have hsum' : (inserts (write rb item 1) new).2.sum = (new.length : Int) := hsum
    rw [List.sum_cons, List.length_cons]
    rw [Nat.cast_succ, add_comm]
    exact congrArg (· + 1) hsum'

theorem write_nil (h : rb.Sized) : write rb [] 0 = rb := by
  have hhead : uint ((rb.head : Int) + (0 : Nat)) = rb.head := by
    rw [Nat.cast_zero, Int.add_zero, uint_natCast, Nat.mod_eq_of_lt h.head_lt]
  have hwrite : write rb [] (0 : Nat) = rb := by
    rw [write, copyAt_nil, hhead]
  exact hwrite

theorem write_head (bytes : List UInt8) (n : Nat) :
    uint (((write rb bytes 1).head : Int) + n) = uint ((rb.head : Int) + (n + 1 : Nat)) := by
  have hone : (write rb bytes 1).head = (rb.head + 1) % 4294967296 := uint_natCast (rb.head + 1)
  rw [hone, ← Nat.cast_add, ← Nat.cast_add, uint_natCast, uint_natCast, Nat.mod_add_mod,
    Nat.add_assoc, Nat.add_comm 1]

/-- A segment of items is written like its first item and the others behind it. -/
theorem write_cons (h : rb.Sized) (h' : (write rb item 1).Sized) (hitem : item.length = rb.itemSz)
    (hreach : InReach rb (indH rb) (new.length + 1))
    (hend : indH rb + (new.length + 1) ≤ rb.count) :
    write rb (item ++ new.flatten) (new.length + 1 : Nat) =
      write (write rb item 1) new.flatten new.length := by
  have hoffset := offset_eq (hreach.head h)
  have hinside : indH rb * rb.itemSz ≤ rb.data.length := by
    rw [h.data_length]
    exact Nat.mul_le_mul_right _ (Nat.le_of_lt h.indH_lt)
  have hdata : copyAt rb.data (indH rb * rb.itemSz) (item ++ new.flatten) =
      copyAt (copyAt rb.data (indH rb * rb.itemSz) item)
        (offset (write rb item 1) (indH (write rb item 1))) new.flatten := by
    cases new with
    | nil => rw [List.flatten_nil, List.append_nil, copyAt_nil]
    | cons next new =>
      have hindex : indH (write rb item 1) = indH rb + 1 := by
        have hmod : indH (write rb item 1) = (indH rb + 1) % rb.count := indH_write h item 1
        rw [List.length_cons] at hend
        rwa [Nat.mod_eq_of_lt (by omega)] at hmod
      have hnext := InReach.head h' (hreach.tail h item)
      have hsize : (write rb item 1).itemSz = rb.itemSz := rfl
      rw [offset_eq hnext, hindex, hsize, copyAt_append _ _ _ hinside, hitem, Nat.succ_mul]
  have hhead : uint (((write rb item 1).head : Int) + new.length) =
      uint ((rb.head : Int) + (new.length + 1 : Nat)) := write_head item new.length
  rw [write, hoffset, hdata, ← hhead, ← hoffset]
  rfl

/-- A segment that does not pass the end of the buffer is written item by item. -/
theorem write_eq_inserts (h : rb.Holds items) (hnew : ∀ item ∈ new, item.length = rb.itemSz)
    (hfree : items.length + new.length ≤ rb.count) (hreach : InReach rb (indH rb) new.length)
    (hend : indH rb + new.length ≤ rb.count) :
    write rb new.flatten new.length = (inserts rb new).1 := by
  induction new generalizing rb items with
  | nil => exact write_nil h.toSized
  | cons item new ih =>
    rw [List.length_cons] at hfree hreach hend
    have hitem := hnew item List.mem_cons_self
    have hstep := ringBufferInsert_free h (by omega) hitem
    have hholds := h.written (by omega) hitem (hreach.head h.toSized)
    have hlength : (items ++ [item]).length = items.length + 1 := List.length_append
    have hrest := hreach.tail h.toSized item
    rw [inserts, run_cons_fst, hstep, List.flatten_cons, List.length_cons,
      write_cons h.toSized hholds.toSized hitem hreach hend]
    cases new with
    | nil => exact write_nil hholds.toSized
    | cons next new =>
      have hindex : indH (write rb item 1) = indH rb + 1 := by
        have hmod : indH (write rb item 1) = (indH rb + 1) % rb.count := indH_write h.toSized item 1
        rw [List.length_cons] at hend
        rwa [Nat.mod_eq_of_lt (by omega)] at hmod
      apply ih hholds (fun item' hin => hnew item' (List.mem_cons_of_mem _ hin)) _ hrest
      · rw [hindex]
        change indH rb + 1 + (new.length + 1) ≤ rb.count
        rw [List.length_cons] at hend
        omega
      · rw [hlength]
        change items.length + 1 + (new.length + 1) ≤ rb.count
        rw [List.length_cons] at hfree
        omega

theorem InReach.mono (h : InReach rb ind n) (hle : m ≤ n) : InReach rb ind m :=
  fun i hi => h i (Nat.lt_of_lt_of_le hi hle)

theorem byteCount_some (h : n * rb.itemSz < 2147483648) :
    byteCount rb n = some (n * rb.itemSz) := by
  rw [byteCount, ← Nat.cast_mul, if_pos, Int.toNat_natCast]
  exact ⟨Int.natCast_nonneg _, by omega⟩

/-- The items up to the end of the buffer, and the others. -/
theorem segments_eq (h : rb.Sized) (hind : ind < rb.count) (hn : n ≤ rb.count) (num : Nat) :
    segments rb n ind num =
      (((min (min num n) (rb.count - ind) : Nat) : Int),
        ((min num n - (rb.count - ind) : Nat) : Int)) := by
  have hcount := h.count_le
  have hsum : uint ((ind : Int) + n) = ind + n := by
    rw [← Nat.cast_add, uint_natCast, Nat.mod_eq_of_lt (by omega)]
  have hroom : int ((rb.count : Int) - ind) = (rb.count - ind : Nat) := by
    rw [← Nat.cast_sub (Nat.le_of_lt hind), int_natCast (by omega)]
  rw [segments, hsum, hroom]
  apply Prod.ext
  · dsimp only
    split
    case isTrue => omega
    case isFalse => omega
  · dsimp only
    split
    case isTrue => omega
    case isFalse => omega

theorem inserts_append (rb : RingBuff) (front back : List (List UInt8)) :
    (inserts rb (front ++ back)).1 = (inserts (inserts rb front).1 back).1 :=
  run_append_fst _ rb front back

/-- Two segments, up to the end of the buffer and from its start on, are written item by item. -/
theorem write_segments (h : rb.Holds items) (hnew : ∀ item ∈ new, item.length = rb.itemSz)
    (hfree : items.length + new.length ≤ rb.count) (hreach : InReach rb (indH rb) new.length) :
    write (write rb (new.take (rb.count - indH rb)).flatten
        (min new.length (rb.count - indH rb) : Nat))
      (new.drop (rb.count - indH rb)).flatten (new.length - (rb.count - indH rb) : Nat) =
        (inserts rb new).1 := by
  have hlt := h.indH_lt
  generalize hroom : rb.count - indH rb = room
  have hfront : (new.take room).length = min new.length room := by
    rw [List.length_take, Nat.min_comm]
  have hback : (new.drop room).length = new.length - room := List.length_drop
  have hsizes : ∀ item ∈ new.take room, item.length = rb.itemSz :=
    fun item hin => hnew item (List.mem_of_mem_take hin)
  have hreach' := hreach.mono (Nat.min_le_left new.length room)
  rw [← hfront] at hreach'
  obtain ⟨hheld, hsize, hcount, _⟩ := h.inserted hsizes (by rw [hfront]; omega) hreach'
  have hwrite := write_eq_inserts h hsizes (by rw [hfront]; omega) hreach' (by rw [hfront]; omega)
  rw [hfront] at hwrite
  have hindex : indH (inserts rb (new.take room)).1 =
      (indH rb + min new.length room) % rb.count := by
    rw [← hwrite, indH_write h.toSized]
  have hlt' := hheld.indH_lt
  have hend : indH (inserts rb (new.take room)).1 + (new.drop room).length ≤
      (inserts rb (new.take room)).1.count := by
    rw [hcount] at hlt' ⊢
    rw [hback]
    rcases Nat.le_total new.length room with hle | hle
    · omega
    · have hzero : indH rb + min new.length room = rb.count := by omega
      rw [hindex, hzero, Nat.mod_self]
      omega
  have hbehind : InReach (inserts rb (new.take room)).1 (indH (inserts rb (new.take room)).1)
      (new.drop room).length := by
    intro i hi
    rw [hback] at hi
    have hat := hreach (min new.length room + i) (by omega)
    rwa [hindex, hcount, hsize, Nat.mod_add_mod, Nat.add_assoc]
  have hwrite' := write_eq_inserts hheld
    (fun item hin => (hnew item (List.mem_of_mem_drop hin)).trans hsize.symm)
    (by rw [hcount, hback, List.length_append, hfront]; omega) hbehind hend
  rw [hback, ← inserts_append, List.take_append_drop] at hwrite'
  rw [hwrite, hwrite']

theorem take_take_eq (new : List α) (free room : Nat) :
    new.take (min (min new.length free) room) = (new.take free).take room := by
  rw [List.take_take, List.take_eq_take_iff]
  omega

theorem drop_take_eq (new : List α) (free room : Nat) :
    (new.drop (min (min new.length free) room)).take (min new.length free - room) =
      (new.take free).drop room := by
  rw [List.drop_take]
  rcases Nat.le_total (min new.length free) room with hle | hle
  · have hnil : new.length ≤ room ∨ free ≤ room := by omega
    rw [Nat.sub_eq_zero_of_le hle, List.take_zero]
    symm
    rw [List.take_eq_nil_iff, List.drop_eq_nil_iff]
    omega
  · rw [Nat.min_eq_right hle, List.take_eq_take_iff, List.length_drop]
    omega

theorem insertMult_some {cnt₁ cnt₂ num : Int} (hfree : ¬ (rb.count : Int) ≤ getCount rb)
    (hsegments : segments rb (getFree rb) (indH rb) num = (cnt₁, cnt₂))
    (h₁ : byteCount rb cnt₁ = some n₁) (h₂ : byteCount rb cnt₂ = some n₂) (data : List UInt8) :
    ringBufferInsertMult rb data num =
      some (write (write rb (data.take n₁) cnt₁) ((data.drop n₁).take n₂) cnt₂, cnt₁ + cnt₂) := by
  rw [ringBufferInsertMult, if_neg hfree, hsegments]
  dsimp only
  rw [h₁, h₂]
  rfl

theorem RingBuff.Holds.insertMult (h : rb.Holds items)
    (hnew : ∀ item ∈ new, item.length = rb.itemSz) (hfits : (Call.insertMult new).Fits rb) :
    (Call.insertMult new).ItemWise rb := by
  rw [Call.ItemWise]
  rcases Nat.eq_or_lt_of_le h.length_le with hfull | hfree
  · rw [h.getFree_toNat, hfull, Nat.sub_self, List.take_zero, ringBufferInsertMult, if_pos]
    · rfl
    · rw [h.getCount_eq, hfull]
  · obtain ⟨hreach, hfirst, hsecond⟩ := hfits
    rw [h.getFree_toNat] at hreach hfirst hsecond ⊢
    have hlength : (new.take (rb.count - items.length)).length =
        min new.length (rb.count - items.length) := by
      rw [List.length_take, Nat.min_comm]
    have hsizes : ∀ item ∈ new.take (rb.count - items.length), item.length = rb.itemSz :=
      fun item hin => hnew item (List.mem_of_mem_take hin)
    have hroom : items.length + (new.take (rb.count - items.length)).length ≤ rb.count := by
      omega
    rw [← hlength] at hreach
    obtain ⟨_, _, _, hsum⟩ := h.inserted hsizes hroom hreach
    have hwrite := write_segments h hsizes hroom hreach
    have hsegments := segments_eq h.toSized h.indH_lt (Nat.sub_le rb.count items.length) new.length
    have hfree' : getFree rb = (rb.count - items.length : Nat) := by
      rw [getFree, h.getCount_eq, Nat.cast_sub h.length_le]
    rw [← hfree'] at hsegments
    have hsizes' : ∀ n, ∀ item ∈ new.drop n, item.length = rb.itemSz :=
      fun n item hin => hnew item (List.mem_of_mem_drop hin)
    rw [insertMult_some (by rw [h.getCount_eq]; omega) hsegments (byteCount_some hfirst)
      (byteCount_some hsecond), take_flatten hnew, drop_flatten hnew, take_flatten (hsizes' _),
      take_take_eq, drop_take_eq, ← hlength, hwrite, hsum, ← Nat.cast_add]
    congr 3
    omega

/-- Inserting items appends those there is room for. -/
theorem RingBuff.Holds.inserts_holds (h : rb.Holds items)
    (hnew : ∀ item ∈ new, item.length = rb.itemSz)
    (hreach : InReach rb (indH rb) (min new.length (getFree rb).toNat)) :
    (inserts rb (new.take (getFree rb).toNat)).1.Holds
        (items ++ new.take (rb.count - items.length)) ∧
      (inserts rb (new.take (getFree rb).toNat)).1.itemSz = rb.itemSz ∧
      (inserts rb (new.take (getFree rb).toNat)).1.count = rb.count ∧
      (inserts rb (new.take (getFree rb).toNat)).2.sum =
        (min new.length (rb.count - items.length) : Nat) := by
  have hlen := h.length_le
  rw [h.getFree_toNat] at hreach ⊢
  have hlength : (new.take (rb.count - items.length)).length =
      min new.length (rb.count - items.length) := by
    rw [List.length_take, Nat.min_comm]
  rw [← hlength] at hreach ⊢
  exact h.inserted (fun item hin => hnew item (List.mem_of_mem_take hin)) (by omega) hreach

end Steps

section Pops
variable {rb : RingBuff} {items : List (List UInt8)}

/-- The tail moves past the oldest items. -/
theorem RingBuff.Holds.advance (h : rb.Holds items) (hn : n ≤ items.length) :
    RingBuff.Holds { rb with tail := uint ((rb.tail : Int) + n) } (items.drop n) := by
  have htail : uint ((rb.tail : Int) + n) = (rb.tail + n) % 4294967296 := by
    rw [← Nat.cast_add, uint_natCast]
  have hlen := h.length_le
  have hindex : indT { rb with tail := uint ((rb.tail : Int) + n) } = (indT rb + n) % rb.count := by
    have hmask : indT { rb with tail := uint ((rb.tail : Int) + n) } =
        uint ((rb.tail : Int) + n) % rb.count := h.mask _
    rw [hmask, h.uint_mod, h.indT_eq]
  have hwraps : WrapsTo rb.data.length (indT rb * rb.itemSz + n * rb.itemSz)
      ((indT rb + n) % rb.count * rb.itemSz) := by
    have hlt := h.indT_lt
    rw [h.data_length, ← Nat.add_mul]
    rcases Nat.lt_or_ge (indT rb + n) rb.count with hin | hover
    · rw [Nat.mod_eq_of_lt hin]
      exact .inl rfl
    · rw [Nat.mod_eq_sub_mod hover, Nat.mod_eq_of_lt (by omega)]
      exact .inr (by rw [← Nat.add_mul, Nat.sub_add_cancel hover])
  have hbytes := window_drop rb.data (Nat.mul_le_mul_right rb.itemSz hn) h.room hwraps
  refine ⟨⟨h.power, h.data_length, h.head_lt, ?_⟩, ?_, ?_, ?_, ?_⟩
  · rw [htail]
    exact Nat.mod_lt _ (by decide)
  · rw [List.length_drop]
    exact Nat.le_trans (Nat.sub_le _ _) hlen
  · have hhead := h.head_eq
    rw [List.length_drop]
    dsimp only
    rw [htail, hhead, Nat.mod_add_mod, Nat.add_assoc, Nat.add_sub_cancel' hn]
  · exact fun item hin => h.sizes item (List.mem_of_mem_drop hin)
  · rw [List.length_drop, Nat.sub_mul, hindex, ← hbytes, h.bytes, drop_flatten h.sizes]

/-- A segment that does not pass the end of the buffer delivers the oldest items. -/
theorem RingBuff.Holds.delivers (h : rb.Holds items) (hn : n ≤ items.length)
    (hend : indT rb + n ≤ rb.count) (hreach : indT rb * rb.itemSz < 4294967296) :
    (rb.data.drop (offset rb (indT rb))).take (n * rb.itemSz) = (items.take n).flatten := by
  have hle : indT rb * rb.itemSz + n * rb.itemSz ≤ rb.data.length := by
    rw [h.data_length, ← Nat.add_mul]
    exact Nat.mul_le_mul_right _ hend
  rw [offset_eq hreach, ← window_eq_slice _ hle, ← window_take _ _ (Nat.mul_le_mul_right _ hn),
    h.bytes, take_flatten h.sizes]

theorem RingBuff.Holds.ne_of_pos (h : rb.Holds items) (hpos : 0 < items.length) :
    rb.head ≠ rb.tail := by
  have hcount := h.count_le
  have hlen := h.length_le
  have htail := h.tail_lt
  have hhead := h.head_eq
  omega

theorem RingBuff.Holds.eq_of_nil (h : rb.Holds []) : rb.head = rb.tail := by
  rw [h.head_eq, List.length_nil, Nat.add_zero, Nat.mod_eq_of_lt h.tail_lt]

theorem InReach.tail_head (h : rb.Sized) (hreach : InReach rb (indT rb) (n + 1)) :
    indT rb * rb.itemSz < 4294967296 := by
  have hzero := hreach 0 (Nat.succ_pos n)
  rwa [Nat.add_zero, Nat.mod_eq_of_lt h.indT_lt] at hzero

theorem indT_advance (h : rb.Sized) (n : Nat) :
    indT { rb with tail := uint ((rb.tail : Int) + n) } = (indT rb + n) % rb.count := by
  have hmask : indT { rb with tail := uint ((rb.tail : Int) + n) } =
      uint ((rb.tail : Int) + n) % rb.count := h.mask _
  rw [hmask, h.uint_mod, h.indT_eq]

theorem advance_advance (rb : RingBuff) (m n : Nat) :
    uint ((uint ((rb.tail : Int) + m) : Int) + n) = uint ((rb.tail : Int) + (m + n : Nat)) := by
  rw [← Nat.cast_add, ← Nat.cast_add, uint_natCast, ← Nat.cast_add, uint_natCast, uint_natCast,
    Nat.mod_add_mod, Nat.add_assoc]

theorem ringBufferPop_cons (h : rb.Holds (item :: items))
    (hreach : indT rb * rb.itemSz < 4294967296) :
    ringBufferPop rb = ({ rb with tail := uint ((rb.tail : Int) + (1 : Nat)) }, 1, item) := by
  have hlt := h.indT_lt
  have hread := h.delivers (n := 1) (by rw [List.length_cons]; omega) (by omega) hreach
  rw [Nat.one_mul, List.take_succ_cons, List.take_zero, List.flatten_singleton] at hread
  rw [ringBufferPop, if_neg (h.ne_of_pos (Nat.succ_pos _)), read, hread]
  rfl

/-- Items are popped one at a time, the oldest first. -/
theorem RingBuff.Holds.popped (h : rb.Holds items) (hn : n ≤ items.length)
    (hreach : InReach rb (indT rb) n) :
    pops rb n = ({ rb with tail := uint ((rb.tail : Int) + n) },
      (items.take n).map fun item => (1, item)) := by
  induction n generalizing rb items with
  | zero =>
    have hzero : uint ((rb.tail : Int) + (0 : Nat)) = rb.tail := by
      rw [Nat.cast_zero, Int.add_zero, uint_natCast, Nat.mod_eq_of_lt h.tail_lt]
    rw [hzero]
    rfl
  | succ n ih =>
    cases items with
    | nil => cases hn
    | cons item items =>
      have hpop := ringBufferPop_cons h (hreach.tail_head h.toSized)
      have hholds := h.advance (n := 1) (by rw [List.length_cons]; omega)
      have hbehind : InReach { rb with tail := uint ((rb.tail : Int) + (1 : Nat)) }
          (indT { rb with tail := uint ((rb.tail : Int) + (1 : Nat)) }) n := by
        intro i hi
        have hat := hreach (1 + i) (by omega)
        rwa [indT_advance h.toSized, Nat.mod_add_mod, Nat.add_assoc]
      have hrest := ih hholds (Nat.le_of_succ_le_succ hn) hbehind
      apply Prod.ext
      · rw [pops, List.replicate_succ, run_cons_fst, hpop]
        refine (congrArg Prod.fst hrest).trans ?_
        dsimp only
        rw [advance_advance, Nat.add_comm 1]
      · rw [pops, List.replicate_succ, run_cons_snd, hpop]
        exact congrArg (_ :: ·) (congrArg Prod.snd hrest)

theorem popMult_some {cnt₁ cnt₂ num : Int} (hne : rb.head ≠ rb.tail)
    (hsegments : segments rb (getCount rb) (indT rb) num = (cnt₁, cnt₂))
    (h₁ : byteCount rb cnt₁ = some n₁) (h₂ : byteCount rb cnt₂ = some n₂) :
    ringBufferPopMult rb num = some
      ((read (read rb n₁ cnt₁).1 n₂ cnt₂).1, cnt₁ + cnt₂,
        (read rb n₁ cnt₁).2 ++ (read (read rb n₁ cnt₁).1 n₂ cnt₂).2) := by
  rw [ringBufferPopMult, if_neg hne, hsegments]
  dsimp only
  rw [h₁, h₂]
  rfl

/-- Two segments, up to the end of the buffer and from its start on, deliver the oldest items. -/
theorem RingBuff.Holds.read_segments (h : rb.Holds items) (hn : n ≤ items.length)
    (hreach : InReach rb (indT rb) n) :
    (read rb (min n (rb.count - indT rb) * rb.itemSz) (min n (rb.count - indT rb) : Nat)).2 ++
      (read (read rb (min n (rb.count - indT rb) * rb.itemSz)
        (min n (rb.count - indT rb) : Nat)).1 ((n - (rb.count - indT rb)) * rb.itemSz)
          (n - (rb.count - indT rb) : Nat)).2 = (items.take n).flatten := by
  have hlt := h.indT_lt
  generalize hroom : rb.count - indT rb = room
  have hcut : min n room ≤ items.length := by omega
  have hholds := h.advance hcut
  have hfirst : (rb.data.drop (offset rb (indT rb))).take (min n room * rb.itemSz) =
      (items.take (min n room)).flatten := by
    cases n with
    | zero => rw [Nat.zero_min, Nat.zero_mul, List.take_zero, List.take_zero, List.flatten_nil]
    | succ n => exact h.delivers hcut (by omega) (hreach.tail_head h.toSized)
  have hsplit : items.take n =
      items.take (min n room) ++ (items.drop (min n room)).take (n - room) := by
    rw [← List.take_add]
    congr 1
    omega
  rw [hsplit, List.flatten_append, ← hfirst, read, read]
  congr 1
  rcases Nat.le_total n room with hle | hle
  · rw [Nat.sub_eq_zero_of_le hle, Nat.zero_mul, List.take_zero, List.take_zero, List.flatten_nil]
  · have hindex := indT_advance h.toSized (min n room)
    have hzero : indT rb + min n room = rb.count := by omega
    rw [hzero, Nat.mod_self] at hindex
    have hcount := h.length_le
    have hread := hholds.delivers (n := n - room) (by rw [List.length_drop]; omega)
      (by rw [hindex]; dsimp only; omega) (by rw [hindex]; omega)
    exact hread

theorem sum_replies (items : List (List UInt8)) :
    ((items.map fun item => ((1, item) : Int × List UInt8)).map Prod.fst).sum = items.length := by
  induction items with
  | nil => rfl
  | cons item items ih =>
    rw [List.map_cons, List.map_cons, List.sum_cons, ih, List.length_cons, Nat.cast_succ, add_comm]

theorem flatten_replies (items : List (List UInt8)) :
    ((items.map fun item => ((1, item) : Int × List UInt8)).map Prod.snd).flatten =
      items.flatten := by
  rw [List.map_map]
  exact congrArg List.flatten (List.map_id items)

theorem RingBuff.Holds.popMult (h : rb.Holds items) (hfits : (Call.popMult num).Fits rb) :
    (Call.popMult num).ItemWise rb := by
  obtain ⟨hreach, hfirst, hsecond⟩ := hfits
  have hcount : getCount rb = (items.length : Nat) := h.getCount_eq
  rw [hcount, Int.toNat_natCast] at hreach hfirst hsecond
  have hn : min num items.length ≤ items.length := Nat.min_le_right _ _
  have hlength : (items.take (min num items.length)).length = min num items.length := by
    rw [List.length_take, Nat.min_eq_left hn]
  rw [Call.ItemWise, hcount, Int.toNat_natCast, h.popped hn hreach]
  dsimp only
  rw [sum_replies, flatten_replies, hlength]
  cases items with
  | nil =>
    have hzero : uint ((rb.tail : Int) + (0 : Nat)) = rb.tail := by
      rw [Nat.cast_zero, Int.add_zero, uint_natCast, Nat.mod_eq_of_lt h.tail_lt]
    rw [ringBufferPopMult, if_pos h.eq_of_nil, List.length_nil, Nat.min_zero, hzero]
    rfl
  | cons item items =>
    have hsegments := segments_eq h.toSized h.indT_lt h.length_le num
    rw [← hcount] at hsegments
    have hcut : min (min num (item :: items).length) (rb.count - indT rb) +
        (min num (item :: items).length - (rb.count - indT rb)) =
          min num (item :: items).length := by
      omega
    have hsum := congrArg (Nat.cast : Nat → Int) hcut
    rw [Nat.cast_add] at hsum
    rw [popMult_some (h.ne_of_pos (Nat.succ_pos _)) hsegments (byteCount_some hfirst)
      (byteCount_some hsecond), h.read_segments hn hreach, read, read]
    dsimp only
    rw [advance_advance, hcut, hsum]

end Pops

end BigBox.Ringbuffer1
