import BigBox.Lib.Block
import BigBox.Lib.CInt
import BigBox.Lib.CString
import BigBox.Lib.Loop
import BigBox.Lib.TryRun

namespace BigBox.Membuf
open Loop
set_option autoImplicit true

/-- A `membuf_t` with the bytes of its block. -/
structure MembufT where
  data : List UInt8
  size : Nat
  buffer_size : Nat
  uses_local_buffer : Bool

/-- The difference of two `unsigned int`. -/
def minus (a b : Nat) : Nat := unsigned (a + 4294967296 - b)

def membufInit (fresh : Nat → UInt8) (initial_buffer_size : Nat) : MembufT :=
  ⟨Block.realloc [] fresh initial_buffer_size, 0, initial_buffer_size, false⟩

def membufInitLocal (local_buffer : List UInt8) : MembufT :=
  ⟨local_buffer, 0, local_buffer.length, true⟩

/-- A round of the loop of `membuf_reserve`. -/
def growRound (new_data_size new_buffer_size : Nat) : Option (Round Nat Nat) :=
  if new_buffer_size < new_data_size then some (.next (unsigned (new_buffer_size * 2)))
  else some (.done new_buffer_size)

/-- The loop is over after 33 rounds, or never. -/
def grown (new_data_size new_buffer_size : Nat) : Option Nat :=
  iterate (growRound new_data_size) 33 new_buffer_size

/-- `fresh` are the bytes of new memory. -/
def membufReserve (fresh : Nat → UInt8) (buf : MembufT) (extra_size : Nat) : Option MembufT :=
  if minus buf.buffer_size buf.size < extra_size then do
    let new_buffer_size :=
      if buf.buffer_size = 0 then extra_size else unsigned (buf.buffer_size * 2)
    let new_data_size := unsigned (buf.size + extra_size)
    let new_buffer_size ← grown new_data_size new_buffer_size
    if buf.uses_local_buffer then do
      let bytes ← Block.read buf.data 0 buf.size
      let data ← Block.write (Block.realloc [] fresh new_buffer_size) 0 bytes
      return ⟨data, buf.size, new_buffer_size, false⟩
    else
      return ⟨Block.realloc buf.data fresh new_buffer_size, buf.size, new_buffer_size, false⟩
  else some buf

/-- A failed assertion has no result. -/
def membufAppendData (fresh : Nat → UInt8) (buf : MembufT) (data : List UInt8) :
    Option (Nat × MembufT) := do
  if data.length = 0 then none
  else
    let buf ← membufReserve fresh buf data.length
    let block ← Block.write buf.data buf.size data
    let size := unsigned (buf.size + data.length)
    return (minus size data.length, { buf with data := block, size })

def membufAppendZeros (fresh : Nat → UInt8) (buf : MembufT) (n : Nat) : Option (Nat × MembufT) := do
  let buf ← membufReserve fresh buf n
  let block ← Block.write buf.data buf.size (List.replicate n 0)
  let size := unsigned (buf.size + n)
  return (minus size n, { buf with data := block, size })

def strlen (str : List UInt8) : Option Nat :=
  if 0 ∈ str then some (cString str).length else none

/-- `(unsigned int) -1` stands for the length of the string. -/
def textLength (str : List UInt8) (len : Nat) : Option Nat :=
  if len = 4294967295 then (strlen str).map unsigned else some len

def membufAppendTextZero (fresh : Nat → UInt8) (buf : MembufT) (str : List UInt8) (len : Nat) :
    Option (Nat × MembufT) := do
  let len ← textLength str len
  let buf ← membufReserve fresh buf (unsigned (len + 1))
  let text ← Block.read str 0 len
  let (offset, buf) ← membufAppendData fresh buf text
  let (_, buf) ← membufAppendZeros fresh buf 1
  return (offset, buf)

def membufInsert (fresh : Nat → UInt8) (buf : MembufT) (offset : Nat) (data : List UInt8) :
    Option MembufT := do
  if offset < buf.size then
    let buf ← membufReserve fresh buf data.length
    let block ← Block.memcpy buf.data (offset + data.length) offset (minus buf.size offset)
    let block ← Block.write block offset data
    return { buf with data := block, size := unsigned (buf.size + data.length) }
  else none

def membufRemove (buf : MembufT) (offset size : Nat) : Option MembufT := do
  if offset < buf.size then
    if buf.size ≤ unsigned (offset + size) then some { buf with size := offset }
    else
      let block ← Block.move buf.data offset (offset + size) (minus (minus buf.size offset) size)
      return { buf with data := block, size := minus buf.size size }
  else none

/-- The text in use. -/
def MembufT.contents (buf : MembufT) : List UInt8 := buf.data.take buf.size

inductive Call where
  | appendData (data : List UInt8)
  | appendTextZero (str : List UInt8) (len : Nat)
  | insert (offset : Nat) (data : List UInt8)
  | remove (offset size : Nat)

/-- A call with the bytes of the memory it may get. What is seen of it is the offset it returns and
the contents. -/
def MembufT.step (buf : MembufT) :
    (Nat → UInt8) × Call → Option (MembufT × Option Nat × List UInt8)
  | (fresh, .appendData data) =>
    (membufAppendData fresh buf data).map fun r => (r.2, some r.1, r.2.contents)
  | (fresh, .appendTextZero str len) =>
    (membufAppendTextZero fresh buf str len).map fun r => (r.2, some r.1, r.2.contents)
  | (fresh, .insert offset data) =>
    (membufInsert fresh buf offset data).map fun buf => (buf, none, buf.contents)
  | (_, .remove offset size) =>
    (membufRemove buf offset size).map fun buf => (buf, none, buf.contents)

open Loop
set_option autoImplicit true

/-- The contents and the room of a buffer. -/
structure Bytes where
  contents : List UInt8
  capacity : Nat

/-- The room is enough, or doubling it, less multiples of 2 ^ 32, comes to enough. -/
def Growable (capacity need : Nat) : Prop :=
  need ≤ capacity ∨ capacity = 0 ∨ ∃ k < 32, need ≤ unsigned (capacity * 2 ^ (k + 1))

def reserved (capacity need : Nat) : Nat :=
  if need ≤ capacity then capacity
  else (grown need (if capacity = 0 then need else unsigned (capacity * 2))).getD capacity

theorem reserved_of_le (h : need ≤ capacity) : reserved capacity need = capacity :=
  if_pos h

section Grow
variable {capacity need n m : Nat}

theorem growRound_next (h : n < need) :
    growRound need n = some (.next (unsigned (n * 2))) :=
  if_pos h

theorem growRound_done (h : need ≤ n) : growRound need n = some (.done n) :=
  if_neg (Nat.not_lt_of_le h)

theorem unsigned_double (n k : Nat) :
    unsigned (unsigned (n * 2) * 2 ^ k) = unsigned (n * 2 ^ (k + 1)) := by
  unfold unsigned
  rw [Nat.mod_mul_mod, Nat.mul_assoc, Nat.pow_succ']

theorem iterate_grow (h : iterate (growRound need) fuel n = some m) :
    need ≤ m ∧ ∃ k < fuel, m = if k = 0 then n else unsigned (n * 2 ^ k) := by
  induction fuel generalizing n with
  | zero => cases h
  | succ fuel ih =>
    by_cases hlt : n < need
    · rw [iterate_next (growRound_next hlt)] at h
      obtain ⟨hle, k, hk, rfl⟩ := ih h
      refine ⟨hle, k + 1, Nat.succ_lt_succ hk, ?_⟩
      rw [if_neg (Nat.succ_ne_zero k)]
      split
      · next hzero => rw [hzero, Nat.pow_one]
      · exact unsigned_double n k
    · rw [iterate_done (growRound_done (Nat.le_of_not_lt hlt))] at h
      cases h
      exact ⟨Nat.le_of_not_lt hlt, 0, Nat.succ_pos fuel, (if_pos rfl).symm⟩

theorem exists_iterate_grow (h : need ≤ unsigned (n * 2 ^ k)) (hn : n < 4294967296)
    (hk : k < fuel) : ∃ m, iterate (growRound need) fuel n = some m := by
  induction k generalizing n fuel with
  | zero =>
    obtain ⟨fuel, rfl⟩ := Nat.exists_eq_succ_of_ne_zero (Nat.ne_of_gt hk)
    rw [Nat.pow_zero, Nat.mul_one, unsigned_of_lt hn] at h
    exact ⟨n, iterate_done (growRound_done h) fuel⟩
  | succ k ih =>
    obtain ⟨fuel, rfl⟩ := Nat.exists_eq_succ_of_ne_zero (Nat.ne_of_gt (Nat.zero_lt_of_lt hk))
    by_cases hlt : n < need
    · rw [← unsigned_double] at h
      obtain ⟨m, hm⟩ := ih h (unsigned_lt _) (Nat.lt_of_succ_lt_succ hk)
      exact ⟨m, (iterate_next (growRound_next hlt) fuel).trans hm⟩
    · exact ⟨n, iterate_done (growRound_done (Nat.le_of_not_lt hlt)) fuel⟩

theorem unsigned_two_pow (n j : Nat) : unsigned (n * 2 ^ (32 + j)) = 0 := by
  unfold unsigned
  rw [Nat.pow_add, ← Nat.mul_assoc, Nat.mul_right_comm]
  exact Nat.mul_mod_left _ _

/-- The loop that a growing buffer starts is over just when the room is growable. -/
theorem grown_iff (hneed : capacity < need) (hmax : need < 4294967296) :
    (∃ m, grown need (if capacity = 0 then need else unsigned (capacity * 2)) = some m ∧
      need ≤ m ∧ m < 4294967296) ↔ Growable capacity need := by
  by_cases hzero : capacity = 0
  · rw [if_pos hzero]
    exact iff_of_true ⟨need, iterate_done (growRound_done (Nat.le_refl need)) 32, Nat.le_refl _,
      hmax⟩ (.inr (.inl hzero))
  · rw [if_neg hzero]
    constructor
    · rintro ⟨m, hm, _, _⟩
      obtain ⟨hle, k, hk, rfl⟩ := iterate_grow hm
      have hle' : need ≤ unsigned (capacity * 2 ^ (k + 1)) := by
        split at hle
        · next hk => rwa [hk, Nat.zero_add, Nat.pow_one]
        · rwa [unsigned_double] at hle
      refine .inr (.inr ⟨k, ?_, hle'⟩)
      by_contra hbig
      have hk32 : k + 1 = 32 + 1 := by omega
      rw [hk32, unsigned_two_pow] at hle'
      omega
    · rintro (hle | hz | ⟨k, hk, hle⟩)
      · exact absurd hle (Nat.not_le_of_lt hneed)
      · exact absurd hz hzero
      · rw [← unsigned_double] at hle
        obtain ⟨m, hm⟩ := exists_iterate_grow hle (unsigned_lt _) (Nat.lt_succ_of_lt hk)
        obtain ⟨hneed, j, _, rfl⟩ := iterate_grow hm
        refine ⟨_, hm, hneed, ?_⟩
        split
        · exact unsigned_lt _
        · exact unsigned_lt _

end Grow

/-- The text that is given. -/
def textOf (str : List UInt8) (len : Nat) : List UInt8 :=
  if len = 4294967295 then cString str else str.take len

def Bytes.next (t : Bytes) : Call → Bytes
  | .appendData data =>
    ⟨t.contents ++ data, reserved t.capacity (t.contents.length + data.length)⟩
  | .appendTextZero str len =>
    ⟨t.contents ++ textOf str len ++ [0],
      reserved t.capacity (t.contents.length + ((textOf str len).length + 1))⟩
  | .insert offset data =>
    ⟨t.contents.take offset ++ data ++ t.contents.drop offset,
      reserved t.capacity (t.contents.length + data.length)⟩
  | .remove offset size => ⟨t.contents.take offset ++ t.contents.drop (offset + size), t.capacity⟩

/-- The offset of what is appended. -/
def Bytes.returned (t : Bytes) : Call → Option Nat
  | .appendData _ | .appendTextZero _ _ => some t.contents.length
  | .insert _ _ | .remove _ _ => none

def spec (t : Bytes) (call : (Nat → UInt8) × Call) : Bytes × Option Nat × List UInt8 :=
  (t.next call.2, t.returned call.2, (t.next call.2).contents)

/-- The contents stay below 2 ^ 32 bytes, offsets are inside of them, and what is given can be
read. -/
def Call.Valid (t : Bytes) : Call → Prop
  | .appendData data => t.contents.length + data.length < 4294967296
  | .appendTextZero str len =>
    (if len = 4294967295 then 0 ∈ str else len ≤ str.length) ∧
      t.contents.length + ((textOf str len).length + 1) < 4294967296
  | .insert offset data =>
    offset < t.contents.length ∧ t.contents.length + data.length < 4294967296
  | .remove offset size => offset < t.contents.length ∧ size < 4294967296

/-- Something is appended, what is moved up for an insertion does not overlap itself, and the end
of what is removed has not wrapped around. The room can grow. -/
def Call.Ok (t : Bytes) : Call → Prop
  | .appendData data =>
    data ≠ [] ∧ Growable t.capacity (t.contents.length + data.length)
  | .appendTextZero str len =>
    textOf str len ≠ [] ∧
      Growable t.capacity (t.contents.length + ((textOf str len).length + 1))
  | .insert offset data =>
    t.contents.length - offset ≤ data.length ∧
      Growable t.capacity (t.contents.length + data.length)
  | .remove offset size => offset + size < 4294967296

structure MembufT.Holds (buf : MembufT) (t : Bytes) : Prop where
  data : ∃ rest, buf.data = t.contents ++ rest
  block : buf.data.length = buf.buffer_size
  size : buf.size = t.contents.length
  room : buf.buffer_size = t.capacity
  small : t.capacity < 4294967296

section Holds
variable {buf buf' : MembufT} {t : Bytes} {fresh : Nat → UInt8} {extra : Nat}

theorem minus_eq (h : b ≤ a) (ha : a < 4294967296) : minus a b = a - b := by
  have hsum : a + 4294967296 - b = a - b + 4294967296 := by omega
  rw [minus, hsum]
  unfold unsigned
  rw [Nat.add_mod_right, Nat.mod_eq_of_lt (by omega)]

theorem MembufT.Holds.le (h : buf.Holds t) : t.contents.length ≤ t.capacity := by
  obtain ⟨rest, hdata⟩ := h.data
  rw [← h.room, ← h.block, hdata, List.length_append]
  exact Nat.le_add_right _ _

theorem MembufT.Holds.contents (h : buf.Holds t) : buf.contents = t.contents := by
  obtain ⟨rest, hdata⟩ := h.data
  rw [MembufT.contents, hdata, h.size, List.take_left]

theorem membufReserve_fits (h : buf.Holds t) (hroom : t.contents.length + extra ≤ t.capacity) :
    membufReserve fresh buf extra = some buf := by
  have hle := h.le
  have hsmall := h.small
  rw [membufReserve, h.room, h.size, minus_eq hle hsmall, if_neg (by omega)]

theorem membufReserve_grows (h : buf.Holds t) (hroom : t.capacity < t.contents.length + extra)
    (hmax : t.contents.length + extra < 4294967296)
    (hgrown : grown (t.contents.length + extra)
      (if t.capacity = 0 then t.contents.length + extra else unsigned (t.capacity * 2)) = some m)
    (hm : t.contents.length + extra ≤ m) (hm' : m < 4294967296) :
    ∃ buf', membufReserve fresh buf extra = some buf' ∧ buf'.Holds ⟨t.contents, m⟩ := by
  have hle := h.le
  have hsmall := h.small
  obtain ⟨rest, hdata⟩ := h.data
  have hstart : (if t.capacity = 0 then extra else unsigned (t.capacity * 2)) =
      if t.capacity = 0 then t.contents.length + extra else unsigned (t.capacity * 2) := by
    split
    · next hzero =>
      have hnone : t.contents.length = 0 := by omega
      rw [hnone, Nat.zero_add]
    · rfl
  rw [membufReserve, h.room, h.size, minus_eq hle hsmall, if_pos (by omega), unsigned_of_lt hmax,
    hstart]
  dsimp only
  rw [hgrown]
  cases hlocal : buf.uses_local_buffer with
  | true =>
    have hread : Block.read buf.data 0 t.contents.length = some t.contents :=
      hdata ▸ Block.read_middle [] t.contents rest rfl rfl
    have hfresh := Block.length_realloc [] fresh m
    obtain ⟨x, rest', hx, hsplit⟩ : ∃ x rest', x.length = t.contents.length ∧
        Block.realloc [] fresh m = [] ++ x ++ rest' :=
      ⟨(Block.realloc [] fresh m).take t.contents.length, _,
        by rw [List.length_take, hfresh]; omega, (List.take_append_drop _ _).symm⟩
    have hwrite : Block.write (Block.realloc [] fresh m) 0 t.contents =
        some (t.contents ++ rest') := by
      rw [hsplit]
      exact Block.write_middle [] x rest' t.contents rfl hx.symm
    refine ⟨⟨t.contents ++ rest', t.contents.length, m, false⟩, ?_, ⟨rest', rfl⟩, ?_, rfl,
      rfl, hm'⟩
    · simp only [Option.bind_eq_bind, Option.bind_some, if_true, hread, hwrite]
      rfl
    · exact (Block.length_write hwrite).trans hfresh
  | false =>
    obtain ⟨rest', hrealloc⟩ := Block.realloc_append t.contents rest fresh (n := m) (by omega)
    refine ⟨⟨_, t.contents.length, m, false⟩, rfl, ⟨rest', ?_⟩, Block.length_realloc _ _ _, rfl,
      rfl, hm'⟩
    rw [hdata, hrealloc]

theorem membufReserve_holds (h : buf.Holds t) (hmax : t.contents.length + extra < 4294967296)
    (hgrow : Growable t.capacity (t.contents.length + extra)) :
    ∃ buf', membufReserve fresh buf extra = some buf' ∧
      t.contents.length + extra ≤ reserved t.capacity (t.contents.length + extra) ∧
      buf'.Holds ⟨t.contents, reserved t.capacity (t.contents.length + extra)⟩ := by
  by_cases hroom : t.contents.length + extra ≤ t.capacity
  · rw [reserved_of_le hroom]
    exact ⟨buf, membufReserve_fits h hroom, hroom, h⟩
  · obtain ⟨m, hm, hle, hlt⟩ := (grown_iff (Nat.lt_of_not_le hroom) hmax).2 hgrow
    obtain ⟨buf', hreserve, hholds⟩ :=
      @membufReserve_grows buf t fresh extra m h (Nat.lt_of_not_le hroom) hmax hm hle hlt
    rw [reserved, if_neg hroom, hm]
    exact ⟨buf', hreserve, hle, hholds⟩

theorem membufReserve_none (h : buf.Holds t) (hmax : t.contents.length + extra < 4294967296)
    (hgrow : ¬ Growable t.capacity (t.contents.length + extra)) :
    membufReserve fresh buf extra = none := by
  have hle := h.le
  have hsmall := h.small
  have hroom : t.capacity < t.contents.length + extra :=
    Nat.lt_of_not_le fun hroom => hgrow (.inl hroom)
  have hpos : t.capacity ≠ 0 := fun hzero => hgrow (.inr (.inl hzero))
  rw [← grown_iff hroom hmax, if_neg hpos] at hgrow
  have hnone : grown (t.contents.length + extra) (unsigned (t.capacity * 2)) = none := by
    cases hgrown : grown (t.contents.length + extra) (unsigned (t.capacity * 2)) with
    | none => rfl
    | some m =>
      obtain ⟨hneed, j, _, rfl⟩ := iterate_grow hgrown
      refine absurd ⟨_, hgrown, hneed, ?_⟩ hgrow
      split
      · exact unsigned_lt _
      · exact unsigned_lt _
  rw [membufReserve, h.room, h.size, minus_eq hle hsmall, if_pos (by omega), unsigned_of_lt hmax,
    if_neg hpos]
  dsimp only
  rw [hnone]
  rfl

/-- A write behind the contents. -/
theorem MembufT.Holds.append (h : buf.Holds t) (bytes : List UInt8)
    (hroom : t.contents.length + bytes.length ≤ t.capacity) :
    ∃ block, Block.write buf.data buf.size bytes = some block ∧
      unsigned (buf.size + bytes.length) = t.contents.length + bytes.length ∧
      MembufT.Holds { buf with data := block, size := t.contents.length + bytes.length }
        ⟨t.contents ++ bytes, t.capacity⟩ := by
  have hsmall := h.small
  obtain ⟨rest, hdata⟩ := h.data
  have hlen : t.contents.length + rest.length = t.capacity := by
    rw [← List.length_append, ← hdata, h.block, h.room]
  have hsplit : buf.data = t.contents ++ rest.take bytes.length ++ rest.drop bytes.length := by
    rw [List.append_assoc, List.take_append_drop, hdata]
  have htake : bytes.length = (rest.take bytes.length).length := by
    rw [List.length_take]
    omega
  have hwrite := Block.write_middle t.contents _ (rest.drop bytes.length) bytes h.size htake
  rw [← hsplit] at hwrite
  refine ⟨_, hwrite, ?_, ⟨_, rfl⟩, ?_, List.length_append.symm, h.room, hsmall⟩
  · rw [h.size, unsigned_of_lt (by omega)]
  · exact (Block.length_write hwrite).trans h.block

theorem membufAppendData_good (h : buf.Holds t) (hne : bytes ≠ [])
    (hmax : t.contents.length + bytes.length < 4294967296)
    (hgrow : Growable t.capacity (t.contents.length + bytes.length)) :
    ∃ buf', membufAppendData fresh buf bytes = some (t.contents.length, buf') ∧
      buf'.Holds ⟨t.contents ++ bytes,
        reserved t.capacity (t.contents.length + bytes.length)⟩ := by
  obtain ⟨buf₁, hreserve, hroom, h₁⟩ := @membufReserve_holds buf t fresh _ h hmax hgrow
  obtain ⟨block, hwrite, hsize, h₂⟩ := h₁.append bytes hroom
  have hminus : minus (t.contents.length + bytes.length) bytes.length = t.contents.length := by
    rw [minus_eq (Nat.le_add_left _ _) hmax, Nat.add_sub_cancel]
  refine ⟨_, ?_, h₂⟩
  rw [membufAppendData, if_neg fun hzero => hne (List.eq_nil_of_length_eq_zero hzero), hreserve]
  simp only [Option.bind_eq_bind, Option.bind_some, hwrite, hsize, hminus]
  rfl

theorem membufAppendZeros_good (h : buf.Holds t) (hroom : t.contents.length + n ≤ t.capacity) :
    ∃ offset buf', membufAppendZeros fresh buf n = some (offset, buf') ∧
      buf'.Holds ⟨t.contents ++ List.replicate n 0, t.capacity⟩ := by
  have hlen : (List.replicate n (0 : UInt8)).length = n := List.length_replicate
  obtain ⟨block, hwrite, hsize, h'⟩ := h.append (List.replicate n 0) (hlen.symm ▸ hroom)
  rw [hlen] at hsize h'
  refine ⟨minus (t.contents.length + n) n, _, ?_, h'⟩
  rw [membufAppendZeros, membufReserve_fits h hroom]
  simp only [Option.bind_eq_bind, Option.bind_some, hwrite, hsize]
  rfl

/-- The length that is taken and the text that is read. -/
theorem textLength_eq (hvalid : if len = 4294967295 then 0 ∈ str else len ≤ str.length)
    (hmax : (textOf str len).length < 4294967296) :
    textLength str len = some (textOf str len).length ∧
      Block.read str 0 (textOf str len).length = some (textOf str len) := by
  have hread : ∀ text, text <+: str → Block.read str 0 text.length = some text := by
    rintro text ⟨rest, rfl⟩
    exact Block.read_middle [] text rest rfl rfl
  rw [textLength]
  rw [textOf] at hmax ⊢
  by_cases hlen : len = 4294967295
  · rw [if_pos hlen] at hvalid hmax ⊢
    rw [if_pos hlen, strlen, if_pos hvalid, Option.map_some, unsigned_of_lt hmax]
    exact ⟨rfl, hread _ (List.takeWhile_prefix _)⟩
  · rw [if_neg hlen] at hvalid ⊢
    rw [if_neg hlen]
    have htake : (str.take len).length = len := by
      rw [List.length_take]
      omega
    exact ⟨congrArg some htake.symm, hread _ (List.take_prefix _ _)⟩

theorem membufAppendTextZero_good (h : buf.Holds t) (hvalid : (Call.appendTextZero str len).Valid t)
    (hok : (Call.appendTextZero str len).Ok t) :
    ∃ buf', membufAppendTextZero fresh buf str len = some (t.contents.length, buf') ∧
      buf'.Holds (t.next (.appendTextZero str len)) := by
  obtain ⟨hstr, hmax⟩ := hvalid
  obtain ⟨hne, hgrow⟩ := hok
  obtain ⟨hlength, hread⟩ := textLength_eq hstr (by omega)
  have hnext : unsigned ((textOf str len).length + 1) = (textOf str len).length + 1 :=
    unsigned_of_lt (by omega)
  obtain ⟨buf₁, hreserve, hroom, h₁⟩ := @membufReserve_holds buf t fresh _ h hmax hgrow
  have hnext' : t.next (.appendTextZero str len) =
      ⟨t.contents ++ textOf str len ++ List.replicate 1 0,
        reserved t.capacity (t.contents.length + ((textOf str len).length + 1))⟩ := rfl
  rw [hnext']
  generalize reserved t.capacity (t.contents.length + ((textOf str len).length + 1)) = room at *
  have hfits : t.contents.length + (textOf str len).length ≤ room := by omega
  obtain ⟨buf₂, happend, h₂⟩ := @membufAppendData_good buf₁ ⟨t.contents, room⟩ fresh
    (textOf str len) h₁ hne (by dsimp only; omega) (.inl hfits)
  dsimp only at happend h₂
  rw [reserved_of_le hfits] at h₂
  have hfits' : (t.contents ++ textOf str len).length + 1 ≤ room := by
    rw [List.length_append]
    omega
  obtain ⟨offset, buf₃, hzeros, h₃⟩ := @membufAppendZeros_good buf₂ _ fresh 1 h₂ hfits'
  refine ⟨buf₃, ?_, h₃⟩
  rw [membufAppendTextZero, hlength, Option.bind_eq_bind, Option.bind_some, hnext, hreserve,
    Option.bind_eq_bind, Option.bind_some, hread, Option.bind_eq_bind, Option.bind_some, happend,
    Option.bind_eq_bind, Option.bind_some]
  dsimp only
  rw [hzeros]
  rfl

theorem membufAppendTextZero_none (h : buf.Holds t)
    (hvalid : (Call.appendTextZero str len).Valid t) (hok : ¬ (Call.appendTextZero str len).Ok t) :
    membufAppendTextZero fresh buf str len = none := by
  obtain ⟨hstr, hmax⟩ := hvalid
  obtain ⟨hlength, hread⟩ := textLength_eq hstr (by omega)
  have hnext : unsigned ((textOf str len).length + 1) = (textOf str len).length + 1 :=
    unsigned_of_lt (by omega)
  rw [membufAppendTextZero, hlength, Option.bind_eq_bind, Option.bind_some, hnext]
  by_cases hgrow : Growable t.capacity (t.contents.length + ((textOf str len).length + 1))
  · have hnil : (textOf str len).length = 0 := by
      by_contra hne
      exact hok ⟨fun hnil => hne (by rw [hnil, List.length_nil]), hgrow⟩
    obtain ⟨buf₁, hreserve, _⟩ := @membufReserve_holds buf t fresh _ h hmax hgrow
    rw [hreserve, Option.bind_eq_bind, Option.bind_some, hread, Option.bind_eq_bind,
      Option.bind_some, membufAppendData, if_pos hnil]
    rfl
  · rw [membufReserve_none h hmax hgrow]
    rfl

theorem membufInsert_good (h : buf.Holds t) (hvalid : (Call.insert offset bytes).Valid t)
    (hok : (Call.insert offset bytes).Ok t) :
    ∃ buf', membufInsert fresh buf offset bytes = some buf' ∧
      buf'.Holds (t.next (.insert offset bytes)) := by
  obtain ⟨hoffset, hmax⟩ := hvalid
  obtain ⟨hapart, hgrow⟩ := hok
  obtain ⟨buf₁, hreserve, hroom, h₁⟩ := @membufReserve_holds buf t fresh _ h hmax hgrow
  obtain ⟨rest, hdata⟩ := h₁.data
  have hlen : t.contents.length + rest.length = buf₁.data.length := by
    rw [hdata, List.length_append]
  have htotal : buf₁.data.length = reserved t.capacity (t.contents.length + bytes.length) :=
    h₁.block.trans h₁.room
  have htake : (t.contents.take offset).length = offset := by
    rw [List.length_take]
    omega
  have hdrop : (t.contents.drop offset).length = t.contents.length - offset := List.length_drop
  have hsplit : buf₁.data = t.contents.take offset ++ t.contents.drop offset ++ rest := by
    rw [List.take_append_drop, hdata]
  obtain ⟨x, z, hx, hmove⟩ := Block.move_right (t.contents.take offset) (t.contents.drop offset)
    rest (c := bytes.length) (by omega)
  have hminus : minus buf₁.size offset = t.contents.length - offset := by
    rw [h₁.size, minus_eq (Nat.le_of_lt hoffset) (by omega)]
  have hcopy : Block.memcpy buf₁.data (offset + bytes.length) offset (minus buf₁.size offset) =
      some (t.contents.take offset ++ x ++ (t.contents.drop offset ++ z)) := by
    rw [← hsplit, htake, hdrop] at hmove
    rw [Block.memcpy, hminus, if_pos (.inr (.inr (by omega))), hmove]
  have hwrite := Block.write_middle (t.contents.take offset) x (t.contents.drop offset ++ z) bytes
    htake.symm hx.symm
  have hsize : unsigned (buf₁.size + bytes.length) = t.contents.length + bytes.length := by
    rw [h₁.size, unsigned_of_lt hmax]
  have hinsert : membufInsert fresh buf offset bytes = some { buf₁ with
      data := t.contents.take offset ++ bytes ++ (t.contents.drop offset ++ z)
      size := t.contents.length + bytes.length } := by
    rw [membufInsert, if_pos (by rwa [h.size]), hreserve, Option.bind_eq_bind, Option.bind_some,
      hcopy, Option.bind_eq_bind, Option.bind_some, hwrite, Option.bind_some, hsize]
    rfl
  have hlength : (t.contents.take offset ++ bytes ++ t.contents.drop offset).length =
      t.contents.length + bytes.length := by
    rw [List.length_append, List.length_append, htake, hdrop]
    omega
  refine ⟨_, hinsert, ⟨z, (List.append_assoc ..).symm⟩, ?_, hlength.symm, h₁.room, h₁.small⟩
  have hkept : (t.contents.take offset ++ bytes ++ (t.contents.drop offset ++ z)).length =
      buf₁.data.length := by
    obtain ⟨moved, _, hmoved⟩ := Option.bind_eq_some_iff.1 hmove
    rw [Block.length_write hwrite, Block.length_write hmoved, ← hsplit]
  exact hkept.trans h₁.block

theorem membufInsert_none (h : buf.Holds t) (hvalid : (Call.insert offset bytes).Valid t)
    (hok : ¬ (Call.insert offset bytes).Ok t) : membufInsert fresh buf offset bytes = none := by
  obtain ⟨hoffset, hmax⟩ := hvalid
  rw [membufInsert, if_pos (by rwa [h.size])]
  by_cases hgrow : Growable t.capacity (t.contents.length + bytes.length)
  · have hoverlap : ¬ t.contents.length - offset ≤ bytes.length := fun hle => hok ⟨hle, hgrow⟩
    obtain ⟨buf₁, hreserve, _, h₁⟩ := @membufReserve_holds buf t fresh _ h hmax hgrow
    have hminus : minus buf₁.size offset = t.contents.length - offset := by
      rw [h₁.size, minus_eq (Nat.le_of_lt hoffset) (by omega)]
    have hcopy : Block.memcpy buf₁.data (offset + bytes.length) offset (minus buf₁.size offset) =
        none := by
      rw [Block.memcpy, hminus]
      refine if_neg ?_
      rintro (hzero | hleft | hright)
      · omega
      · omega
      · omega
    rw [hreserve, Option.bind_eq_bind, Option.bind_some, hcopy]
    rfl
  · rw [membufReserve_none h hmax hgrow]
    rfl

theorem membufRemove_good (h : buf.Holds t) (hvalid : (Call.remove offset n).Valid t)
    (hok : (Call.remove offset n).Ok t) :
    ∃ buf', membufRemove buf offset n = some buf' ∧ buf'.Holds (t.next (.remove offset n)) := by
  obtain ⟨hoffset, hn⟩ := hvalid
  have hok : offset + n < 4294967296 := hok
  have hle := h.le
  have hsmall := h.small
  obtain ⟨rest, hdata⟩ := h.data
  have htake : (t.contents.take offset).length = offset := by
    rw [List.length_take]
    omega
  rw [membufRemove, if_pos (by rwa [h.size]), h.size, unsigned_of_lt hok]
  by_cases hend : t.contents.length ≤ offset + n
  · rw [if_pos hend]
    have hnil : t.contents.drop (offset + n) = [] := List.drop_of_length_le hend
    have hnext : t.next (.remove offset n) = ⟨t.contents.take offset, t.capacity⟩ := by
      rw [Bytes.next, hnil, List.append_nil]
    rw [hnext]
    refine ⟨_, rfl, ⟨t.contents.drop offset ++ rest, ?_⟩, h.block, htake.symm, h.room, hsmall⟩
    rw [← List.append_assoc, List.take_append_drop, hdata]
  · rw [if_neg hend]
    have hsplit : buf.data = t.contents.take offset ++ (t.contents.drop offset).take n ++
        t.contents.drop (offset + n) ++ rest := by
      rw [List.append_assoc (t.contents.take offset), ← List.drop_drop, List.take_append_drop,
        List.take_append_drop, hdata]
    have hgap : ((t.contents.drop offset).take n).length = n := by
      rw [List.length_take, List.length_drop]
      omega
    have hdrop : (t.contents.drop (offset + n)).length = t.contents.length - offset - n := by
      rw [List.length_drop, Nat.sub_sub]
    obtain ⟨z, hmove⟩ := Block.move_left (t.contents.take offset) ((t.contents.drop offset).take n)
      (t.contents.drop (offset + n)) rest
    rw [← hsplit, htake, hgap, hdrop] at hmove
    have hminus : minus (minus t.contents.length offset) n = t.contents.length - offset - n := by
      rw [minus_eq (Nat.le_of_lt hoffset) (by omega), minus_eq (by omega) (by omega)]
    have hsize : minus t.contents.length n = t.contents.length - n := minus_eq (by omega) (by omega)
    rw [hminus, hmove, hsize]
    refine ⟨_, rfl, ⟨z, rfl⟩, (Block.length_move hmove).trans h.block, ?_, h.room, hsmall⟩
    have hlength : (t.contents.take offset ++ t.contents.drop (offset + n)).length =
        t.contents.length - n := by
      rw [List.length_append, htake, hdrop]
      omega
    exact hlength.symm

theorem membufRemove_none (h : buf.Holds t) (hvalid : (Call.remove offset n).Valid t)
    (hok : ¬ (Call.remove offset n).Ok t) : membufRemove buf offset n = none := by
  obtain ⟨hoffset, hn⟩ := hvalid
  have hok : ¬ offset + n < 4294967296 := hok
  have hle := h.le
  have hsmall := h.small
  have hwrap : unsigned (offset + n) = offset + n - 4294967296 := by
    unfold unsigned
    omega
  have hread : ∀ k, Block.read buf.data (offset + n) k = none := by
    intro k
    refine Block.read_none ?_
    rw [h.block, h.room]
    omega
  rw [membufRemove, if_pos (by rwa [h.size]), h.size, hwrap, if_neg (by omega), Block.move, hread]
  rfl

end Holds

theorem membufStep_good {buf : MembufT} {t : Bytes} (call : (Nat → UInt8) × Call)
    (h : buf.Holds t) (hvalid : call.2.Valid t) (hok : call.2.Ok t) :
    ∃ buf', buf.step call = some (buf', (spec t call).2) ∧ buf'.Holds (spec t call).1 := by
  obtain ⟨fresh, call⟩ := call
  cases call with
  | appendData data =>
    obtain ⟨buf', happend, h'⟩ := @membufAppendData_good buf t fresh data h hok.1 hvalid hok.2
    refine ⟨buf', ?_, h'⟩
    rw [MembufT.step, happend, Option.map_some, h'.contents]
    rfl
  | appendTextZero str len =>
    obtain ⟨buf', happend, h'⟩ := @membufAppendTextZero_good buf t fresh str len h hvalid hok
    refine ⟨buf', ?_, h'⟩
    rw [MembufT.step, happend, Option.map_some, h'.contents]
    rfl
  | insert offset data =>
    obtain ⟨buf', hinsert, h'⟩ := @membufInsert_good buf t fresh offset data h hvalid hok
    refine ⟨buf', ?_, h'⟩
    rw [MembufT.step, hinsert, Option.map_some, h'.contents]
    rfl
  | remove offset size =>
    obtain ⟨buf', hremove, h'⟩ := membufRemove_good h hvalid hok
    refine ⟨buf', ?_, h'⟩
    rw [MembufT.step, hremove, Option.map_some, h'.contents]
    rfl

theorem membufStep_none {buf : MembufT} {t : Bytes} (call : (Nat → UInt8) × Call)
    (h : buf.Holds t) (hvalid : call.2.Valid t) (hok : ¬ call.2.Ok t) : buf.step call = none := by
  obtain ⟨fresh, call⟩ := call
  cases call with
  | appendData data =>
    have hnone : membufAppendData fresh buf data = none := by
      rw [membufAppendData]
      split
      · rfl
      · next hne =>
        have hgrow : ¬ Growable t.capacity (t.contents.length + data.length) :=
          fun hgrow => hok ⟨fun hnil => hne (by rw [hnil, List.length_nil]), hgrow⟩
        rw [membufReserve_none h hvalid hgrow]
        rfl
    rw [MembufT.step, hnone, Option.map_none]
  | appendTextZero str len =>
    rw [MembufT.step, membufAppendTextZero_none h hvalid hok, Option.map_none]
  | insert offset data =>
    rw [MembufT.step, membufInsert_none h hvalid hok, Option.map_none]
  | remove offset size =>
    rw [MembufT.step, membufRemove_none h hvalid hok, Option.map_none]

structure MembufT.WellFormed (buf : MembufT) : Prop where
  size_le : buf.size ≤ buf.buffer_size
  block : buf.data.length = buf.buffer_size
  small : buf.buffer_size < 4294967296

section Calls
variable {buf buf' : MembufT}

theorem MembufT.WellFormed.length_contents (h : buf.WellFormed) :
    buf.contents.length = buf.size := by
  rw [MembufT.contents, List.length_take, h.block, Nat.min_eq_left h.size_le]

theorem MembufT.WellFormed.holds (h : buf.WellFormed) :
    buf.Holds ⟨buf.contents, buf.buffer_size⟩ :=
  ⟨⟨_, (List.take_append_drop buf.size buf.data).symm⟩, h.block, h.length_contents.symm, rfl,
    h.small⟩

/-- The buffer has the room asked for just when its room is growable. -/
theorem membufReserve_iff (h : buf.WellFormed) (fresh : Nat → UInt8)
    (hmax : buf.size + extra < 4294967296) :
    (∃ buf', membufReserve fresh buf extra = some buf' ∧ buf.size + extra ≤ buf'.buffer_size ∧
      buf'.size = buf.size ∧ buf'.contents = buf.contents) ↔
      Growable buf.buffer_size (buf.size + extra) := by
  have hlen := h.length_contents
  rw [← hlen] at hmax ⊢
  constructor
  · rintro ⟨buf', hreserve, _⟩
    by_contra hgrow
    rw [membufReserve_none h.holds hmax hgrow] at hreserve
    cases hreserve
  · intro hgrow
    obtain ⟨buf', hreserve, hroom, h'⟩ := @membufReserve_holds buf _ fresh extra h.holds hmax hgrow
    exact ⟨buf', hreserve, h'.room.symm ▸ hroom, h'.size, h'.contents⟩

/-- The contents are those of the operations on a list in the runs whose calls are all right. -/
theorem membufCalls_iff (h : buf.WellFormed) (calls : List ((Nat → UInt8) × Call))
    (hvalid : Meets spec (fun t call => call.2.Valid t) ⟨buf.contents, buf.buffer_size⟩ calls) :
    (∃ buf', tryRun MembufT.step buf calls =
      some (buf', (run spec ⟨buf.contents, buf.buffer_size⟩ calls).2)) ↔
      Meets spec (fun t call => call.2.Ok t) ⟨buf.contents, buf.buffer_size⟩ calls := by
  constructor
  · rintro ⟨buf', hrun⟩
    apply meets_of_tryRun (R := MembufT.Holds) _ _ h.holds hvalid hrun
    · exact fun buf t call hbuf hcall => membufStep_good call hbuf hcall.1 hcall.2
    · intro buf t call hbuf hcall hno buf' hstep
      rw [membufStep_none call hbuf hcall hno] at hstep
      cases hstep
  · intro hok
    obtain ⟨buf', hrun, _⟩ := tryRun_of_meets
      (fun buf t call hbuf hcall => membufStep_good call hbuf hcall.1 hcall.2) h.holds
      (hvalid.and hok)
    exact ⟨buf', hrun⟩

/-- Room is made, and the calls are those on a list of bytes, unless the doubled room wraps around
to zero, nothing is appended, what is moved up overlaps itself, or the end of what is removed wraps
around. -/
theorem membuf_refines_iff (h : buf.WellFormed) :
    (∀ fresh extra, buf.size + extra < 4294967296 →
      ((∃ buf', membufReserve fresh buf extra = some buf' ∧ buf.size + extra ≤ buf'.buffer_size ∧
        buf'.size = buf.size ∧ buf'.contents = buf.contents) ↔
        Growable buf.buffer_size (buf.size + extra))) ∧
    ∀ calls, Meets spec (fun t call => call.2.Valid t) ⟨buf.contents, buf.buffer_size⟩ calls →
      ((∃ buf', tryRun MembufT.step buf calls =
        some (buf', (run spec ⟨buf.contents, buf.buffer_size⟩ calls).2)) ↔
        Meets spec (fun t call => call.2.Ok t) ⟨buf.contents, buf.buffer_size⟩ calls) :=
  ⟨fun fresh _ hmax => membufReserve_iff h fresh hmax, membufCalls_iff h⟩

end Calls

/-- Four bytes of which two are in use. -/
def fourBytes : MembufT := ⟨[97, 98, 0, 0], 2, 4, false⟩

theorem fourBytes_wellFormed : fourBytes.WellFormed := ⟨by decide, rfl, by decide⟩

theorem membuf_refines_iff_fourBytes :
    (∀ fresh extra, fourBytes.size + extra < 4294967296 →
      ((∃ buf', membufReserve fresh fourBytes extra = some buf' ∧
        fourBytes.size + extra ≤ buf'.buffer_size ∧ buf'.size = fourBytes.size ∧
          buf'.contents = fourBytes.contents) ↔
        Growable fourBytes.buffer_size (fourBytes.size + extra))) ∧
    ∀ calls, Meets spec (fun t call => call.2.Valid t)
        ⟨fourBytes.contents, fourBytes.buffer_size⟩ calls →
      ((∃ buf', tryRun MembufT.step fourBytes calls =
        some (buf', (run spec ⟨fourBytes.contents, fourBytes.buffer_size⟩ calls).2)) ↔
        Meets spec (fun t call => call.2.Ok t)
          ⟨fourBytes.contents, fourBytes.buffer_size⟩ calls) :=
  membuf_refines_iff fourBytes_wellFormed

/-- 3 * 2 ^ 30 bytes, all in use. -/
def fullBytes : MembufT := ⟨List.replicate 3221225472 0, 3221225472, 3221225472, false⟩

theorem fullBytes_wellFormed : fullBytes.WellFormed :=
  ⟨Nat.le_refl _, List.length_replicate, by decide⟩

/-- One byte more than `fullBytes` is never there, and a byte put before two others is copied over
one of them. -/
theorem not_membuf_refines :
    (¬ ∃ buf', membufReserve (fun _ => 0) fullBytes 1 = some buf' ∧
      fullBytes.size + 1 ≤ buf'.buffer_size ∧ buf'.size = fullBytes.size ∧
        buf'.contents = fullBytes.contents) ∧
    ¬ ∃ buf', tryRun MembufT.step fourBytes [(fun _ => 0, .insert 0 [120])] =
      some (buf', (run spec ⟨fourBytes.contents, fourBytes.buffer_size⟩
        [(fun _ => 0, .insert 0 [120])]).2) := by
  constructor
  · rw [membufReserve_iff fullBytes_wellFormed _ (by decide)]
    have hwrap : ∀ k < 32, unsigned (3221225472 * 2 ^ (k + 1)) < 3221225473 := by
      unfold unsigned
      decide
    rintro (hle | hzero | ⟨k, hk, hle⟩)
    · exact absurd hle (by decide)
    · exact absurd hzero (by decide)
    · exact absurd hle (Nat.not_le_of_lt (hwrap k hk))
  · rintro ⟨buf', hrun⟩
    have hnone : tryRun MembufT.step fourBytes [(fun _ => 0, .insert 0 [120])] = none :=
      tryRun_cons_none (membufStep_none (fun _ => 0, .insert 0 [120]) fourBytes_wellFormed.holds
        ⟨by decide, by decide⟩ fun hok => absurd hok.1 (by decide)) []
    rw [hnone] at hrun
    cases hrun

end BigBox.Membuf
