import BigBox.Lib.Block
import BigBox.Lib.CInt

namespace BigBox.DataBuffer
set_option autoImplicit true

/-- A `Buffer` with the bytes of its block. -/
structure Buffer where
  contents : List UInt8
  bytes_used : Nat
  total_size : Nat

/-- A result of `int` arithmetic, which an overflow leaves undefined. -/
def int (n : Nat) : Option Nat := if n < 2147483648 then some n else none

def bufferHasSpace (buf : Buffer) (desired_length : Nat) : Nat :=
  if desired_length ≤ buf.total_size - buf.bytes_used then 0 else 1

/-- `alloc` are the new bytes behind the old ones, if `realloc` succeeds. -/
def bufferGrow (alloc : Option (Nat → UInt8)) (buf : Buffer) (minimum_size : Nat) :
    Option (Int × Buffer) :=
  let factor := if buf.total_size < minimum_size then minimum_size else buf.total_size
  (int (factor * 2)).map fun new_size =>
    match alloc with
    | none => (-1, buf)
    | some fresh =>
      (0, { buf with
        contents := Block.realloc buf.contents fresh new_size
        total_size := new_size })

/-- A copy that ends behind the block has no result. -/
def bufferCat (buf : Buffer) (append : List UInt8) : Option Buffer :=
  (Block.write buf.contents buf.bytes_used append).map fun contents =>
    { buf with contents, bytes_used := buf.bytes_used + append.length }

/-- `jump_to_error_unless(status == 0)` jumps if `status == 0`. -/
def bufferAppend (alloc : Option (Nat → UInt8)) (buf : Buffer) (append : List UInt8) :
    Option (Int × Buffer) :=
  (int (append.length + 1)).bind fun desired_length =>
    if bufferHasSpace buf desired_length = 0 then
      (bufferGrow alloc buf desired_length).bind fun (status, buf) =>
        if status = 0 then some (-1, buf) else (bufferCat buf append).map fun buf => (0, buf)
    else (bufferCat buf append).map fun buf => (0, buf)

namespace Buffer

def content (buf : Buffer) : List UInt8 := buf.contents.take buf.bytes_used

/-- The block has `total_size` bytes, and not all of them are used. -/
structure Valid (buf : Buffer) : Prop where
  block : buf.contents.length = buf.total_size
  used : buf.bytes_used < buf.total_size
  size : buf.total_size < 2147483648

end Buffer

/-- The text is appended, or the buffer stays as it was and there is no memory. -/
def Appended (alloc : Option (Nat → UInt8)) (buf : Buffer) (append : List UInt8) (status : Int)
    (buf' : Buffer) : Prop :=
  status = 0 ∧ buf'.content = buf.content ++ append ∧ buf'.Valid ∨
    status = -1 ∧ alloc = none ∧ buf'.content = buf.content ∧ buf'.bytes_used = buf.bytes_used ∧
      buf'.total_size = buf.total_size

section Append
variable {buf buf' : Buffer} {append : List UInt8} {alloc : Option (Nat → UInt8)}

/-- A copy that leaves room for a zero byte. -/
theorem bufferCat_of_room (h : buf.Valid)
    (hroom : append.length + 1 ≤ buf.total_size - buf.bytes_used) :
    ∃ buf', bufferCat buf append = some buf' ∧ buf'.content = buf.content ++ append ∧
      buf'.Valid := by
  have hused := h.used
  have hsplit : buf.contents = buf.content ++
      ((buf.contents.drop buf.bytes_used).take append.length) ++
      (buf.contents.drop buf.bytes_used).drop append.length := by
    rw [Buffer.content, List.append_assoc, List.take_append_drop, List.take_append_drop]
  have hlen : buf.bytes_used = buf.content.length := by
    rw [Buffer.content, List.length_take, h.block, Nat.min_eq_left (Nat.le_of_lt hused)]
  have hwrite : Block.write buf.contents buf.bytes_used append = some (buf.content ++ append ++
      (buf.contents.drop buf.bytes_used).drop append.length) := by
    rw [hsplit, Block.write_middle _ _ _ append hlen, ← hsplit]
    rw [List.length_take, List.length_drop, h.block]
    omega
  rw [bufferCat, hwrite]
  refine ⟨_, rfl, ?_, ?_, ?_, h.size⟩
  · rw [Buffer.content]
    apply List.take_left'
    rw [List.length_append, ← hlen]
  · exact (Block.length_write hwrite).trans h.block
  · change buf.bytes_used + append.length < buf.total_size
    omega

/-- Without that room the used part reaches the end of the block or goes beyond it. -/
theorem bufferCat_full (hroom : ¬append.length + 1 ≤ buf.total_size - buf.bytes_used)
    (hcat : bufferCat buf append = some buf') : ¬buf'.Valid := by
  obtain ⟨contents, _, rfl⟩ := Option.map_eq_some_iff.1 hcat
  intro hvalid
  have hused : buf.bytes_used + append.length < buf.total_size := hvalid.used
  omega

theorem int_of_lt (h : n < 2147483648) : int n = some n := if_pos h

theorem int_eq_some (h : int n = some m) : n < 2147483648 ∧ m = n := by
  rw [int] at h
  split at h
  case isTrue hlt => exact ⟨hlt, (Option.some.inj h).symm⟩
  case isFalse => cases h

theorem bufferAppend_room (h : buf.Valid)
    (hroom : append.length + 1 ≤ buf.total_size - buf.bytes_used) :
    bufferAppend alloc buf append = (int (buf.total_size * 2)).bind fun new_size =>
      match alloc with
      | none => (bufferCat buf append).map fun buf => (0, buf)
      | some fresh => some (-1, { buf with
          contents := Block.realloc buf.contents fresh new_size, total_size := new_size }) := by
  have hused := h.used
  have hsize := h.size
  rw [bufferAppend, int_of_lt (by omega), Option.bind_some, bufferHasSpace, if_pos hroom,
    if_pos rfl, bufferGrow, if_neg (by omega)]
  dsimp only
  rw [Option.bind_map]
  cases alloc with
  | none => rfl
  | some fresh => rfl

/-- An append does what it promises just where there is room without more memory, and no more
memory to be had. -/
theorem buffer_append_iff (h : buf.Valid) (alloc : Option (Nat → UInt8)) (append : List UInt8) :
    (∃ status buf', bufferAppend alloc buf append = some (status, buf') ∧
      Appended alloc buf append status buf') ↔
    append.length + 1 ≤ buf.total_size - buf.bytes_used ∧ buf.total_size * 2 < 2147483648 ∧
      alloc = none := by
  by_cases hroom : append.length + 1 ≤ buf.total_size - buf.bytes_used
  · rw [bufferAppend_room h hroom]
    constructor
    · rintro ⟨status, buf', hstep, happended⟩
      obtain ⟨new_size, hint, hrest⟩ := Option.bind_eq_some_iff.1 hstep
      obtain ⟨hlt, rfl⟩ := int_eq_some hint
      refine ⟨hroom, hlt, ?_⟩
      cases alloc with
      | none => rfl
      | some fresh =>
        cases hrest
        rcases happended with ⟨hstatus, _⟩ | ⟨_, hnone, _⟩
        · cases hstatus
        · exact hnone
    · rintro ⟨_, hlt, rfl⟩
      obtain ⟨buf', hcat, hcontent, hvalid⟩ := bufferCat_of_room h hroom
      refine ⟨0, buf', ?_, Or.inl ⟨rfl, hcontent, hvalid⟩⟩
      rw [int_of_lt hlt, Option.bind_some, hcat]
      rfl
  · refine iff_of_false ?_ fun hno => hroom hno.1
    rintro ⟨status, buf', hstep, happended⟩
    obtain ⟨desired_length, hint, hrest⟩ := Option.bind_eq_some_iff.1 hstep
    obtain ⟨_, rfl⟩ := int_eq_some hint
    rw [bufferHasSpace, if_neg hroom, if_neg Nat.one_ne_zero] at hrest
    obtain ⟨buf'', hcat, heq⟩ := Option.map_eq_some_iff.1 hrest
    cases heq
    rcases happended with ⟨_, _, hvalid⟩ | ⟨hstatus, _⟩
    · exact bufferCat_full hroom hcat hvalid
    · cases hstatus

end Append

theorem buffer_append_iff_four :
    (∃ status buf', bufferAppend none ⟨[0, 0, 0, 0], 0, 4⟩ [97] = some (status, buf') ∧
      Appended none ⟨[0, 0, 0, 0], 0, 4⟩ [97] status buf') ↔
    1 + 1 ≤ 4 - 0 ∧ 4 * 2 < 2147483648 ∧ (none : Option (Nat → UInt8)) = none :=
  buffer_append_iff ⟨rfl, by decide, by decide⟩ none [97]

/-- There is room for one byte, and the append fails. -/
theorem not_buffer_append :
    ¬ ∀ (buf : Buffer) (alloc : Option (Nat → UInt8)) (append : List UInt8), buf.Valid →
      ∃ status buf', bufferAppend alloc buf append = some (status, buf') ∧
        Appended alloc buf append status buf' := by
  intro h
  obtain ⟨status, buf', hstep, happended⟩ :=
    h ⟨[0, 0, 0, 0], 0, 4⟩ (some fun _ => 0) [97] ⟨rfl, by decide, by decide⟩
  have hfails : bufferAppend (some fun _ => 0) ⟨[0, 0, 0, 0], 0, 4⟩ [97] =
      some (-1, ⟨[0, 0, 0, 0, 0, 0, 0, 0], 0, 8⟩) := rfl
  rw [hfails] at hstep
  cases hstep
  rcases happended with ⟨hstatus, _⟩ | ⟨_, hnone, _⟩
  · cases hstatus
  · cases hnone

end BigBox.DataBuffer
