import BigBox.Algorithm.Crc

namespace BigBox.Modbus
open Crc
set_option autoImplicit true

def modbusSwapEndian (data : BitVec 16) : BitVec 16 := (data <<< 8) ||| (data >>> 8)

/-- `length` is a `uint16_t`. The loop is the one of `crc16`. -/
def modbusCRC (data : List (BitVec 8)) (length : Nat) : BitVec 16 :=
  modbusSwapEndian ((data.take (length % 65536)).foldl crc16Byte 0xFFFF)

/-- The bytes of a `uint16_t` in the memory of a little-endian host. -/
def stored (data : BitVec 16) : List (BitVec 8) := [data.setWidth 8, (data >>> 8).setWidth 8]

/-- A payload with the checksum that is stored behind it. -/
def frame (payload : List (BitVec 8)) : List (BitVec 8) :=
  payload ++ stored (modbusCRC payload payload.length)

theorem stored_swap (data : BitVec 16) :
    stored (modbusSwapEndian data) = [(data >>> 8).setWidth 8, data.setWidth 8] := by
  have hlow : (modbusSwapEndian data).setWidth 8 = (data >>> 8).setWidth 8 := by
    apply BitVec.eq_of_getLsbD_eq
    intro i hi
    rw [modbusSwapEndian, BitVec.getLsbD_setWidth, BitVec.getLsbD_setWidth, BitVec.getLsbD_or,
      BitVec.getLsbD_shiftLeft, decide_eq_true hi, Bool.not_true, Bool.and_false, Bool.false_and,
      Bool.false_or]
  have hhigh : (modbusSwapEndian data >>> 8).setWidth 8 = data.setWidth 8 := by
    apply BitVec.eq_of_getLsbD_eq
    intro i hi
    have hwide : 8 + i < 16 := by omega
    have hbehind : ¬ 8 + i < 8 := by omega
    rw [modbusSwapEndian, BitVec.getLsbD_setWidth, BitVec.getLsbD_setWidth,
      BitVec.getLsbD_ushiftRight, BitVec.getLsbD_or, BitVec.getLsbD_shiftLeft,
      BitVec.getLsbD_ushiftRight, BitVec.getLsbD_of_ge data (8 + (8 + i)) (by omega), Bool.or_false,
      decide_eq_true hwide, decide_eq_false hbehind, Nat.add_sub_cancel_left, Bool.not_false,
      Bool.and_true, Bool.true_and]
  rw [stored, hlow, hhigh]

/-- The high byte comes first, so that the frame is right when both bytes of the checksum are the
same. -/
theorem frame_crc_iff (payload : List (BitVec 8)) (hlen : payload.length < 65536) :
    crc16 (frame payload) = 0 ↔
      (crc16 payload).setWidth 8 = (crc16 payload >>> 8).setWidth 8 := by
  have hcrc : modbusCRC payload payload.length = modbusSwapEndian (crc16 payload) := by
    rw [modbusCRC, Nat.mod_eq_of_lt hlen, List.take_length]
    rfl
  rw [frame, hcrc, stored_swap, crc16, crc16From_append, crc16From_eq_zero_iff, littleEndian]
  constructor
  · intro h
    exact (List.cons.inj h).1.symm
  · intro h
    change [(crc16 payload >>> 8).setWidth 8, (crc16 payload).setWidth 8] =
      [(crc16 payload).setWidth 8, (crc16 payload >>> 8).setWidth 8]
    rw [h]

theorem frame_crc_iff_one :
    crc16 (frame [1]) = 0 ↔ (crc16 [1]).setWidth 8 = (crc16 [1] >>> 8).setWidth 8 :=
  frame_crc_iff [1] (by decide)

theorem not_frame_crc : crc16 (frame [1]) ≠ 0 := by
  decide +kernel

end BigBox.Modbus
