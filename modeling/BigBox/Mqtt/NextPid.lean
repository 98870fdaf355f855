import Mathlib.Tactic.NormNum.Prime
import BigBox.Lib.Loop
import BigBox.Lib.ShiftPeriod
import BigBox.Mqtt.MessageQueue

namespace BigBox.Mqtt
set_option autoImplicit true

open Loop

/-- A round of the loop that looks for an identifier. -/
def nextPidRound (mq : MessageQueue) (pid_lfsr : BitVec 16) :
    Option (Round (BitVec 16) (BitVec 16)) :=
  let lsb := pid_lfsr &&& 1#16
  let pid_lfsr := pid_lfsr >>> 1
  let pid_lfsr := if lsb ≠ 0#16 then pid_lfsr ^^^ 0xB400#16 else pid_lfsr
  if mq.queue.any fun m => m.packet_id = pid_lfsr then
    some (.next pid_lfsr)
  else
    some (.done pid_lfsr)

def seedLfsr (pid_lfsr : BitVec 16) : BitVec 16 := if pid_lfsr = 0#16 then 163#16 else pid_lfsr

/-- The identifier, which is also the new state of the register. -/
def mqttNextPid (mq : MessageQueue) (pid_lfsr : BitVec 16) : Option (BitVec 16) :=
  iterate (nextPidRound mq) 65535 (seedLfsr pid_lfsr)

section Period

theorem seedLfsr_ne_zero (pid_lfsr : BitVec 16) : seedLfsr pid_lfsr ≠ 0#16 := by
  rw [seedLfsr]
  split
  case isTrue => decide
  case isFalse h => exact h

/-- The register comes back after all numbers of sixteen bits but zero. -/
theorem shiftBits_period : shiftBits 0xB400#16 65535 1#16 = 1#16 := by
  apply BitVec.eq_of_toNat_eq
  have h := toNat_shiftBits_squaring 0xB400#16 (List.replicate 16 true) 1#16
  change (shiftBits 0xB400#16 65535 1#16).toNat = _ at h
  rw [h]
  decide +kernel

theorem shiftBits_no_less {n : Nat} (bits : List Bool) (h : bitsValue bits = n)
    (hne : squaring bits (rowsOf (shiftNat 0xB400#16) 16) 1 ≠ 1) :
    shiftBits 0xB400#16 n 1#16 ≠ 1#16 := by
  intro heq
  apply hne
  have hbits := toNat_shiftBits_squaring 0xB400#16 bits 1#16
  rw [h, heq] at hbits
  exact hbits.symm

theorem minimalPeriod_lfsr : Function.minimalPeriod (shiftBit 0xB400#16) 1#16 = 2 ^ 16 - 1 := by
  apply minimalPeriod_eq_of_primes shiftBits_period
  intro p hp hdvd
  have h257 : Nat.Prime 257 := by norm_num
  have hcases : p = 3 ∨ p = 5 ∨ p = 17 ∨ p = 257 := by
    rw [show 65535 = 3 * (5 * (17 * 257)) from rfl, hp.dvd_mul, hp.dvd_mul, hp.dvd_mul,
      Nat.prime_dvd_prime_iff_eq hp Nat.prime_three, Nat.prime_dvd_prime_iff_eq hp Nat.prime_five,
      Nat.prime_dvd_prime_iff_eq hp (by norm_num), Nat.prime_dvd_prime_iff_eq hp h257] at hdvd
    exact hdvd
  rcases hcases with rfl | rfl | rfl | rfl
  · apply shiftBits_no_less (List.replicate 8 [true, false]).flatten
    · decide
    · decide +kernel
  · apply shiftBits_no_less (List.replicate 4 [true, true, false, false]).flatten
    · decide
    · decide +kernel
  · apply shiftBits_no_less (List.replicate 2 [true, true, true, true, false, false, false,
      false]).flatten
    · decide
    · decide +kernel
  · apply shiftBits_no_less (List.replicate 8 true)
    · decide
    · decide +kernel

end Period

/-- No message of the queue has the identifier. -/
def Unused (mq : MessageQueue) (packet_id : BitVec 16) : Prop :=
  ∀ m ∈ mq.queue, m.packet_id ≠ packet_id

section NextPid
variable {mq : MessageQueue} {s p : BitVec 16}

theorem nextPidRound_eq (mq : MessageQueue) (s : BitVec 16) : nextPidRound mq s =
    if mq.queue.any fun m => m.packet_id = shiftBit 0xB400#16 s then
      some (.next (shiftBit 0xB400#16 s))
    else
      some (.done (shiftBit 0xB400#16 s)) := by
  have hshift : (if s &&& 1#16 ≠ 0#16 then s >>> 1 ^^^ 0xB400#16 else s >>> 1) =
      shiftBit 0xB400#16 s := if_congr (and_one_ne_zero s) rfl rfl
  rw [nextPidRound, hshift]

theorem unused_iff (mq : MessageQueue) (p : BitVec 16) :
    ¬ (mq.queue.any fun m => m.packet_id = p) = true ↔ Unused mq p := by
  rw [List.any_eq_true]
  constructor
  · intro h m hm heq
    exact h ⟨m, hm, decide_eq_true heq⟩
  · rintro h ⟨m, hm, heq⟩
    exact h m hm (of_decide_eq_true heq)

/-- What the loop gives is unused and further on in the register. -/
theorem iterate_unused (h : iterate (nextPidRound mq) fuel s = some p) :
    Unused mq p ∧ ∃ n, p = shiftBits 0xB400#16 (n + 1) s := by
  induction fuel generalizing s with
  | zero => cases h
  | succ fuel ih =>
    have hround := nextPidRound_eq mq s
    split at hround
    case isTrue =>
      rw [iterate_next hround] at h
      obtain ⟨hunused, n, rfl⟩ := ih h
      exact ⟨hunused, n + 1, rfl⟩
    case isFalse hno =>
      rw [iterate_done hround] at h
      cases h
      exact ⟨(unused_iff mq _).1 hno, 0, rfl⟩

/-- The loop is over once the register gets to an unused identifier. -/
theorem iterate_isSome (hn : n < fuel) (h : Unused mq (shiftBits 0xB400#16 (n + 1) s)) :
    ∃ p, iterate (nextPidRound mq) fuel s = some p := by
  induction fuel generalizing s n with
  | zero => cases hn
  | succ fuel ih =>
    have hround := nextPidRound_eq mq s
    split at hround
    case isTrue hused =>
      rw [iterate_next hround]
      cases n with
      | zero => exact absurd hused ((unused_iff mq _).2 h)
      | succ n => exact ih (Nat.lt_of_succ_lt_succ hn) h
    case isFalse => exact ⟨_, iterate_done hround fuel⟩

/-- Whatever the register holds, the loop ends when some identifier other than zero is unused, and
gives such a one; otherwise it never ends. -/
theorem mqttNextPid_spec (mq : MessageQueue) (pid_lfsr : BitVec 16) :
    (∀ p, mqttNextPid mq pid_lfsr = some p ↔ Returns (nextPidRound mq) (seedLfsr pid_lfsr) p) ∧
    (∀ p, mqttNextPid mq pid_lfsr = some p → p ≠ 0#16 ∧ Unused mq p) ∧
    ((∃ p, mqttNextPid mq pid_lfsr = some p) ↔ ∃ p ≠ 0#16, Unused mq p) := by
  have hseed := seedLfsr_ne_zero pid_lfsr
  have hone : 1#16 ≠ 0#16 := by decide
  have hnonzero (n : Nat) : shiftBits 0xB400#16 n (seedLfsr pid_lfsr) ≠ 0#16 := by
    obtain ⟨j, _, hj⟩ := exists_shiftBits_eq minimalPeriod_lfsr hone hseed
    rw [← hj, ← shiftBits_add]
    exact shiftBits_ne_zero minimalPeriod_lfsr hone _
  have hfree (q : BitVec 16) (hq : q ≠ 0#16) (hunused : Unused mq q) :
      ∃ p, mqttNextPid mq pid_lfsr = some p := by
    obtain ⟨n, hn, rfl⟩ :=
      exists_shiftBits_eq_of_ne_zero minimalPeriod_lfsr hone hseed hq
    exact iterate_isSome hn hunused
  have hspec (fuel : Nat) (p : BitVec 16)
      (h : iterate (nextPidRound mq) fuel (seedLfsr pid_lfsr) = some p) :
      p ≠ 0#16 ∧ Unused mq p := by
    obtain ⟨hunused, n, rfl⟩ := iterate_unused h
    exact ⟨hnonzero _, hunused⟩
  refine ⟨?_, hspec 65535, ?_⟩
  · intro p
    constructor
    · exact fun h => ⟨65535, h⟩
    · rintro ⟨fuel, h⟩
      obtain ⟨hp, hunused⟩ := hspec fuel p h
      obtain ⟨p', hp'⟩ := hfree p hp hunused
      rw [hp', Returns.unique ⟨65535, hp'⟩ ⟨fuel, h⟩]
  · constructor
    · rintro ⟨p, h⟩
      exact ⟨p, hspec 65535 p h⟩
    · rintro ⟨p, hp, hunused⟩
      exact hfree p hp hunused

end NextPid

end BigBox.Mqtt
