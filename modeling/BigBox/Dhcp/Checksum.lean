import Mathlib.Algebra.BigOperators.Group.List.Basic
import BigBox.Lib.CInt

namespace BigBox.Checksum
set_option autoImplicit true

/-- The order of the two bytes of a word in memory. -/
inductive ByteOrder where
  | little
  | big

/-- A word read from memory. -/
def ByteOrder.load : ByteOrder → UInt8 → UInt8 → UInt16
  | .little, b₀, b₁ => UInt16.ofNat (b₀.toNat + 256 * b₁.toNat)
  | .big, b₀, b₁ => UInt16.ofNat (256 * b₀.toNat + b₁.toNat)

/-- The bytes of a word in memory. -/
def ByteOrder.store : ByteOrder → UInt16 → List UInt8
  | .little, w => [UInt8.ofNat w.toNat, UInt8.ofNat (w.toNat / 256)]
  | .big, w => [UInt8.ofNat (w.toNat / 256), UInt8.ofNat w.toNat]

/-- The loop of `csum_ip`, which has no result if it reads behind the words. -/
def csumIpLoop : List UInt16 → Int → Nat → Option Nat
  | [], nwords, sum => if 0 < nwords then none else some sum
  | w :: buf, nwords, sum =>
    if 0 < nwords then csumIpLoop buf (nwords - 1) (sizeT (sum + w.toNat)) else some sum

/-- `csum_ip`. -/
def csumIp (buf : List UInt16) (nwords : Int) : Option UInt16 :=
  (csumIpLoop buf nwords 0).map fun sum =>
    let sum := sizeT ((sum >>> 16) + (sum &&& 0xffff))
    let sum := sizeT (sum + (sum >>> 16))
    ~~~ UInt16.ofNat sum

/-- The loop of `cal_chksum`: what is left of the bytes and of the length, and the sum. -/
def calChksumLoop (order : ByteOrder) : List UInt8 → Int → Int → Option (List UInt8 × Int × Int)
  | b₀ :: b₁ :: w, nleft, sum =>
    if 1 < nleft then
      (checkedInt (sum + (order.load b₀ b₁).toNat)).bind (calChksumLoop order w (nleft - 2))
    else some (b₀ :: b₁ :: w, nleft, sum)
  | w, nleft, sum => if 1 < nleft then none else some (w, nleft, sum)

/-- The odd byte at the end of `cal_chksum`, which is the first byte of a word. -/
def calChksumOdd (order : ByteOrder) (w : List UInt8) (nleft sum : Int) : Option Int :=
  if nleft = 1 then w.head?.bind fun b => checkedInt (sum + (order.load b 0).toNat) else some sum

/-- `cal_chksum`. -/
def calChksum (order : ByteOrder) (addr : List UInt8) (len : Int) : Option UInt16 :=
  (calChksumLoop order addr len 0).bind fun (w, nleft, sum) =>
    (calChksumOdd order w nleft sum).bind fun sum =>
      (checkedInt (sum / 65536 + sum % 65536)).bind fun sum =>
        (checkedInt (sum + sum / 65536)).map fun sum => ~~~ UInt16.ofNat (sum % 65536).toNat

/-- The sum of the words, with no bound. -/
def total (words : List UInt16) : Nat :=
  (words.map UInt16.toNat).sum

/-- The low word of a sum with its carry added to the low word, twice. -/
def folded (sum : Nat) : Nat :=
  ((sum / 65536 + sum % 65536) + (sum / 65536 + sum % 65536) / 65536) % 65536

/-- The checksum of words with the sum. -/
def checksum (sum : Nat) : UInt16 :=
  ~~~ UInt16.ofNat (folded sum)

section Total
variable {words words' : List UInt16} {w : UInt16} {i : Nat}

theorem total_cons (w : UInt16) (words : List UInt16) :
    total (w :: words) = w.toNat + total words := by
  rw [total, List.map_cons, List.sum_cons, total]

theorem total_le (words : List UInt16) : total words ≤ words.length * 65535 := by
  induction words with
  | nil => exact Nat.le_refl 0
  | cons w words ih =>
    have hw := w.toNat_lt
    rw [total_cons, List.length_cons]
    omega

theorem total_perm (h : words.Perm words') : total words = total words' :=
  (h.map UInt16.toNat).sum_eq

/-- The sum grows by the word stored over a zero. -/
theorem total_set (h : words[i]? = some 0) (w : UInt16) :
    total (words.set i w) = total words + w.toNat := by
  induction words generalizing i with
  | nil => cases h
  | cons w₀ words ih =>
    cases i with
    | zero =>
      cases Option.some.inj h
      rw [List.set_cons_zero, total_cons, total_cons]
      exact Nat.add_comm _ _ |>.trans (congrArg (· + _) (Nat.zero_add _).symm)
    | succ i =>
      rw [List.set_cons_succ, total_cons, total_cons, ih h, Nat.add_assoc]

end Total

section Folded
variable {sum : Nat}

theorem folded_lt (sum : Nat) : folded sum < 65536 := by
  rw [folded]
  exact Nat.mod_lt _ (by decide)

/-- No carry is left after two folds of the sum of 32767 words. -/
theorem folded_eq (h : sum ≤ 2147385345) :
    folded sum = sum / 65536 + sum % 65536 ∨
      0 < folded sum ∧ folded sum + 65535 = sum / 65536 + sum % 65536 := by
  rw [folded]
  rcases Nat.lt_or_ge (sum / 65536 + sum % 65536) 65536 with hlt | hge
  · left
    rw [Nat.div_eq_of_lt hlt, Nat.add_zero, Nat.mod_eq_of_lt hlt]
  · right
    have hdiv : (sum / 65536 + sum % 65536) / 65536 = 1 := by
      omega
    rw [hdiv]
    constructor
    · omega
    · omega

/-- A fold takes multiples of 65535 away. -/
theorem folded_mod (h : sum ≤ 2147385345) : folded sum % 65535 = sum % 65535 := by
  have hsplit := Nat.div_add_mod sum 65536
  have hfolded := folded_eq h
  omega

theorem folded_pos (h : sum ≤ 2147385345) (hpos : 0 < sum) : 0 < folded sum := by
  have hsplit := Nat.div_add_mod sum 65536
  have hfolded := folded_eq h
  omega

/-- The complement of a folded sum, the last word added, folds to the other zero. -/
theorem folded_complement (h : sum + (65535 - folded sum) ≤ 2147385345)
    (hsum : sum ≤ 2147385345) : folded (sum + (65535 - folded sum)) = 65535 := by
  have hlt := folded_lt sum
  have hmod := folded_mod hsum
  have hlt' := folded_lt (sum + (65535 - folded sum))
  have hmod' := folded_mod h
  have hpos : 0 < sum + (65535 - folded sum) := by
    rcases Nat.eq_zero_or_pos sum with hzero | hzero
    · subst hzero
      decide
    · exact Nat.add_pos_left hzero _
  have hpos' := folded_pos h hpos
  omega

theorem checksum_toNat (sum : Nat) : (checksum sum).toNat = 65535 - folded sum := by
  rw [checksum, UInt16.toNat_not, UInt16.toNat_ofNat_of_lt' (folded_lt sum)]
  rfl

end Folded

section Loops
variable {order : ByteOrder} {words : List UInt16}

theorem csumIpLoop_eq (words : List UInt16) (sum : Nat)
    (h : sum + total words < 18446744073709551616) :
    csumIpLoop words words.length sum = some (sum + total words) := by
  induction words generalizing sum with
  | nil => rfl
  | cons w words ih =>
    rw [total_cons, ← Nat.add_assoc] at h
    have hpos : (0 : Int) < (w :: words).length := by
      rw [List.length_cons]
      omega
    have hlen : ((w :: words).length : Int) - 1 = words.length := by
      rw [List.length_cons]
      omega
    rw [csumIpLoop, if_pos hpos, hlen, sizeT_of_lt (by omega), ih _ h, total_cons, Nat.add_assoc]

/-- `csum_ip` is a function of the sum of the words. -/
theorem csumIp_eq (h : words.length ≤ 32767) :
    csumIp words words.length = some (checksum (total words)) := by
  have hle := total_le words
  have hsum : total words ≤ 2147385345 := hle.trans (Nat.mul_le_mul_right 65535 h)
  have hand : total words &&& 0xffff = total words % 65536 :=
    Nat.and_two_pow_sub_one_eq_mod (total words) 16
  rw [csumIp, csumIpLoop_eq words 0 (by omega), Option.map_some, Nat.zero_add]
  simp only [Nat.shiftRight_eq_div_pow, hand, Nat.reducePow]
  rw [sizeT_of_lt (n := _ / _ + _) (by omega), sizeT_of_lt (by omega), checksum, folded,
    UInt16.ofNat_mod_size]

theorem load_store (order : ByteOrder) (w : UInt16) :
    ∃ b₀ b₁, order.store w = [b₀, b₁] ∧ order.load b₀ b₁ = w := by
  have hw := w.toNat_lt
  cases order with
  | little =>
    refine ⟨_, _, rfl, ?_⟩
    rw [ByteOrder.load, UInt8.toNat_ofNat', UInt8.toNat_ofNat']
    rw [Nat.mod_eq_of_lt (a := w.toNat / 256) (by omega), Nat.mod_add_div]
    exact UInt16.ofNat_toNat
  | big =>
    refine ⟨_, _, rfl, ?_⟩
    rw [ByteOrder.load, UInt8.toNat_ofNat', UInt8.toNat_ofNat']
    rw [Nat.mod_eq_of_lt (a := w.toNat / 256) (by omega), Nat.div_add_mod]
    exact UInt16.ofNat_toNat

theorem calChksumLoop_eq (order : ByteOrder) (words : List UInt16) (sum : Nat)
    (h : sum + total words < 2147483648) :
    calChksumLoop order (words.flatMap order.store) (2 * words.length) sum =
      some ([], 0, ((sum + total words : Nat) : Int)) := by
  induction words generalizing sum with
  | nil => rfl
  | cons w words ih =>
    obtain ⟨b₀, b₁, hstore, hload⟩ := load_store order w
    rw [total_cons, ← Nat.add_assoc] at h
    have hpos : (1 : Int) < 2 * ((w :: words).length : Int) := by
      rw [List.length_cons]
      omega
    have hlen : 2 * ((w :: words).length : Int) - 2 = 2 * words.length := by
      rw [List.length_cons]
      omega
    have hsum : checkedInt ((sum : Int) + w.toNat) = some ((sum + w.toNat : Nat) : Int) :=
      checkedInt_of_lt (by omega) (by omega)
    rw [List.flatMap_cons, hstore, List.cons_append, List.cons_append, List.nil_append,
      calChksumLoop, if_pos hpos, hload, hsum, Option.bind_some, hlen, ih _ h, total_cons,
      Nat.add_assoc]

/-- `cal_chksum` is the same function of the sum of the words as `csum_ip`. -/
theorem calChksum_eq (order : ByteOrder) (h : words.length ≤ 32767) :
    calChksum order (words.flatMap order.store) (2 * words.length) =
      some (checksum (total words)) := by
  have hle := total_le words
  have hsum : total words ≤ 2147385345 := hle.trans (Nat.mul_le_mul_right 65535 h)
  have hfold : ((((total words : Int) / 65536 + (total words : Int) % 65536) +
      ((total words : Int) / 65536 + (total words : Int) % 65536) / 65536) % 65536).toNat =
      folded (total words) := by
    rw [folded, ← Int.toNat_natCast (_ % 65536)]
    push_cast
    rfl
  have hloop := calChksumLoop_eq order words 0 (by omega)
  rw [Nat.zero_add, Int.natCast_zero] at hloop
  rw [calChksum, hloop, Option.bind_some]
  simp only [calChksumOdd]
  rw [if_neg (by decide), Option.bind_some, checkedInt_of_lt (by omega) (by omega),
    Option.bind_some, checkedInt_of_lt (by omega) (by omega), Option.map_some, hfold, checksum]

end Loops

/-- With its checksum stored over a zero word a header has the checksum 0. The order of the words
does not matter, and both functions compute it. -/
theorem csumIp_verifies (words : List UInt16) (i : Nat) (hlen : words.length ≤ 32767)
    (hfield : words[i]? = some 0) :
    ∃ sum, csumIp words words.length = some sum ∧
      csumIp (words.set i sum) words.length = some 0 ∧
      (∀ words', words'.Perm words → csumIp words' words'.length = some sum) ∧
      ∀ order : ByteOrder,
        calChksum order (words.flatMap order.store) (2 * words.length) = some sum := by
  have hle := total_le words
  have hsum : total words ≤ 2147385345 := hle.trans (Nat.mul_le_mul_right 65535 hlen)
  refine ⟨checksum (total words), csumIp_eq hlen, ?_, fun words' hperm => ?_,
    fun order => calChksum_eq order hlen⟩
  · have hset := total_set hfield (checksum (total words))
    have hle' := total_le (words.set i (checksum (total words)))
    have hlen' : (words.set i (checksum (total words))).length = words.length := List.length_set
    have hsum' : total (words.set i (checksum (total words))) ≤ 2147385345 :=
      hle'.trans (Nat.mul_le_mul_right 65535 (hlen'.trans_le hlen))
    have heq := csumIp_eq (hlen'.trans_le hlen)
    rw [hlen'] at heq
    rw [hset, checksum_toNat] at hsum' heq
    rw [heq, checksum, folded_complement hsum' hsum]
    rfl
  · rw [csumIp_eq (hperm.length_eq.trans_le hlen), total_perm hperm]

theorem csumIp_verifies_datagram :
    ∃ sum, csumIp [0x0045, 0x3412, 0] 3 = some sum ∧
      csumIp ([0x0045, 0x3412, 0].set 2 sum) 3 = some 0 ∧
      (∀ words', words'.Perm [0x0045, 0x3412, 0] → csumIp words' words'.length = some sum) ∧
      ∀ order : ByteOrder,
        calChksum order ([0x0045, 0x3412, 0].flatMap order.store) (2 * 3) = some sum :=
  csumIp_verifies [0x0045, 0x3412, 0] 2 (by decide) rfl

/-- An odd byte at the end counts as the first byte of a word. -/
example : calChksum .little [0x45, 0, 0x12, 0x34, 7] 5 = some 52129 := by
  decide

end BigBox.Checksum
