import BigBox.Lib.CInt
import BigBox.Lib.Sextets

namespace BigBox.Base64
set_option autoImplicit true

/-- The letters, the digits, `+` and `/`. -/
def base64Table : List UInt8 :=
  (List.range 26).map (fun i => UInt8.ofNat (65 + i)) ++
    (List.range 26).map (fun i => UInt8.ofNat (97 + i)) ++
    (List.range 10).map (fun i => UInt8.ofNat (48 + i)) ++ [43, 47]

def table (i : Nat) : UInt8 := base64Table.getD i 0

/-- A `char` as an `unsigned`. -/
def unsignedChar (c : UInt8) : Nat := if c < 128 then c.toNat else c.toNat + 4294967040

/-- The four letters written for `X1`, `X2` and `X3`. -/
def encodeGroup (x1 x2 x3 : Nat) : List UInt8 :=
  [table ((x1 &&& 252) >>> 2), table (((x2 &&& 240) >>> 4 ||| (x1 &&& 3) <<< 4) &&& 255),
    table (((x3 &&& 192) >>> 6 ||| (x2 &&& 15) <<< 2) &&& 255), table (x3 &&& 63)]

/-- The loop of `base64_encode`. It reads the byte at `in_end`, and a zero for what is behind. -/
def encodeLoop (in_end : UInt8) : List UInt8 → List UInt8
  | [] => []
  | [a] => encodeGroup (unsignedChar a) (unsignedChar in_end) 0
  | [a, b] => encodeGroup (unsignedChar a) (unsignedChar b) (unsignedChar in_end)
  | a :: b :: c :: rest =>
    encodeGroup (unsignedChar a) (unsignedChar b) (unsignedChar c) ++ encodeLoop in_end rest

/-- The text written, without its zero byte, if there is one. -/
def base64Encode (bytes : List UInt8) (in_end : UInt8) : Option (List UInt8) :=
  if bytes.length < 1 then none
  else
    let out := encodeLoop in_end bytes
    let len_buf := bytes.length % 3
    let equals := if len_buf = 0 then 0 else if len_buf = 1 then 2 else 1
    some (out.take (out.length - equals) ++ List.replicate equals 61)

/-- The search of `base64_decode`: it starts below `i`, which is 63. -/
def lookup (s : UInt8) : Nat → Option Nat
  | 0 => none
  | i + 1 => if s = table i then some i else lookup s i

/-- The bits of `N1` to `N4`. -/
structure Registers where
  n1 : Nat
  n2 : Nat
  n3 : Nat
  n4 : Nat

/-- A letter that is not found leaves its register as it was. -/
def Registers.load (r : Registers) (s1 s2 s3 s4 : UInt8) : Registers :=
  ⟨(lookup s1 63).getD r.n1, (lookup s2 63).getD r.n2, (lookup s3 63).getD r.n3,
    (lookup s4 63).getD r.n4⟩

def Registers.bytes (r : Registers) : List UInt8 :=
  [UInt8.ofNat (((r.n2 &&& 48) >>> 4 ||| r.n1 <<< 2) &&& 255),
    UInt8.ofNat (((r.n3 &&& 60) >>> 2 ||| r.n2 <<< 4) &&& 255),
    UInt8.ofNat (((r.n3 &&& 3) * 64 &&& 255) ||| (r.n4 &&& 63))]

/-- The loop of `base64_decode` up to a zero byte, if there are four letters each time. -/
def decodeLoop (r : Registers) : List UInt8 → Option (List UInt8)
  | [] => none
  | s1 :: rest =>
    if s1 = 0 then some []
    else match rest with
      | s2 :: s3 :: s4 :: rest =>
        let r := r.load s1 s2 s3 s4
        (decodeLoop r rest).map (r.bytes ++ ·)
      | _ => none

/-- The equals signs at the end are overwritten. -/
def replaceEquals (mem : List UInt8) (in_len : Nat) : List UInt8 :=
  if mem.getD (in_len - 1) 0 = 61 then
    let mem := mem.set (in_len - 1) 65
    if mem.getD (in_len - 2) 0 = 61 then mem.set (in_len - 2) 65 else mem
  else mem

/-- The bytes written, from what the registers hold at first and the memory at `in`. -/
def base64Decode (r : Registers) (mem : List UInt8) (in_len : Nat) : Option (List UInt8) :=
  if in_len < 1 ∨ 0 < in_len &&& 3 then none else decodeLoop r (replaceEquals mem in_len)

section Table

theorem lookup_table : ∀ v < 64, lookup (table v) 63 = if v < 63 then some v else none := by
  decide

theorem table_ne_zero : ∀ v < 64, table v ≠ 0 := by decide

theorem table_ne_equals : ∀ v < 64, table v ≠ 61 := by decide

theorem unsignedChar_mod (c : UInt8) : unsignedChar c % 256 = c.toNat := by
  have hlt := c.toNat_lt
  rw [unsignedChar]
  split
  · omega
  · omega

theorem encodeGroup_eq (h1 : x1 % 256 = a) (h2 : x2 % 256 = b) (h3 : x3 % 256 = c) :
    encodeGroup x1 x2 x3 = [table (a / 4), table (a % 4 * 16 + b / 16),
      table (b % 16 * 4 + c / 64), table (c % 64)] := by
  obtain ⟨ha1, ha2, -, -, -, -⟩ := and_shift_or h1
  obtain ⟨-, -, hb1, hb2, -, -⟩ := and_shift_or h2
  obtain ⟨-, -, -, -, hc1, hc2⟩ := and_shift_or h3
  have hand : ∀ x, x &&& 255 = x % 256 := fun x => Nat.and_two_pow_sub_one_eq_mod x 8
  have hab : b / 16 ||| a % 4 * 16 = a % 4 * 16 + b / 16 :=
    or_mul_two_pow (k := 4) (by omega)
  have hbc : c / 64 ||| b % 16 * 4 = b % 16 * 4 + c / 64 :=
    or_mul_two_pow (k := 2) (by omega)
  rw [encodeGroup, ha1, ha2, hb1, hb2, hc1, hc2, hab, hbc, hand, hand,
    Nat.mod_eq_of_lt (by omega : a % 4 * 16 + b / 16 < 256),
    Nat.mod_eq_of_lt (by omega : b % 16 * 4 + c / 64 < 256)]

/-- The letters of the groups of six bits, and what is cut off. -/
theorem encodeLoop_eq (bytes : List UInt8) :
    ∃ cut, encodeLoop 0 bytes = (sextets bytes).map table ++ cut ∧
      cut.length = padding bytes := by
  have hzero : unsignedChar 0 % 256 = 0 := unsignedChar_mod 0
  induction bytes using sextets.induct with
  | case1 => exact ⟨[], rfl, rfl⟩
  | case2 a =>
    refine ⟨[table 0, table 0], ?_, rfl⟩
    rw [encodeLoop, encodeGroup_eq (unsignedChar_mod a) hzero (Nat.zero_mod _), sextets]
    simp only [Nat.zero_div, Nat.add_zero, Nat.zero_mod, Nat.zero_mul, List.map_cons, List.map_nil,
      List.cons_append, List.nil_append]
  | case3 a b =>
    refine ⟨[table 0], ?_, rfl⟩
    rw [encodeLoop, encodeGroup_eq (unsignedChar_mod a) (unsignedChar_mod b) hzero, sextets]
    simp only [Nat.zero_div, Nat.add_zero, Nat.zero_mod, List.map_cons, List.map_nil,
      List.cons_append, List.nil_append]
  | case4 a b c rest ih =>
    obtain ⟨cut, hcut, hlen⟩ := ih
    refine ⟨cut, ?_, by rw [padding, hlen]⟩
    rw [encodeLoop, encodeGroup_eq (unsignedChar_mod a) (unsignedChar_mod b) (unsignedChar_mod c),
      hcut, sextets]
    simp only [List.map_cons, List.cons_append, List.nil_append]

/-- What is written for bytes with a zero byte behind them. -/
theorem base64Encode_eq (h : 1 ≤ bytes.length) :
    base64Encode bytes 0 =
      some ((sextets bytes).map table ++ List.replicate (padding bytes) 61) := by
  obtain ⟨cut, hcut, hlen⟩ := encodeLoop_eq bytes
  have hpad : (if bytes.length % 3 = 0 then 0 else if bytes.length % 3 = 1 then 2 else 1) =
      padding bytes := by
    rw [padding_eq]
    split
    · rfl
    · split
      · omega
      · omega
  rw [base64Encode, if_neg (Nat.not_lt.2 h)]
  dsimp only
  rw [hpad, hcut, List.length_append, hlen, Nat.add_sub_cancel, List.take_left]

end Table

section Decode
variable {r : Registers} {bytes pad out : List UInt8}

theorem bytes_eq (r : Registers) :
    r.bytes = [UInt8.ofNat (r.n1 % 64 * 4 + r.n2 / 16 % 4),
      UInt8.ofNat (r.n2 % 16 * 16 + r.n3 / 4 % 16), UInt8.ofNat (r.n3 % 4 * 64 + r.n4 % 64)] := by
  have hand : ∀ x n, x &&& (2 ^ n - 1) = x % 2 ^ n := fun x n => Nat.and_two_pow_sub_one_eq_mod x n
  have h2 : (r.n2 &&& 48) >>> 4 = r.n2 / 16 % 4 := by
    rw [Nat.shiftRight_and_distrib, Nat.shiftRight_eq_div_pow]
    exact hand _ 2
  have h3 : (r.n3 &&& 60) >>> 2 = r.n3 / 4 % 16 := by
    rw [Nat.shiftRight_and_distrib, Nat.shiftRight_eq_div_pow]
    exact hand _ 4
  have h12 : r.n2 / 16 % 4 ||| r.n1 * 2 ^ 2 = r.n1 * 2 ^ 2 + r.n2 / 16 % 4 :=
    or_mul_two_pow (by omega)
  have h23 : r.n3 / 4 % 16 ||| r.n2 * 2 ^ 4 = r.n2 * 2 ^ 4 + r.n3 / 4 % 16 :=
    or_mul_two_pow (by omega)
  have h34 : r.n4 % 64 ||| r.n3 % 4 * 2 ^ 6 = r.n3 % 4 * 2 ^ 6 + r.n4 % 64 :=
    or_mul_two_pow (by omega)
  have hand255 := fun x => hand x 8
  have hand63 := hand r.n4 6
  have hand3 := hand r.n3 2
  simp only [Nat.reducePow, Nat.add_one_sub_one] at hand255 hand63 hand3 h12 h23 h34
  rw [Nat.or_comm] at h34
  have hsmall : r.n3 % 4 * 64 % 256 = r.n3 % 4 * 64 := Nat.mod_eq_of_lt (by omega)
  have hfirst : (r.n1 * 4 + r.n2 / 16 % 4) % 256 = r.n1 % 64 * 4 + r.n2 / 16 % 4 := by omega
  have hsecond : (r.n2 * 16 + r.n3 / 4 % 16) % 256 = r.n2 % 16 * 16 + r.n3 / 4 % 16 := by omega
  simp only [Registers.bytes, h2, h3, Nat.shiftLeft_eq, hand255, hand63, hand3, Nat.reducePow, h12,
    h23, hsmall, h34, hfirst, hsecond]

theorem ofNat_eq_iff (h : n < 256) (a : UInt8) : UInt8.ofNat n = a ↔ n = a.toNat := by
  rw [← UInt8.toNat_inj, UInt8.toNat_ofNat', Nat.mod_eq_of_lt h]

/-- The registers that give three bytes. -/
theorem bytes_eq_iff (r : Registers) (a b c : UInt8) :
    r.bytes = [a, b, c] ↔ r.n1 % 64 = a.toNat / 4 ∧ r.n2 % 64 = a.toNat % 4 * 16 + b.toNat / 16 ∧
      r.n3 % 64 = b.toNat % 16 * 4 + c.toNat / 64 ∧ r.n4 % 64 = c.toNat % 64 := by
  have ha := a.toNat_lt
  have hb := b.toNat_lt
  have hc := c.toNat_lt
  simp only [bytes_eq, List.cons.injEq, and_true]
  rw [ofNat_eq_iff (by omega), ofNat_eq_iff (by omega), ofNat_eq_iff (by omega)]
  omega

theorem bytes_prefix_two (r : Registers) (a b : UInt8) (out : List UInt8) :
    [a, b] <+: r.bytes ++ out ↔ r.n1 % 64 = a.toNat / 4 ∧
      r.n2 % 64 = a.toNat % 4 * 16 + b.toNat / 16 ∧ r.n3 / 4 % 16 = b.toNat % 16 := by
  have ha := a.toNat_lt
  have hb := b.toNat_lt
  rw [bytes_eq]
  simp only [List.cons_append, List.cons_prefix_cons, List.nil_prefix, and_true]
  rw [eq_comm, ofNat_eq_iff (by omega), eq_comm (a := b), ofNat_eq_iff (by omega)]
  omega

theorem bytes_prefix_one (r : Registers) (a : UInt8) (out : List UInt8) :
    [a] <+: r.bytes ++ out ↔ r.n1 % 64 = a.toNat / 4 ∧ r.n2 / 16 % 4 = a.toNat % 4 := by
  have ha := a.toNat_lt
  rw [bytes_eq]
  simp only [List.cons_append, List.cons_prefix_cons, List.nil_prefix, and_true]
  rw [eq_comm, ofNat_eq_iff (by omega)]
  omega

theorem lookup_getD (h : v < 64) (n : Nat) :
    (lookup (table v) 63).getD n = if v < 63 then v else n := by
  rw [lookup_table v h]
  split
  · rfl
  · rfl

/-- Four letters are four letters of the loop. -/
theorem decodeLoop_cons (h : v < 64) (r : Registers) (s2 s3 s4 : UInt8) (rest : List UInt8) :
    decodeLoop r (table v :: s2 :: s3 :: s4 :: rest) =
      (decodeLoop (r.load (table v) s2 s3 s4) rest).map
        ((r.load (table v) s2 s3 s4).bytes ++ ·) := by
  rw [decodeLoop, if_neg (table_ne_zero v h)]

theorem decodeLoop_zero (r : Registers) : decodeLoop r [0] = some [] := rfl

/-- Bytes without a group of six ones are found again. -/
theorem decodeLoop_sextets (h : 63 ∉ sextets bytes) (hpad : pad.length = padding bytes) :
    ∃ out, decodeLoop r ((sextets bytes).map table ++ pad ++ [0]) = some out ∧
      bytes <+: out := by
  have hlt := sextets_lt bytes
  induction bytes using sextets.induct generalizing r with
  | case1 =>
    rw [padding] at hpad
    rw [List.length_eq_zero_iff.1 hpad]
    exact ⟨[], decodeLoop_zero r, List.nil_prefix⟩
  | case2 a =>
    obtain ⟨p, q, rfl⟩ := List.length_eq_two.1 hpad
    simp only [sextets, List.forall_mem_cons] at hlt
    simp only [sextets, List.mem_cons, not_or] at h
    refine ⟨_, ?_, (bytes_prefix_one (r.load (table (a.toNat / 4)) (table (a.toNat % 4 * 16)) p q)
      a []).2 ?_⟩
    · simp only [sextets, List.map_cons, List.map_nil, List.cons_append, List.nil_append]
      rw [decodeLoop_cons hlt.1, decodeLoop_zero]
      rfl
    · simp only [Registers.load]
      rw [lookup_getD hlt.1, lookup_getD hlt.2.1, if_pos (by omega), if_pos (by omega)]
      omega
  | case3 a b =>
    obtain ⟨p, rfl⟩ := List.length_eq_one_iff.1 hpad
    simp only [sextets, List.forall_mem_cons] at hlt
    simp only [sextets, List.mem_cons, not_or] at h
    refine ⟨_, ?_, (bytes_prefix_two (r.load (table (a.toNat / 4))
      (table (a.toNat % 4 * 16 + b.toNat / 16)) (table (b.toNat % 16 * 4)) p) a b []).2 ?_⟩
    · simp only [sextets, List.map_cons, List.map_nil, List.cons_append, List.nil_append]
      rw [decodeLoop_cons hlt.1, decodeLoop_zero]
      rfl
    · simp only [Registers.load]
      rw [lookup_getD hlt.1, lookup_getD hlt.2.1, lookup_getD hlt.2.2.1, if_pos (by omega),
        if_pos (by omega), if_pos (by omega)]
      omega
  | case4 a b c rest ih =>
    simp only [sextets, List.forall_mem_cons] at hlt
    simp only [sextets, List.mem_cons, not_or] at h
    obtain ⟨h1, h2, h3, h4, hrest⟩ := h
    obtain ⟨hlt1, hlt2, hlt3, hlt4, hltrest⟩ := hlt
    obtain ⟨out, hout, hbegin⟩ := ih hrest (r := r.load (table (a.toNat / 4))
      (table (a.toNat % 4 * 16 + b.toNat / 16)) (table (b.toNat % 16 * 4 + c.toNat / 64))
      (table (c.toNat % 64))) (by rw [hpad, padding]) hltrest
    refine ⟨[a, b, c] ++ out, ?_, List.prefix_append_right_inj [a, b, c] |>.2 hbegin⟩
    simp only [sextets, List.map_cons, List.cons_append]
    rw [decodeLoop_cons hlt1, hout, (bytes_eq_iff _ a b c).2]
    · rfl
    · simp only [Registers.load]
      rw [lookup_getD hlt1, lookup_getD hlt2, lookup_getD hlt3, lookup_getD hlt4,
        if_pos (by omega), if_pos (by omega), if_pos (by omega), if_pos (by omega)]
      omega

/-- Registers that hold no `/`. -/
structure Registers.Small (r : Registers) : Prop where
  n1 : r.n1 < 63
  n2 : r.n2 < 63
  n3 : r.n3 < 63
  n4 : r.n4 < 63

theorem lookup_lt (s : UInt8) (h : n < 63) (i : Nat) (hi : i ≤ 63) : (lookup s i).getD n < 63 := by
  induction i with
  | zero => exact h
  | succ i ih =>
    rw [lookup]
    split
    · exact hi
    · exact ih (Nat.le_of_succ_le hi)

theorem Registers.Small.load (h : r.Small) (s1 s2 s3 s4 : UInt8) : (r.load s1 s2 s3 s4).Small :=
  ⟨lookup_lt s1 h.n1 63 (Nat.le_refl 63), lookup_lt s2 h.n2 63 (Nat.le_refl 63),
    lookup_lt s3 h.n3 63 (Nat.le_refl 63), lookup_lt s4 h.n4 63 (Nat.le_refl 63)⟩

theorem Registers.Small.ne (h : r.Small) :
    r.n1 % 64 ≠ 63 ∧ r.n2 % 64 ≠ 63 ∧ r.n3 % 64 ≠ 63 ∧ r.n4 % 64 ≠ 63 := by
  have h1 := h.n1
  have h2 := h.n2
  have h3 := h.n3
  have h4 := h.n4
  omega

/-- A group of six ones is not found again by registers that hold none. -/
theorem sextets_of_decodeLoop (hr : r.Small) (hpad : pad.length = padding bytes)
    (hdecode : decodeLoop r ((sextets bytes).map table ++ pad ++ [0]) = some out)
    (hbegin : bytes <+: out) : 63 ∉ sextets bytes := by
  have hlt := sextets_lt bytes
  induction bytes using sextets.induct generalizing r out with
  | case1 => exact List.not_mem_nil
  | case2 a =>
    obtain ⟨p, q, rfl⟩ := List.length_eq_two.1 hpad
    simp only [sextets, List.forall_mem_cons] at hlt
    simp only [sextets, List.map_cons, List.map_nil, List.cons_append, List.nil_append] at hdecode
    rw [decodeLoop_cons hlt.1, decodeLoop_zero] at hdecode
    cases hdecode
    have hbytes := (bytes_prefix_one _ a []).1 hbegin
    obtain ⟨hne, -⟩ := (hr.load (table (a.toNat / 4)) (table (a.toNat % 4 * 16)) p q).ne
    simp only [sextets, List.mem_cons, List.not_mem_nil, or_false, not_or]
    omega
  | case3 a b =>
    obtain ⟨p, rfl⟩ := List.length_eq_one_iff.1 hpad
    simp only [sextets, List.forall_mem_cons] at hlt
    simp only [sextets, List.map_cons, List.map_nil, List.cons_append, List.nil_append] at hdecode
    rw [decodeLoop_cons hlt.1, decodeLoop_zero] at hdecode
    cases hdecode
    have hbytes := (bytes_prefix_two _ a b []).1 hbegin
    obtain ⟨hne1, hne2, -⟩ := (hr.load (table (a.toNat / 4))
      (table (a.toNat % 4 * 16 + b.toNat / 16)) (table (b.toNat % 16 * 4)) p).ne
    simp only [sextets, List.mem_cons, List.not_mem_nil, or_false, not_or]
    omega
  | case4 a b c rest ih =>
    simp only [sextets, List.forall_mem_cons] at hlt
    obtain ⟨hlt1, hlt2, hlt3, hlt4, hltrest⟩ := hlt
    simp only [sextets, List.map_cons, List.cons_append] at hdecode
    rw [decodeLoop_cons hlt1] at hdecode
    obtain ⟨out', hrest, rfl⟩ := Option.map_eq_some_iff.1 hdecode
    have hload := hr.load (table (a.toNat / 4)) (table (a.toNat % 4 * 16 + b.toNat / 16))
      (table (b.toNat % 16 * 4 + c.toNat / 64)) (table (c.toNat % 64))
    obtain ⟨hne1, hne2, hne3, hne4⟩ := hload.ne
    have hthree : [a, b, c] ++ rest <+: Registers.bytes _ ++ out' := hbegin
    have hlen : ([a, b, c] : List UInt8).length = (Registers.bytes (r.load (table (a.toNat / 4))
      (table (a.toNat % 4 * 16 + b.toNat / 16)) (table (b.toNat % 16 * 4 + c.toNat / 64))
      (table (c.toNat % 64)))).length := rfl
    obtain ⟨tail, htail⟩ := hthree
    rw [List.append_assoc] at htail
    obtain ⟨hbytes, hout⟩ := List.append_inj htail hlen
    have hgroups := (bytes_eq_iff _ a b c).1 hbytes.symm
    have hno := ih hload (hpad.trans (by rw [padding])) hrest ⟨tail, hout⟩ hltrest
    simp only [sextets, List.mem_cons, not_or]
    exact ⟨by omega, by omega, by omega, by omega, hno⟩

/-- Only the padding has equals signs to overwrite. -/
theorem set_equals {t : List UInt8} (ht : 61 ∉ t) (h : (t ++ pad ++ [0]).getD i 0 = 61) :
    ∃ pad', pad'.length = pad.length ∧ (t ++ pad ++ [0]).set i 65 = t ++ pad' ++ [0] := by
  rw [List.getD_eq_getElem?_getD] at h
  by_cases hi : i < t.length
  · rw [List.append_assoc, List.getElem?_append_left hi, List.getElem?_eq_getElem hi,
      Option.getD_some] at h
    exact absurd (h ▸ List.getElem_mem hi) ht
  · by_cases hpad : i < (t ++ pad).length
    · have hin : i - t.length < pad.length := by
        rw [List.length_append] at hpad
        omega
      refine ⟨pad.set (i - t.length) 65, List.length_set, ?_⟩
      rw [List.set_append_left _ _ hpad, List.set_append_right _ _ (Nat.not_lt.1 hi)]
    · rw [List.getElem?_append_right (Nat.not_lt.1 hpad)] at h
      cases hk : i - (t ++ pad).length with
      | zero =>
        rw [hk] at h
        cases h
      | succ k =>
        rw [hk] at h
        cases h

theorem replaceEquals_eq {t : List UInt8} (ht : 61 ∉ t) (pad : List UInt8) (in_len : Nat) :
    ∃ pad', pad'.length = pad.length ∧
      replaceEquals (t ++ pad ++ [0]) in_len = t ++ pad' ++ [0] := by
  rw [replaceEquals]
  split
  case isTrue h1 =>
    obtain ⟨pad₁, hlen₁, hset₁⟩ := set_equals ht h1
    dsimp only
    rw [hset₁]
    split
    case isTrue h2 =>
      obtain ⟨pad₂, hlen₂, hset₂⟩ := set_equals ht h2
      exact ⟨pad₂, hlen₂.trans hlen₁, hset₂⟩
    case isFalse => exact ⟨pad₁, hlen₁, rfl⟩
  case isFalse => exact ⟨pad, rfl, rfl⟩

end Decode

theorem equals_not_mem (bytes : List UInt8) : 61 ∉ (sextets bytes).map table := by
  intro hmem
  obtain ⟨v, hv, heq⟩ := List.mem_map.1 hmem
  exact table_ne_equals v (sextets_lt bytes v hv) heq

/-- Bytes come back, whatever the registers hold, when no group of six bits is all ones and the
length of the text is a positive `unsigned`. -/
theorem base64_round_trip_iff {m : List UInt8} (hpos : 1 ≤ m.length)
    (hlen : m.length < 4294967296) :
    (∀ r : Registers, ∃ text out, base64Encode m 0 = some text ∧
      base64Decode r (text ++ [0]) (unsigned text.length) = some out ∧ m <+: out) ↔
    63 ∉ sextets m ∧ (m.length + 2) / 3 * 4 ≠ 4294967296 := by
  have htext : ((sextets m).map table ++ List.replicate (padding m) 61).length =
      (m.length + 2) / 3 * 4 := by
    rw [List.length_append, List.length_map, List.length_replicate, length_sextets]
  obtain ⟨pad, hpad, hreplace⟩ := replaceEquals_eq (equals_not_mem m)
    (List.replicate (padding m) 61) (unsigned ((m.length + 2) / 3 * 4))
  rw [List.length_replicate] at hpad
  have hunsigned : unsigned ((m.length + 2) / 3 * 4) = (m.length + 2) / 3 * 4 % 4294967296 := by
    unfold unsigned
    rfl
  have hand : ∀ x, x &&& 3 = x % 4 := fun x => Nat.and_two_pow_sub_one_eq_mod x 2
  have hguard : (unsigned ((m.length + 2) / 3 * 4) < 1 ∨
      0 < unsigned ((m.length + 2) / 3 * 4) &&& 3) ↔ (m.length + 2) / 3 * 4 = 4294967296 := by
    rw [hand, hunsigned]
    omega
  constructor
  · intro h
    obtain ⟨text, out, hencode, hdecode, hbegin⟩ := h ⟨0, 0, 0, 0⟩
    rw [base64Encode_eq hpos] at hencode
    cases hencode
    rw [htext, base64Decode] at hdecode
    by_cases hbig : (m.length + 2) / 3 * 4 = 4294967296
    · rw [if_pos (hguard.2 hbig)] at hdecode
      cases hdecode
    · rw [if_neg (mt hguard.1 hbig), hreplace] at hdecode
      have hsmall : Registers.Small ⟨0, 0, 0, 0⟩ :=
        ⟨Nat.succ_pos _, Nat.succ_pos _, Nat.succ_pos _, Nat.succ_pos _⟩
      exact ⟨sextets_of_decodeLoop hsmall hpad hdecode hbegin, hbig⟩
  · rintro ⟨hno, hbig⟩ r
    obtain ⟨out, hout, hbegin⟩ := decodeLoop_sextets hno hpad (r := r)
    refine ⟨_, out, base64Encode_eq hpos, ?_, hbegin⟩
    rw [htext, base64Decode, if_neg (mt hguard.1 hbig), hreplace, hout]

theorem base64_round_trip_iff_one :
    (∀ r : Registers, ∃ text out, base64Encode [97] 0 = some text ∧
      base64Decode r (text ++ [0]) (unsigned text.length) = some out ∧ [97] <+: out) ↔
    63 ∉ sextets [97] ∧ ([97].length + 2) / 3 * 4 ≠ 4294967296 :=
  base64_round_trip_iff (m := [97]) (Nat.le_refl 1) (by decide)

/-- The byte 255 is written as a slash. -/
theorem not_base64_round_trip :
    ¬ ∀ m : List UInt8, 1 ≤ m.length → m.length < 4294967296 → ∀ r : Registers,
      ∃ text out, base64Encode m 0 = some text ∧
        base64Decode r (text ++ [0]) (unsigned text.length) = some out ∧ m <+: out := by
  intro h
  obtain ⟨text, out, hencode, hdecode, hbegin⟩ :=
    h [255] (Nat.le_refl 1) (by decide) ⟨0, 0, 0, 0⟩
  have htext : base64Encode [255] 0 = some [47, 119, 61, 61] := rfl
  rw [htext] at hencode
  cases hencode
  have hlen : unsigned ([47, 119, 61, 61] : List UInt8).length = 4 := unsigned_of_lt (by decide)
  have hout : base64Decode ⟨0, 0, 0, 0⟩ ([47, 119, 61, 61] ++ [0]) 4 = some [3, 0, 0] := rfl
  rw [hlen, hout] at hdecode
  cases hdecode
  exact absurd hbegin (by decide)

end BigBox.Base64
