import BigBox.Base.Base64
import BigBox.Lib.Malloc
import Mathlib.Data.Fin.VecNotation

namespace BigBox.HttpBase64
set_option autoImplicit true

open Base64 (base64Table table)

/-- `encodeblock`. -/
def encodeblock (in0 in1 in2 : UInt8) (b64str : List UInt8) (len : Nat) : Option (List UInt8) :=
  Block.strncat b64str
    [table (in0.toNat >>> 2), table ((in0.toNat &&& 3) <<< 4 ||| (in1.toNat &&& 240) >>> 4),
      if 1 < len then table ((in1.toNat &&& 15) <<< 2 ||| (in2.toNat &&& 192) >>> 6) else 61,
      if 2 < len then table (in2.toNat &&& 63) else 61, 0] 5

/-- The loop of `base64_encode` over the string that is left. -/
def encodeLoop : List UInt8 → List UInt8 → Option (List UInt8)
  | [], b64dst => some b64dst
  | [a], b64dst => encodeblock a 0 0 b64dst 1
  | [a, b], b64dst => encodeblock a b 0 b64dst 2
  | a :: b :: c :: clrstr, b64dst => (encodeblock a b c b64dst 3).bind (encodeLoop clrstr)

/-- `base64_encode`: the block that it returns. Without memory it writes through a null pointer. -/
def base64Encode (heap : Malloc) (clrstr : List UInt8) : Option (List UInt8) := do
  let b64dst ← heap.alloc (sizeT (clrstr.length + 50))
  let b64dst ← Block.write b64dst 0 [0]
  let b64dst ← encodeLoop clrstr b64dst
  let text ← stringAt b64dst 0
  heap.realloc b64dst (sizeT (text.length + 1))

/-- `decodeblock`. -/
def decodeblock (input : Fin 4 → UInt8) (clrstr : List UInt8) : Option (List UInt8) :=
  Block.strncat clrstr [input 0 <<< 2 ||| input 1 >>> 4, input 1 <<< 4 ||| input 2 >>> 2,
    input 2 <<< 6 ||| input 3 >>> 0, 0] 4

/-- The loop of `base64_decode` over the string that is left. -/
def decodeLoop : List UInt8 → (Fin 4 → UInt8) → Fin 4 → List UInt8 → Option (List UInt8)
  | [], _, _, clrdst => some clrdst
  | c :: b64src, input, phase, clrdst =>
    if c = 61 then decodeblock input clrdst
    else match base64Table.idxOf? c with
      | none => decodeLoop b64src input phase clrdst
      | some p =>
        let input := Function.update input phase (UInt8.ofNat p)
        let phase := phase + 1
        if phase = 0 then (decodeblock input clrdst).bind (decodeLoop b64src (fun _ => 0) phase)
        else decodeLoop b64src input phase clrdst

/-- `base64_decode`, from what the array `in` holds at first. -/
def base64Decode (heap : Malloc) (stack : Fin 4 → UInt8) (b64src : List UInt8) :
    Option (List UInt8) := do
  let size := sizeT (b64src.length + 18446744073709551615) / 3 * 4 + 4 + 50
  let clrdst ← heap.alloc (sizeT size)
  let clrdst ← Block.write clrdst 0 [0]
  let clrdst ← decodeLoop b64src stack 0 clrdst
  let text ← stringAt clrdst 0
  heap.realloc clrdst (sizeT (text.length + 1))

/-- Whatever the memory contains, a string is encoded inside the block and decoded to itself. -/
def RoundTrips (s : Text) : Prop :=
  ∀ heap heap' : Malloc, heap.Gives → heap'.Gives → ∀ stack, ∃ b64dst b64src clrdst,
    base64Encode heap s.1 = some b64dst ∧ stringAt b64dst 0 = some b64src ∧
      base64Decode heap' stack b64src = some clrdst ∧ stringAt clrdst 0 = some s.1

/-- The text of a string in base 64. -/
def encoded (s : List UInt8) : List UInt8 :=
  (sextets s).map table ++ List.replicate (padding s) 61

section Letters
variable {s : List UInt8}

theorem length_encoded (s : List UInt8) : (encoded s).length = (s.length + 2) / 3 * 4 := by
  rw [encoded, List.length_append, List.length_map, List.length_replicate, length_sextets]

theorem encoded_cons (a b c : UInt8) (s : List UInt8) :
    encoded (a :: b :: c :: s) = [table (a.toNat / 4), table (a.toNat % 4 * 16 + b.toNat / 16),
      table (b.toNat % 16 * 4 + c.toNat / 64), table (c.toNat % 64)] ++ encoded s := rfl

theorem zero_not_mem_encoded (s : List UInt8) : 0 ∉ encoded s := by
  rw [encoded, List.mem_append, not_or]
  constructor
  · intro h
    obtain ⟨v, hv, hzero⟩ := List.mem_map.1 h
    exact Base64.table_ne_zero v (sextets_lt s v hv) hzero
  · intro h
    have hzero := List.eq_of_mem_replicate h
    exact absurd hzero (by decide)

theorem idxOf_table : ∀ v < 64, base64Table.idxOf? (table v) = some v := by
  decide +kernel

/-- The letters of a block are those of its groups of six bits. -/
theorem encodeblock_letters (a b c : UInt8) :
    a.toNat >>> 2 = a.toNat / 4 ∧
      (a.toNat &&& 3) <<< 4 ||| (b.toNat &&& 240) >>> 4 = a.toNat % 4 * 16 + b.toNat / 16 ∧
      (b.toNat &&& 15) <<< 2 ||| (c.toNat &&& 192) >>> 6 = b.toNat % 16 * 4 + c.toNat / 64 ∧
      c.toNat &&& 63 = c.toNat % 64 := by
  have ha := a.toNat_lt
  have hb := b.toNat_lt
  have hc := c.toNat_lt
  obtain ⟨-, ha2, -, -, -, -⟩ := and_shift_or (Nat.mod_eq_of_lt ha)
  obtain ⟨-, -, hb1, hb2, -, -⟩ := and_shift_or (Nat.mod_eq_of_lt hb)
  obtain ⟨-, -, -, -, hc1, hc2⟩ := and_shift_or (Nat.mod_eq_of_lt hc)
  refine ⟨Nat.shiftRight_eq_div_pow _ 2, ?_, ?_, hc2⟩
  · rw [ha2, hb1, Nat.or_comm]
    exact or_mul_two_pow (k := 4) (by omega)
  · rw [hb2, hc1, Nat.or_comm]
    exact or_mul_two_pow (k := 2) (by omega)

theorem encodeblock_eq (a b c : UInt8) (dst : List UInt8) (len : Nat) :
    encodeblock a b c dst len =
      Block.strncat dst [table (a.toNat / 4), table (a.toNat % 4 * 16 + b.toNat / 16),
        if 1 < len then table (b.toNat % 16 * 4 + c.toNat / 64) else 61,
        if 2 < len then table (c.toNat % 64) else 61, 0] 5 := by
  obtain ⟨h1, h2, h3, h4⟩ := encodeblock_letters a b c
  rw [encodeblock, h1, h2, h3, h4]

end Letters

section Encode
variable {t rest : List UInt8}

theorem cString_group {g : List UInt8} (hg : 0 ∉ g) : cString (g ++ [0]) = g :=
  (cString_append_zero g []).trans (cString_clean hg)

/-- Four letters are appended where there is room for them. -/
theorem encodeblock_text (s rest : List UInt8) (ht : 0 ∉ t)
    (h : encodeblock a b c (t ++ 0 :: rest) len =
      Block.strncat (t ++ 0 :: rest) (encoded s ++ [0]) 5) (hs : (encoded s).length = 4) :
    encodeblock a b c (t ++ 0 :: rest) len =
      if (encoded s).length ≤ rest.length then
        some (t ++ encoded s ++ 0 :: rest.drop (encoded s).length)
      else none := by
  have hclean := zero_not_mem_encoded s
  have hle : (encoded s).length ≤ 5 := hs.trans_le (by decide)
  rw [h]
  exact Block.strncat_text ht (cString_group hclean) hle rest

/-- The loop writes the text in base 64 if there is room for it. -/
theorem encodeLoop_eq (s t rest : List UInt8) (ht : 0 ∉ t) :
    encodeLoop s (t ++ 0 :: rest) =
      if (encoded s).length ≤ rest.length then
        some (t ++ encoded s ++ 0 :: rest.drop (encoded s).length)
      else none := by
  induction s using sextets.induct generalizing t rest with
  | case1 =>
    have hnil : encoded [] = [] := rfl
    rw [encodeLoop, hnil, List.length_nil, if_pos (Nat.zero_le _), List.append_nil, List.drop_zero]
  | case2 a => exact encodeblock_text [a] rest ht (encodeblock_eq a 0 0 _ 1) rfl
  | case3 a b => exact encodeblock_text [a, b] rest ht (encodeblock_eq a b 0 _ 2) rfl
  | case4 a b c s ih =>
    have hgroup := encodeblock_text [a, b, c] rest ht
      (encodeblock_eq a b c _ 3) rfl
    have hsplit : encoded (a :: b :: c :: s) = encoded [a, b, c] ++ encoded s := by
      rw [encoded_cons, encoded_cons, List.append_assoc]
      rfl
    have hfour : (encoded [a, b, c]).length = 4 := rfl
    have hclean : 0 ∉ t ++ encoded [a, b, c] := by
      rw [List.mem_append, not_or]
      exact ⟨ht, zero_not_mem_encoded _⟩
    rw [encodeLoop, hgroup, hsplit, List.length_append]
    split
    case isTrue hle =>
      rw [Option.bind_some, ih _ _ hclean, List.length_drop, List.drop_drop, List.append_assoc t]
      congr 1
      rw [eq_iff_iff]
      omega
    case isFalse hgt => rw [Option.bind_none, if_neg (by omega)]

end Encode

section Decode
variable {input : Fin 4 → UInt8} {phase : Fin 4} {src dst t rest : List UInt8} {v u w x : Nat}

theorem decodeLoop_letter (hv : v < 64) (src : List UInt8) (input : Fin 4 → UInt8)
    (phase : Fin 4) (dst : List UInt8) : decodeLoop (table v :: src) input phase dst =
      if phase + 1 = 0 then
        (decodeblock (Function.update input phase (UInt8.ofNat v)) dst).bind
          (decodeLoop src (fun _ => 0) (phase + 1))
      else decodeLoop src (Function.update input phase (UInt8.ofNat v)) (phase + 1) dst := by
  rw [decodeLoop, if_neg (Base64.table_ne_equals v hv), idxOf_table v hv]

/-- Four letters are a block of their own. -/
theorem decodeLoop_group (hv : v < 64) (hu : u < 64) (hw : w < 64) (hx : x < 64) :
    decodeLoop (table v :: table u :: table w :: table x :: src) input 0 dst =
      (decodeblock ![UInt8.ofNat v, UInt8.ofNat u, UInt8.ofNat w, UInt8.ofNat x] dst).bind
        (decodeLoop src (fun _ => 0) 0) := by
  rw [decodeLoop_letter hv, if_neg (by decide), decodeLoop_letter hu, if_neg (by decide),
    decodeLoop_letter hw, if_neg (by decide), decodeLoop_letter hx, if_pos (by decide)]
  rfl

/-- The first two letters of a block, in front of the equals signs. -/
theorem decodeLoop_two (hv : v < 64) (hu : u < 64) :
    decodeLoop (table v :: table u :: 61 :: src) input 0 dst =
      decodeblock ![UInt8.ofNat v, UInt8.ofNat u, input 2, input 3] dst := by
  rw [decodeLoop_letter hv, if_neg (by decide), decodeLoop_letter hu, if_neg (by decide),
    decodeLoop, if_pos rfl]
  rfl

/-- The first three letters of a block, in front of the equals sign. -/
theorem decodeLoop_three (hv : v < 64) (hu : u < 64) (hw : w < 64) :
    decodeLoop (table v :: table u :: table w :: 61 :: src) input 0 dst =
      decodeblock ![UInt8.ofNat v, UInt8.ofNat u, UInt8.ofNat w, input 3] dst := by
  rw [decodeLoop_letter hv, if_neg (by decide), decodeLoop_letter hu, if_neg (by decide),
    decodeLoop_letter hw, if_neg (by decide), decodeLoop, if_pos rfl]
  rfl

/-- The bytes of a block, whose last ones are those of the array where letters are missing. -/
theorem decodeblock_bytes (hv : v < 64) (hu : u < 64) (y z : UInt8) (dst : List UInt8) :
    decodeblock ![UInt8.ofNat v, UInt8.ofNat u, y, z] dst =
      Block.strncat dst [UInt8.ofNat (v * 4 + u / 16), UInt8.ofNat u <<< 4 ||| y >>> 2,
        y <<< 6 ||| z >>> 0, 0] 4 := by
  have hor := (codes_or hv hu).1
  rw [← hor]
  rfl

theorem strncat_bytes {x y z : UInt8} {g : List UInt8} (ht : 0 ∉ t)
    (hg : cString [x, y, z, 0] = g) (hlen : g.length ≤ 3) (hroom : g.length ≤ rest.length) :
    Block.strncat (t ++ 0 :: rest) [x, y, z, 0] 4 =
      some (t ++ g ++ 0 :: rest.drop g.length) := by
  rw [Block.strncat_text ht hg (Nat.le_succ_of_le hlen), if_pos hroom]

theorem byte_of (a : UInt8) (h : n = a.toNat) : UInt8.ofNat n = a := by
  rw [h]
  exact UInt8.ofNat_toNat

theorem shift_zero (z : UInt8) : z >>> 0 = z := by
  rw [← UInt8.toNat_inj, UInt8.toNat_shiftRight]
  rfl

/-- The bytes of a full block. -/
theorem decodeLoop_full (a b c : UInt8) (hclean : 0 ∉ [a, b, c]) (ht : 0 ∉ t)
    (hroom : 3 ≤ rest.length) (src : List UInt8) :
    decodeLoop ([table (a.toNat / 4), table (a.toNat % 4 * 16 + b.toNat / 16),
        table (b.toNat % 16 * 4 + c.toNat / 64), table (c.toNat % 64)] ++ src) input 0
        (t ++ 0 :: rest) =
      decodeLoop src (fun _ => 0) 0 (t ++ [a, b, c] ++ 0 :: rest.drop 3) := by
  have ha := a.toNat_lt
  have hb := b.toNat_lt
  have hc := c.toNat_lt
  have h1 : a.toNat / 4 < 64 := by omega
  have h2 : a.toNat % 4 * 16 + b.toNat / 16 < 64 := by omega
  have h3 : b.toNat % 16 * 4 + c.toNat / 64 < 64 := by omega
  have h4 : c.toNat % 64 < 64 := by omega
  have hfirst : UInt8.ofNat (a.toNat / 4 * 4 + (a.toNat % 4 * 16 + b.toNat / 16) / 16) = a :=
    byte_of a (by omega)
  have hsecond := (codes_or h2 h3).2.1.trans (byte_of b (by omega))
  have hthird := (codes_or h3 h4).2.2.trans (byte_of c (by omega))
  have hgroup : cString [a, b, c, 0] = [a, b, c] := cString_group hclean
  rw [List.cons_append, List.cons_append, List.cons_append, List.cons_append, List.nil_append,
    decodeLoop_group h1 h2 h3 h4, decodeblock_bytes h1 h2, hfirst, hsecond, shift_zero, hthird,
    strncat_bytes ht hgroup (Nat.le_refl 3) hroom]
  rfl

/-- The last block of one byte, from an array of zeros. -/
theorem decodeLoop_one (a : UInt8) (hclean : 0 ∉ [a]) (ht : 0 ∉ t) (hroom : 1 ≤ rest.length)
    (h2 : input 2 = 0) (h3 : input 3 = 0) :
    decodeLoop (encoded [a]) input 0 (t ++ 0 :: rest) = some (t ++ [a] ++ 0 :: rest.drop 1) := by
  have ha := a.toNat_lt
  have hv : a.toNat / 4 < 64 := by omega
  have hu : a.toNat % 4 * 16 < 64 := by omega
  have hfirst : UInt8.ofNat (a.toNat / 4 * 4 + a.toNat % 4 * 16 / 16) = a :=
    byte_of a (by omega)
  have hsecond : UInt8.ofNat (a.toNat % 4 * 16) <<< 4 ||| (0 : UInt8) >>> 2 = 0 :=
    (codes_or hu (by decide : 0 < 64)).2.1.trans (byte_of 0 (by rw [UInt8.toNat_zero]; omega))
  have hthird : (0 : UInt8) <<< 6 ||| (0 : UInt8) >>> 0 = 0 := by decide
  have hgroup : cString [a, 0, 0, 0] = [a] :=
    (cString_append_zero [a] _).trans (cString_clean hclean)
  refine (decodeLoop_two hv hu).trans ?_
  rw [decodeblock_bytes hv hu, hfirst, h2, h3, hsecond, hthird,
    strncat_bytes ht hgroup (Nat.le_add_left 1 2) hroom]
  rfl

/-- The last block of two bytes, from an array of zeros. -/
theorem decodeLoop_pair (a b : UInt8) (hclean : 0 ∉ [a, b]) (ht : 0 ∉ t)
    (hroom : 2 ≤ rest.length) (h3 : input 3 = 0) :
    decodeLoop (encoded [a, b]) input 0 (t ++ 0 :: rest) =
      some (t ++ [a, b] ++ 0 :: rest.drop 2) := by
  have ha := a.toNat_lt
  have hb := b.toNat_lt
  have hv : a.toNat / 4 < 64 := by omega
  have hu : a.toNat % 4 * 16 + b.toNat / 16 < 64 := by omega
  have hw : b.toNat % 16 * 4 < 64 := by omega
  have hfirst : UInt8.ofNat (a.toNat / 4 * 4 + (a.toNat % 4 * 16 + b.toNat / 16) / 16) = a :=
    byte_of a (by omega)
  have hsecond := (codes_or hu hw).2.1.trans (byte_of b (by omega))
  have hthird : UInt8.ofNat (b.toNat % 16 * 4) <<< 6 ||| (0 : UInt8) = 0 :=
    (codes_or hw (by decide : 0 < 64)).2.2.trans (byte_of 0 (by rw [UInt8.toNat_zero]; omega))
  have hgroup : cString [a, b, 0, 0] = [a, b] :=
    (cString_append_zero [a, b] _).trans (cString_clean hclean)
  refine (decodeLoop_three hv hu hw).trans ?_
  rw [decodeblock_bytes hv hu, hfirst, h3, hsecond, shift_zero, hthird,
    strncat_bytes ht hgroup (Nat.le_succ 2) hroom]
  rfl

/-- The text is decoded to the string where the first block is full or the array holds zeros. -/
theorem decodeLoop_eq (input : Fin 4 → UInt8) (s t rest : List UInt8) (hs : 0 ∉ s) (ht : 0 ∉ t)
    (hroom : s.length ≤ rest.length)
    (hstart : s = [] ∨ 3 ≤ s.length ∨ input 2 = 0 ∧ input 3 = 0) :
    decodeLoop (encoded s) input 0 (t ++ 0 :: rest) =
      some (t ++ s ++ 0 :: rest.drop s.length) := by
  induction s using sextets.induct generalizing input t rest with
  | case1 => rw [List.append_nil]; rfl
  | case2 a =>
    obtain ⟨h2, h3⟩ := (hstart.resolve_left (List.cons_ne_nil _ _)).resolve_left (by
      rw [List.length_singleton]
      decide)
    exact decodeLoop_one a hs ht hroom h2 h3
  | case3 a b =>
    obtain ⟨_, h3⟩ := (hstart.resolve_left (List.cons_ne_nil _ _)).resolve_left (by
      rw [List.length_cons, List.length_singleton]
      decide)
    exact decodeLoop_pair a b hs ht hroom h3
  | case4 a b c s ih =>
    have hsplit : 0 ∉ [a, b, c] ∧ 0 ∉ s := by
      rw [← not_or, ← List.mem_append]
      exact hs
    have hclean : 0 ∉ t ++ [a, b, c] := by
      rw [List.mem_append, not_or]
      exact ⟨ht, hsplit.1⟩
    have hcount : 3 + s.length = (a :: b :: c :: s).length := Nat.add_comm 3 s.length
    rw [← hcount] at hroom ⊢
    rw [encoded_cons, decodeLoop_full a b c hsplit.1 ht (by omega),
      ih (fun _ => 0) (t ++ [a, b, c]) (rest.drop 3) hsplit.2 hclean (by rw [List.length_drop]; omega)
        (.inr (.inr ⟨rfl, rfl⟩)),
      List.append_assoc t, List.drop_drop]
    rfl

/-- The zero bits behind the last letter of a block. -/
theorem shift_tail (h : n < 4) : UInt8.ofNat (n * 16) <<< 4 = 0 := by
  revert n
  decide

theorem shift_tail_two (h : n < 16) : UInt8.ofNat (n * 4) <<< 6 = 0 := by
  revert n
  decide

/-- The last block of one byte, from an array of other content. -/
theorem decodeLoop_one_stray (a : UInt8) (ha : a ≠ 0) (hroom : 3 ≤ rest.length) :
    decodeLoop (encoded [a]) (fun _ => 255) 0 (0 :: rest) =
      some ([a, 63, 255] ++ 0 :: rest.drop 3) := by
  have hlt := a.toNat_lt
  have hv : a.toNat / 4 < 64 := by omega
  have hu : a.toNat % 4 * 16 < 64 := by omega
  have hfirst : UInt8.ofNat (a.toNat / 4 * 4 + a.toNat % 4 * 16 / 16) = a :=
    byte_of a (by omega)
  have hsecond : (0 : UInt8) ||| (255 : UInt8) >>> 2 = 63 := by decide
  have hthird : (255 : UInt8) <<< 6 ||| (255 : UInt8) >>> 0 = 255 := by decide
  have hclean : 0 ∉ [a, 63, 255] := List.not_mem_cons_of_ne_of_not_mem ha.symm (by decide)
  have hgroup : cString [a, 63, 255, 0] = [a, 63, 255] := cString_group hclean
  refine (decodeLoop_two hv hu).trans ?_
  rw [decodeblock_bytes hv hu, hfirst, shift_tail (Nat.mod_lt _ (by decide)), hsecond, hthird]
  exact strncat_bytes (t := []) List.not_mem_nil hgroup (Nat.le_refl 3) hroom

/-- The last block of two bytes, from an array of other content. -/
theorem decodeLoop_pair_stray (a b : UInt8) (ha : a ≠ 0) (hb : b ≠ 0) (hroom : 3 ≤ rest.length) :
    decodeLoop (encoded [a, b]) (fun _ => 255) 0 (0 :: rest) =
      some ([a, b, 255] ++ 0 :: rest.drop 3) := by
  have hlt := a.toNat_lt
  have hlt' := b.toNat_lt
  have hv : a.toNat / 4 < 64 := by omega
  have hu : a.toNat % 4 * 16 + b.toNat / 16 < 64 := by omega
  have hw : b.toNat % 16 * 4 < 64 := by omega
  have hfirst : UInt8.ofNat (a.toNat / 4 * 4 + (a.toNat % 4 * 16 + b.toNat / 16) / 16) = a :=
    byte_of a (by omega)
  have hsecond := (codes_or hu hw).2.1.trans (byte_of b (by omega))
  have hthird : (0 : UInt8) ||| (255 : UInt8) >>> 0 = 255 := by decide
  have hclean : 0 ∉ [a, b, 255] :=
    List.not_mem_cons_of_ne_of_not_mem ha.symm
      (List.not_mem_cons_of_ne_of_not_mem hb.symm (by decide))
  have hgroup : cString [a, b, 255, 0] = [a, b, 255] := cString_group hclean
  refine (decodeLoop_three hv hu hw).trans ?_
  rw [decodeblock_bytes hv hu, hfirst, hsecond, shift_tail_two (Nat.mod_lt _ (by decide)), hthird]
  exact strncat_bytes (t := []) List.not_mem_nil hgroup (Nat.le_refl 3) hroom

end Decode

section RoundTrip
variable {heap : Malloc} {stack : Fin 4 → UInt8} {s t : List UInt8} {block : List UInt8}

/-- The block is cut down to its string. -/
def shrink (heap : Malloc) (block : List UInt8) : Option (List UInt8) :=
  (stringAt block 0).bind fun text => heap.realloc block (sizeT (text.length + 1))

theorem shrink_some (hs : 0 ∉ s) (hlen : s.length + 1 < 281474976710656) (hgives : heap.Gives)
    (rest : List UInt8) :
    ∃ block, shrink heap (s ++ 0 :: rest) = some block ∧ stringAt block 0 = some s := by
  have htext : stringAt (s ++ 0 :: rest) 0 = some s := stringAt_middle [] rest hs
  have hsize : (s ++ [0]).length ≤ s.length + 1 := by
    rw [List.length_append, List.length_singleton]
  obtain ⟨rest', hrealloc⟩ := @Malloc.Gives.realloc heap (s ++ [0]) rest _ hgives hlen hsize
  rw [List.append_assoc, List.append_assoc] at hrealloc
  refine ⟨_, ?_, stringAt_middle [] rest' hs⟩
  rw [shrink, htext, Option.bind_some, sizeT_of_lt (by omega)]
  exact hrealloc

theorem shrink_unique (hs : 0 ∉ s) (hlen : s.length + 1 < 18446744073709551616)
    (h : shrink heap (s ++ 0 :: rest) = some block) : stringAt block 0 = some s := by
  have htext : stringAt (s ++ 0 :: rest) 0 = some s := stringAt_middle [] rest hs
  rw [shrink, htext, Option.bind_some, sizeT_of_lt hlen] at h
  obtain ⟨content, _, rfl⟩ := Option.map_eq_some_iff.1 h
  obtain ⟨rest', hrest'⟩ := Block.realloc_append (s ++ [0]) rest content (n := s.length + 1) (by
    rw [List.length_append, List.length_singleton])
  rw [List.append_assoc, List.append_assoc] at hrest'
  have hmiddle := stringAt_middle [] rest' hs
  rw [List.nil_append] at hmiddle
  exact (congrArg (stringAt · 0) hrest').trans hmiddle

/-- A new block with an empty string in it. -/
theorem emptied (h : heap.alloc n = some block) (hn : 0 < n) :
    ∃ rest, Block.write block 0 [0] = some (0 :: rest) ∧ rest.length + 1 = n := by
  have hlen := Malloc.length_alloc h
  cases block with
  | nil =>
    rw [List.length_nil] at hlen
    omega
  | cons c rest => exact ⟨rest, Block.write_cons [] c 0 rest rfl, hlen⟩

theorem base64Encode_eq (h : heap.alloc (sizeT (s.length + 50)) = some block)
    (hwrite : Block.write block 0 [0] = some (0 :: rest)) :
    base64Encode heap s = if (encoded s).length ≤ rest.length then
      shrink heap (encoded s ++ 0 :: rest.drop (encoded s).length) else none := by
  have hloop := encodeLoop_eq s [] rest List.not_mem_nil
  rw [List.nil_append, List.nil_append] at hloop
  rw [base64Encode, h]
  simp only [Option.bind_eq_bind, Option.bind_some]
  rw [hwrite, Option.bind_some, hloop]
  split
  case isTrue => rfl
  case isFalse => rfl

/-- The text in base 64 and its zero byte fit in the block. -/
def Fits (s : List UInt8) : Prop := (s.length + 2) / 3 * 4 < s.length + 50

theorem base64Encode_some (hgives : heap.Gives) (hfits : Fits s) :
    ∃ block, base64Encode heap s = some block ∧ stringAt block 0 = some (encoded s) := by
  rw [Fits] at hfits
  have hlen := length_encoded s
  obtain ⟨block, halloc, _⟩ := hgives.alloc (n := s.length + 50) (by omega)
  obtain ⟨rest, hwrite, hrest⟩ := emptied halloc (Nat.succ_pos _)
  rw [← sizeT_of_lt (n := s.length + 50) (by omega)] at halloc
  rw [base64Encode_eq halloc hwrite, if_pos (by omega)]
  exact shrink_some (zero_not_mem_encoded s) (by omega) hgives _

theorem fits_of_base64Encode (h : base64Encode heap s = some b64) : Fits s := by
  cases halloc : heap.alloc (sizeT (s.length + 50)) with
  | none =>
    rw [base64Encode, halloc] at h
    cases h
  | some block =>
    have hle := sizeT_le (s.length + 50)
    have hlen := length_encoded s
    rcases Nat.eq_zero_or_pos (sizeT (s.length + 50)) with hzero | hpos
    · have hnil : block = [] := List.length_eq_zero_iff.1 ((Malloc.length_alloc halloc).trans hzero)
      rw [base64Encode, halloc, hnil] at h
      cases h
    · obtain ⟨rest, hwrite, hrest⟩ := emptied halloc hpos
      rw [base64Encode_eq halloc hwrite] at h
      split at h
      case isTrue hroom =>
        rw [Fits]
        omega
      case isFalse => cases h

/-- The bytes that are asked for to decode so many characters. -/
def decodeSize (n : Nat) : Nat := sizeT (sizeT (n + 18446744073709551615) / 3 * 4 + 4 + 50)

theorem decodeSize_pos (hn : 0 < n) (hlt : n < 1000) : decodeSize n = (n - 1) / 3 * 4 + 54 := by
  have hwrap : sizeT (n + 18446744073709551615) = n - 1 := by
    unfold sizeT
    omega
  rw [decodeSize, hwrap, sizeT_of_lt (by omega)]

theorem base64Decode_eq (h : heap.alloc (decodeSize t.length) = some block)
    (hwrite : Block.write block 0 [0] = some (0 :: rest)) :
    base64Decode heap stack t = (decodeLoop t stack 0 (0 :: rest)).bind (shrink heap) := by
  rw [decodeSize] at h
  rw [base64Decode, h]
  simp only [Option.bind_eq_bind, Option.bind_some]
  rw [hwrite, Option.bind_some]
  rfl

/-- The block for the text of a string that can be encoded. -/
theorem decode_block (hgives : heap.Gives) (hfits : Fits s) (hpos : 0 < s.length) :
    ∃ rest : List UInt8, s.length + 3 ≤ rest.length ∧ ∀ stack,
      base64Decode heap stack (encoded s) =
        (decodeLoop (encoded s) stack 0 (0 :: rest)).bind (shrink heap) := by
  rw [Fits] at hfits
  have hlen := length_encoded s
  have hsize := decodeSize_pos (n := (encoded s).length) (by omega) (by omega)
  obtain ⟨block, halloc, _⟩ := hgives.alloc (n := decodeSize (encoded s).length) (by omega)
  obtain ⟨rest, hwrite, hrest⟩ := emptied halloc (by omega)
  exact ⟨rest, by omega, fun stack => base64Decode_eq halloc hwrite⟩

theorem base64Decode_some (hs : 0 ∉ s) (hgives : heap.Gives) (hfits : Fits s)
    (hlen : 3 ≤ s.length) (stack : Fin 4 → UInt8) :
    ∃ block, base64Decode heap stack (encoded s) = some block ∧
      stringAt block 0 = some s := by
  obtain ⟨rest, hroom, hrun⟩ := decode_block hgives hfits (Nat.lt_of_lt_of_le (by decide) hlen)
  have hloop := decodeLoop_eq stack s [] rest hs List.not_mem_nil (by omega)
    (.inr (.inl hlen))
  rw [List.nil_append, List.nil_append] at hloop
  rw [Fits] at hfits
  rw [hrun, hloop, Option.bind_some]
  exact shrink_some hs (by omega) hgives _

/-- Where the array shows, three characters come back. -/
theorem base64Decode_stray (hgives : heap.Gives) (hfits : Fits s) (hpos : 0 < s.length)
    (hclean : 0 ∉ t) (hlen : t.length = 3)
    (hloop : ∀ rest : List UInt8, 3 ≤ rest.length →
      decodeLoop (encoded s) (fun _ => 255) 0 (0 :: rest) = some (t ++ 0 :: rest.drop 3))
    (h : base64Decode heap (fun _ => 255) (encoded s) = some block) :
    stringAt block 0 = some t := by
  obtain ⟨rest, hroom, hrun⟩ := decode_block hgives hfits hpos
  rw [hrun, hloop rest (by omega), Option.bind_some] at h
  exact shrink_unique hclean (by omega) h

/-- The empty text asks for more memory than there is. -/
theorem base64Decode_nil (stack : Fin 4 → UInt8) :
    base64Decode (Malloc.filled 0) stack [] = none := by
  have hsize : decodeSize 0 = 6148914691236517258 := by
    unfold decodeSize sizeT
    rfl
  have halloc : (Malloc.filled 0).alloc (decodeSize 0) = none := by
    rw [hsize, Malloc.alloc, Malloc.filled]
    rfl
  rw [decodeSize] at halloc
  rw [base64Decode, List.length_nil, halloc]
  rfl

end RoundTrip

theorem fits_of_roundTrips {s : Text} (h : RoundTrips s) : 3 ≤ s.1.length ∧ Fits s.1 := by
  obtain ⟨b64dst, b64src, clrdst, hencode, hsrc, hdecode, hout⟩ :=
    h (Malloc.filled 0) (Malloc.filled 0) (Malloc.filled_gives 0) (Malloc.filled_gives 0)
      (fun _ => 255)
  have hfits := fits_of_base64Encode hencode
  obtain ⟨block, hblock, htext⟩ := base64Encode_some (Malloc.filled_gives 0) hfits
  have hsame : b64src = encoded s.1 := by
    rw [hblock] at hencode
    rw [← Option.some.inj hencode, htext] at hsrc
    exact (Option.some.inj hsrc).symm
  subst hsame
  refine ⟨?_, hfits⟩
  obtain ⟨s, hs⟩ := s
  match s, hs with
  | [], _ =>
    rw [show encoded [] = [] from rfl, base64Decode_nil] at hdecode
    cases hdecode
  | [a], hs =>
    have ha : a ≠ 0 := Ne.symm (List.ne_of_not_mem_cons hs)
    have hclean : 0 ∉ [a, 63, 255] := List.not_mem_cons_of_ne_of_not_mem ha.symm (by decide)
    have hstray := base64Decode_stray (Malloc.filled_gives 0) hfits Nat.one_pos hclean rfl
      (fun rest hroom => decodeLoop_one_stray a ha hroom) hdecode
    rw [hout] at hstray
    cases hstray
  | [a, b], hs =>
    have ha : a ≠ 0 := Ne.symm (List.ne_of_not_mem_cons hs)
    have hb : b ≠ 0 := Ne.symm (List.ne_of_not_mem_cons (List.not_mem_of_not_mem_cons hs))
    have hclean : 0 ∉ [a, b, 255] := List.not_mem_cons_of_ne_of_not_mem ha.symm
      (List.not_mem_cons_of_ne_of_not_mem hb.symm (by decide))
    have hstray := base64Decode_stray (Malloc.filled_gives 0) hfits Nat.two_pos hclean rfl
      (fun rest hroom => decodeLoop_pair_stray a b ha hb hroom) hdecode
    rw [hout] at hstray
    cases hstray
  | a :: b :: c :: s, _ => exact Nat.le_add_left 3 s.length

/-- The strings of at least three characters whose text fits in the block come back. -/
theorem httpBase64_roundTrips_iff (s : Text) : RoundTrips s ↔ 3 ≤ s.1.length ∧ Fits s.1 := by
  constructor
  · exact fits_of_roundTrips
  · rintro ⟨hlen, hfits⟩ heap heap' hgives hgives' stack
    obtain ⟨b64dst, hencode, hsrc⟩ := base64Encode_some hgives hfits
    obtain ⟨clrdst, hdecode, hout⟩ := base64Decode_some s.2 hgives' hfits hlen stack
    exact ⟨b64dst, _, clrdst, hencode, hsrc, hdecode, hout⟩

/-- One byte comes back with what the array held behind it. -/
theorem not_httpBase64_roundTrips : ¬RoundTrips ⟨[65], by decide⟩ :=
  fun h => absurd (fits_of_roundTrips h).1 (by decide)

end BigBox.HttpBase64
