import BigBox.Buffer.Sbuf

namespace BigBox.Sbuf
open Double
set_option autoImplicit true

/-- The length is below the size of the block, the byte behind the text is zero. -/
structure SBUF.Sound (data : SBUF) (text : List UInt8) : Prop where
  len_lt : data.len < data.size
  size : data.buf.length = data.size
  text : data.buf.take data.len = text
  zero : data.buf[data.len]? = some 0

structure SBUF.Holds (data : SBUF) (text : List UInt8) : Prop where
  buf : ∃ rest, data.buf = text ++ 0 :: rest
  len : data.len = text.length
  size : data.buf.length = data.size
  small : data.size < 281474976710656

section Holds
variable {data data' : SBUF} {text : List UInt8} {fresh : Nat → UInt8} {s : Text} {n : Nat}

theorem SBUF.Holds.lt (h : data.Holds text) : text.length < data.size := by
  obtain ⟨rest, hbuf⟩ := h.buf
  rw [← h.size, hbuf, List.length_append, List.length_cons]
  omega

theorem SBUF.Sound.len_eq (h : data.Sound text) : data.len = text.length := by
  have hlt := h.len_lt
  rw [← h.text, List.length_take, h.size, Nat.min_eq_left (Nat.le_of_lt hlt)]

theorem SBUF.Sound.buf_eq (h : data.Sound text) : ∃ rest, data.buf = text ++ 0 :: rest := by
  obtain ⟨hlt, hzero⟩ := List.getElem?_eq_some_iff.1 h.zero
  refine ⟨data.buf.drop (data.len + 1), ?_⟩
  rw [← h.text, ← hzero, List.getElem_cons_drop, List.take_append_drop]

/-- A block is sound when the byte behind the text is zero. -/
theorem sound_byte_iff (hbuf : data.buf = text ++ b :: rest) (hlen : data.len = text.length)
    (hsize : data.buf.length = data.size) : data.Sound text ↔ b = 0 := by
  constructor
  · intro h
    obtain ⟨rest', hbuf'⟩ := h.buf_eq
    exact (List.cons.inj (List.append_cancel_left (hbuf.symm.trans hbuf'))).1
  · rintro rfl
    have hlt : data.len < data.size := by
      rw [← hsize, hbuf, List.length_append, List.length_cons]
      omega
    refine ⟨hlt, hsize, ?_, ?_⟩
    · rw [hbuf, hlen, List.take_left]
    · rw [hbuf, hlen, List.getElem?_append_right (Nat.le_refl _), Nat.sub_self]
      rfl

theorem SBUF.Holds.sound (h : data.Holds text) : data.Sound text := by
  obtain ⟨rest, hbuf⟩ := h.buf
  exact (sound_byte_iff hbuf h.len h.size).2 rfl

theorem SBUF.Sound.holds (h : data.Sound text) (hsmall : data.size < 281474976710656) :
    data.Holds text :=
  ⟨h.buf_eq, h.len_eq, h.size, hsmall⟩

theorem sound_iff (hsize : data.buf.length = data.size) (hlen : data.len = text.length) :
    data.Sound text ↔ data.buf.take (text.length + 1) = text ++ [0] := by
  constructor
  · intro h
    obtain ⟨rest, hbuf⟩ := h.buf_eq
    have hone : text.length + 1 = (text ++ [(0 : UInt8)]).length := by
      rw [List.length_append, List.length_singleton]
    rw [hbuf, List.append_cons, hone, List.take_left]
  · intro h
    have hbuf : data.buf = text ++ 0 :: data.buf.drop (text.length + 1) := by
      rw [List.append_cons, ← h, List.take_append_drop]
    exact (sound_byte_iff hbuf hlen hsize).2 rfl

/-- The block gets larger. -/
theorem SBUF.Holds.grow (h : data.Holds text) (fresh : Nat → UInt8) (hm : text.length < m)
    (hsmall : m < 281474976710656) :
    SBUF.Holds { data with buf := Block.realloc data.buf fresh m, size := m } text := by
  obtain ⟨rest, hbuf⟩ := h.buf
  have hsplit : text ++ 0 :: rest = text ++ [0] ++ rest := List.append_cons text 0 rest
  obtain ⟨rest', hrest'⟩ := Block.realloc_append (text ++ [0]) rest fresh (n := m) (by
    rw [List.length_append, List.length_singleton]
    omega)
  refine ⟨⟨rest', ?_⟩, h.len, Block.length_realloc _ _ _, hsmall⟩
  dsimp only
  rw [hbuf, hsplit, hrest', ← List.append_cons]

/-- A text with its zero is written over the zero. -/
theorem SBUF.Holds.write (h : data.Holds text) (bytes : List UInt8)
    (hroom : text.length + bytes.length < data.size) :
    ∃ buf, Block.write data.buf data.len (bytes ++ [0]) = some buf ∧
      SBUF.Holds { data with buf, len := text.length + bytes.length } (text ++ bytes) := by
  obtain ⟨rest, hbuf⟩ := h.buf
  have hlen : text.length + (rest.length + 1) = data.size := by
    rw [← h.size, hbuf, List.length_append, List.length_cons]
  have hsplit : data.buf = text ++ (0 :: rest).take (bytes ++ [0]).length ++
      (0 :: rest).drop (bytes ++ [0]).length := by
    rw [List.append_assoc, List.take_append_drop, hbuf]
  have hx : (bytes ++ [0]).length = ((0 :: rest).take (bytes ++ [0]).length).length := by
    rw [List.length_take, List.length_cons, List.length_append, List.length_singleton]
    omega
  have hwrite : Block.write data.buf data.len (bytes ++ [0]) =
      some (text ++ (bytes ++ [0]) ++ (0 :: rest).drop (bytes ++ [0]).length) := by
    rw [hsplit]
    exact Block.write_middle _ _ _ _ h.len hx
  refine ⟨_, hwrite, ⟨(0 :: rest).drop (bytes ++ [0]).length, ?_⟩, List.length_append.symm, ?_,
    h.small⟩
  · rw [← List.append_assoc text, List.append_assoc, List.singleton_append]
  · exact (Block.length_write hwrite).trans h.size

theorem intToSize_natCast (hn : n < 18446744073709551616) : intToSize (n : Int) = n := by
  unfold intToSize
  omega

theorem minus_eq (h : b ≤ a) (ha : a < 18446744073709551616) : minus a b = a - b := by
  have hsum : a + 18446744073709551616 - b = a - b + 18446744073709551616 := by omega
  rw [minus, hsum]
  unfold sizeT
  rw [Nat.add_mod_right, Nat.mod_eq_of_lt (by omega)]

/-- The double sums are the whole ones, without the fraction of the fifth. -/
theorem strRequest_eq (hsize : data.size < 281474976710656) (hlen : data.len < 281474976710656)
    (hn : n < 281474976710656) :
    strRequest data n = data.size + data.len + n + data.size / 5 ∧
      strSize data n = data.size + data.len + n + data.size / 5 := by
  have hfifth : Near (data.size / 5) (sbufBuf data.size) := near_mul_fifth (by omega)
  have hint : intToSize (n : Int) = n := intToSize_natCast (by omega)
  constructor
  · rw [strRequest, hint, sizeT_of_lt (by omega)]
    exact (hfifth.ofNat_add (by omega)).toNat_eq
  · rw [strSize, hint, sizeT_of_lt (by omega)]
    rw [((hfifth.ofNat_add (k := data.len + n) (by omega)).ofNat_add (by omega)).toNat_eq]
    omega

theorem chrRequest_eq (hsize : data.size < 281474976710656) (hlen : data.len < 281474976710656) :
    chrRequest data = data.size + data.len + 2 + data.size / 5 ∧
      chrSize data = data.size + data.len + 2 + data.size / 5 := by
  have hfifth : Near (data.size / 5) (sbufBuf data.size) := near_mul_fifth (by omega)
  constructor
  · rw [chrRequest, sizeT_of_lt (by omega),
      ((hfifth.ofNat_add (k := data.size + data.len) (by omega)).add_ofNat (by omega)).toNat_eq]
    omega
  · rw [chrSize, (((hfifth.ofNat_add (k := data.len) (by omega)).add_ofNat (by omega)).ofNat_add
      (by omega)).toNat_eq]
    omega

theorem sbufNew_good (hpos : size ≠ 0) (hsmall : size < 281474976710656) :
    ∃ data, sbufNew fresh unset size = some data ∧ data.Holds [] := by
  have hlen := Block.length_realloc [] fresh size
  have hwrite : ∃ rest, Block.write (Block.realloc [] fresh size) 0 [0] = some (0 :: rest) := by
    obtain ⟨b, rest, hrealloc⟩ : ∃ b rest, Block.realloc [] fresh size = b :: rest := by
      apply List.exists_cons_of_length_pos
      omega
    rw [hrealloc]
    exact ⟨rest, Block.write_middle [] [b] rest [0] rfl rfl⟩
  obtain ⟨rest, hwrite⟩ := hwrite
  have hnew : sbufNew fresh unset size = some ⟨0 :: rest, size, 0⟩ := by
    rw [sbufNew, hwrite, if_pos hpos]
    rfl
  exact ⟨_, hnew, ⟨rest, rfl⟩, rfl, (Block.length_write hwrite).trans hlen, hsmall⟩

theorem sbufNew_none (hzero : size = 0) : sbufNew fresh unset size = none := by
  rw [sbufNew, Block.write_none (by
    rw [Block.length_realloc, hzero]
    exact Nat.succ_pos _)]
  rfl

/-- A string of less than 2 ^ 31 - 1 bytes is appended. -/
theorem sbufAppendStr_good (h : data.Holds text) (hs : s.1.length < 2147483647)
    (hfits : strGrows data (toInt (s.1.length + 1)) →
      strRequest data (toInt (s.1.length + 1)) < 281474976710656) :
    ∃ data', sbufAppendStr fresh data s = some (true, data') ∧ data'.Holds (text ++ s.1) := by
  have hlt := h.lt
  have hsmall := h.small
  have hlen := h.len
  have hsize : toInt (s.1.length + 1) = ((s.1.length + 1 : Nat) : Int) := toInt_of_lt (by omega)
  rw [hsize] at hfits
  have hint : intToSize ((s.1.length + 1 : Nat) : Int) = s.1.length + 1 :=
    intToSize_natCast (by omega)
  have hbytes : snprintf (s.1.length + 1) s = s.1 ++ [0] := by
    rw [snprintf, if_neg (Nat.succ_ne_zero _), Nat.add_sub_cancel, List.take_length]
  have hless : intToSize (((s.1.length + 1 : Nat) : Int) - 1) = s.1.length := by
    rw [Nat.cast_succ, Int.add_sub_cancel]
    exact intToSize_natCast (by omega)
  have hne : ¬ ((s.1.length + 1 : Nat) : Int) = -2147483648 := by omega
  have hgrown : ∃ data₁ : SBUF, (if strGrows data (s.1.length + 1 : Nat) then
      { data with
        buf := Block.realloc data.buf fresh (strRequest data (s.1.length + 1 : Nat))
        size := strSize data (s.1.length + 1 : Nat) } else data) = data₁ ∧
      data₁.Holds text ∧ text.length + s.1.length < data₁.size := by
    by_cases hgrows : strGrows data (s.1.length + 1 : Nat)
    · obtain ⟨hrequest, hnoted⟩ :=
        @strRequest_eq data (s.1.length + 1) hsmall (by omega) (by omega)
      have hfits := hfits hgrows
      rw [hrequest] at hfits
      rw [if_pos hgrows, hrequest, hnoted]
      exact ⟨_, rfl, h.grow fresh (by omega) hfits, by dsimp only; omega⟩
    · rw [if_neg hgrows]
      rw [strGrows, hint, sizeT_of_lt (by omega)] at hgrows
      exact ⟨data, rfl, h, by omega⟩
  obtain ⟨data₁, hdata₁, h₁, hroom⟩ := hgrown
  obtain ⟨buf, hwrite, h'⟩ := h₁.write s.1 hroom
  have hsum : sizeT (data₁.len + s.1.length) = text.length + s.1.length := by
    rw [h₁.len, sizeT_of_lt (by omega)]
  refine ⟨_, ?_, h'⟩
  rw [sbufAppendStr, hsize, hdata₁, hint, hbytes, hwrite, Option.bind_eq_bind, Option.bind_some,
    if_neg hne, hless, hsum]
  rfl

theorem sbufAppendChr_good (h : data.Holds text)
    (hfits : chrGrows data → chrRequest data < 281474976710656) (c : UInt8) :
    ∃ data', sbufAppendChr fresh data c = some (true, data') ∧ data'.Holds (text ++ [c]) := by
  have hlt := h.lt
  have hsmall := h.small
  have hlen := h.len
  have hgrown : ∃ data₁ : SBUF, (if chrGrows data then
      { data with buf := Block.realloc data.buf fresh (chrRequest data), size := chrSize data }
      else data) = data₁ ∧ data₁.Holds text ∧ text.length + 1 < data₁.size := by
    by_cases hgrows : chrGrows data
    · obtain ⟨hrequest, hnoted⟩ := @chrRequest_eq data hsmall (by omega)
      have hfits := hfits hgrows
      rw [hrequest] at hfits
      rw [if_pos hgrows, hrequest, hnoted]
      exact ⟨_, rfl, h.grow fresh (by omega) hfits, by dsimp only; omega⟩
    · rw [if_neg hgrows]
      rw [chrGrows, sizeT_of_lt (by omega)] at hgrows
      exact ⟨data, rfl, h, by omega⟩
  obtain ⟨data₁, hdata₁, h₁, hroom⟩ := hgrown
  obtain ⟨rest, hbuf⟩ := h₁.buf
  obtain ⟨b, rest, rfl⟩ : ∃ b rest', rest = b :: rest' := by
    apply List.exists_cons_of_length_pos
    have hsize := h₁.size
    rw [hbuf, List.length_append, List.length_cons] at hsize
    omega
  have hfirst : Block.write data₁.buf data₁.len [c] = some (text ++ [c] ++ b :: rest) := by
    rw [hbuf, List.append_cons text 0]
    exact Block.write_middle text [0] (b :: rest) [c] h₁.len rfl
  have hsecond : Block.write (text ++ [c] ++ b :: rest) (data₁.len + 1) [0] =
      some (text ++ [c] ++ [0] ++ rest) := by
    rw [List.append_cons (text ++ [c]) b]
    refine Block.write_middle (text ++ [c]) [b] rest [0] ?_ rfl
    rw [h₁.len, List.length_append, List.length_singleton]
  refine ⟨{ data₁ with buf := text ++ [c] ++ [0] ++ rest, len := data₁.len + 1 }, ?_,
    ⟨rest, List.append_assoc ..⟩, ?_, ?_, h₁.small⟩
  · rw [sbufAppendChr, hdata₁, hfirst, Option.bind_eq_bind, Option.bind_some, hsecond]
    rfl
  · rw [List.length_append, List.length_singleton, ← h₁.len]
  · exact ((Block.length_write hsecond).trans (Block.length_write hfirst)).trans h₁.size

end Holds

end BigBox.Sbuf
