import BigBox.Buffer.SbufHolds

namespace BigBox.Sbuf
set_option autoImplicit true

section Back
variable {data data' : SBUF} {text : List UInt8} {n : Nat}

theorem SBUF.Holds.len_eq_zero_iff (h : data.Holds text) : data.len = 0 ↔ text = [] := by
  rw [h.len]
  exact List.length_eq_zero_iff

theorem sbufBack_good (h : data.Holds text) (hn : n ≤ text.length ∨ text = []) :
    ∃ data', sbufBack data n = some (decide (text ≠ []), data') ∧
      data'.Holds (text.take (text.length - n)) := by
  by_cases hnil : text = []
  · have hret : decide (text ≠ []) = false := decide_eq_false (not_not_intro hnil)
    have htake : text.take (text.length - n) = text := by
      rw [hnil, List.take_nil]
    rw [sbufBack, if_pos (h.len_eq_zero_iff.2 hnil), hret, htake]
    exact ⟨data, rfl, h⟩
  · have hlt := h.lt
    have hsmall := h.small
    have hn := hn.resolve_right hnil
    obtain ⟨rest, hbuf⟩ := h.buf
    have hlen : minus data.len n = text.length - n := by
      rw [h.len, minus_eq hn (by omega)]
    have htake : (text.take (text.length - n)).length = text.length - n := by
      rw [List.length_take]
      omega
    obtain ⟨b, tail, htail⟩ : ∃ b tail, text.drop (text.length - n) ++ 0 :: rest = b :: tail := by
      apply List.exists_cons_of_length_pos
      rw [List.length_append, List.length_cons]
      omega
    have hwrite : Block.write data.buf (text.length - n) [0] =
        some (text.take (text.length - n) ++ [0] ++ tail) := by
      have hsplit : data.buf = text.take (text.length - n) ++ [b] ++ tail := by
        rw [List.append_assoc, List.singleton_append, ← htail, ← List.append_assoc,
          List.take_append_drop, hbuf]
      rw [hsplit]
      exact Block.write_middle _ [b] tail [0] htake.symm rfl
    have hret : decide (text ≠ []) = true := decide_eq_true hnil
    rw [sbufBack, if_neg fun hzero => hnil (h.len_eq_zero_iff.1 hzero), hlen]
    dsimp only
    rw [hwrite, hret]
    exact ⟨_, rfl, ⟨tail, List.append_assoc ..⟩, htake.symm,
      (Block.length_write hwrite).trans h.size, hsmall⟩

/-- The length wraps around, and grows. -/
theorem sbufBack_bad (h : data.Holds text) (hn : ¬ (n ≤ text.length ∨ text = []))
    (hsmall : n < 18446744073709551616) (hback : sbufBack data n = some (ret, data')) :
    ¬ data'.Sound (text.take (text.length - n)) := by
  intro hsound
  obtain ⟨hlt, hnil⟩ := not_or.1 hn
  have hzero : data.len ≠ 0 := fun hzero => hnil (h.len_eq_zero_iff.1 hzero)
  have hsize := h.lt
  have hmax := h.small
  rw [sbufBack, if_neg hzero] at hback
  obtain ⟨buf, _, hdata'⟩ := Option.bind_eq_some_iff.1 hback
  cases hdata'
  have hlen : minus data.len n = (text.take (text.length - n)).length := hsound.len_eq
  have hle : text.length - n = 0 := by omega
  rw [hle, List.take_zero, List.length_nil, h.len] at hlen
  unfold minus sizeT at hlen
  omega

end Back

section Eraser
variable {data data' : SBUF} {text : List UInt8} {start end_ : Nat}

/-- What is moved is not cut short by its `int`, or what is left in place is as it would be moved,
and the places do not overlap. -/
def Erasable (text : List UInt8) (start end_ : Nat) : Prop :=
  let len := toInt (text.length - end_ + 1)
  0 ≤ len ∧ len.toNat ≤ end_ - start ∧
    ((text ++ [0]).drop (start + len.toNat)).take (text.length - end_ + 1 - len.toNat) =
      (text ++ [0]).drop (end_ + len.toNat)

theorem sbufEraser_refused (h : data.Holds text) (hrange : ¬ (start < end_ ∧ end_ ≤ text.length)) :
    sbufEraser data start end_ = some (false, data) := by
  rw [sbufEraser, h.len]
  refine if_pos ?_
  omega

theorem sbufEraser_eq (h : data.Holds text) (hrange : start < end_ ∧ end_ ≤ text.length) :
    sbufEraser data start end_ =
      (Block.memcpy data.buf start end_
        (intToSize (toInt (text.length - end_ + 1)))).bind fun buf =>
          some (true, { data with buf, len := text.length - (end_ - start) }) := by
  rw [sbufEraser, h.len]
  refine if_neg ?_
  omega

/-- The block when the places do not overlap. -/
theorem memcpy_tail (h : data.Holds text) (hrange : start < end_ ∧ end_ ≤ text.length)
    (hn : n ≤ text.length - end_ + 1) (hapart : n ≤ end_ - start) :
    ∃ rest, Block.memcpy data.buf start end_ n =
      some ((text ++ [0]).take start ++ ((text ++ [0]).drop end_).take n ++
        ((text ++ [0]).drop (start + n) ++ rest)) := by
  obtain ⟨hstart, hend⟩ := hrange
  obtain ⟨rest, hbuf⟩ := h.buf
  have hlength : (text ++ [(0 : UInt8)]).length = text.length + 1 := List.length_append
  rw [List.append_cons] at hbuf
  generalize text ++ [(0 : UInt8)] = tz at hbuf hlength ⊢
  have htake : ∀ k ≤ text.length + 1, (tz.take k).length = k := by
    intro k hk
    rw [List.length_take, hlength, Nat.min_eq_left hk]
  have hmiddle : ∀ k, k + n ≤ text.length + 1 → ((tz.drop k).take n).length = n := by
    intro k hk
    rw [List.length_take, List.length_drop, hlength]
    omega
  have hread : Block.read data.buf end_ n = some ((tz.drop end_).take n) := by
    have hsplit : data.buf =
        tz.take end_ ++ (tz.drop end_).take n ++ (tz.drop (end_ + n) ++ rest) := by
      rw [List.append_assoc, ← List.append_assoc ((tz.drop end_).take n), ← List.drop_drop,
        List.take_append_drop, ← List.append_assoc, List.take_append_drop, hbuf]
    rw [hsplit]
    exact Block.read_middle _ _ _ (htake end_ (by omega)).symm (hmiddle end_ (by omega)).symm
  have hwrite : Block.write data.buf start ((tz.drop end_).take n) =
      some (tz.take start ++ (tz.drop end_).take n ++ (tz.drop (start + n) ++ rest)) := by
    have hsplit : data.buf =
        tz.take start ++ (tz.drop start).take n ++ (tz.drop (start + n) ++ rest) := by
      rw [List.append_assoc, ← List.append_assoc ((tz.drop start).take n), ← List.drop_drop,
        List.take_append_drop, ← List.append_assoc, List.take_append_drop, hbuf]
    have hx : ((tz.drop end_).take n).length = ((tz.drop start).take n).length :=
      (hmiddle end_ (by omega)).trans (hmiddle start (by omega)).symm
    rw [hsplit]
    exact Block.write_middle _ _ _ _ (htake start (by omega)).symm hx
  exact ⟨rest, by rw [Block.memcpy, if_pos (by omega), Block.move, hread, Option.bind_some, hwrite]⟩

/-- The text and its zero are right just when what is not moved is. -/
theorem moved_iff (text rest : List UInt8) (hstart : start < end_) (hend : end_ ≤ text.length)
    (hn : n ≤ text.length - end_ + 1) (hapart : n ≤ end_ - start) :
    ((text ++ [0]).take start ++ ((text ++ [0]).drop end_).take n ++
        ((text ++ [0]).drop (start + n) ++ rest)).take
          ((text.take start ++ text.drop end_).length + 1) =
        text.take start ++ text.drop end_ ++ [0] ↔
      ((text ++ [0]).drop (start + n)).take (text.length - end_ + 1 - n) =
        (text ++ [0]).drop (end_ + n) := by
  have hlength : (text ++ [(0 : UInt8)]).length = text.length + 1 := List.length_append
  have hkept : text.take start ++ text.drop end_ ++ [0] =
      (text ++ [0]).take start ++ (text ++ [0]).drop end_ := by
    rw [List.append_assoc, List.take_append_of_le_length (by omega),
      List.drop_append_of_le_length hend]
  have hcount : (text.take start ++ text.drop end_).length + 1 =
      start + n + (text.length - end_ + 1 - n) := by
    rw [List.length_append, List.length_take, List.length_drop]
    omega
  rw [hkept, hcount]
  generalize text ++ [(0 : UInt8)] = tz at hlength ⊢
  have hhead : (tz.take start ++ (tz.drop end_).take n).length = start + n := by
    rw [List.length_append, List.length_take, List.length_take, List.length_drop, hlength]
    omega
  have htail : tz.drop end_ = (tz.drop end_).take n ++ tz.drop (end_ + n) := by
    rw [← List.drop_drop, List.take_append_drop]
  have hinside : text.length - end_ + 1 - n ≤ (tz.drop (start + n)).length := by
    rw [List.length_drop, hlength]
    omega
  have hcutoff : ∀ a : List UInt8, a.length = start + n →
      (a ++ (tz.drop (start + n) ++ rest)).take (start + n + (text.length - end_ + 1 - n)) =
        a ++ (tz.drop (start + n)).take (text.length - end_ + 1 - n) := by
    intro a ha
    rw [← ha, List.take_length_add_append, ha, List.take_append_of_le_length hinside]
  rw [hcutoff _ hhead, List.append_assoc]
  constructor
  · intro h
    exact List.append_cancel_left ((List.append_cancel_left h).trans htail)
  · intro h
    rw [h, ← htail]

theorem memcpy_overlap (hstart : start < end_) (hn : end_ - start < n) :
    Block.memcpy block start end_ n = none := by
  refine if_neg ?_
  omega

/-- What is left is right when the tail has come to its place. -/
theorem sbufEraser_iff (h : data.Holds text) (hrange : start < end_ ∧ end_ ≤ text.length) :
    (∃ data', sbufEraser data start end_ = some (true, data') ∧
      data'.Sound (text.take start ++ text.drop end_)) ↔ Erasable text start end_ := by
  obtain ⟨hstart, hend⟩ := hrange
  have hlt := h.lt
  have hsmall := h.small
  have hle := toInt_le (text.length - end_ + 1)
  have hlow : -2147483648 ≤ toInt (text.length - end_ + 1) := by
    unfold toInt
    rw [Int.bmod_def]
    omega
  rw [sbufEraser_eq h ⟨hstart, hend⟩]
  unfold Erasable
  generalize toInt (text.length - end_ + 1) = len at hle hlow
  dsimp only
  by_cases hneg : len < 0
  · have hbig : end_ - start < intToSize len := by
      unfold intToSize
      omega
    rw [memcpy_overlap hstart hbig]
    refine iff_of_false ?_ fun hok => absurd hok.1 (Int.not_le.2 hneg)
    rintro ⟨_, hnone, _⟩
    cases hnone
  · obtain ⟨n, rfl⟩ := Int.eq_ofNat_of_zero_le (Int.not_lt.1 hneg)
    rw [intToSize_natCast (by omega), Int.toNat_natCast]
    by_cases hapart : n ≤ end_ - start
    · have hn : n ≤ text.length - end_ + 1 := by omega
      obtain ⟨rest, hmemcpy⟩ := memcpy_tail h ⟨hstart, hend⟩ hn hapart
      rw [hmemcpy, Option.bind_some]
      have hlen : text.length - (end_ - start) = (text.take start ++ text.drop end_).length := by
        rw [List.length_append, List.length_take, List.length_drop]
        omega
      have hsize := (Block.length_memcpy hmemcpy).trans h.size
      have hcut := moved_iff text rest hstart hend hn hapart
      constructor
      · rintro ⟨data', hdata', hsound⟩
        cases hdata'
        rw [sound_iff hsize hlen, hcut] at hsound
        exact ⟨Int.natCast_nonneg n, hapart, hsound⟩
      · rintro ⟨_, _, hmoved⟩
        refine ⟨_, rfl, ?_⟩
        rw [sound_iff hsize hlen, hcut]
        exact hmoved
    · rw [memcpy_overlap hstart (Nat.lt_of_not_le hapart)]
      refine iff_of_false ?_ fun hok => hapart hok.2.1
      rintro ⟨_, hnone, _⟩
      cases hnone

theorem sbufEraser_cuts (h : data.Holds text) (hrange : start < end_ ∧ end_ ≤ text.length)
    (hok : Erasable text start end_) :
    ∃ data', sbufEraser data start end_ = some (true, data') ∧
      data'.Holds (text.take start ++ text.drop end_) := by
  obtain ⟨data', heraser, hsound⟩ := (sbufEraser_iff h hrange).2 hok
  refine ⟨data', heraser, hsound.holds ?_⟩
  rw [sbufEraser_eq h hrange] at heraser
  obtain ⟨buf, _, hdata'⟩ := Option.bind_eq_some_iff.1 heraser
  cases hdata'
  exact h.small

theorem sbufEraser_len (h : sbufEraser data start end_ = some (ret, data')) :
    data'.len = data.len ∨ data'.len = data.len - (end_ - start) := by
  rw [sbufEraser] at h
  split at h
  · cases h
    exact .inl rfl
  · obtain ⟨buf, _, hdata'⟩ := Option.bind_eq_some_iff.1 h
    cases hdata'
    exact .inr rfl

end Eraser

section Copy
variable {data data' : SBUF} {text : List UInt8} {fresh : Nat → UInt8}

theorem realloc_split (fresh : Nat → UInt8) (hn : n < m) :
    ∃ old rest, old.length = n ∧ Block.realloc [] fresh m = old ++ fresh n :: rest := by
  have hlen := Block.length_realloc [] fresh m
  have hbyte : (Block.realloc [] fresh m)[n]? = some (fresh n) := by
    rw [Block.realloc, List.take_nil, List.nil_append, List.getElem?_map, List.length_nil,
      Nat.sub_zero, List.getElem?_range hn, Option.map_some]
  obtain ⟨hlt, hbyte⟩ := List.getElem?_eq_some_iff.1 hbyte
  refine ⟨(Block.realloc [] fresh m).take n, (Block.realloc [] fresh m).drop (n + 1), ?_, ?_⟩
  · rw [List.length_take, hlen, Nat.min_eq_left (Nat.le_of_lt hn)]
  · rw [← hbyte, List.getElem_cons_drop, List.take_append_drop]

/-- The byte behind a copy is one of the new memory. -/
theorem sbufCopy_eq (h : data.Holds text) (fresh : Nat → UInt8) :
    ∃ data', sbufCopy fresh data = some (true, data') ∧ data'.size = data.size ∧
      (data'.Sound text ↔ fresh text.length = 0) := by
  obtain ⟨rest, hbuf⟩ := h.buf
  have hread : Block.read data.buf 0 data.len = some text := by
    rw [hbuf, h.len]
    exact Block.read_middle [] text (0 :: rest) rfl rfl
  obtain ⟨old, rest', hold, hrealloc⟩ := realloc_split fresh h.lt
  have hwrite : Block.write (Block.realloc [] fresh data.size) 0 text =
      some (text ++ fresh text.length :: rest') := by
    rw [hrealloc]
    exact Block.write_middle [] old _ text rfl hold.symm
  have hlength := (Block.length_write hwrite).trans (Block.length_realloc [] fresh data.size)
  refine ⟨{ data with buf := text ++ fresh text.length :: rest' }, ?_, rfl,
    sound_byte_iff rfl h.len hlength⟩
  rw [sbufCopy, hread, Option.bind_eq_bind, Option.bind_some, hwrite]
  rfl

theorem sbufCopySelf_nil (h : data.Holds []) (fresh : Nat → UInt8) :
    ∃ data', sbufCopySelf fresh data = some (true, data') ∧ data'.size = data.size ∧
      (data'.Sound [] ↔ fresh 0 = 0) := by
  obtain ⟨old, rest, hold, hrealloc⟩ := realloc_split fresh h.lt
  cases List.eq_nil_of_length_eq_zero hold
  rw [List.nil_append, List.length_nil] at hrealloc
  have hread : Block.read (fresh 0 :: rest) 0 0 = some [] :=
    Block.read_middle [] [] (fresh 0 :: rest) rfl rfl
  have hmemcpy : Block.memcpy (Block.realloc [] fresh data.size) 0 0 data.len =
      some (fresh 0 :: rest) := by
    rw [hrealloc, h.len, List.length_nil, Block.memcpy, if_pos (.inl rfl), Block.move, hread]
    exact Block.write_middle [] [] (fresh 0 :: rest) [] rfl rfl
  have hlength := (Block.length_memcpy hmemcpy).trans (Block.length_realloc [] fresh data.size)
  refine ⟨{ data with buf := fresh 0 :: rest }, ?_, rfl, sound_byte_iff rfl h.len hlength⟩
  rw [sbufCopySelf, hmemcpy]
  rfl

theorem sbufCopySelf_none (h : data.Holds text) (hne : text ≠ []) :
    sbufCopySelf fresh data = none := by
  have hlen : data.len ≠ 0 := fun hzero => hne (h.len_eq_zero_iff.1 hzero)
  rw [sbufCopySelf, Block.memcpy, if_neg (by omega)]
  rfl

end Copy

section Insert
variable {data data' : SBUF} {text : List UInt8} {fresh : Nat → UInt8} {s : Text} {pos : Nat}

theorem sbufAppendStr_len (h : sbufAppendStr fresh data s = some (ret, data')) :
    toInt (s.1.length + 1) ≠ -2147483648 ∧
      data'.len = sizeT (data.len + intToSize (toInt (s.1.length + 1) - 1)) := by
  obtain ⟨buf, _, hrest⟩ := Option.bind_eq_some_iff.1 h
  split at hrest
  · cases hrest
  · next hne =>
    cases hrest
    refine ⟨hne, ?_⟩
    dsimp only
    split
    · rfl
    · rfl

/-- The length that is noted down for a longer string is wrong. -/
theorem sbufAppendStr_bad (h : data.Holds text) (hs : 2147483647 ≤ s.1.length)
    (hsmall : s.1.length < 281474976710656)
    (happend : sbufAppendStr fresh data s = some (ret, data')) : ¬ data'.Sound (text ++ s.1) := by
  intro hsound
  obtain ⟨_, hlen⟩ := sbufAppendStr_len happend
  have hlen' := hsound.len_eq
  have hlt := h.lt
  have hsize := h.small
  rw [hlen, h.len, List.length_append] at hlen'
  unfold sizeT intToSize toInt at hlen'
  rw [Int.bmod_def] at hlen'
  omega

theorem sbufInsertStr_refused (h : data.Holds text) (hpos : text.length < pos) :
    sbufInsertStr fresh data pos s = some (false, data) := by
  rw [sbufInsertStr, h.len, if_pos hpos]
  rfl

theorem sbufInsertStr_nil (h : data.Holds text) (hpos : pos ≤ text.length) (hs : s.1 = []) :
    sbufInsertStr fresh data pos s = some (false, data) := by
  rw [sbufInsertStr, h.len, if_neg (Nat.not_lt_of_le hpos), hs, List.length_nil,
    toInt_of_lt (by decide)]
  rfl

/-- The room that is made behind the text has a zero at its end. -/
theorem sbufEraser_room (h : data.Holds (text ++ s.1)) (hs : s.1 ≠ []) :
    ∃ gap rest buf, gap.length = s.1.length ∧ buf = text ++ gap ++ 0 :: rest ∧
      sbufEraser data text.length data.len =
        some (true, { data with buf, len := text.length }) := by
  obtain ⟨c, tail, hcons⟩ := List.exists_cons_of_ne_nil hs
  have hlength : (text ++ s.1).length = text.length + (tail.length + 1) := by
    rw [List.length_append, hcons, List.length_cons]
  have hrange : text.length < (text ++ s.1).length ∧
      (text ++ s.1).length ≤ (text ++ s.1).length := by omega
  have hone : (text ++ s.1).length - (text ++ s.1).length + 1 = 1 := by omega
  obtain ⟨rest, hmemcpy⟩ := memcpy_tail (n := 1) h hrange (by omega) (by omega)
  have hleft : (text ++ s.1).length - ((text ++ s.1).length - text.length) = text.length := by
    omega
  have htake : (text ++ s.1 ++ [0]).take text.length = text := by
    rw [List.append_assoc, List.take_left]
  have hzero : ((text ++ s.1 ++ [0]).drop (text ++ s.1).length).take 1 = [0] := by
    rw [List.drop_left]
    rfl
  have hdrop : (text ++ s.1 ++ [0]).drop (text.length + 1) = tail ++ [0] := by
    rw [List.append_assoc, hcons, List.drop_length_add_append]
    rfl
  refine ⟨0 :: tail, rest, _, ?_, rfl, ?_⟩
  · rw [hcons, List.length_cons, List.length_cons]
  · rw [h.len, sbufEraser_eq h hrange, hone, toInt_of_lt (by decide),
      intToSize_natCast (by decide), hmemcpy, Option.bind_some, hleft, htake, hzero, hdrop,
      List.append_assoc tail, List.append_assoc text, List.append_assoc text]
    rfl

/-- The text is moved up into the room, and the string is written. -/
theorem sbufInsertStr_eq (h : data.Holds text) (hpos : pos ≤ text.length) (hs : s.1 ≠ [])
    (hlong : s.1.length < 2147483647)
    (hfits : strGrows data (toInt (s.1.length + 1)) →
      strRequest data (toInt (s.1.length + 1)) < 281474976710656) :
    ∃ gap rest buf size, gap.length = s.1.length ∧ buf = text ++ gap ++ 0 :: rest ∧
      buf.length = size ∧ size < 281474976710656 ∧ sbufInsertStr fresh data pos s =
        (Block.memcpy buf (pos + s.1.length) pos (text.length - pos)).bind fun buf =>
          (Block.write buf pos s.1).bind fun buf =>
            some (true, ⟨buf, size, text.length + s.1.length⟩) := by
  obtain ⟨data₁, happend, h₁⟩ := @sbufAppendStr_good data text fresh s h hlong hfits
  obtain ⟨gap, rest, buf, hgap, hbuf, heraser⟩ := sbufEraser_room h₁ hs
  have hlt₁ := h₁.lt
  have hsmall₁ := h₁.small
  have hpositive : 0 < s.1.length := List.length_pos_of_ne_nil hs
  have hint : toInt s.1.length = s.1.length := toInt_of_lt (by omega)
  rw [List.length_append] at hlt₁
  have hlength : buf.length = data₁.size := by
    rw [sbufEraser] at heraser
    split at heraser
    · cases heraser
    · obtain ⟨buf', hmemcpy, hdata'⟩ := Option.bind_eq_some_iff.1 heraser
      have hsame : buf' = buf := congrArg (fun r => r.2.buf) (Option.some.inj hdata')
      rw [← hsame]
      exact (Block.length_memcpy hmemcpy).trans h₁.size
  have hlen₁ : minus data₁.len (toInt s.1.length).toNat = text.length := by
    rw [hint, Int.toNat_natCast, h₁.len, List.length_append, minus_eq (by omega) (by omega),
      Nat.add_sub_cancel]
  have hmove : minus text.length pos = text.length - pos := minus_eq hpos (by omega)
  have hlen : sizeT (text.length + s.1.length) = text.length + s.1.length :=
    sizeT_of_lt (by omega)
  refine ⟨gap, rest, buf, data₁.size, hgap, hbuf, hlength, hsmall₁, ?_⟩
  rw [sbufInsertStr, h.len, if_neg (Nat.not_lt_of_le hpos)]
  dsimp only
  rw [if_neg (by omega), happend, Option.bind_eq_bind, Option.bind_some]
  dsimp only
  rw [hlen₁, heraser, Option.bind_some]
  dsimp only
  rw [hint, Int.toNat_natCast, hmove, List.take_length, hlen]
  rfl

theorem sbufInsertStr_good (h : data.Holds text) (hpos : pos ≤ text.length) (hs : s.1 ≠ [])
    (hlong : s.1.length < 2147483647)
    (hfits : strGrows data (toInt (s.1.length + 1)) →
      strRequest data (toInt (s.1.length + 1)) < 281474976710656)
    (hapart : text.length - pos ≤ s.1.length) :
    ∃ data', sbufInsertStr fresh data pos s = some (true, data') ∧
      data'.Holds (text.take pos ++ s.1 ++ text.drop pos) := by
  obtain ⟨gap, rest, buf, size, hgap, hbuf, hlength, hsmall, hinsert⟩ :=
    @sbufInsertStr_eq data text fresh s pos h hpos hs hlong hfits
  have htake : (text.take pos).length = pos := by
    rw [List.length_take, Nat.min_eq_left hpos]
  have hdrop : (text.drop pos).length = text.length - pos := List.length_drop
  -- The room and the end of the text are cut again: the room first.
  obtain ⟨x, y, hx, hy, hxy⟩ : ∃ x y, x.length = s.1.length ∧ y.length = text.length - pos ∧
      text.drop pos ++ gap = x ++ y := by
    refine ⟨_, _, ?_, ?_, (List.take_append_drop s.1.length _).symm⟩
    · rw [List.length_take, List.length_append, hgap]
      omega
    · rw [List.length_drop, List.length_append, hgap, hdrop]
      omega
  have hsplit : buf = text.take pos ++ x ++ y ++ 0 :: rest := by
    rw [List.append_assoc (text.take pos), ← hxy, ← List.append_assoc (text.take pos),
      List.take_append_drop, hbuf]
  have hread : Block.read buf pos (text.length - pos) = some (text.drop pos) := by
    have hbuf' : buf = text.take pos ++ text.drop pos ++ (gap ++ 0 :: rest) := by
      rw [List.take_append_drop, hbuf, List.append_assoc]
    rw [hbuf']
    exact Block.read_middle _ _ _ htake.symm hdrop.symm
  have hmemcpy : Block.memcpy buf (pos + s.1.length) pos (text.length - pos) =
      some (text.take pos ++ x ++ text.drop pos ++ 0 :: rest) := by
    rw [Block.memcpy, if_pos (.inr (.inr (by omega))), Block.move, hread, Option.bind_some, hsplit]
    refine Block.write_middle _ y _ _ ?_ (hdrop.trans hy.symm)
    rw [List.length_append, htake, hx]
  have hwrite : Block.write (text.take pos ++ x ++ text.drop pos ++ 0 :: rest) pos s.1 =
      some (text.take pos ++ s.1 ++ (text.drop pos ++ 0 :: rest)) := by
    rw [List.append_assoc (text.take pos ++ x)]
    exact Block.write_middle _ x _ _ htake.symm hx.symm
  rw [hmemcpy, Option.bind_some, hwrite, Option.bind_some] at hinsert
  refine ⟨_, hinsert, ⟨rest, (List.append_assoc ..).symm⟩, ?_, ?_, hsmall⟩
  · rw [List.length_append, List.length_append, htake, hdrop]
    dsimp only
    omega
  · exact ((Block.length_write hwrite).trans (Block.length_memcpy hmemcpy)).trans hlength

theorem sbufInsertStr_overlap (h : data.Holds text) (hpos : pos ≤ text.length) (hs : s.1 ≠ [])
    (hlong : s.1.length < 2147483647)
    (hfits : strGrows data (toInt (s.1.length + 1)) →
      strRequest data (toInt (s.1.length + 1)) < 281474976710656)
    (hoverlap : ¬ text.length - pos ≤ s.1.length) :
    sbufInsertStr fresh data pos s = none := by
  obtain ⟨_, _, buf, _, _, _, _, _, hinsert⟩ :=
    @sbufInsertStr_eq data text fresh s pos h hpos hs hlong hfits
  have hpositive : 0 < s.1.length := List.length_pos_of_ne_nil hs
  rw [hinsert, Block.memcpy, if_neg (by omega), Option.bind_none]

theorem sbufInsertStr_bad (h : data.Holds text) (hpos : pos ≤ text.length)
    (hs : 2147483647 ≤ s.1.length) (hsmall : s.1.length < 281474976710656)
    (hinsert : sbufInsertStr fresh data pos s = some (ret, data')) :
    ¬ data'.Sound (text.take pos ++ s.1 ++ text.drop pos) := by
  intro hsound
  have hlen' := hsound.len_eq
  have hlt := h.lt
  have hsize := h.small
  rw [List.length_append, List.length_append, List.length_take, List.length_drop] at hlen'
  rw [sbufInsertStr, h.len, if_neg (Nat.not_lt_of_le hpos)] at hinsert
  dsimp only at hinsert
  split at hinsert
  · cases hinsert
    have hlen := h.len
    omega
  · next hpositive =>
    obtain ⟨⟨_, data₁⟩, happend, hinsert⟩ := Option.bind_eq_some_iff.1 hinsert
    obtain ⟨⟨_, data₂⟩, heraser, hinsert⟩ := Option.bind_eq_some_iff.1 hinsert
    obtain ⟨buf, _, hinsert⟩ := Option.bind_eq_some_iff.1 hinsert
    obtain ⟨buf', _, hinsert⟩ := Option.bind_eq_some_iff.1 hinsert
    cases hinsert
    obtain ⟨hne, hlen₁⟩ := sbufAppendStr_len happend
    obtain ⟨n, hn⟩ := Int.eq_ofNat_of_zero_le (Int.le_of_lt (Int.not_le.1 hpositive))
    have hwraps : n < s.1.length → n + 4294967296 ≤ s.1.length := toInt_wraps hn
    have hbound : n < 2147483647 := by
      have hlt' := toInt_lt_of_succ hne
      rw [hn] at hlt'
      exact Int.ofNat_lt.1 hlt'
    have hlen₂ := sbufEraser_len heraser
    have hlast : sizeT (data₂.len + (toInt s.1.length).toNat) = _ := hlen'
    rw [toInt_succ hne, hn, Int.add_sub_cancel, intToSize_natCast (by omega), h.len,
      sizeT_of_lt (by omega)] at hlen₁
    rw [hn, Int.toNat_natCast] at hlast
    dsimp only at heraser hlen₂
    rw [hlen₁, hn, Int.toNat_natCast, minus_eq (Nat.le_add_left _ _) (by omega),
      Nat.add_sub_cancel] at hlen₂
    clear hn hne hpositive
    rw [sizeT_of_lt (by omega)] at hlast
    omega

end Insert

end BigBox.Sbuf
