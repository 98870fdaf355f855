import BigBox.Lib.Block
import BigBox.Lib.CInt
import BigBox.Lib.CString
import BigBox.Lib.TryRun

namespace BigBox.Cstl.Cstr
set_option autoImplicit true

/-- A `cstring`: its allocation and the index in it that `data` points to. -/
structure Cstring where
  len : Nat
  alloc : List UInt8
  data : Nat

def BUFFER_DEFAULT_SIZE : Nat := 64

/-- `nearest_multiple_of(1024, n)`. -/
def nearestMultiple (n : Nat) : Nat := sizeT (n + 1023) / 1024 * 1024

def cstrNewWithSize (n : Nat) : Cstring := ⟨n, List.replicate (n + 1) 0, 0⟩

def cstrNew : Cstring := cstrNewWithSize BUFFER_DEFAULT_SIZE

def cstrNewWithCopy (str : List UInt8) : Option Cstring :=
  let self := cstrNewWithSize str.length
  (Block.write self.alloc 0 str).map fun block => { self with alloc := block }

def cstrLength (self : Cstring) : Option Nat := (stringAt self.alloc self.data).map List.length

/-- The bytes `realloc` adds are whatever it finds. -/
def cstrResize (self : Cstring) (n : Nat) (fresh : Nat → UInt8) : Cstring :=
  let n := nearestMultiple n
  ⟨n, (Block.realloc self.alloc fresh (n + 1)).set n 0, 0⟩

def cstrPrepend (self : Cstring) (str : List UInt8) (fresh : Nat → UInt8) :
    Option (Cstring × Int) := do
  let len := str.length
  let prev ← cstrLength self
  let needed := sizeT (len + prev)
  let self := if self.len > needed then self else cstrResize self needed fresh
  let block ← Block.move self.alloc (self.data + len) self.data (len + 1)
  let block ← Block.write block self.data str
  return ({ self with alloc := block }, 0)

def strncat (block : List UInt8) (dst : Nat) (src : List UInt8) (n : Nat) : Option (List UInt8) :=
  (stringAt block dst).bind fun s => Block.write block (dst + s.length) (src.take n ++ [0])

def cstrAppendN (self : Cstring) (str : List UInt8) (len : Nat) (fresh : Nat → UInt8) :
    Option (Cstring × Int) := do
  let prev ← cstrLength self
  let needed := sizeT (len + prev)
  let self := if self.len > needed then self else cstrResize self needed fresh
  let block ← strncat self.alloc self.data str len
  return ({ self with alloc := block }, 0)

def cstrAppend (self : Cstring) (str : List UInt8) (fresh : Nat → UInt8) :
    Option (Cstring × Int) := cstrAppendN self str str.length fresh

/-- The result is the room that is given up. -/
def cstrCompact (self : Cstring) : Option (Cstring × Int) := do
  let len ← cstrLength self
  let buf := List.replicate (len + 1) 0
  let text ← Block.read self.alloc self.data len
  let buf ← Block.write buf 0 text
  return (⟨len, buf, 0⟩, self.len - len)

def cstrFill (self : Cstring) (c : UInt8) : Option Cstring :=
  (Block.write self.alloc self.data (List.replicate self.len c)).map fun block =>
    { self with alloc := block }

def cstrClear (self : Cstring) : Option Cstring := cstrFill self 0

/-- The loop over the bytes from `data` on. -/
def trimLeftLoop : List UInt8 → Nat → Option Nat
  | [], _ => none
  | c :: rest, data => if c ≠ 0 ∧ isspace c then trimLeftLoop rest (data + 1) else some data

def cstrTrimLeft (self : Cstring) : Option Cstring :=
  (trimLeftLoop (self.alloc.drop self.data) self.data).map fun data => { self with data }

/-- The loop over the bytes in front of an index, which goes on below `data`. -/
def trimRightLoop (block : List UInt8) : Nat → Option (List UInt8)
  | 0 => none
  | i + 1 => (block[i]?).bind fun c =>
    if c ≠ 0 ∧ isspace c then trimRightLoop (block.set i 0) i else some block

def cstrTrimRight (self : Cstring) : Option Cstring := do
  let length ← cstrLength self
  let block ← trimRightLoop self.alloc (self.data + length)
  return { self with alloc := block }

def cstrTrim (self : Cstring) : Option Cstring := (cstrTrimLeft self).bind cstrTrimRight

/-- A call, with the bytes `realloc` adds where it is made. -/
inductive Call where
  | append (str : List UInt8) (fresh : Nat → UInt8)
  | appendN (str : List UInt8) (n : Nat) (fresh : Nat → UInt8)
  | prepend (str : List UInt8) (fresh : Nat → UInt8)
  | trimLeft
  | trimRight
  | trim
  | clear
  | compact

/-- One call; `none` is an access outside of the allocation. -/
def cstrStep (self : Cstring) (c : Call) : Option (Cstring × Unit) :=
  (match c with
  | .append str fresh => (cstrAppend self str fresh).map Prod.fst
  | .appendN str n fresh => (cstrAppendN self str n fresh).map Prod.fst
  | .prepend str fresh => (cstrPrepend self str fresh).map Prod.fst
  | .trimLeft => cstrTrimLeft self
  | .trimRight => cstrTrimRight self
  | .trim => cstrTrim self
  | .clear => cstrClear self
  | .compact => (cstrCompact self).map Prod.fst).map fun self => (self, ())

/-- The same calls on an ordinary string. -/
def specStep (t : List UInt8) (c : Call) : List UInt8 × Unit :=
  (match c with
  | .append str _ => t ++ str
  | .appendN str n _ => t ++ str.take n
  | .prepend str _ => str ++ t
  | .trimLeft => t.dropWhile isspace
  | .trimRight => t.rdropWhile isspace
  | .trim => BigBox.trim t
  | .clear => []
  | .compact => t, ())

/-- The text at `data`. -/
def Cstring.Shows (self : Cstring) (t : List UInt8) : Prop :=
  stringAt self.alloc self.data = some t

/-- The strings the calls start with, and their texts. -/
inductive Made : Cstring → List UInt8 → Prop where
  | new : Made cstrNew []
  | copy (hstr : 0 ∉ str) (h : cstrNewWithCopy str = some self) : Made self str

/-- What is passed is a string. -/
def Call.Valid : Call → Prop
  | .append str _ => 0 ∉ str
  | .appendN str _ _ => 0 ∉ str
  | .prepend str _ => 0 ∉ str
  | _ => True

def Cstring.text (self : Cstring) : List UInt8 := (stringAt self.alloc self.data).getD []

/-- `m` bytes can be put behind the text: in front of the end of the allocation, or in an allocation
of the nearest multiple of 1024, whose start is the text. -/
def Cstring.AppendOk (self : Cstring) (n m : Nat) : Prop :=
  let needed := sizeT (n + self.text.length)
  if self.len > needed then self.data + self.text.length + m ≤ self.len
  else cString (self.alloc.take (nearestMultiple needed)) = self.text ∧
    self.text.length + m ≤ nearestMultiple needed

/-- The first `n + 1` bytes, and behind them those from `2 * n + 1` on, start with a text and its
zero: it is no longer than `n`, or its rest stands `n` bytes behind itself. -/
def Moves (bytes : List UInt8) (n : Nat) (t : List UInt8) : Prop :=
  t ++ [0] <+: bytes.take (n + 1) ++ bytes.drop (2 * n + 1)

/-- There is room for twice the `n` bytes in front of the text, and they move it. -/
def Cstring.PrependOk (self : Cstring) (n : Nat) (fresh : Nat → UInt8) : Prop :=
  let needed := sizeT (n + self.text.length)
  if self.len > needed then
    self.data + 2 * n ≤ self.len ∧ Moves (self.alloc.drop self.data) n self.text
  else 2 * n ≤ nearestMultiple needed ∧
    Moves ((Block.realloc self.alloc fresh (nearestMultiple needed + 1)).set
      (nearestMultiple needed) 0) n self.text

/-- The calls that a string serves. A text to trim on the right is not blank, and the start of one
to clear was not trimmed by more than one byte. -/
def Call.Ok (self : Cstring) : Call → Prop
  | .append str _ => self.AppendOk str.length str.length
  | .appendN str n _ => self.AppendOk n (str.take n).length
  | .prepend str fresh => self.PrependOk str.length fresh
  | .trimRight => ∃ c ∈ self.text, isspace c = false
  | .trim => ∃ c ∈ self.text, isspace c = false
  | .clear => self.data ≤ 1
  | _ => True

section Strings

/-- A copy of a string in cleared memory. -/
theorem write_zeros (t : List UInt8) :
    Block.write (List.replicate (t.length + 1) 0) 0 t = some (t ++ [0]) := by
  have hsplit : List.replicate (t.length + 1) (0 : UInt8) =
      [] ++ List.replicate t.length 0 ++ [0] := by
    rw [List.replicate_succ', List.nil_append]
  rw [hsplit]
  exact Block.write_middle [] _ _ _ rfl List.length_replicate.symm

end Strings

/-- The text stands at `data`, behind what was trimmed. -/
structure Holds (s : Cstring) (t : List UInt8) : Prop where
  length : s.alloc.length = s.len + 1
  blank : ∀ c ∈ s.alloc.take s.data, isspace c = true
  shows : s.Shows t

section Holds
variable {s : Cstring} {t : List UInt8}

theorem Holds.nozero (h : Holds s t) : 0 ∉ t := not_mem_of_stringAt h.shows

theorem Holds.text (h : Holds s t) : s.text = t := by
  rw [Cstring.text, h.shows, Option.getD_some]

theorem Holds.cstrLength (h : Holds s t) : cstrLength s = some t.length := by
  rw [Cstr.cstrLength, h.shows, Option.map_some]

/-- The allocation around the text. -/
theorem Holds.split (h : Holds s t) :
    ∃ w rest, s.alloc = w ++ (t ++ 0 :: rest) ∧ w.length = s.data ∧
      ∀ c ∈ w, isspace c = true := by
  obtain ⟨w, rest, halloc, hw, htake⟩ := stringAt_split h.shows
  exact ⟨w, rest, halloc, hw, htake ▸ h.blank⟩

theorem Holds.mk_split (hlength : (w ++ (t ++ 0 :: rest)).length = len + 1)
    (hw : ∀ c ∈ w, isspace c = true) (ht : 0 ∉ t) :
    Holds ⟨len, w ++ (t ++ 0 :: rest), w.length⟩ t where
  length := hlength
  blank := by rwa [List.take_left]
  shows := stringAt_middle w rest ht

section Append

/-- Behind a string there is room for another one, or the write leaves the block. -/
theorem strncat_room (hu : stringAt block off = some u)
    (hroom : off + u.length + (src.take n).length < block.length) :
    ∃ rest, strncat block off src n = some (block.take off ++ (u ++ src.take n ++ 0 :: rest)) ∧
      (block.take off ++ (u ++ src.take n ++ 0 :: rest)).length = block.length := by
  obtain ⟨w, rest, hblock, hw, htake⟩ := stringAt_split hu
  have hlength : block.length = off + u.length + (rest.length + 1) := by
    rw [hblock, List.length_append, List.length_append, hw, List.length_cons, Nat.add_assoc]
  let m := (src.take n).length + 1
  have hm : m ≤ (0 :: rest).length := by
    rw [List.length_cons]
    omega
  have hwrite : Block.write block (off + u.length) (src.take n ++ [0]) =
      some ((w ++ u) ++ (src.take n ++ [0]) ++ (0 :: rest).drop m) := by
    have hsplit : block = (w ++ u) ++ (0 :: rest).take m ++ (0 :: rest).drop m := by
      rw [List.append_assoc (w ++ u), List.take_append_drop, hblock, List.append_assoc]
    rw [hsplit]
    apply Block.write_middle
    · rw [List.length_append, hw]
    · rw [List.length_append, List.length_take_of_le hm]
      rfl
  have hresult : (w ++ u) ++ (src.take n ++ [0]) ++ (0 :: rest).drop m =
      block.take off ++ (u ++ src.take n ++ 0 :: (0 :: rest).drop m) := by
    rw [← htake]
    simp only [List.append_assoc, List.cons_append, List.nil_append]
  refine ⟨(0 :: rest).drop m, ?_, ?_⟩
  · rw [strncat, hu, Option.bind_some, hwrite, hresult]
  · rw [← hresult]
    exact Block.length_write hwrite

theorem strncat_none (hu : stringAt block off = some u)
    (hfull : block.length ≤ off + u.length + (src.take n).length) :
    strncat block off src n = none := by
  rw [strncat, hu, Option.bind_some]
  apply Block.write_none
  rw [List.length_append, List.length_singleton]
  exact Nat.lt_succ_of_le hfull

theorem not_mem_append_take {t src : List UInt8} (ht : 0 ∉ t) (hsrc : 0 ∉ src) (n : Nat) :
    0 ∉ t ++ src.take n := by
  rw [List.mem_append, not_or]
  exact ⟨ht, fun h => hsrc (List.mem_of_mem_take h)⟩

/-- A string is put behind one that a `cstring` shows. -/
theorem Holds.strncat (h : Holds s t) (hsrc : 0 ∉ src)
    (hroom : s.data + t.length + (src.take n).length ≤ s.len) :
    ∃ block, strncat s.alloc s.data src n = some block ∧
      Holds { s with alloc := block } (t ++ src.take n) := by
  have hin : s.data + t.length + (src.take n).length < s.alloc.length := by
    rw [h.length]
    exact Nat.lt_succ_of_le hroom
  obtain ⟨rest, hrun, hlength⟩ := strncat_room h.shows hin
  obtain ⟨w, _, _, hw, htake⟩ := stringAt_split h.shows
  rw [← htake] at hrun hlength
  refine ⟨_, hrun, ?_⟩
  have hholds := Holds.mk_split (hlength.trans h.length) (htake ▸ h.blank)
    (not_mem_append_take h.nozero hsrc n)
  rwa [hw] at hholds

/-- The allocation of `n` bytes and a zero that `cstr_resize` makes shows what the old one showed
in its first `n` bytes. -/
theorem stringAt_resize (h : 0 ∈ alloc) (fresh : Nat → UInt8) (n : Nat) :
    stringAt ((Block.realloc alloc fresh (n + 1)).set n 0) 0 = some (cString (alloc.take n)) := by
  have hlength := Block.length_realloc alloc fresh (n + 1)
  have hset : (Block.realloc alloc fresh (n + 1)).set n 0 =
      (Block.realloc alloc fresh (n + 1)).take n ++ [0] := by
    rw [List.set_eq_take_append_cons_drop, if_pos (by rw [hlength]; exact Nat.lt_succ_self n),
      List.drop_of_length_le (Nat.le_of_eq hlength)]
  have hstring : cString ((Block.realloc alloc fresh (n + 1)).take n) = cString (alloc.take n) := by
    rw [Block.realloc, List.take_append, List.take_take, Nat.min_eq_left (Nat.le_succ n)]
    rcases Nat.lt_or_ge n alloc.length with hlt | hge
    · have hfull : (alloc.take (n + 1)).length = n + 1 := List.length_take_of_le hlt
      rw [hfull, Nat.sub_eq_zero_of_le (Nat.le_succ n), List.take_zero, List.append_nil]
    · rw [List.take_of_length_le (Nat.le_succ_of_le hge), List.take_of_length_le hge,
        cString_append_of_mem h]
  rw [hset, stringAt, List.drop_zero, if_pos (List.mem_append_right _ List.mem_cons_self),
    cString_append_zero, hstring]

theorem Holds.zero_mem (h : Holds s t) : 0 ∈ s.alloc := by
  obtain ⟨w, rest, halloc, _⟩ := h.split
  rw [halloc]
  exact List.mem_append_right w (List.mem_append_right t List.mem_cons_self)

/-- A resized string is a string, though not always the same. -/
theorem Holds.resize (h : Holds s t) (n : Nat) (fresh : Nat → UInt8) :
    Holds (cstrResize s n fresh) (cString (s.alloc.take (nearestMultiple n))) where
  length := by
    rw [cstrResize, List.length_set, Block.length_realloc]
  blank := by
    rw [cstrResize, List.take_zero]
    exact fun c hc => (List.not_mem_nil hc).elim
  shows := stringAt_resize h.zero_mem fresh _

theorem Holds.appendN (h : Holds s t) (hstr : 0 ∉ str)
    (hok : s.AppendOk n (str.take n).length) (fresh : Nat → UInt8) :
    ∃ s', cstrAppendN s str n fresh = some (s', 0) ∧ Holds s' (t ++ str.take n) := by
  rw [Cstring.AppendOk, h.text] at hok
  simp only [cstrAppendN, h.cstrLength, Option.bind_eq_bind, Option.bind_some]
  by_cases hroom : s.len > sizeT (n + t.length)
  · rw [if_pos hroom] at hok
    obtain ⟨block, hrun, hholds⟩ := h.strncat hstr hok
    rw [if_pos hroom, hrun]
    exact ⟨_, rfl, hholds⟩
  · rw [if_neg hroom] at hok
    have hresized := h.resize (sizeT (n + t.length)) fresh
    rw [hok.1] at hresized
    have hin : (cstrResize s (sizeT (n + t.length)) fresh).data + t.length +
        (str.take n).length ≤ (cstrResize s (sizeT (n + t.length)) fresh).len := by
      rw [cstrResize, Nat.zero_add]
      exact hok.2
    obtain ⟨block, hrun, hholds⟩ := hresized.strncat hstr hin
    rw [if_neg hroom, hrun]
    exact ⟨_, rfl, hholds⟩

/-- Behind the text there is no room, or the text is another one. -/
theorem Holds.appendN_bad (h : Holds s t) (hstr : 0 ∉ str)
    (hbad : ¬ s.AppendOk n (str.take n).length) (hrun : cstrAppendN s str n fresh = some (s', r)) :
    ¬ s'.Shows (t ++ str.take n) := by
  intro hshows
  rw [Cstring.AppendOk, h.text] at hbad
  simp only [cstrAppendN, h.cstrLength, Option.bind_eq_bind, Option.bind_some] at hrun
  obtain ⟨block, hcat, hret⟩ := Option.bind_eq_some_iff.1 hrun
  cases hret
  by_cases hroom : s.len > sizeT (n + t.length)
  · rw [if_pos hroom] at hbad hcat
    rw [strncat_none h.shows (by rw [h.length]; omega)] at hcat
    cases hcat
  · rw [if_neg hroom] at hbad hcat hshows
    have hresized := h.resize (sizeT (n + t.length)) fresh
    generalize cString (s.alloc.take (nearestMultiple (sizeT (n + t.length)))) = u at hbad hresized
    have hin : (cstrResize s (sizeT (n + t.length)) fresh).data + u.length + (str.take n).length ≤
        (cstrResize s (sizeT (n + t.length)) fresh).len := by
      by_contra hfull
      rw [strncat_none hresized.shows (by rw [hresized.length]; omega)] at hcat
      cases hcat
    obtain ⟨block', hcat', hholds⟩ := hresized.strncat hstr hin
    cases hcat.symm.trans hcat'
    have heq := Option.some.inj (hholds.shows.symm.trans hshows)
    rw [List.append_cancel_right heq] at hbad hin
    rw [cstrResize, Nat.zero_add] at hin
    exact hbad ⟨rfl, hin⟩

end Append

section Prepend

/-- What a move of `str.length + 1` bytes and the copy of `str` leave in a block. -/
theorem prepend_block (hoff : off ≤ block.length) (hroom : off + 2 * str.length < block.length) :
    (Block.move block (off + str.length) off (str.length + 1)).bind
        (fun block => Block.write block off str) =
      some (block.take off ++ (str ++ ((block.drop off).take (str.length + 1) ++
        (block.drop off).drop (2 * str.length + 1)))) := by
  obtain ⟨w, hw⟩ : ∃ w, block.take off = w := ⟨_, rfl⟩
  obtain ⟨d, hd⟩ : ∃ d, block.drop off = d := ⟨_, rfl⟩
  obtain ⟨l, hl⟩ : ∃ l, str.length = l := ⟨_, rfl⟩
  have hblock : block = w ++ d := by rw [← hw, ← hd, List.take_append_drop]
  have hwl : off = w.length := by rw [← hw, List.length_take_of_le hoff]
  have hdl : 2 * l + 1 ≤ d.length := by
    rw [← hd, List.length_drop]
    omega
  have hhead : l + 1 = (d.take (l + 1)).length := by
    rw [List.length_take_of_le (by omega)]
  have hmid : (d.take (l + 1)).length = ((d.drop l).take (l + 1)).length := by
    rw [List.length_take_of_le (by omega), List.length_take_of_le (by rw [List.length_drop]; omega)]
  have hfront : l = (d.take l).length := by
    rw [List.length_take_of_le (by omega)]
  have hread : Block.read block off (l + 1) = some (d.take (l + 1)) := by
    have hsplit : block = w ++ d.take (l + 1) ++ d.drop (l + 1) := by
      rw [List.append_assoc, List.take_append_drop, hblock]
    rw [hsplit]
    exact Block.read_middle w _ _ hwl hhead
  have hmoved : Block.write block (off + l) (d.take (l + 1)) =
      some ((w ++ d.take l) ++ d.take (l + 1) ++ d.drop (2 * l + 1)) := by
    have hrest : (d.drop l).drop (l + 1) = d.drop (2 * l + 1) := by
      rw [List.drop_drop]
      congr 1
      omega
    have hsplit : block = (w ++ d.take l) ++ (d.drop l).take (l + 1) ++ d.drop (2 * l + 1) := by
      rw [← hrest, List.append_assoc (w ++ _), List.take_append_drop, List.append_assoc,
        List.take_append_drop, hblock]
    rw [hsplit]
    apply Block.write_middle _ _ _ _ _ hmid
    rw [List.length_append, ← hwl, ← hfront]
  have hwritten : Block.write ((w ++ d.take l) ++ d.take (l + 1) ++ d.drop (2 * l + 1)) off str =
      some (w ++ str ++ (d.take (l + 1) ++ d.drop (2 * l + 1))) := by
    rw [List.append_assoc (w ++ d.take l)]
    exact Block.write_middle w (d.take l) _ str hwl (hl.trans hfront)
  rw [hw, hd, hl, Block.move, hread, Option.bind_some, hmoved, Option.bind_some, hwritten,
    List.append_assoc w]

theorem prepend_none (hfull : block.length ≤ off + 2 * l) :
    Block.move block (off + l) off (l + 1) = none := by
  rcases Nat.lt_or_ge block.length (off + (l + 1)) with hlt | hge
  · rw [Block.move, Block.read_none hlt, Option.bind_none]
  · exact Block.move_none hge (by omega)

theorem Holds.data_lt (h : Holds s t) : s.data < s.alloc.length := by
  obtain ⟨w, rest, halloc, hw, _⟩ := h.split
  rw [halloc, List.length_append, List.length_append, List.length_cons]
  omega

/-- Where there is room, the prefix is put in front of what the move leaves. -/
theorem Holds.move (h : Holds s t) (hroom : s.data + 2 * str.length ≤ s.len) :
    ∃ block, (Block.move s.alloc (s.data + str.length) s.data (str.length + 1)).bind
        (fun block => Block.write block s.data str) = some block ∧
      block.length = s.alloc.length ∧ block.take s.data = s.alloc.take s.data ∧
      block.drop s.data = str ++ ((s.alloc.drop s.data).take (str.length + 1) ++
        (s.alloc.drop s.data).drop (2 * str.length + 1)) := by
  have hle := Nat.le_of_lt h.data_lt
  have hin : s.data + 2 * str.length < s.alloc.length := by
    rw [h.length]
    exact Nat.lt_succ_of_le hroom
  have hrun := prepend_block hle hin
  have htake : (s.alloc.take s.data).length = s.data := List.length_take_of_le hle
  refine ⟨_, hrun, ?_, List.take_left' htake, List.drop_left' htake⟩
  obtain ⟨block, hmove, hwrite⟩ := Option.bind_eq_some_iff.1 hrun
  rw [Block.length_write hwrite, Block.length_move hmove]

theorem zero_not_mem_append {a b : List UInt8} (ha : 0 ∉ a) (hb : 0 ∉ b) : 0 ∉ a ++ b := by
  rw [List.mem_append, not_or]
  exact ⟨ha, hb⟩

/-- The text is behind the prefix exactly when the move moves it. -/
theorem Holds.move_shows (h : Holds s u) (hstr : 0 ∉ str) (ht : 0 ∉ t)
    (hroom : s.data + 2 * str.length ≤ s.len) :
    ∃ block, (Block.move s.alloc (s.data + str.length) s.data (str.length + 1)).bind
        (fun block => Block.write block s.data str) = some block ∧
      (Moves (s.alloc.drop s.data) str.length t → Holds { s with alloc := block } (str ++ t)) ∧
      (stringAt block s.data = some (str ++ t) → Moves (s.alloc.drop s.data) str.length t) := by
  obtain ⟨block, hrun, hlength, htake, hdrop⟩ := h.move hroom
  have hshows : stringAt block s.data = some (str ++ t) ↔
      Moves (s.alloc.drop s.data) str.length t := by
    rw [stringAt_iff (zero_not_mem_append hstr ht), hdrop, List.append_assoc,
      List.prefix_append_right_inj]
    rfl
  refine ⟨block, hrun, fun hmoves => ?_, hshows.1⟩
  exact ⟨hlength.trans h.length, htake ▸ h.blank, hshows.2 hmoves⟩

theorem Holds.prepend (h : Holds s t) (hstr : 0 ∉ str) (hok : s.PrependOk str.length fresh) :
    ∃ s', cstrPrepend s str fresh = some (s', 0) ∧ Holds s' (str ++ t) := by
  rw [Cstring.PrependOk, h.text] at hok
  simp only [cstrPrepend, h.cstrLength, Option.bind_eq_bind, Option.bind_some]
  by_cases hroom : s.len > sizeT (str.length + t.length)
  · rw [if_pos hroom] at hok
    obtain ⟨block, hrun, hholds, _⟩ := h.move_shows hstr h.nozero hok.1
    obtain ⟨moved, hmove, hwrite⟩ := Option.bind_eq_some_iff.1 hrun
    rw [if_pos hroom, hmove, Option.bind_some, hwrite]
    exact ⟨_, rfl, hholds hok.2⟩
  · rw [if_neg hroom] at hok
    have hresized := h.resize (sizeT (str.length + t.length)) fresh
    obtain ⟨block, hrun, hholds, _⟩ := hresized.move_shows hstr h.nozero
      (by rw [cstrResize, Nat.zero_add]; exact hok.1)
    obtain ⟨moved, hmove, hwrite⟩ := Option.bind_eq_some_iff.1 hrun
    rw [if_neg hroom, hmove, Option.bind_some, hwrite]
    exact ⟨_, rfl, hholds hok.2⟩

/-- There is no room, or the move leaves something else. -/
theorem Holds.prepend_bad (h : Holds s t) (hstr : 0 ∉ str)
    (hbad : ¬ s.PrependOk str.length fresh) (hrun : cstrPrepend s str fresh = some (s', r)) :
    ¬ s'.Shows (str ++ t) := by
  intro hshows
  rw [Cstring.PrependOk, h.text] at hbad
  simp only [cstrPrepend, h.cstrLength, Option.bind_eq_bind, Option.bind_some] at hrun
  obtain ⟨moved, hmove, hrest⟩ := Option.bind_eq_some_iff.1 hrun
  obtain ⟨block, hwrite, hret⟩ := Option.bind_eq_some_iff.1 hrest
  cases hret
  by_cases hroom : s.len > sizeT (str.length + t.length)
  · rw [if_pos hroom] at hbad hmove hwrite hshows
    by_cases hin : s.data + 2 * str.length ≤ s.len
    · obtain ⟨block', hrun', _, hmoves⟩ := h.move_shows hstr h.nozero hin
      rw [hmove, Option.bind_some] at hrun'
      cases hwrite.symm.trans hrun'
      exact hbad ⟨hin, hmoves hshows⟩
    · rw [prepend_none (by rw [h.length]; omega)] at hmove
      cases hmove
  · rw [if_neg hroom] at hbad hmove hwrite hshows
    have hresized := h.resize (sizeT (str.length + t.length)) fresh
    by_cases hin : (cstrResize s (sizeT (str.length + t.length)) fresh).data + 2 * str.length ≤
        (cstrResize s (sizeT (str.length + t.length)) fresh).len
    · obtain ⟨block', hrun', _, hmoves⟩ := hresized.move_shows hstr h.nozero hin
      rw [hmove, Option.bind_some] at hrun'
      cases hwrite.symm.trans hrun'
      rw [cstrResize, Nat.zero_add] at hin
      exact hbad ⟨hin, hmoves hshows⟩
    · rw [prepend_none (by rw [hresized.length]; omega)] at hmove
      cases hmove

end Prepend

end Holds

end BigBox.Cstl.Cstr
