import BigBox.Lib.Block
import BigBox.Lib.CInt
import BigBox.Lib.Loop
import BigBox.Lib.TryRun

namespace BigBox.Stringbuf
open Loop
set_option autoImplicit true

/-- A `strbuf_t`. The block is `none` when `buf` is null. -/
structure StrbufT where
  buf : Option (List UInt8)
  len : Int
  size : Int
  capacity : Int

/-- What a format expands to: no byte of it is zero. -/
structure Expansion where
  text : List UInt8
  nonzero : 0 ∉ text

def strbufInit (capacity : Int) : StrbufT := ⟨none, 0, 0, capacity⟩

/-- The number of characters `vsnprintf` returns, negative when it is no `int`. -/
def vsnprintf (text : List UInt8) : Int := if text.length < 2147483648 then text.length else -1

/-- The bytes `vsnprintf` writes when it may write `n`. -/
def formatted (text : List UInt8) (n : Int) : List UInt8 :=
  if n ≤ 0 then [] else text.take (n.toNat - 1) ++ [0]

def MIN_SIZE : Int := 4096

def calcRound (realSize maxSize size : Int) : Option (Round Int Int) :=
  if size < maxSize then
    if realSize ≤ size then some (.done size) else (checkedInt (size * 2)).map .next
  else some (.done maxSize)

/-- The doubled size is no `int` after less than 20 rounds. -/
def calcSize (realSize maxSize : Int) : Option Int :=
  iterate (calcRound realSize maxSize) 20 MIN_SIZE

namespace StrbufT

/-- The copy at the end of `append__`. A null `buf` has no result. -/
def store (sb : StrbufT) (text : List UInt8) (strlen : Int) : Option (StrbufT × Int) :=
  if formatted text strlen = [] then some ({ sb with len := sb.len + strlen }, 0)
  else
    sb.buf.bind fun buf =>
      (Block.write buf sb.len.toNat (formatted text strlen)).map fun buf =>
        ({ sb with buf := some buf, len := sb.len + strlen }, 0)

/-- `append__` with what the format expands to. `alloc` is `none` when `realloc` or `malloc`
fails, and has the fresh bytes otherwise. -/
def append (sb : StrbufT) (text : List UInt8) (alloc : Option (Nat → UInt8)) :
    Option (StrbufT × Int) := do
  let strlen ← checkedInt (vsnprintf text + 1) -- the zero byte counts
  let needSize ← checkedInt (sb.len + strlen)
  if sb.capacity < needSize then some (sb, -1)
  else if sb.size < needSize then
    let size ← calcSize needSize sb.capacity
    match alloc with
    | none => some ({ sb with buf := none }, -2)
    | some fresh =>
      let buf := Block.realloc (sb.buf.getD []) fresh size.toNat
      { sb with buf := some buf, size }.store text strlen
  else sb.store text strlen

def consume (sb : StrbufT) (len : Int) : Option (StrbufT × Int) :=
  if len < 0 then some (sb, -1)
  else if len < sb.len then
    sb.buf.bind fun buf =>
      (Block.move buf 0 len.toNat (sb.len - len).toNat).map fun buf =>
        ({ sb with buf := some buf, len := sb.len - len }, 0)
  else some ({ sb with len := 0 }, 0)

/-- The first `len` bytes. -/
def content (sb : StrbufT) : List UInt8 := (sb.buf.getD []).take sb.len.toNat

/-- A buffer that has not lost its block. -/
structure Valid (sb : StrbufT) : Prop where
  len_nonneg : 0 ≤ sb.len
  len_le : sb.len ≤ sb.size
  size_le : sb.size ≤ sb.capacity
  size_eq : sb.size = (sb.buf.getD []).length

end StrbufT

/-- How an append ends. -/
inductive Appended (sb : StrbufT) (text : List UInt8) (alloc : Option (Nat → UInt8)) :
    StrbufT → Int → Prop
  | refused (hshort : text.length + 1 < 2147483648)
    (hfull : sb.capacity < sb.len + (text.length + 1)) : Appended sb text alloc sb (-1)
  | failed (hneed : sb.len + (text.length + 1) ≤ 1073741824) (halloc : alloc = none) :
    Appended sb text alloc { sb with buf := none } (-2)
  | long (hlong : 2147483648 ≤ text.length) : Appended sb text alloc sb 0
  | added (hcontent : sb'.content = sb.content ++ (text ++ [0])) (hvalid : sb'.Valid) :
    Appended sb text alloc sb' 0

/-- A call of `append`, with what its format expands to, or of `consume`. -/
inductive Call where
  | append (e : Expansion) (alloc : Option (Nat → UInt8))
  | consume (n : Nat)

def strbufStep (sb : StrbufT) : Call → Option (StrbufT × Int)
  | .append e alloc => sb.append e.text alloc
  | .consume n => sb.consume n

def Bounded (sb : StrbufT) : Prop := sb.len ≤ sb.size ∧ sb.size ≤ sb.capacity

/-- What an append or a consume does to the buffer. -/
def Served (sb : StrbufT) (call : Call) (sb' : StrbufT) (r : Int) : Prop :=
  match call with
  | .append e _ => if r = 0 then sb'.content = sb.content ++ e.text else sb' = sb
  | .consume n => r = 0 ∧ sb'.content = sb.content.drop (min n sb.len.toNat)

/-- The append is refused, or finds no memory. -/
def Call.Ok (capacity : Int) : Call → Prop
  | .append e alloc =>
    e.text.length + 1 < 2147483648 ∧
      (capacity < e.text.length + 1 ∨ alloc = none ∧ e.text.length + 1 ≤ 1073741824)
  | .consume _ => True

section CalcSize
variable {realSize maxSize size : Int}

theorem calcRound_cases (h : realSize ≤ maxSize) {r : Round Int Int}
    (hround : calcRound realSize maxSize size = some r) :
    r = .next (size * 2) ∧ size < realSize ∧ size * 2 < 2147483648 ∨
      ∃ out, r = .done out ∧ realSize ≤ out ∧ out ≤ maxSize := by
  rw [calcRound] at hround
  split at hround
  case isFalse =>
    cases hround
    exact .inr ⟨maxSize, rfl, h, Int.le_refl _⟩
  case isTrue hlt =>
    split at hround
    case isTrue hle =>
      cases hround
      exact .inr ⟨size, rfl, hle, Int.le_of_lt hlt⟩
    case isFalse hgt =>
      obtain ⟨next, hnext, rfl⟩ := Option.map_eq_some_iff.1 hround
      rw [checkedInt] at hnext
      split at hnext
      case isTrue hin =>
        cases hnext
        exact .inl ⟨rfl, Int.not_le.1 hgt, hin.2⟩
      case isFalse => cases hnext

theorem iterate_calcRound (h : realSize ≤ maxSize) (fuel : Nat)
    (hout : iterate (calcRound realSize maxSize) fuel size = some out) :
    realSize ≤ out ∧ out ≤ maxSize := by
  induction fuel generalizing size with
  | zero => cases hout
  | succ fuel ih =>
    obtain ⟨r, hround, hrest⟩ := Option.bind_eq_some_iff.1 hout
    rcases calcRound_cases h hround with ⟨rfl, _⟩ | ⟨out', rfl, hbounds⟩
    · exact ih hrest
    · cases hrest
      exact hbounds

theorem calcSize_bounds (h : realSize ≤ maxSize) (hout : calcSize realSize maxSize = some size) :
    realSize ≤ size ∧ size ≤ maxSize :=
  iterate_calcRound h 20 hout

/-- The size of a round is a power of two up to 2 ^ 30. -/
theorem iterate_calcRound_isSome_iff (h : realSize ≤ maxSize) (fuel k : Nat) (hk : k ≤ 30)
    (hfuel : 31 ≤ k + fuel) :
    (iterate (calcRound realSize maxSize) fuel (2 ^ k)).isSome ↔ realSize ≤ 1073741824 := by
  have hpos : (0 : Int) < 2 ^ k := pow_pos (by decide) k
  have hpow : (2 : Int) ^ k ≤ 2 ^ 30 := pow_le_pow_right₀ (by decide) hk
  have hthirty : (2 : Int) ^ 30 = 1073741824 := by decide
  induction fuel generalizing k with
  | zero => omega
  | succ fuel ih =>
    by_cases hlt : (2 : Int) ^ k < maxSize
    · by_cases hle : realSize ≤ 2 ^ k
      · have hround : calcRound realSize maxSize (2 ^ k) = some (.done (2 ^ k)) := by
          rw [calcRound, if_pos hlt, if_pos hle]
        rw [iterate_done hround]
        exact iff_of_true rfl (by omega)
      · have hround : calcRound realSize maxSize (2 ^ k) =
            (checkedInt (2 ^ (k + 1))).map .next := by
          rw [calcRound, if_pos hlt, if_neg hle, pow_succ]
        by_cases hlast : k = 30
        · subst hlast
          rw [iterate, hround]
          exact iff_of_false Bool.false_ne_true (by omega)
        · have hpow' : (2 : Int) ^ (k + 1) ≤ 2 ^ 30 := pow_le_pow_right₀ (by decide) (by omega)
          have hpos' : (0 : Int) < 2 ^ (k + 1) := pow_pos (by decide) (k + 1)
          rw [checkedInt_of_lt (by omega) (by omega)] at hround
          rw [iterate_next hround]
          exact ih (k + 1) (by omega) (by omega) hpos' hpow'
    · have hround : calcRound realSize maxSize (2 ^ k) = some (.done maxSize) := if_neg hlt
      rw [iterate_done hround]
      exact iff_of_true rfl (by omega)

theorem calcSize_isSome_iff (h : realSize ≤ maxSize) :
    (calcSize realSize maxSize).isSome ↔ realSize ≤ 1073741824 :=
  iterate_calcRound_isSome_iff h 20 12 (by decide) (by decide)

end CalcSize

section Append
variable {sb sb' : StrbufT} {text : List UInt8}

theorem formatted_succ (text : List UInt8) : formatted text (text.length + 1) = text ++ [0] := by
  rw [formatted, if_neg (by omega)]
  have hn : ((text.length : Int) + 1).toNat - 1 = text.length := by omega
  rw [hn, List.take_length]

/-- The text and its zero byte go behind the content. -/
theorem store_spec (hstore : sb.store text (text.length + 1) = some (sb', r))
    (hlen : 0 ≤ sb.len) (hroom : sb.len + (text.length + 1) ≤ sb.size)
    (hcapacity : sb.size ≤ sb.capacity) (hsize : sb.size = (sb.buf.getD []).length) :
    r = 0 ∧ sb'.content = sb.content ++ (text ++ [0]) ∧ sb'.Valid := by
  rw [StrbufT.store, formatted_succ, if_neg (by simp)] at hstore
  obtain ⟨buf, hbuf, hstore⟩ := Option.bind_eq_some_iff.1 hstore
  obtain ⟨buf', hwrite, hstore⟩ := Option.map_eq_some_iff.1 hstore
  cases hstore
  have hlength := Block.length_write hwrite
  have htake := Block.take_write hwrite
  rw [hbuf, Option.getD_some] at hsize
  have hend : (sb.len + (text.length + 1)).toNat = sb.len.toNat + (text ++ [0]).length := by
    rw [List.length_append, List.length_singleton]
    omega
  refine ⟨rfl, ?_, ?_⟩
  · rw [StrbufT.content, StrbufT.content, hbuf, Option.getD_some, Option.getD_some, hend, htake]
  · exact ⟨Int.add_nonneg hlen (by omega), hroom, hcapacity,
      by rw [hsize, Option.getD_some, hlength]⟩

theorem strlen_cases (h : checkedInt (vsnprintf text + 1) = some strlen) :
    2147483648 ≤ text.length ∧ strlen = 0 ∨
      text.length + 1 < 2147483648 ∧ strlen = text.length + 1 := by
  have hstrlen := checkedInt_eq_some h
  rw [checkedInt] at h
  split at h
  case isFalse => cases h
  case isTrue hin =>
    rw [vsnprintf] at hin hstrlen
    split at hstrlen
    case isFalse hlong => exact .inl ⟨Nat.not_lt.1 hlong, hstrlen⟩
    case isTrue hshort =>
      rw [if_pos hshort] at hin
      exact .inr ⟨by omega, hstrlen⟩

/-- A block that grows keeps the content. -/
theorem StrbufT.Valid.content_realloc (h : sb.Valid) (fresh : Nat → UInt8)
    {size : Int} (hsize : sb.len ≤ size) :
    ({ sb with buf := some (Block.realloc (sb.buf.getD []) fresh size.toNat), size } :
      StrbufT).content = sb.content := by
  have hlen := h.len_nonneg
  have hbound := h.len_le
  have heq := h.size_eq
  rw [StrbufT.content, StrbufT.content, Option.getD_some]
  generalize sb.buf.getD [] = block at heq
  have htake : (block.take sb.len.toNat).length = sb.len.toNat := by
    rw [List.length_take]
    omega
  obtain ⟨rest, hrest⟩ := Block.realloc_append (block.take sb.len.toNat)
    (block.drop sb.len.toNat) fresh (n := size.toNat) (by omega)
  rw [List.take_append_drop] at hrest
  rw [hrest, List.take_left' htake]

theorem StrbufT.Valid.append_cases (h : sb.Valid)
    (happend : sb.append text alloc = some (sb', r)) : Appended sb text alloc sb' r := by
  have hlen := h.len_nonneg
  have hbound := h.len_le
  have hcapacity := h.size_le
  obtain ⟨strlen, hstrlen, happend⟩ := Option.bind_eq_some_iff.1 happend
  obtain ⟨needSize, hneed, happend⟩ := Option.bind_eq_some_iff.1 happend
  cases checkedInt_eq_some hneed
  rcases strlen_cases hstrlen with ⟨hlong, rfl⟩ | ⟨hshort, rfl⟩
  · rw [Int.add_zero, if_neg (by omega), if_neg (by omega)] at happend
    cases happend
    rw [Int.add_zero]
    exact .long hlong
  · split at happend
    case isTrue hfull =>
      cases happend
      exact .refused hshort hfull
    case isFalse hfits =>
      split at happend
      case isFalse hroom =>
        obtain ⟨rfl, hcontent, hvalid⟩ :=
          store_spec happend hlen (Int.not_lt.1 hroom) hcapacity h.size_eq
        exact .added hcontent hvalid
      case isTrue hgrow =>
        obtain ⟨size, hcalc, happend⟩ := Option.bind_eq_some_iff.1 happend
        obtain ⟨hge, hle⟩ := calcSize_bounds (Int.not_lt.1 hfits) hcalc
        cases alloc with
        | none =>
          cases happend
          have hsome := calcSize_isSome_iff (Int.not_lt.1 hfits)
          rw [hcalc] at hsome
          exact .failed (hsome.1 rfl) rfl
        | some fresh =>
          have hsize : size = ((some (Block.realloc (sb.buf.getD []) fresh
              size.toNat)).getD []).length := by
            rw [Option.getD_some, Block.length_realloc]
            omega
          have hstore : StrbufT.store
              { sb with buf := some (Block.realloc (sb.buf.getD []) fresh size.toNat), size }
              text (text.length + 1) = some (sb', r) := happend
          obtain ⟨rfl, hcontent, hvalid⟩ := store_spec hstore hlen hge hle hsize
          rw [h.content_realloc fresh (by omega)] at hcontent
          exact .added hcontent hvalid

end Append

section Runs
variable {sb sb' : StrbufT}

/-- A consume drops the first bytes of the content. -/
theorem StrbufT.Valid.consume_spec (h : sb.Valid) (n : Nat) :
    ∃ sb', sb.consume n = some (sb', 0) ∧
      sb'.content = sb.content.drop (min n sb.len.toNat) ∧ sb'.Valid := by
  have hlen := h.len_nonneg
  have hbound := h.len_le
  have hcapacity := h.size_le
  have hsize := h.size_eq
  have hnonneg : ¬ (n : Int) < 0 := Int.not_lt.2 (Int.natCast_nonneg n)
  by_cases hlt : (n : Int) < sb.len
  · cases hbuf : sb.buf with
    | none =>
      rw [hbuf] at hsize
      change sb.size = 0 at hsize
      omega
    | some buf =>
      rw [hbuf, Option.getD_some] at hsize
      have hn : (sb.len - n).toNat = sb.len.toNat - n := by omega
      obtain ⟨buf', hmove, hlength, htake⟩ :=
        Block.move_front buf n (sb.len.toNat - n) (by omega)
      refine ⟨{ sb with buf := some buf', len := sb.len - n }, ?_, ?_, ?_⟩
      · rw [StrbufT.consume, if_neg hnonneg, if_pos hlt, hbuf, Option.bind_some, hn,
          Int.toNat_natCast, hmove]
        rfl
      · have hmin : min n sb.len.toNat = n := by omega
        rw [StrbufT.content, StrbufT.content, hbuf, hmin, List.drop_take]
        dsimp only
        rw [Option.getD_some, Option.getD_some, hn, htake]
      · refine ⟨?_, ?_, hcapacity, ?_⟩
        · change 0 ≤ sb.len - n
          omega
        · change sb.len - n ≤ sb.size
          omega
        · rw [hsize, Option.getD_some, hlength]
  · have hmin : min n sb.len.toNat = sb.len.toNat := by omega
    refine ⟨{ sb with len := 0 }, ?_, ?_, Int.le_refl 0, ?_, hcapacity, hsize⟩
    · rw [StrbufT.consume, if_neg hnonneg, if_neg hlt]
    · rw [StrbufT.content, StrbufT.content, hmin, Int.toNat_zero, List.take_zero]
      exact (List.drop_eq_nil_of_le (List.length_take_le _ _)).symm
    · exact Int.le_trans hlen hbound

variable {capacity : Int} {text : List UInt8}

theorem strbufInit_valid (h : 0 ≤ capacity) : (strbufInit capacity).Valid :=
  ⟨Int.le_refl 0, Int.le_refl 0, h, rfl⟩

theorem strlen_short (h : text.length + 1 < 2147483648) :
    checkedInt (vsnprintf text + 1) = some (text.length + 1 : Int) := by
  rw [vsnprintf, if_pos (by omega)]
  exact checkedInt_of_lt (by omega) (by omega)

theorem init_needSize (capacity : Int) (h : text.length + 1 < 2147483648) :
    checkedInt ((strbufInit capacity).len + (text.length + 1)) = some (text.length + 1 : Int) := by
  have hzero : (strbufInit capacity).len = 0 := rfl
  rw [hzero, Int.zero_add]
  exact checkedInt_of_lt (by omega) (by omega)

theorem init_refused (hshort : text.length + 1 < 2147483648) (h : capacity < text.length + 1) :
    (strbufInit capacity).append text alloc = some (strbufInit capacity, -1) := by
  rw [StrbufT.append, strlen_short hshort, Option.bind_eq_bind, Option.bind_some,
    init_needSize capacity hshort, Option.bind_some]
  exact if_pos h

theorem init_failed (hfits : text.length + 1 ≤ capacity) (h : text.length + 1 ≤ 1073741824) :
    (strbufInit capacity).append text none = some (strbufInit capacity, -2) := by
  have hshort : text.length + 1 < 2147483648 := by omega
  obtain ⟨size, hcalc⟩ :=
    Option.isSome_iff_exists.1 ((calcSize_isSome_iff hfits).2 (by omega))
  have hgrow : (strbufInit capacity).size < text.length + 1 :=
    Int.lt_add_one_of_le (Int.natCast_nonneg text.length)
  have hcap : (strbufInit capacity).capacity = capacity := rfl
  rw [StrbufT.append, strlen_short hshort, Option.bind_eq_bind, Option.bind_some,
    init_needSize capacity hshort, Option.bind_some, hcap, if_neg (Int.not_lt.2 hfits),
    if_pos hgrow, hcalc, Option.bind_some]
  rfl

/-- An append that is refused or finds no memory leaves a new buffer as it was. -/
theorem init_append (hshort : text.length + 1 < 2147483648)
    (h : capacity < text.length + 1 ∨ alloc = none ∧ text.length + 1 ≤ 1073741824) :
    ∃ r, (strbufInit capacity).append text alloc = some (strbufInit capacity, r) ∧ r ≠ 0 := by
  by_cases hfull : capacity < text.length + 1
  · exact ⟨-1, init_refused hshort hfull, by decide⟩
  · obtain ⟨rfl, hsize⟩ := h.resolve_left hfull
    exact ⟨-2, init_failed (Int.not_lt.1 hfull) hsize, by decide⟩

theorem strbufStep_good (h : 0 ≤ capacity) (call : Call) (hok : call.Ok capacity) :
    ∃ sb' r, strbufStep (strbufInit capacity) call = some (sb', r) ∧
      Served (strbufInit capacity) call sb' r ∧ sb' = strbufInit capacity := by
  cases call with
  | append e alloc =>
    obtain ⟨r, happend, hr⟩ := init_append hok.1 hok.2
    refine ⟨_, r, happend, ?_, rfl⟩
    rw [Served, if_neg hr]
  | consume n =>
    obtain ⟨sb', hconsume, hcontent, _⟩ := (strbufInit_valid h).consume_spec n
    have hnonneg : ¬ (n : Int) < 0 := Int.not_lt.2 (Int.natCast_nonneg n)
    have hinit : (strbufInit capacity).consume n = some (strbufInit capacity, 0) := by
      rw [StrbufT.consume, if_neg hnonneg]
      exact if_neg hnonneg
    cases hinit.symm.trans hconsume
    exact ⟨_, 0, hconsume, ⟨rfl, hcontent⟩, rfl⟩

/-- An append that succeeds adds one byte too many, or none. -/
theorem strbufStep_bad (h : 0 ≤ capacity) (call : Call) (hbad : ¬ call.Ok capacity)
    (hstep : strbufStep (strbufInit capacity) call = some (sb', r)) :
    ¬ Served (strbufInit capacity) call sb' r := by
  cases call with
  | consume n => exact (hbad trivial).elim
  | append e alloc =>
    intro hserved
    have hempty : (strbufInit capacity).content = [] := List.take_nil
    rw [Served] at hserved
    cases (strbufInit_valid h).append_cases hstep with
    | refused hshort hfull =>
      change capacity < 0 + ((e.text.length : Int) + 1) at hfull
      rw [Int.zero_add] at hfull
      exact hbad ⟨hshort, .inl hfull⟩
    | failed hneed halloc =>
      change 0 + ((e.text.length : Int) + 1) ≤ 1073741824 at hneed
      rw [Int.zero_add] at hneed
      exact hbad ⟨by omega, .inr ⟨halloc, by omega⟩⟩
    | long hlong =>
      rw [if_pos rfl, hempty, List.nil_append] at hserved
      rw [← hserved] at hlong
      exact absurd hlong (by decide)
    | added hcontent hvalid =>
      rw [if_pos rfl, hcontent] at hserved
      have hlength := congrArg List.length (List.append_cancel_left hserved)
      rw [List.length_append, List.length_singleton] at hlength
      omega

/-- A buffer keeps to its specification in the runs in which every append is refused or finds no
memory. -/
theorem strbuf_sustains_iff (capacity : Int) (calls : List Call) :
    Sustains strbufStep Bounded Served (strbufInit capacity) calls ↔
      0 ≤ capacity ∧ ∀ call ∈ calls, call.Ok capacity := by
  by_cases h : 0 ≤ capacity
  · rw [and_iff_right h]
    apply sustains_iff_forall (R := (· = strbufInit capacity))
    · rintro _ rfl
      exact ⟨Int.le_refl 0, h⟩
    · rintro _ call rfl hok
      exact strbufStep_good h call hok
    · rintro _ call _ _ rfl hbad hstep hserved
      exact absurd hserved (strbufStep_bad h call hbad hstep)
    · rfl
  · apply iff_of_false
    · exact fun hsustains => h hsustains.head.2
    · exact fun hok => h hok.1

/-- The zero byte behind the text is part of the content. -/
theorem not_strbuf_sustains :
    ¬ Sustains strbufStep Bounded Served (strbufInit 1024)
      [.append ⟨[104, 105], by decide⟩ (some fun _ => 0)] := by
  rintro ⟨_, sb', r, hstep, hserved, _⟩
  have hstored : (strbufStep (strbufInit 1024)
      (.append ⟨[104, 105], by decide⟩ (some fun _ => 0))).map (fun o => (o.1.content, o.2)) =
        some ([104, 105, 0], 0) := by decide +kernel
  rw [hstep] at hstored
  obtain ⟨hcontent, rfl⟩ := Prod.mk.inj (Option.some.inj hstored)
  have hadded : sb'.content = [104, 105] := hserved
  rw [hcontent] at hadded
  cases hadded

end Runs

end BigBox.Stringbuf
