import Mathlib.Data.List.Basic

namespace BigBox.Lapi
set_option autoImplicit true

def PERCENT : UInt8 := 37

def MIN_SIZE : Nat := 4096

/-- What `vsnprintf` formats a string and one `int` argument to, `none` where the result is
undefined. Text without a percent sign is copied. -/
structure Vsnprintf where
  format : List UInt8 → Int → Option (List UInt8)
  copies : ∀ text arg, PERCENT ∉ text → format text arg = some text

/-- The string that starts a piece of memory, if a zero byte ends it there. -/
def cString (memory : List UInt8) : Option (List UInt8) :=
  if 0 ∈ memory then some (memory.takeWhile (· ≠ 0)) else none

/-- A `strbuf_t`. `bytes` are the `len` bytes `buf` holds, `none` when `buf` is null. -/
structure Strbuf where
  bytes : Option (List UInt8)
  len : Nat
  size : Nat
  capacity : Nat

def strbufInit (capacity : Nat) : Strbuf := ⟨none, 0, 0, capacity⟩

/-- The doubling loop of `calc_size`, which an `int` size leaves after 32 rounds. -/
def calcSizeLoop (realSize maxSize : Nat) : Nat → Nat → Nat
  | 0, _ => maxSize
  | fuel + 1, size =>
    if size < maxSize then
      if realSize ≤ size then size else calcSizeLoop realSize maxSize fuel (size * 2)
    else maxSize

def calcSize (realSize maxSize : Nat) : Nat := calcSizeLoop realSize maxSize 32 MIN_SIZE

namespace Strbuf

def content (sb : Strbuf) : List UInt8 := sb.bytes.getD []

/-- The copy at the end of `append__`: it writes through a null `buf`, and behind bytes that
a failed `realloc` has lost. -/
def store (sb : Strbuf) (text : List UInt8) : Option (Int × Strbuf) :=
  sb.bytes.map fun bytes =>
    (0, { sb with bytes := some (bytes ++ text ++ [0]), len := sb.len + (text.length + 1) })

/-- The length `append__` asks for, with the zero byte `vsnprintf` ends the text with. -/
def needSize (printf : Vsnprintf) (sb : Strbuf) (str : List UInt8) (arg : Int) : Option Nat :=
  ((cString str).bind (printf.format · arg)).map fun text => sb.len + (text.length + 1)

/-- `append__` with the string and the argument `sock_send_internal` passes, and whether
`realloc` and `malloc` succeed. -/
def append (printf : Vsnprintf) (sb : Strbuf) (str : List UInt8) (arg : Int) (alloc : Bool) :
    Option (Int × Strbuf) :=
  ((cString str).bind (printf.format · arg)).bind fun text =>
    let strlen := text.length + 1 -- the zero byte counts
    let needSize := sb.len + strlen
    if sb.capacity < needSize then some (-1, sb)
    else if sb.size < needSize then
      let size := calcSize needSize sb.capacity
      if alloc = false then some (-2, { sb with bytes := none })
      else if sb.bytes = none ∧ sb.len = 0 then
        { sb with bytes := some [], size }.store text
      else { sb with size }.store text
    else sb.store text

def consume (sb : Strbuf) (len : Int) : Int × Strbuf :=
  if len < 0 then (-1, sb)
  else if len < sb.len then
    (0, { sb with bytes := sb.bytes.map (·.drop len.toNat), len := sb.len - len.toNat })
  else (0, { sb with bytes := sb.bytes.map fun _ => [], len := 0 })

/-- The bytes held are the `len` bytes of an allocated block, or there are none. -/
structure Valid (sb : Strbuf) : Prop where
  len_eq : sb.len = sb.content.length
  len_le : sb.bytes ≠ none → sb.len ≤ sb.size

/-- Bytes and a zero byte that ends them, none of them zero or a percent sign. -/
def IsText (data : List UInt8) : Prop :=
  ∃ text, data = text ++ [0] ∧ 0 ∉ text ∧ PERCENT ∉ text

/-- The string at `str` is refused, or no memory is there to lose bytes from, or `data` is text
and memory is found for it. -/
inductive Faithful (printf : Vsnprintf) (sb : Strbuf) (str : List UInt8) (arg : Int)
    (alloc : Bool) (data : List UInt8) : Prop
  | refused (h : sb.needSize printf str arg = some n) (hfull : sb.capacity < n)
  | empty (h : sb.needSize printf str arg = some n) (hgrow : sb.size < n) (halloc : alloc = false)
    (hlen : sb.len = 0)
  | text (h : IsText data) (hgrow : alloc = true ∨ sb.len + data.length ≤ sb.size)

variable {sb sb' : Strbuf} {printf : Vsnprintf}

theorem init_valid (capacity : Nat) : (strbufInit capacity).Valid := ⟨rfl, fun h => absurd rfl h⟩

theorem calcSizeLoop_le (h : realSize ≤ maxSize) (fuel size : Nat) :
    realSize ≤ calcSizeLoop realSize maxSize fuel size := by
  induction fuel generalizing size with
  | zero => exact h
  | succ fuel ih =>
    rw [calcSizeLoop]
    split
    case isFalse => exact h
    case isTrue =>
      split
      case isTrue hle => exact hle
      case isFalse => exact ih (size * 2)

/-- The copy adds the text and its zero byte. -/
theorem store_spec (hs : sb.store text = some (r, sb')) (hlen : sb.len = sb.content.length)
    (hsize : sb.len + (text.length + 1) ≤ sb.size) :
    r = 0 ∧ sb'.content = sb.content ++ (text ++ [0]) ∧ sb'.Valid := by
  obtain ⟨bytes, hbytes, hs⟩ := Option.map_eq_some_iff.1 hs
  obtain ⟨rfl, rfl⟩ := Prod.mk.inj hs
  rw [content, hbytes, Option.getD_some] at hlen
  refine ⟨rfl, ?_, ?_, fun _ => hsize⟩
  · rw [content, content, hbytes, Option.getD_some, Option.getD_some, List.append_assoc]
  · simp only [content, Option.getD_some, List.length_append, List.length_singleton, hlen,
      Nat.add_assoc]

theorem cString_text (h : 0 ∉ text) (rest : List UInt8) :
    cString (text ++ [0] ++ rest) = some text := by
  have hall : ∀ c ∈ text, decide (c ≠ 0) = true := fun c hc => decide_eq_true fun hz => h (hz ▸ hc)
  have hmem : (0 : UInt8) ∈ text ++ [0] ++ rest :=
    List.mem_append_left _ (List.mem_append_right _ (List.mem_singleton_self 0))
  rw [cString, if_pos hmem, List.append_assoc, List.takeWhile_append_of_pos hall]
  exact congrArg some (List.append_nil text)

theorem Valid.lose (h : sb.Valid) (hlen : sb.len = 0) :
    ({ sb with bytes := none } : Strbuf).Valid ∧
      ({ sb with bytes := none } : Strbuf).content = sb.content := by
  have hcontent : sb.content = [] := List.length_eq_zero_iff.1 (h.len_eq.symm.trans hlen)
  exact ⟨⟨hlen, fun hne => absurd rfl hne⟩, hcontent.symm⟩

/-- `append__` leaves the bytes held alone, or adds the text and its zero byte. -/
theorem Valid.append_text (h : sb.Valid)
    (htext : (cString str).bind (printf.format · arg) = some text)
    (hgrow : alloc = true ∨ sb.len = 0 ∨ sb.len + (text.length + 1) ≤ sb.size)
    (ha : sb.append printf str arg alloc = some (r, sb')) :
    sb'.Valid ∧ (r < 0 ∧ sb'.content = sb.content ∨
      r = 0 ∧ sb'.content = sb.content ++ (text ++ [0])) := by
  rw [append, htext, Option.bind_some] at ha
  dsimp only at ha
  split at ha
  case isTrue =>
    obtain ⟨rfl, rfl⟩ := Prod.mk.inj (Option.some.inj ha)
    exact ⟨h, .inl ⟨by decide, rfl⟩⟩
  case isFalse hfits =>
    split at ha
    case isFalse hroom =>
      obtain ⟨hr, hcontent, hvalid⟩ := store_spec ha h.len_eq (Nat.not_lt.1 hroom)
      exact ⟨hvalid, .inr ⟨hr, hcontent⟩⟩
    case isTrue hlarge =>
      have hsize := calcSizeLoop_le (Nat.not_lt.1 hfits) 32 MIN_SIZE
      split at ha
      case isTrue hfail =>
        have hzero : sb.len = 0 := by
          rcases hgrow with hgrow | hgrow | hgrow
          · rw [hfail] at hgrow
            cases hgrow
          · exact hgrow
          · exact absurd hlarge (Nat.not_lt.2 hgrow)
        obtain ⟨rfl, rfl⟩ := Prod.mk.inj (Option.some.inj ha)
        obtain ⟨hvalid, hcontent⟩ := h.lose hzero
        exact ⟨hvalid, .inl ⟨by decide, hcontent⟩⟩
      case isFalse =>
        split at ha
        case isTrue hnull =>
          obtain ⟨hr, hcontent, hvalid⟩ := store_spec ha hnull.2 hsize
          refine ⟨hvalid, .inr ⟨hr, ?_⟩⟩
          rw [hcontent, content, content, hnull.1, Option.getD_some, Option.getD_none]
        case isFalse =>
          obtain ⟨hr, hcontent, hvalid⟩ := store_spec ha h.len_eq hsize
          exact ⟨hvalid, .inr ⟨hr, hcontent⟩⟩

theorem append_refused (hn : sb.needSize printf str arg = some n) (hfull : sb.capacity < n) :
    sb.append printf str arg alloc = some (-1, sb) := by
  obtain ⟨text, htext, rfl⟩ := Option.map_eq_some_iff.1 hn
  rw [append, htext, Option.bind_some]
  exact if_pos hfull

/-- A faithful append adds the data or leaves the bytes held alone. -/
theorem Valid.append (h : sb.Valid) (hdata : data <+: str)
    (hf : Faithful printf sb str arg alloc data)
    (ha : sb.append printf str arg alloc = some (r, sb')) :
    sb'.Valid ∧ (r < 0 ∧ sb'.content = sb.content ∨
      r = 0 ∧ sb'.content = sb.content ++ data) := by
  cases hf with
  | refused hn hfull =>
    rw [append_refused hn hfull] at ha
    obtain ⟨rfl, rfl⟩ := Prod.mk.inj (Option.some.inj ha)
    exact ⟨h, .inl ⟨by decide, rfl⟩⟩
  | empty hn hgrow halloc hlen =>
    obtain ⟨text, htext, rfl⟩ := Option.map_eq_some_iff.1 hn
    rw [Strbuf.append, htext, Option.bind_some] at ha
    dsimp only at ha
    rw [if_pos hgrow, if_pos halloc] at ha
    split at ha
    case isTrue =>
      obtain ⟨rfl, rfl⟩ := Prod.mk.inj (Option.some.inj ha)
      exact ⟨h, .inl ⟨by decide, rfl⟩⟩
    case isFalse =>
      obtain ⟨rfl, rfl⟩ := Prod.mk.inj (Option.some.inj ha)
      obtain ⟨hvalid, hcontent⟩ := h.lose hlen
      exact ⟨hvalid, .inl ⟨by decide, hcontent⟩⟩
  | text htext hgrow =>
    obtain ⟨text, rfl, hzero, hpercent⟩ := htext
    obtain ⟨rest, rfl⟩ := hdata
    have htext : (cString (text ++ [0] ++ rest)).bind (printf.format · arg) = some text := by
      rw [cString_text hzero, Option.bind_some, printf.copies text arg hpercent]
    apply h.append_text htext _ ha
    rw [List.length_append] at hgrow
    exact hgrow.imp_right .inr

theorem Valid.consume (h : sb.Valid) (n : Nat) :
    (sb.consume n).2.Valid ∧ (sb.consume n).2.content = sb.content.drop n := by
  have hnonneg : ¬(n : Int) < 0 := Int.not_lt.2 (Int.natCast_nonneg n)
  rw [Strbuf.consume, if_neg hnonneg]
  split
  case isTrue hlt =>
    have hcontent : (sb.bytes.map (·.drop n)).getD [] = sb.content.drop n := by
      cases hbytes : sb.bytes with
      | none => rw [content, hbytes, Option.map_none, Option.getD_none, List.drop_nil]
      | some bytes => rw [content, hbytes, Option.map_some, Option.getD_some, Option.getD_some]
    refine ⟨⟨?_, fun hne => ?_⟩, hcontent⟩
    · simp only [Int.toNat_natCast, content, hcontent, List.length_drop, h.len_eq]
    · have hle := h.len_le fun hnone => hne (by rw [hnone]; rfl)
      exact Nat.le_trans (Nat.sub_le ..) hle
  case isFalse hge =>
    have hdrop : sb.content.drop n = [] := by
      apply List.drop_eq_nil_of_le
      rw [← h.len_eq]
      omega
    have hcontent : (sb.bytes.map fun _ => ([] : List UInt8)).getD [] = [] := by
      cases sb.bytes <;> rfl
    refine ⟨⟨?_, fun _ => Nat.zero_le _⟩, hcontent.trans hdrop.symm⟩
    exact (congrArg List.length hcontent).symm

end Strbuf

end BigBox.Lapi
