import Mathlib.Data.Fin.Tuple.Basic
import Mathlib.Data.Fintype.Card
import BigBox.Lib.CInt
import BigBox.Lib.TryRun

namespace BigBox.Lapi.Http
set_option autoImplicit true

abbrev Str := List UInt8

def HTTP_HEADER_MAX : Nat := 16

def CR : UInt8 := 13

def LF : UInt8 := 10

def COLON : UInt8 := 58

def tolower (c : UInt8) : UInt8 := if 65 ≤ c ∧ c ≤ 90 then c + 32 else c

/-- The name that is left of a string when case does not count. -/
def lower (s : Str) : Str := s.map tolower

/-- `strcasecmp(s, t) == 0`. -/
def sameCase (s t : Str) : Bool := lower s = lower t

/-- The string `snprintf` leaves in a buffer of `size` bytes. -/
def snprintf (size : Nat) (text : Str) : Str := text.take (size - 1)

/-- `none` where the length of the string does not fit the `int` that takes it. -/
def intLen (room : Nat) (str : Str) : Option Nat :=
  if str.length + room < 2147483648 then some str.length else none

def httpStrdupKey (str : Str) : Option Str :=
  (intLen 2 str).map fun len => snprintf (len + 1) (str ++ [COLON])

def httpStrdupVal (str : Str) : Option Str :=
  (intLen 3 str).map fun len => snprintf (len + 2) (str ++ [CR, LF])

structure HeaderList where
  header : Fin HTTP_HEADER_MAX → Option Str
  value : Fin HTTP_HEADER_MAX → Option Str

def emptyList : HeaderList := ⟨fun _ => none, fun _ => none⟩

/-- The slot a loop over all slots stops at. -/
@[irreducible] def firstSlot (p : Fin HTTP_HEADER_MAX → Bool) : Option (Fin HTTP_HEADER_MAX) :=
  Fin.find? p

/-- The slot of the header with this name. -/
def HeaderList.slot (list : HeaderList) (key : Str) : Option (Fin HTTP_HEADER_MAX) :=
  firstSlot fun i => (list.header i).any fun header => sameCase header key

def httpHeaderGetValue (list : HeaderList) (key : Str) : Option Str :=
  (list.slot key).bind list.value

/-- The slot the search for a value ends at: `strcasecmp` must not be given a null value. -/
def HeaderList.valueSlot (list : HeaderList) (temp : Str) : Option (Fin HTTP_HEADER_MAX) :=
  firstSlot fun i => (list.value i).all fun value => sameCase value temp

/-- `http_header_set_value` for a name without a header. -/
def addHeader (list : HeaderList) (key : Str) : Option (HeaderList × Int) :=
  match firstSlot fun i => (list.header i).isNone with
  | none => some (list, 0)
  | some i => (httpStrdupKey key).bind fun header => (httpStrdupVal key).map fun value =>
    (⟨Function.update list.header i (some header), Function.update list.value i (some value)⟩, 1)

/-- `http_header_set_value` for a name that has the value `temp`; `none` is a crash. -/
def replaceValue (list : HeaderList) (temp value : Str) : Option (HeaderList × Int) :=
  match list.valueSlot temp with
  | none => some (list, 0)
  | some i =>
    if (list.value i).isNone then none
    else (httpStrdupVal value).map fun value =>
      ({ list with value := Function.update list.value i (some value) }, 1)

def httpHeaderSetValue (list : HeaderList) (key value : Str) : Option (HeaderList × Int) :=
  match httpHeaderGetValue list key with
  | none => addHeader list key
  | some temp => replaceValue list temp value

def httpHeaderDelValue (list : HeaderList) (key : Str) : HeaderList × Int :=
  match list.slot key with
  | none => (list, 0)
  | some i => (⟨Function.update list.header i none, Function.update list.value i none⟩, 1)

inductive Call where
  | set (key value : Str)
  | del (key : Str)

def Call.key : Call → Str
  | .set key _ => key
  | .del key => key

def headerStep (list : HeaderList) : Call → Option (HeaderList × Int)
  | .set key value => httpHeaderSetValue list key value
  | .del key => some (httpHeaderDelValue list key)

/-- The value last set for each name. -/
def specStep (values : Str → Option Str) : Call → (Str → Option Str) × Int
  | .set key value => (Function.update values (lower key) (some value), 1)
  | .del key =>
    (Function.update values (lower key) none, if (values (lower key)).isSome then 1 else 0)

/-- The line end a stored value has. -/
def lineOf (value : Str) : Str := value ++ [CR]

/-- Each name has the value last set for it, the line end apart. -/
def Returns (list : HeaderList) (values : Str → Option Str) : Prop :=
  ∀ key, httpHeaderGetValue list key = (values (lower key)).map lineOf

/-- The calls that a list serves. A new name gets its own text as its value; another name gets its
value where the search for its old value stops. -/
def Call.Ok (list : HeaderList) : Call → Prop
  | .set key value =>
    value.length + 3 < 2147483648 ∧
      match list.slot key with
      | none => value = key
      | some i => ∃ j, (list.value i).bind list.valueSlot = some j ∧ list.value j ≠ none ∧
          (j = i ∨ list.value i = some (lineOf value) ∧ list.value j = some (lineOf value))
  | .del _ => True

theorem httpStrdupKey_some (h : str.length + 3 < 2147483648) : httpStrdupKey str = some str := by
  rw [httpStrdupKey, intLen, if_pos (Nat.lt_of_succ_lt h), Option.map_some, snprintf,
    Nat.add_sub_cancel, List.take_left]

theorem httpStrdupVal_some (h : str.length + 3 < 2147483648) :
    httpStrdupVal str = some (lineOf str) := by
  have htext : str ++ [CR, LF] = lineOf str ++ [LF] := by
    rw [lineOf, List.append_assoc]
    rfl
  have hlength : (lineOf str).length = str.length + 2 - 1 := List.length_append
  rw [httpStrdupVal, intLen, if_pos h, Option.map_some, snprintf, htext, ← hlength, List.take_left]

theorem httpStrdupVal_none (h : ¬ str.length + 3 < 2147483648) : httpStrdupVal str = none := by
  rw [httpStrdupVal, intLen, if_neg h]
  rfl

theorem lineOf_inj (h : lineOf v = lineOf w) : v = w := List.append_cancel_right h

theorem firstSlot_true (h : firstSlot p = some i) : p i = true := by
  unfold firstSlot at h
  exact Fin.eq_true_of_find?_eq_some h

theorem firstSlot_none (h : firstSlot p = none) (i : Fin HTTP_HEADER_MAX) : p i = false := by
  unfold firstSlot at h
  exact Fin.eq_false_of_find?_eq_none h i

section Slots
variable {list : HeaderList} {values : Str → Option Str} {names : Finset Str}

/-- Headers are the names that have a value. -/
structure Holds (names : Finset Str) (list : HeaderList) (values : Str → Option Str) : Prop where
  distinct : ∀ i j a b, list.header i = some a → list.header j = some b → lower a = lower b → i = j
  named : ∀ i a, list.header i = some a → lower a ∈ names
  stored : ∀ i a, list.header i = some a →
    ∃ v, values (lower a) = some v ∧ list.value i = some (lineOf v)
  present : ∀ k v, values k = some v → ∃ i a, list.header i = some a ∧ lower a = k
  paired : ∀ i, list.header i = none → list.value i = none

theorem slot_some (h : list.slot key = some i) :
    ∃ a, list.header i = some a ∧ lower a = lower key := by
  have hany := firstSlot_true h
  cases ha : list.header i with
  | none =>
    rw [ha] at hany
    cases hany
  | some a =>
    rw [ha] at hany
    exact ⟨a, rfl, of_decide_eq_true hany⟩

theorem slot_none (h : list.slot key = none) (ha : list.header i = some a) :
    lower a ≠ lower key := by
  have hany := firstSlot_none h i
  rw [ha] at hany
  exact of_decide_eq_false hany

theorem Holds.slot_eq (h : Holds names list values) (ha : list.header i = some a)
    (hkey : lower a = lower key) : list.slot key = some i := by
  cases hslot : list.slot key with
  | none => exact (slot_none hslot ha hkey).elim
  | some j =>
    obtain ⟨b, hb, hlower⟩ := slot_some hslot
    rw [h.distinct i j a b ha hb (hkey.trans hlower.symm)]

theorem Holds.get_eq (h : Holds names list values) (ha : list.header i = some a)
    (hkey : lower a = lower key) : httpHeaderGetValue list key = list.value i := by
  rw [httpHeaderGetValue, h.slot_eq ha hkey]
  rfl

theorem Holds.absent (h : Holds names list values) (hslot : list.slot key = none) :
    values (lower key) = none := by
  cases hv : values (lower key) with
  | none => rfl
  | some v =>
    obtain ⟨i, a, ha, hkey⟩ := h.present _ v hv
    exact (slot_none hslot ha hkey).elim

theorem get_absent (hslot : list.slot key = none) : httpHeaderGetValue list key = none := by
  rw [httpHeaderGetValue, hslot]
  rfl

theorem Holds.returns (h : Holds names list values) : Returns list values := by
  intro key
  cases hslot : list.slot key with
  | none =>
    rw [get_absent hslot, h.absent hslot]
    rfl
  | some i =>
    obtain ⟨a, ha, hkey⟩ := slot_some hslot
    obtain ⟨v, hv, hvalue⟩ := h.stored i a ha
    rw [h.get_eq ha hkey, hvalue, ← hkey, hv]
    rfl

/-- Headers of fewer names than there are slots leave a slot free. -/
theorem Holds.exists_free (h : Holds names list values) (hroom : names.card < HTTP_HEADER_MAX) :
    ∃ i, (firstSlot fun i => (list.header i).isNone) = some i ∧ list.header i = none := by
  cases hfind : firstSlot fun i => (list.header i).isNone with
  | some i =>
    exact ⟨i, rfl, Option.isNone_iff_eq_none.1 (firstSlot_true hfind)⟩
  | none =>
    have hfull : ∀ i, ∃ a, list.header i = some a := by
      intro i
      have hsome := firstSlot_none hfind i
      rw [Option.isNone_eq_false_iff] at hsome
      exact Option.isSome_iff_exists.1 hsome
    choose name hname using hfull
    have hinj : Function.Injective fun i => lower (name i) :=
      fun i j hij => h.distinct i j _ _ (hname i) (hname j) hij
    have hcard := Finset.card_le_card_of_injOn (s := Finset.univ) (t := names)
      (fun i => lower (name i)) (fun i _ => h.named i _ (hname i)) hinj.injOn
    rw [Finset.card_univ, Fintype.card_fin] at hcard
    exact (Nat.not_lt.2 hcard hroom).elim

end Slots

section Steps
variable {list : HeaderList} {values : Str → Option Str} {names : Finset Str}

theorem update_some {f : Fin HTTP_HEADER_MAX → Option Str} {i j : Fin HTTP_HEADER_MAX}
    {x : Option Str} (h : Function.update f i x j = some a) :
    j = i ∧ x = some a ∨ j ≠ i ∧ f j = some a := by
  by_cases hj : j = i
  · rw [hj, Function.update_self] at h
    exact .inl ⟨hj, h⟩
  · rw [Function.update_of_ne hj] at h
    exact .inr ⟨hj, h⟩

/-- A free slot takes a new name and its value. -/
theorem Holds.add (h : Holds names list values) (hslot : list.slot key = none)
    (hname : lower key ∈ names) (hfree : list.header i = none) (v : Str) :
    Holds names ⟨Function.update list.header i (some key),
      Function.update list.value i (some (lineOf v))⟩
      (Function.update values (lower key) (some v)) := by
  refine ⟨?_, ?_, ?_, ?_, ?_⟩
  · intro j k a b (ha : Function.update list.header i (some key) j = some a)
      (hb : Function.update list.header i (some key) k = some b) hab
    rcases update_some ha with ⟨hj, hkey⟩ | ⟨_, ha⟩ <;>
      rcases update_some hb with ⟨hk, hkey'⟩ | ⟨_, hb⟩
    · exact hj.trans hk.symm
    · cases hkey
      exact (slot_none hslot hb hab.symm).elim
    · cases hkey'
      exact (slot_none hslot ha hab).elim
    · exact h.distinct j k a b ha hb hab
  · intro j a (ha : Function.update list.header i (some key) j = some a)
    rcases update_some ha with ⟨_, ha⟩ | ⟨_, ha⟩
    · cases ha
      exact hname
    · exact h.named j a ha
  · intro j a (ha : Function.update list.header i (some key) j = some a)
    rcases update_some ha with ⟨rfl, hkey⟩ | ⟨hj, ha⟩
    · cases hkey
      exact ⟨v, Function.update_self .., Function.update_self ..⟩
    · obtain ⟨w, hw, hvalue⟩ := h.stored j a ha
      exact ⟨w, (Function.update_of_ne (slot_none hslot ha) ..).trans hw,
        (Function.update_of_ne hj ..).trans hvalue⟩
  · intro k w hw
    rcases eq_or_ne k (lower key) with rfl | hk
    · exact ⟨i, key, Function.update_self .., rfl⟩
    · rw [Function.update_of_ne hk] at hw
      obtain ⟨j, a, ha, rfl⟩ := h.present k w hw
      have hj : j ≠ i := by
        rintro rfl
        rw [hfree] at ha
        cases ha
      exact ⟨j, a, (Function.update_of_ne hj ..).trans ha, rfl⟩
  · intro j (hj : Function.update list.header i (some key) j = none)
    change Function.update list.value i _ j = none
    rcases eq_or_ne j i with rfl | hji
    · rw [Function.update_self] at hj
      cases hj
    · rw [Function.update_of_ne hji] at hj ⊢
      exact h.paired j hj

/-- The slot of a name takes its new value. -/
theorem Holds.replace (h : Holds names list values) (ha : list.header i = some a) (v : Str) :
    Holds names { list with value := Function.update list.value i (some (lineOf v)) }
      (Function.update values (lower a) (some v)) := by
  refine ⟨h.distinct, h.named, ?_, ?_, ?_⟩
  · intro j b hb
    rcases eq_or_ne j i with rfl | hj
    · cases ha.symm.trans hb
      exact ⟨v, Function.update_self .., Function.update_self ..⟩
    · obtain ⟨w, hw, hvalue⟩ := h.stored j b hb
      have hne : lower b ≠ lower a := fun hab => hj (h.distinct j i b a hb ha hab)
      exact ⟨w, (Function.update_of_ne hne ..).trans hw, (Function.update_of_ne hj ..).trans hvalue⟩
  · intro k w hw
    rcases eq_or_ne k (lower a) with rfl | hk
    · exact ⟨i, a, ha, rfl⟩
    · rw [Function.update_of_ne hk] at hw
      exact h.present k w hw
  · intro j hj
    have hji : j ≠ i := by
      rintro rfl
      cases ha.symm.trans hj
    exact (Function.update_of_ne hji ..).trans (h.paired j hj)

/-- A deleted header leaves its slot free. -/
theorem Holds.remove (h : Holds names list values) (ha : list.header i = some a) :
    Holds names ⟨Function.update list.header i none, Function.update list.value i none⟩
      (Function.update values (lower a) none) := by
  refine ⟨?_, ?_, ?_, ?_, ?_⟩
  · intro j k b c hb hc hbc
    rcases update_some hb with ⟨_, hb⟩ | ⟨_, hb⟩
    · cases hb
    · rcases update_some hc with ⟨_, hc⟩ | ⟨_, hc⟩
      · cases hc
      · exact h.distinct j k b c hb hc hbc
  · intro j b hb
    rcases update_some hb with ⟨_, hb⟩ | ⟨_, hb⟩
    · cases hb
    · exact h.named j b hb
  · intro j b hb
    rcases update_some hb with ⟨_, hb⟩ | ⟨hj, hb⟩
    · cases hb
    · obtain ⟨w, hw, hvalue⟩ := h.stored j b hb
      have hne : lower b ≠ lower a := fun hab => hj (h.distinct j i b a hb ha hab)
      exact ⟨w, (Function.update_of_ne hne ..).trans hw, (Function.update_of_ne hj ..).trans hvalue⟩
  · intro k w hw
    rcases eq_or_ne k (lower a) with rfl | hk
    · rw [Function.update_self] at hw
      cases hw
    · rw [Function.update_of_ne hk] at hw
      obtain ⟨j, b, hb, rfl⟩ := h.present k w hw
      have hj : j ≠ i := by
        rintro rfl
        cases ha.symm.trans hb
        exact hk rfl
      exact ⟨j, b, (Function.update_of_ne hj ..).trans hb, rfl⟩
  · intro j (hj : Function.update list.header i none j = none)
    change Function.update list.value i none j = none
    rcases eq_or_ne j i with rfl | hji
    · exact Function.update_self ..
    · rw [Function.update_of_ne hji] at hj ⊢
      exact h.paired j hj

theorem set_absent (h : Holds names list values) (hroom : names.card < HTTP_HEADER_MAX)
    (hslot : list.slot key = none) (hlength : key.length + 3 < 2147483648) (value : Str) :
    ∃ i, list.header i = none ∧ httpHeaderSetValue list key value =
      some (⟨Function.update list.header i (some key),
        Function.update list.value i (some (lineOf key))⟩, 1) := by
  obtain ⟨i, hfind, hfree⟩ := h.exists_free hroom
  refine ⟨i, hfree, ?_⟩
  rw [httpHeaderSetValue, get_absent hslot]
  simp only [addHeader, hfind, httpStrdupKey_some hlength, httpStrdupVal_some hlength]
  rfl

theorem set_present (h : Holds names list values) (hslot : list.slot key = some i)
    (hj : (list.value i).bind list.valueSlot = some j) (value : Str) :
    httpHeaderSetValue list key value =
      if (list.value j).isNone then none
      else (httpStrdupVal value).map fun value =>
        ({ list with value := Function.update list.value j (some value) }, 1) := by
  obtain ⟨a, ha, hkey⟩ := slot_some hslot
  obtain ⟨v, _, hv⟩ := h.stored i a ha
  rw [hv, Option.bind_some] at hj
  rw [httpHeaderSetValue, h.get_eq ha hkey, hv]
  simp only [replaceValue, hj]

theorem update_same {f : Str → Option Str} (h : f k = x) : Function.update f k x = f := by
  rw [← h, Function.update_eq_self]

theorem headerStep_good (hroom : names.card < HTTP_HEADER_MAX) (h : Holds names list values)
    (c : Call) (hname : lower c.key ∈ names) (hok : c.Ok list) :
    ∃ list', headerStep list c = some (list', (specStep values c).2) ∧
      Holds names list' (specStep values c).1 := by
  cases c with
  | set key value =>
    obtain ⟨hlength, hok⟩ := hok
    cases hslot : list.slot key with
    | none =>
      rw [hslot] at hok
      subst hok
      obtain ⟨i, hfree, hset⟩ := set_absent h hroom hslot hlength value
      exact ⟨_, hset, h.add hslot hname hfree value⟩
    | some i =>
      rw [hslot] at hok
      obtain ⟨j, hj, hvalue, hsame⟩ := hok
      obtain ⟨a, ha, hkey⟩ := slot_some hslot
      have hset := set_present h hslot hj value
      rw [if_neg (mt Option.isNone_iff_eq_none.1 hvalue), httpStrdupVal_some hlength,
        Option.map_some] at hset
      refine ⟨_, hset, ?_⟩
      change Holds names _ (Function.update values (lower key) (some value))
      rw [← hkey]
      rcases hsame with rfl | ⟨hi, hj⟩
      · exact h.replace ha value
      · obtain ⟨w, hw, hline⟩ := h.stored i a ha
        obtain rfl : w = value := lineOf_inj (Option.some.inj (hline.symm.trans hi))
        rw [update_same hw, ← hj, Function.update_eq_self]
        exact h
  | del key =>
    rw [headerStep, httpHeaderDelValue, specStep]
    cases hslot : list.slot key with
    | none =>
      have habsent := h.absent hslot
      rw [update_same habsent, habsent]
      exact ⟨list, rfl, h⟩
    | some i =>
      obtain ⟨a, ha, hkey⟩ := slot_some hslot
      obtain ⟨v, hv, _⟩ := h.stored i a ha
      rw [← hkey, hv]
      exact ⟨_, rfl, h.remove ha⟩

theorem addHeader_none (hlength : ¬ key.length + 3 < 2147483648) (hfree : list.header i = none) :
    addHeader list key = none := by
  cases hfind : firstSlot fun i => (list.header i).isNone with
  | none =>
    have hsome := firstSlot_none hfind i
    rw [hfree] at hsome
    cases hsome
  | some j =>
    simp only [addHeader, hfind, httpStrdupVal_none hlength, Option.map_none]
    exact Option.bind_fun_none _

/-- The search for the value of a header ends, if only at the header itself. -/
theorem Holds.exists_valueSlot (h : Holds names list values) (hslot : list.slot key = some i) :
    ∃ j, (list.value i).bind list.valueSlot = some j := by
  obtain ⟨a, ha, _⟩ := slot_some hslot
  obtain ⟨v, _, hv⟩ := h.stored i a ha
  rw [hv, Option.bind_some]
  cases hj : list.valueSlot (lineOf v) with
  | some j => exact ⟨j, rfl⟩
  | none =>
    have hno := firstSlot_none hj i
    rw [hv, Option.all_some] at hno
    exact (of_decide_eq_false hno rfl).elim

theorem set_absent_bad (hroom : names.card < HTTP_HEADER_MAX) (h : Holds names list values)
    (hslot : list.slot key = none) (hname : lower key ∈ names)
    (hbad : ¬ (value.length + 3 < 2147483648 ∧ value = key))
    (hset : httpHeaderSetValue list key value = some (list', out)) :
    ¬ Returns list' (Function.update values (lower key) (some value)) := by
  intro hreturns
  by_cases hlength : key.length + 3 < 2147483648
  · obtain ⟨i, hfree, hset'⟩ := set_absent h hroom hslot hlength value
    cases hset.symm.trans hset'
    have hadd := h.add hslot hname hfree key
    have hvalue := hreturns key
    rw [hadd.returns key, Function.update_self, Function.update_self] at hvalue
    obtain rfl := lineOf_inj (Option.some.inj hvalue)
    exact hbad ⟨hlength, rfl⟩
  · obtain ⟨i, _, hfree⟩ := h.exists_free hroom
    rw [httpHeaderSetValue, get_absent hslot] at hset
    rw [addHeader_none hlength hfree] at hset
    cases hset

/-- When the value of another header is replaced, each name has its value only if nothing
changes. -/
theorem Holds.replaced (h : Holds names list values) (hslot : list.slot key = some i) (hji : j ≠ i)
    (hvalue : ¬ (list.value j).isNone)
    (hreturns : Returns { list with value := Function.update list.value j (some (lineOf value)) }
      (Function.update values (lower key) (some value))) :
    list.value i = some (lineOf value) ∧ list.value j = some (lineOf value) := by
  have hget (b : Str) (k : Fin HTTP_HEADER_MAX) (hb : list.slot b = some k) :
      Function.update list.value j (some (lineOf value)) k =
        (Function.update values (lower key) (some value) (lower b)).map lineOf := by
    rw [← hreturns b, httpHeaderGetValue]
    change _ = (list.slot b).bind _
    rw [hb]
    rfl
  obtain ⟨b, hb⟩ : ∃ b, list.header j = some b := by
    cases hb : list.header j with
    | some b => exact ⟨b, rfl⟩
    | none => exact (hvalue (Option.isNone_iff_eq_none.2 (h.paired j hb))).elim
  obtain ⟨a, ha, hkey⟩ := slot_some hslot
  have hne : lower b ≠ lower key := fun hbk => hji (h.distinct j i b a hb ha (hbk.trans hkey.symm))
  have hi := hget key i hslot
  rw [Function.update_of_ne hji.symm, Function.update_self] at hi
  have hj := hget b j (h.slot_eq hb rfl)
  rw [Function.update_self, Function.update_of_ne hne] at hj
  refine ⟨hi, ?_⟩
  rw [hj, ← h.get_eq hb rfl]
  exact h.returns b

theorem set_present_bad (h : Holds names list values) (hslot : list.slot key = some i)
    (hbad : ¬ (value.length + 3 < 2147483648 ∧ ∃ j, (list.value i).bind list.valueSlot = some j ∧
      list.value j ≠ none ∧
      (j = i ∨ list.value i = some (lineOf value) ∧ list.value j = some (lineOf value))))
    (hset : httpHeaderSetValue list key value = some (list', out)) :
    ¬ Returns list' (Function.update values (lower key) (some value)) := by
  intro hreturns
  obtain ⟨j, hj⟩ := h.exists_valueSlot hslot
  rw [set_present h hslot hj value] at hset
  by_cases hvalue : (list.value j).isNone
  · rw [if_pos hvalue] at hset
    cases hset
  · rw [if_neg hvalue] at hset
    by_cases hlength : value.length + 3 < 2147483648
    · rw [httpStrdupVal_some hlength] at hset
      cases hset
      refine hbad ⟨hlength, j, hj, mt Option.isNone_iff_eq_none.2 hvalue, ?_⟩
      by_cases hji : j = i
      · exact .inl hji
      · exact .inr (h.replaced hslot hji hvalue hreturns)
    · rw [httpStrdupVal_none hlength] at hset
      cases hset

theorem headerStep_bad (hroom : names.card < HTTP_HEADER_MAX) (h : Holds names list values)
    (c : Call) (hname : lower c.key ∈ names) (hbad : ¬ c.Ok list)
    (hstep : headerStep list c = some (list', (specStep values c).2)) :
    ¬ Returns list' (specStep values c).1 := by
  cases c with
  | set key value =>
    rw [Call.Ok] at hbad
    cases hslot : list.slot key with
    | none =>
      rw [hslot] at hbad
      exact set_absent_bad hroom h hslot hname hbad hstep
    | some i =>
      rw [hslot] at hbad
      exact set_present_bad h hslot hbad hstep
  | del key => exact (hbad trivial).elim

theorem emptyList_holds : Holds names emptyList fun _ => none := by
  refine ⟨?_, ?_, ?_, ?_, fun _ _ => rfl⟩
  · intro i j a b ha
    cases ha
  · intro i a ha
    cases ha
  · intro i a ha
    cases ha
  · intro k v hv
    cases hv

end Steps

/-- Every name has the value last set for it throughout a run exactly when every new name is set to
its own text, and the search for the value to replace stops at its header. -/
theorem http_header_value_iff (cs : List Call)
    (hroom : (cs.map fun c => lower c.key).toFinset.card < HTTP_HEADER_MAX) :
    Follows headerStep specStep Returns emptyList (fun _ => none) cs ↔
      Admits headerStep (fun list c => c.Ok list) emptyList cs := by
  have hnames : ∀ c ∈ cs, lower c.key ∈ (cs.map fun c => lower c.key).toFinset :=
    fun c hc => List.mem_toFinset.2 (List.mem_map_of_mem hc)
  apply follows_iff_admits (R := Holds (cs.map fun c => lower c.key).toFinset)
  · exact fun _ _ h => h.returns
  · exact fun _ _ c h hname hok => headerStep_good hroom h c hname hok
  · exact fun _ _ c h hname hbad _ hstep => headerStep_bad hroom h c hname hbad hstep
  · exact emptyList_holds
  · exact admits_of_forall _ hnames

/-- A header whose value is its name. -/
theorem http_header_value_iff_own :
    Follows headerStep specStep Returns emptyList (fun _ => none) [.set [65] [65]] ↔
      Admits headerStep (fun list c => c.Ok list) emptyList [.set [65] [65]] :=
  http_header_value_iff [.set [65] [65]] (by decide)

/-- A header is set to `1`, and its name is returned. -/
theorem not_http_header_value :
    (([Call.set [65] [49]].map fun c => lower c.key).toFinset.card < HTTP_HEADER_MAX) ∧
      (headerStep emptyList (.set [65] [49])).map (fun r => httpHeaderGetValue r.1 [65]) =
        some (some [65, CR]) ∧
      ¬ Follows headerStep specStep Returns emptyList (fun _ => none) [.set [65] [49]] := by
  refine ⟨by decide, by decide +kernel, ?_⟩
  rintro ⟨_, list, hstep, hreturns⟩
  have hholds : Holds {lower [65]} emptyList fun _ => none := emptyList_holds
  have hslot : emptyList.slot [65] = none := by decide +kernel
  have hbad : ¬ (Call.set [65] [49]).Ok emptyList := by
    rintro ⟨_, hok⟩
    rw [hslot] at hok
    cases hok
  exact headerStep_bad (by decide) hholds _ (Finset.mem_singleton_self _) hbad hstep hreturns

end BigBox.Lapi.Http
