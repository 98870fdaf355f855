import BigBox.Ini.StringDic
import BigBox.Lib.CInt
import BigBox.Lib.FiniteMap
import BigBox.Lib.TryRun

namespace BigBox.StringDic
set_option autoImplicit true

/-- A `string_dic_t` with `int` counters; a slot is the entry of the three arrays at one index. -/
structure Table where
  n : Int
  size : Int
  slots : List (Option Slot)

def tableNew (size : Nat) : Table :=
  let size := max size STR_DICT_MIN_SIZE
  ⟨0, toInt size, List.replicate size none⟩

/-- The loop over the slots: where a key stands, if it does. A read outside the array has no
result. -/
def findKey (slots : List (Option Slot)) (key : Str) : Nat → Nat → Option (Option Nat)
  | 0, _ => some none
  | k + 1, i => slots[i]?.bind fun slot =>
    if Slot.matches key slot then some (some i) else findKey slots key k (i + 1)

def Table.find (d : Table) (key : Str) : Option (Option Nat) := findKey d.slots key d.size.toNat 0

def tableGet (d : Table) (key : Str) (dflt : Option Str) : Option (Option Str) :=
  (d.find key).map fun found =>
    match found with
    | some i => d.slots[i]?.join.bind Slot.val
    | none => dflt

/-- The three calls of `mem_double_alloc`. -/
def Table.grow (d : Table) : Table :=
  { d with
    size := (2 * d.size).bmod 4294967296
    slots := d.slots.take d.size.toNat ++ List.replicate d.size.toNat none }

/-- The search for a free slot, with a bound on its rounds. -/
def freeIndex (slots : List (Option Slot)) (size : Int) : Nat → Int → Option Nat
  | 0, _ => none
  | fuel + 1, i => (if 0 ≤ i then slots[i.toNat]? else none).bind fun slot =>
    if slot.isSome then freeIndex slots size fuel (if i + 1 = size then 0 else i + 1)
    else some i.toNat

def Table.insert (d : Table) (key : Str) (value : Option Str) : Option Table :=
  (freeIndex d.slots d.size (d.size.toNat + 1) d.n).map fun i =>
    { d with n := d.n + 1, slots := d.slots.set i (some ⟨key, value, stringDicHash key⟩) }

/-- `string_dic_set` when allocation succeeds. -/
def tableSet (d : Table) (key : Option Str) (value : Option Str) : Option (Table × Int) :=
  match key with
  | none => some (d, -1)
  | some key => (if 0 < d.n then d.find key else some none).bind fun found =>
    match found with
    | some i =>
      let slot := d.slots[i]?.join.map fun slot => { slot with val := value }
      some ({ d with slots := d.slots.set i slot }, 0)
    | none => ((if d.n = d.size then d.grow else d).insert key value).map fun d => (d, 0)

def tableUnset (d : Table) (key : Option Str) : Option Table :=
  match key with
  | none => some d
  | some key => (d.find key).map fun found =>
    match found with
    | some i => { d with n := d.n - 1, slots := d.slots.set i none }
    | none => d

inductive DicCall where
  | set (key value : Option Str)
  | unset (key : Option Str)

def Table.step (d : Table) : DicCall → Option (Table × Option Int)
  | .set key value => (tableSet d key value).map fun r => (r.1, some r.2)
  | .unset key => (tableUnset d key).map fun d => (d, none)

/-- A finite map from keys to values, which may be null pointers. -/
abbrev Contents := Finmap fun _ : Str => Option Str

/-- What the calls do to a finite map. -/
def dicSpec (m : Contents) : DicCall → Contents × Option Int
  | .set none _ => (m, some (-1))
  | .set (some key) value => (m.insert key value, some 0)
  | .unset none => (m, none)
  | .unset (some key) => (m.erase key, none)

/-- The table is the finite map to its callers, and its counters are right. -/
structure Table.Shows (d : Table) (m : Contents) : Prop where
  get : ∀ key dflt, tableGet d key dflt = some ((m.lookup key).getD dflt)
  count : d.n = d.slots.countP Option.isSome
  room : d.n ≤ d.size
  once : ∀ {i j : Nat} {e f : Slot}, d.slots[i]? = some (some e) → d.slots[j]? = some (some f) →
    e.key = f.key → i = j

/-- The keys that are set. -/
def Table.keys (d : Table) : List Str := (d.slots.filterMap id).map Slot.key

/-- A table that is full is not empty and has fewer than 2^30 slots, when a new key is set. -/
def DicCall.Fits (d : Table) : DicCall → Prop
  | .set (some key) _ => key ∈ d.keys ∨ d.n ≠ d.size ∨ 0 < d.size ∧ 2 * d.size < 2147483648
  | _ => True

section Slots
variable {slots before behind : List (Option Slot)}

theorem entries_middle (before behind : List (Option Slot)) (e : Slot) :
    ((before ++ some e :: behind).filterMap id).Perm
      (e :: (before.filterMap id ++ behind.filterMap id)) := by
  rw [List.filterMap_append]
  exact List.perm_middle

theorem entries_hole (before behind : List (Option Slot)) :
    (before ++ none :: behind).filterMap id = before.filterMap id ++ behind.filterMap id := by
  rw [List.filterMap_append]
  rfl

theorem countP_isSome (slots : List (Option Slot)) :
    slots.countP Option.isSome = (slots.filterMap id).length := by
  induction slots with
  | nil => rfl
  | cons slot slots ih =>
    cases slot with
    | none => exact ih
    | some e =>
      rw [List.countP_cons_of_pos rfl, ih]
      rfl

theorem findKey_at (hslot : slots[p]? = some slot) (hmatch : Slot.matches key slot = true)
    (hbefore : ∀ j < p, ∃ slot, slots[j]? = some slot ∧ Slot.matches key slot = false)
    (hi : i ≤ p) (hp : p < i + k) : findKey slots key k i = some (some p) := by
  induction k generalizing i with
  | zero => omega
  | succ k ih =>
    rw [findKey]
    rcases Nat.eq_or_lt_of_le hi with rfl | hlt
    · rw [hslot, Option.bind_some, if_pos hmatch]
    · obtain ⟨slot', hslot', hno⟩ := hbefore i hlt
      rw [hslot', Option.bind_some, hno, if_neg Bool.false_ne_true]
      exact ih hlt (by omega)

theorem findKey_none (h : ∀ j < i + k, ∃ slot, slots[j]? = some slot ∧
    Slot.matches key slot = false) : findKey slots key k i = some none := by
  induction k generalizing i with
  | zero => rfl
  | succ k ih =>
    obtain ⟨slot, hslot, hno⟩ := h i (by omega)
    rw [findKey, hslot, Option.bind_some, hno, if_neg Bool.false_ne_true]
    apply ih
    intro j hj
    exact h j (by omega)

/-- The search comes to a free slot in at most one round for each slot. -/
theorem freeIndex_some (fuel : Nat) {size h : Nat} {s : Int} (hs : s = size)
    (hlen : size ≤ slots.length)
    (hhole : slots[h]? = some none) (hh : h < size) (hi : i < size)
    (hfuel : (if i ≤ h then h - i else size - i + h) < fuel) :
    ∃ p < size, freeIndex slots s fuel i = some p ∧ slots[p]? = some none := by
  induction fuel generalizing i with
  | zero => exact (Nat.not_lt_zero _ hfuel).elim
  | succ fuel ih =>
    have hget : slots[i]? = some slots[i] := List.getElem?_eq_getElem (by omega)
    rw [freeIndex, if_pos (Int.natCast_nonneg i), Int.toNat_natCast, hget, Option.bind_some]
    cases hslot : slots[i] with
    | none => exact ⟨i, hi, rfl, by rw [hget, hslot]⟩
    | some e =>
      have hne : i ≠ h := by
        rintro rfl
        rw [hget, hslot] at hhole
        cases hhole
      rw [Option.isSome_some, if_pos rfl]
      by_cases hend : i + 1 = size
      · have hzero : (if (i : Int) + 1 = s then 0 else (i : Int) + 1) = ((0 : Nat) : Int) := by
          rw [if_pos (by omega)]
          rfl
        rw [hzero]
        apply ih (by omega)
        rw [if_pos (Nat.zero_le h)]
        split at hfuel <;> omega
      · have hnext : (if (i : Int) + 1 = s then 0 else (i : Int) + 1) = ((i + 1 : Nat) : Int) := by
          rw [if_neg (by omega)]
          rfl
        rw [hnext]
        apply ih (by omega)
        split <;> split at hfuel <;> omega

end Slots

/-- A table with the entries of a finite map, all of them in the slots that are searched. -/
structure Table.Holds (d : Table) (m : Contents) : Prop where
  size_nonneg : 0 ≤ d.size
  size_le : d.size ≤ d.slots.length
  size_lt : d.size < 2147483648
  inside : ∀ (i : Nat) e, d.slots[i]? = some (some e) → (i : Int) < d.size
  hash_eq : ∀ e ∈ d.slots.filterMap id, e.hash = stringDicHash e.key
  binds : Binds m Slot.key Slot.val (d.slots.filterMap id)
  count : d.n = (d.slots.filterMap id).length

namespace Table.Holds
variable {d : Table} {i j : Nat}

theorem mem_entries {slots : List (Option Slot)} (h : slots[i]? = some (some e)) :
    e ∈ slots.filterMap id := List.mem_filterMap.2 ⟨some e, List.mem_of_getElem? h, rfl⟩

theorem matches_eq (h : d.Holds m) (hslot : d.slots[i]? = some (some e)) (key : Str) :
    Slot.matches key (some e) = decide (key = e.key) := by
  rw [Slot.matches, Option.any_some, h.hash_eq e (mem_entries hslot)]
  apply decide_eq_decide.2
  constructor
  · exact And.right
  · rintro rfl
    exact ⟨rfl, rfl⟩

theorem once (h : d.Holds m) {e f : Slot} (hi : d.slots[i]? = some (some e))
    (hj : d.slots[j]? = some (some f)) (hkey : e.key = f.key) : i = j := by
  have hnodup := h.binds.nodup_keys
  have hlt : ∀ {i j : Nat} {e f : Slot}, d.slots[i]? = some (some e) → d.slots[j]? = some (some f) →
      e.key = f.key → ¬ i < j := by
    intro i j e f hi hj hkey hlt
    have hsplit : d.slots = d.slots.take j ++ some f :: d.slots.drop (j + 1) := by
      obtain ⟨hlen, hget⟩ := List.getElem?_eq_some_iff.1 hj
      rw [← hget, List.cons_getElem_drop_succ, List.take_append_drop]
    have hmem : e ∈ (d.slots.take j).filterMap id := by
      apply mem_entries (i := i)
      rw [List.getElem?_take, if_pos hlt, hi]
    rw [hsplit, List.filterMap_append, List.map_append, List.nodup_append] at hnodup
    exact hnodup.2.2 e.key (List.mem_map_of_mem hmem) f.key
      (List.mem_map_of_mem List.mem_cons_self) hkey
  rcases Nat.lt_trichotomy i j with hij | hij | hij
  · exact (hlt hi hj hkey hij).elim
  · exact hij
  · exact (hlt hj hi hkey.symm hij).elim

/-- The slot of a key, if it has one. -/
theorem find (h : d.Holds m) (key : Str) :
    (∃ before e behind, d.slots = before ++ some e :: behind ∧ e.key = key ∧
      d.find key = some (some before.length)) ∨
    (d.find key = some none ∧ key ∉ d.keys) := by
  have hsize := h.size_nonneg
  have hle := h.size_le
  have hget : ∀ j < d.size.toNat, ∃ slot, d.slots[j]? = some slot :=
    fun j hj => ⟨_, List.getElem?_eq_getElem (by omega)⟩
  have hno : ∀ {j : Nat} {slot}, d.slots[j]? = some slot → (∀ e, slot = some e → e.key ≠ key) →
      Slot.matches key slot = false := by
    intro j slot hslot hkey
    cases slot with
    | none => rfl
    | some e =>
      rw [h.matches_eq hslot]
      exact decide_eq_false fun he => hkey e rfl he.symm
  by_cases hmem : key ∈ d.keys
  · obtain ⟨e, he, rfl⟩ := List.mem_map.1 hmem
    obtain ⟨slot, hslot, rfl⟩ := List.mem_filterMap.1 he
    obtain ⟨before, behind, hsplit⟩ := List.append_of_mem hslot
    have hat : d.slots[before.length]? = some (some e) := by
      rw [hsplit, List.getElem?_append_right (Nat.le_refl _), Nat.sub_self]
      rfl
    have hinside := h.inside _ _ hat
    refine .inl ⟨before, e, behind, hsplit, rfl, findKey_at hat ?_ ?_ (Nat.zero_le _) (by omega)⟩
    · rw [h.matches_eq hat]
      exact decide_eq_true rfl
    · intro j hj
      obtain ⟨slot, hslot⟩ := hget j (by omega)
      refine ⟨slot, hslot, hno hslot ?_⟩
      rintro f rfl hkey
      exact Nat.ne_of_lt hj (h.once hslot hat hkey)
  · refine .inr ⟨findKey_none fun j hj => ?_, hmem⟩
    obtain ⟨slot, hslot⟩ := hget j (by omega)
    refine ⟨slot, hslot, hno hslot ?_⟩
    rintro e rfl rfl
    exact hmem (List.mem_map_of_mem (mem_entries hslot))

theorem lookup_none (h : d.Holds m) (hkey : key ∉ d.keys) : m.lookup key = none := by
  apply Finmap.lookup_eq_none.2
  apply h.binds.notMem
  rintro e he rfl
  exact hkey (List.mem_map_of_mem he)

theorem entries_perm (hsplit : d.slots = before ++ some e :: behind) :
    (d.slots.filterMap id).Perm (e :: (before.filterMap id ++ behind.filterMap id)) := by
  rw [hsplit]
  exact entries_middle before behind e

theorem get (h : d.Holds m) (key : Str) (dflt : Option Str) :
    tableGet d key dflt = some ((m.lookup key).getD dflt) := by
  rw [tableGet]
  rcases h.find key with ⟨before, e, behind, hsplit, rfl, hfind⟩ | ⟨hfind, hkey⟩
  · have hat : d.slots[before.length]? = some (some e) := by
      rw [hsplit, List.getElem?_append_right (Nat.le_refl _), Nat.sub_self]
      rfl
    rw [hfind, h.binds.lookup (entries_perm hsplit)]
    simp only [Option.map_some, hat, Option.join_some, Option.bind_some, Option.getD_some]
  · rw [hfind, h.lookup_none hkey]
    rfl

/-- All entries are in the slots that are searched. -/
theorem entries_take (h : d.Holds m) :
    (d.slots.take d.size.toNat).filterMap id = d.slots.filterMap id := by
  have hsize := h.size_nonneg
  have htail : (d.slots.drop d.size.toNat).filterMap id = [] := by
    apply List.filterMap_eq_nil_iff.2
    intro slot hslot
    obtain ⟨j, hj⟩ := List.mem_iff_getElem?.1 hslot
    rw [List.getElem?_drop] at hj
    cases slot with
    | none => rfl
    | some e =>
      have hinside := h.inside _ _ hj
      omega
  have happend := congrArg (List.filterMap id) (List.take_append_drop d.size.toNat d.slots)
  rwa [List.filterMap_append, htail, List.append_nil] at happend

theorem room (h : d.Holds m) : d.n ≤ d.size := by
  have hsize := h.size_nonneg
  have hlen := List.length_filterMap_le id (d.slots.take d.size.toNat)
  have htake := List.length_take_le d.size.toNat d.slots
  rw [h.count, ← h.entries_take]
  omega

theorem shows (h : d.Holds m) : d.Shows m where
  get := h.get
  count := by rw [h.count, countP_isSome]
  room := h.room
  once := h.once

theorem set_middle (before behind : List (Option Slot)) (a b : Option Slot) :
    (before ++ a :: behind).set before.length b = before ++ b :: behind := by
  rw [List.set_append_right _ _ (Nat.le_refl _), Nat.sub_self]
  rfl

/-- One slot that is searched changes. -/
theorem set {c : Int} (h : d.Holds m) (hi : (i : Int) < d.size)
    (hslot : ∀ e, slot = some e → e.hash = stringDicHash e.key)
    (hbinds : Binds m' Slot.key Slot.val ((d.slots.set i slot).filterMap id))
    (hcount : c = ((d.slots.set i slot).filterMap id).length) :
    Holds { d with n := c, slots := d.slots.set i slot } m' where
  size_nonneg := h.size_nonneg
  size_le := by
    rw [List.length_set]
    exact h.size_le
  size_lt := h.size_lt
  inside := by
    intro j e hj
    rw [List.getElem?_set] at hj
    split at hj
    case isTrue hij => exact hij ▸ hi
    case isFalse => exact h.inside j e hj
  hash_eq := by
    intro e he
    obtain ⟨slot', hslot', rfl⟩ := List.mem_filterMap.1 he
    rcases List.mem_or_eq_of_mem_set hslot' with hold | hnew
    · exact h.hash_eq e (List.mem_filterMap.2 ⟨_, hold, rfl⟩)
    · exact hslot e hnew.symm
  binds := hbinds
  count := hcount

theorem index_lt (h : d.Holds m) (hsplit : d.slots = before ++ some e :: behind) :
    (before.length : Int) < d.size := by
  apply h.inside before.length e
  rw [hsplit, List.getElem?_append_right (Nat.le_refl _), Nat.sub_self]
  rfl

theorem replace (h : d.Holds m) (hsplit : d.slots = before ++ some e :: behind)
    (value : Option Str) :
    Holds { d with slots := d.slots.set before.length (some { e with val := value }) }
      (m.insert e.key value) := by
  have hnew : d.slots.set before.length (some { e with val := value }) =
      before ++ some { e with val := value } :: behind := by
    rw [hsplit, set_middle]
  have hperm := entries_middle before behind { e with val := value }
  have hmem : e ∈ d.slots.filterMap id := (entries_perm hsplit).mem_iff.2 List.mem_cons_self
  apply h.set (h.index_lt hsplit)
  · intro f hf
    cases hf
    exact h.hash_eq e hmem
  · have hkey : ({ e with val := value } : Slot).key = e.key := rfl
    rw [hnew]
    have hbinds := h.binds.replace (entries_perm hsplit) hkey
    exact hbinds.perm hperm.symm
  · rw [h.count, hnew, hperm.length_eq, (entries_perm hsplit).length_eq]
    rfl

theorem remove (h : d.Holds m) (hsplit : d.slots = before ++ some e :: behind) :
    Holds { d with n := d.n - 1, slots := d.slots.set before.length none } (m.erase e.key) := by
  have hnew : d.slots.set before.length none = before ++ none :: behind := by
    rw [hsplit, set_middle]
  apply h.set (h.index_lt hsplit)
  · intro f hf
    cases hf
  · rw [hnew, entries_hole]
    exact h.binds.erase (entries_perm hsplit)
  · rw [h.count, hnew, entries_hole, (entries_perm hsplit).length_eq, List.length_cons]
    omega

/-- A table that is not full has a free slot. -/
theorem exists_free (h : d.Holds m) (hroom : d.n < d.size) :
    ∃ i < d.size.toNat, d.slots[i]? = some none := by
  by_contra hno
  have hle := h.size_le
  have hsome : ∀ slot ∈ d.slots.take d.size.toNat, (id slot).isSome := by
    intro slot hslot
    obtain ⟨i, hi⟩ := List.mem_iff_getElem?.1 hslot
    rw [List.getElem?_take] at hi
    split at hi
    case isTrue hlt =>
      cases slot with
      | none => exact (hno ⟨i, hlt, hi⟩).elim
      | some e => rfl
    case isFalse => cases hi
  have hlen := List.filterMap_length_eq_length.2 hsome
  have hsub := ((List.take_sublist d.size.toNat d.slots).filterMap id).length_le
  rw [List.length_take] at hlen
  have hcount := h.count
  omega

/-- A new key takes a free slot. -/
theorem insert (h : d.Holds m) (hroom : d.n < d.size) (hkey : key ∉ d.keys) (value : Option Str) :
    ∃ d', d.insert key value = some d' ∧ d'.Holds (m.insert key value) ∧ d'.n = d.n + 1 ∧
      d'.size = d.size := by
  obtain ⟨i, hi, hhole⟩ := h.exists_free hroom
  have hle := h.size_le
  have hcount := h.count
  obtain ⟨p, hp, hrun, hfree⟩ := freeIndex_some (d.size.toNat + 1) (s := d.size)
    (i := (d.slots.filterMap id).length) (by omega) (by omega) hhole hi (by omega)
    (by split <;> omega)
  rw [← hcount] at hrun
  refine ⟨{ d with n := d.n + 1, slots := d.slots.set p (some ⟨key, value, stringDicHash key⟩) },
    by rw [Table.insert, hrun]; rfl, ?_, rfl, rfl⟩
  obtain ⟨hlen, hget⟩ := List.getElem?_eq_some_iff.1 hfree
  have hsplit : d.slots = d.slots.take p ++ none :: d.slots.drop (p + 1) := by
    rw [← hget, List.cons_getElem_drop_succ, List.take_append_drop]
  have hnew : d.slots.set p (some ⟨key, value, stringDicHash key⟩) =
      d.slots.take p ++ some ⟨key, value, stringDicHash key⟩ :: d.slots.drop (p + 1) :=
    List.set_eq_take_append_cons_drop.trans (if_pos hlen)
  have hperm := entries_middle (d.slots.take p) (d.slots.drop (p + 1))
    ⟨key, value, stringDicHash key⟩
  rw [← entries_hole, ← hsplit] at hperm
  apply h.set (by omega)
  · intro e he
    cases he
    rfl
  · rw [hnew]
    have hmem : key ∉ m := Finmap.lookup_eq_none.1 (h.lookup_none hkey)
    exact (h.binds.insert (e := ⟨key, value, stringDicHash key⟩) hmem).perm hperm.symm
  · rw [hnew, hperm.length_eq, hcount]
    rfl

theorem grow_entries (h : d.Holds m) : d.grow.slots.filterMap id = d.slots.filterMap id := by
  rw [Table.grow, List.filterMap_append, List.filterMap_replicate_of_none rfl, List.append_nil,
    h.entries_take]

/-- A table that doubles keeps its entries. -/
theorem grow (h : d.Holds m) (hfits : 2 * d.size < 2147483648) :
    d.grow.Holds m ∧ d.grow.n = d.n ∧ d.grow.size = 2 * d.size := by
  have hsize := h.size_nonneg
  have hle := h.size_le
  have hdouble : d.grow.size = 2 * d.size := by
    apply Int.bmod_eq_of_le
    · omega
    · omega
  have hlen : d.grow.slots.length = d.size.toNat + d.size.toNat := by
    rw [Table.grow, List.length_append, List.length_take, List.length_replicate]
    omega
  refine ⟨⟨by omega, by omega, by omega, ?_, ?_, ?_, ?_⟩, rfl, hdouble⟩
  · intro i e hi
    have hbound := (List.getElem?_eq_some_iff.1 hi).1
    omega
  · rw [h.grow_entries]
    exact h.hash_eq
  · rw [h.grow_entries]
    exact h.binds
  · rw [h.grow_entries]
    exact h.count

/-- A key that is searched for before it is set. -/
theorem search (h : d.Holds m) (key : Str) :
    (if 0 < d.n then d.find key else some none) = d.find key := by
  split
  case isTrue => rfl
  case isFalse hn =>
    have hcount := h.count
    have hempty : d.slots.filterMap id = [] := List.eq_nil_of_length_eq_zero (by omega)
    rcases h.find key with ⟨before, e, behind, hsplit, _, _⟩ | ⟨hfind, _⟩
    · have hmem : e ∈ d.slots.filterMap id := (entries_perm hsplit).mem_iff.2 List.mem_cons_self
      rw [hempty] at hmem
      cases hmem
    · exact hfind.symm

theorem set_fits (h : d.Holds m) (key : Str) (value : Option Str)
    (hfits : DicCall.Fits d (.set (some key) value)) :
    ∃ d', tableSet d (some key) value = some (d', 0) ∧ d'.Holds (m.insert key value) := by
  rw [tableSet, h.search]
  rcases h.find key with ⟨before, e, behind, hsplit, rfl, hfind⟩ | ⟨hfind, hkey⟩
  · have hat : d.slots[before.length]? = some (some e) := by
      rw [hsplit, List.getElem?_append_right (Nat.le_refl _), Nat.sub_self]
      rfl
    refine ⟨_, ?_, h.replace hsplit value⟩
    simp only [hfind, Option.bind_some, hat, Option.join_some, Option.map_some]
  · rw [hfind, Option.bind_some]
    by_cases hfull : d.n = d.size
    · obtain ⟨_, hfew⟩ : 0 < d.size ∧ 2 * d.size < 2147483648 :=
        (hfits.resolve_left hkey).resolve_left fun hno => hno hfull
      obtain ⟨hgrow, hn, hsize⟩ := h.grow hfew
      have habsent : key ∉ d.grow.keys := by
        rw [Table.keys, h.grow_entries]
        exact hkey
      obtain ⟨d', hrun, hd', _, _⟩ := hgrow.insert (by omega) habsent value
      exact ⟨d', by simp only [if_pos hfull, hrun, Option.map_some], hd'⟩
    · have hle := h.room
      obtain ⟨d', hrun, hd', _, _⟩ := h.insert (by omega) hkey value
      exact ⟨d', by simp only [if_neg hfull, hrun, Option.map_some], hd'⟩

/-- A full table that cannot double has no free slot, or fewer slots than entries behind it. -/
theorem set_overflow (h : d.Holds m) (hfits : ¬ DicCall.Fits d (.set (some key) value))
    (hrun : tableSet d (some key) value = some r) : ¬ r.1.Shows m' := by
  obtain ⟨hkey, hrest⟩ := not_or.1 hfits
  obtain ⟨hfull, hmany⟩ := not_or.1 hrest
  have hsize := h.size_nonneg
  have hlt := h.size_lt
  have heq : d.n = d.size := Classical.not_not.1 hfull
  rw [tableSet, h.search] at hrun
  rcases h.find key with ⟨before, e, behind, hsplit, rfl, _⟩ | ⟨hfind, _⟩
  · have hmem : e ∈ d.slots.filterMap id := (entries_perm hsplit).mem_iff.2 List.mem_cons_self
    exact (hkey (List.mem_map_of_mem hmem)).elim
  · rw [hfind, Option.bind_some] at hrun
    simp only [if_pos heq] at hrun
    obtain ⟨d', hinsert, rfl⟩ := Option.map_eq_some_iff.1 hrun
    obtain ⟨i, hfree, rfl⟩ := Option.map_eq_some_iff.1 hinsert
    intro hshows
    have hroom : d.n + 1 ≤ (2 * d.size).bmod 4294967296 := hshows.room
    by_cases hzero : d.size = 0
    · have hslots : d.grow.slots = [] := by
        rw [Table.grow, hzero]
        rfl
      have hnone : freeIndex [] d.grow.size (d.grow.size.toNat + 1) d.grow.n = none := by
        rw [freeIndex, List.getElem?_nil, ite_self]
        rfl
      rw [hslots, hnone] at hfree
      cases hfree
    · rw [Int.bmod_def] at hroom
      omega

theorem unset (h : d.Holds m) (key : Str) :
    ∃ d', tableUnset d (some key) = some d' ∧ d'.Holds (m.erase key) := by
  rw [tableUnset]
  rcases h.find key with ⟨before, e, behind, hsplit, rfl, hfind⟩ | ⟨hfind, hkey⟩
  · exact ⟨_, by rw [hfind]; rfl, h.remove hsplit⟩
  · refine ⟨d, by rw [hfind]; rfl, ?_⟩
    have hmem : key ∉ m := Finmap.lookup_eq_none.1 (h.lookup_none hkey)
    rw [erase_of_notMem hmem]
    exact h

theorem step (h : d.Holds m) (call : DicCall) (hfits : call.Fits d) :
    ∃ d', d.step call = some (d', (dicSpec m call).2) ∧ d'.Holds (dicSpec m call).1 := by
  cases call with
  | set key value =>
    cases key with
    | none => exact ⟨d, rfl, h⟩
    | some key =>
      obtain ⟨d', hrun, hd'⟩ := h.set_fits key value hfits
      exact ⟨d', by rw [Table.step, hrun]; rfl, hd'⟩
  | unset key =>
    cases key with
    | none => exact ⟨d, rfl, h⟩
    | some key =>
      obtain ⟨d', hrun, hd'⟩ := h.unset key
      exact ⟨d', by rw [Table.step, hrun]; rfl, hd'⟩

theorem step_overflow (h : d.Holds m) (call : DicCall) (hfits : ¬ call.Fits d)
    (hrun : d.step call = some (d', answer)) : ¬ d'.Shows m' := by
  cases call with
  | set key value =>
    cases key with
    | none => exact (hfits trivial).elim
    | some key =>
      obtain ⟨r, hset, hr⟩ := Option.map_eq_some_iff.1 hrun
      cases hr
      exact h.set_overflow hfits hset
  | unset key => exact (hfits trivial).elim

theorem new {size : Nat} (h : 0 ≤ (tableNew size).size) : (tableNew size).Holds ∅ where
  size_nonneg := h
  size_le := by
    rw [tableNew, List.length_replicate]
    exact toInt_le _
  size_lt := toInt_lt _
  inside := by
    intro i e hi
    cases List.eq_of_mem_replicate (List.mem_of_getElem? hi)
  hash_eq := by
    rw [tableNew, List.filterMap_replicate_of_none rfl]
    exact fun e he => nomatch he
  binds := by
    rw [tableNew, List.filterMap_replicate_of_none rfl]
    exact binds_empty _ _
  count := by
    rw [tableNew, List.filterMap_replicate_of_none rfl]
    rfl

theorem follows_iff (h : d.Holds m) (calls : List DicCall) :
    Follows Table.step dicSpec Table.Shows d m calls ↔ Admits Table.step DicCall.Fits d calls := by
  have hall : Admits Table.step (fun _ _ => True) d calls := by
    apply admits_of_forall (p := fun _ => True)
    exact fun _ _ => trivial
  refine follows_iff_admits ?_ ?_ ?_ h hall
  · exact fun d m h => h.shows
  · exact fun d m call h _ hfits => h.step call hfits
  · exact fun d m call h _ hfits d' hrun => h.step_overflow call hfits hrun

end Table.Holds

/-- A dictionary is the finite map of its sets and unsets as long as its size is an `int`. -/
theorem string_dic_follows_iff (size : Nat) (calls : List DicCall) :
    Follows Table.step dicSpec Table.Shows (tableNew size) ∅ calls ↔
      0 ≤ toInt (max size STR_DICT_MIN_SIZE) ∧
        Admits Table.step DicCall.Fits (tableNew size) calls := by
  constructor
  · intro hfollows
    have hsize : 0 ≤ (tableNew size).size := hfollows.head.room
    exact ⟨hsize, ((Table.Holds.new hsize).follows_iff calls).1 hfollows⟩
  · rintro ⟨hsize, hadmits⟩
    exact ((Table.Holds.new hsize).follows_iff calls).2 hadmits

/-- A dictionary made for 2^31 entries has a negative size. -/
theorem not_string_dic_follows : ¬ ∀ (size : Nat) (calls : List DicCall),
    size < 18446744073709551616 →
      Follows Table.step dicSpec Table.Shows (tableNew size) ∅ calls := by
  intro h
  have hsize : 0 ≤ toInt (max 2147483648 STR_DICT_MIN_SIZE) :=
    (h 2147483648 [] (by decide)).head.room
  have hnegative : toInt (max 2147483648 STR_DICT_MIN_SIZE) = 2147483648 - 4294967296 :=
    toInt_of_le (by decide) (by decide)
  rw [hnegative] at hsize
  exact absurd hsize (by decide)

end BigBox.StringDic
