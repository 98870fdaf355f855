import BigBox.Ini.StringDicTable
import BigBox.Lib.Block
import BigBox.Lib.TryRun

namespace BigBox.StringDic
set_option autoImplicit true

/-- The outcomes of the allocations that were made, and what is returned, if nothing crashes. -/
structure Traced (α : Type) where
  outcomes : List Bool
  result : Option α

instance : Monad Traced where
  pure a := ⟨[], some a⟩
  bind t f :=
    match t.result with
    | none => ⟨t.outcomes, none⟩
    | some a => ⟨t.outcomes ++ (f a).outcomes, (f a).result⟩

def Traced.lift (o : Option α) : Traced α := ⟨[], o⟩

/-- A `string_dic_t` with its three arrays. The empty array stands for `NULL`. -/
structure DicT where
  n : Int
  size : Int
  val : List (Option Str)
  key : List (Option Str)
  hash : List UInt32

/-- Which allocations of a call succeed: those of the arrays, and the two copies. -/
structure Allocs where
  val : Bool
  key : Bool
  hash : Bool
  copyKey : Bool
  copyVal : Bool

def Allocs.Arrays (a : Allocs) : Prop := a.val = true ∧ a.key = true ∧ a.hash = true

instance (a : Allocs) : Decidable a.Arrays := inferInstanceAs (Decidable (_ ∧ _))

def calloc (ok : Bool) (zero : α) (size : Nat) : List α :=
  if ok then List.replicate size zero else []

def xstrdup (ok : Bool) : Option Str → Traced (Option Str)
  | none => pure none
  | some s => ⟨[ok], some (if ok then some s else none)⟩

/-- The old array is read up to `size`. -/
def memDoubleAlloc (ok : Bool) (ptr : List α) (zero : α) (size : Nat) : Traced (List α) :=
  ⟨[ok], if ok then (Block.read ptr 0 size).map (· ++ List.replicate size zero) else some []⟩

/-- A write outside an array crashes. -/
def store (array : List α) (i : Nat) (a : α) : Option (List α) :=
  if i < array.length then some (array.set i a) else none

/-- `string_dic_new`, which does not look at the arrays it allocates. -/
def dicNew (a : Allocs) (size : Nat) : DicT :=
  let size := max size STR_DICT_MIN_SIZE
  ⟨0, toInt size, calloc a.val none size, calloc a.key none size, calloc a.hash 0 size⟩

/-- The loop over the slots from `i` on. A read outside an array crashes. -/
def DicT.findFrom (d : DicT) (key : Str) : Nat → Nat → Option (Option Nat)
  | 0, _ => some none
  | k + 1, i => d.key[i]?.bind fun stored =>
    match stored with
    | none => d.findFrom key k (i + 1)
    | some stored => d.hash[i]?.bind fun hash =>
      if stringDicHash key = hash ∧ key = stored then some (some i) else d.findFrom key k (i + 1)

def DicT.find (d : DicT) (key : Str) : Option (Option Nat) := d.findFrom key d.size.toNat 0

def DicT.get (d : DicT) (key : Str) (dflt : Option Str) : Option (Option Str) :=
  (d.find key).bind fun found =>
    match found with
    | some i => d.val[i]?
    | none => some dflt

/-- The search for a free slot, with a bound on its rounds. -/
def freeFrom (key : List (Option Str)) (size : Int) : Nat → Int → Option Nat
  | 0, _ => none
  | fuel + 1, i => (if 0 ≤ i then key[i.toNat]? else none).bind fun stored =>
    if stored.isSome then freeFrom key size fuel (if i + 1 = size then 0 else i + 1)
    else some i.toNat

def DicT.insert (d : DicT) (a : Allocs) (key : Str) (value : Option Str) :
    Traced (DicT × Int) := do
  let i ← Traced.lift (freeFrom d.key d.size (d.size.toNat + 1) d.n)
  let copyKey ← xstrdup a.copyKey (some key)
  let copyVal ← xstrdup a.copyVal value
  let val ← Traced.lift (store d.val i copyVal)
  let hash ← Traced.lift (store d.hash i (stringDicHash key))
  return ({ d with n := d.n + 1, val, key := d.key.set i copyKey, hash }, 0)

/-- The size is doubled once the arrays have grown. -/
def DicT.doubled (d : DicT) : DicT := { d with size := (2 * d.size).bmod 4294967296 }

/-- `string_dic_set` -/
def DicT.set (d : DicT) (a : Allocs) (key value : Option Str) : Traced (DicT × Int) :=
  match key with
  | none => return (d, -1)
  | some key => do
    let found ← Traced.lift (if 0 < d.n then d.find key else some none)
    match found with
    | some i =>
      let _ ← Traced.lift d.val[i]?
      let copyVal ← xstrdup a.copyVal value
      return ({ d with val := d.val.set i copyVal }, 0)
    | none =>
      if d.n = d.size then
        let val ← memDoubleAlloc a.val d.val none d.size.toNat
        let key' ← memDoubleAlloc a.key d.key none d.size.toNat
        let hash ← memDoubleAlloc a.hash d.hash 0 d.size.toNat
        let d := { d with val, key := key', hash }
        if a.Arrays then d.doubled.insert a key value
        else return (d, -1)
      else d.insert a key value

/-- `string_dic_unset` -/
def DicT.unset (d : DicT) (key : Option Str) : Option DicT :=
  match key with
  | none => some d
  | some key => (d.find key).bind fun found =>
    match found with
    | some i =>
      (store d.val i none).bind fun val =>
        (store d.hash i 0).map fun hash =>
          { d with n := d.n - 1, val, key := d.key.set i none, hash }
    | none => some d

def DicT.step (d : DicT) (a : Allocs) : DicCall → Option DicT
  | .set key value => (d.set a key value).result.map Prod.fst
  | .unset key => d.unset key

/-- The dictionaries that calls lead to, whichever allocations fail. -/
def Made : DicT → Prop :=
  Reachable (fun d => ∃ a size, d = dicNew a size) fun d d' => ∃ a call, d.step a call = some d'

/-- The keys that stand in the slots. -/
def DicT.stored (d : DicT) : Nat := (d.key.take d.size.toNat).countP Option.isSome

/-- The call returns an error, every key has its value still, and the counter is right. -/
def FailsSafely (d : DicT) (a : Allocs) (key value : Option Str) : Prop :=
  ∃ d' ret, (d.set a key value).result = some (d', ret) ∧ ret ≠ 0 ∧
    (∀ key dflt, ∃ v, d.get key dflt = some v ∧ d'.get key dflt = some v) ∧ d'.n = d'.stored

/-- A hash value belongs to the key of its slot. -/
def DicT.Hashed (d : DicT) : Prop :=
  ∀ (i : Nat) (key : Str) (hash : UInt32), d.key[i]? = some (some key) → d.hash[i]? = some hash →
    hash = stringDicHash key

/-- The arrays after growth, some of which may be missing. -/
structure Grown (d : DicT) (a : Allocs) (g : DicT) : Prop where
  counters : g.n = d.n ∧ g.size = d.size
  val : (memDoubleAlloc a.val d.val none d.size.toNat).result = some g.val
  key : (memDoubleAlloc a.key d.key none d.size.toNat).result = some g.key
  hash : (memDoubleAlloc a.hash d.hash 0 d.size.toNat).result = some g.hash

/-- What `string_dic_set` does to the dictionary and what it returns. -/
inductive Sets (d : DicT) (a : Allocs) (key : Str) (value : Option Str) : DicT → Int → Prop
  | replaced (h : d.find key = some (some i)) (val : List (Option Str)) :
    Sets d a key value { d with val } 0
  | inserted (hfull : d.n ≠ d.size) (h : (d.insert a key value).result = some (t, ret)) :
    Sets d a key value t ret
  | grown (hfull : d.n = d.size) (hgrown : Grown d a g) (harrays : a.Arrays)
    (h : (g.doubled.insert a key value).result = some (t, ret)) : Sets d a key value t ret
  | failed (hfull : d.n = d.size) (hgrown : Grown d a g) (harrays : ¬ a.Arrays) :
    Sets d a key value g (-1)

section Traced
variable {d d' : DicT} {a : Allocs} {key : Str} {value : Option Str}

theorem Traced.result_bind (t : Traced α) (f : α → Traced β) :
    (t >>= f).result = t.result.bind fun a => (f a).result := by
  cases h : t.result with
  | none =>
    simp only [bind, h]
    rfl
  | some a =>
    simp only [bind, h]
    rfl

theorem Traced.result_lift (o : Option α) : (Traced.lift o).result = o := rfl

theorem Traced.result_pure (a : α) : (pure a : Traced α).result = some a := rfl

theorem xstrdup_result (ok : Bool) (s : Option Str) :
    (xstrdup ok s).result = some (if ok then s else none) := by
  cases s with
  | none => exact congrArg some (ite_self none).symm
  | some s => rfl

theorem store_eq_some {array : List α} {x : α} (h : store array i x = some array') :
    i < array.length ∧ array' = array.set i x := by
  rw [store] at h
  split at h
  · next hlt =>
    cases h
    exact ⟨hlt, rfl⟩
  · cases h

/-- A slot is filled, or its key is lost. -/
theorem insert_result (h : (d.insert a key value).result = some (d', ret)) :
    ret = 0 ∧ ∃ i val, d' = { d with
      n := d.n + 1, val, key := d.key.set i (if a.copyKey then some key else none)
      hash := d.hash.set i (stringDicHash key) } := by
  simp only [DicT.insert, Traced.result_bind, Traced.result_lift, Traced.result_pure,
    xstrdup_result, Option.bind_some] at h
  obtain ⟨i, _, h⟩ := Option.bind_eq_some_iff.1 h
  obtain ⟨val, _, h⟩ := Option.bind_eq_some_iff.1 h
  obtain ⟨hash, hhash, h⟩ := Option.bind_eq_some_iff.1 h
  obtain ⟨_, rfl⟩ := store_eq_some hhash
  cases h
  exact ⟨rfl, i, val, rfl⟩

theorem memDoubleAlloc_result (ok : Bool) (ptr : List α) (zero : α) (size : Nat)
    (h : (memDoubleAlloc ok ptr zero size).result = some ptr') :
    ok = true ∧ size ≤ ptr.length ∧ ptr' = ptr.take size ++ List.replicate size zero ∨
      ok = false ∧ ptr' = [] := by
  rw [memDoubleAlloc] at h
  cases ok with
  | false =>
    cases h
    exact .inr ⟨rfl, rfl⟩
  | true =>
    obtain ⟨front, hread, rfl⟩ := Option.map_eq_some_iff.1 h
    rw [Block.read] at hread
    split at hread
    · next hle =>
      cases hread
      rw [Nat.zero_add] at hle
      exact .inl ⟨rfl, hle, by rw [List.drop_zero]⟩
    · cases hread

theorem sets_of_result (h : (d.set a (some key) value).result = some (d', ret)) :
    Sets d a key value d' ret := by
  simp only [DicT.set, Traced.result_bind, Traced.result_lift] at h
  obtain ⟨found, hfound, h⟩ := Option.bind_eq_some_iff.1 h
  cases found with
  | some i =>
    have hfind : d.find key = some (some i) := by
      split at hfound
      · exact hfound
      · cases hfound
    simp only [Traced.result_bind, Traced.result_lift, Traced.result_pure, xstrdup_result] at h
    obtain ⟨_, _, h⟩ := Option.bind_eq_some_iff.1 h
    cases h
    exact .replaced hfind _
  | none =>
    dsimp only at h
    by_cases hfull : d.n = d.size
    · rw [if_pos hfull] at h
      simp only [Traced.result_bind] at h
      obtain ⟨val, hval, h⟩ := Option.bind_eq_some_iff.1 h
      obtain ⟨key', hkey, h⟩ := Option.bind_eq_some_iff.1 h
      obtain ⟨hash, hhash, h⟩ := Option.bind_eq_some_iff.1 h
      have hgrown : Grown d a { d with val, key := key', hash } := ⟨⟨rfl, rfl⟩, hval, hkey, hhash⟩
      by_cases harrays : a.Arrays
      · rw [if_pos harrays] at h
        exact .grown hfull hgrown harrays h
      · rw [if_neg harrays] at h
        cases h
        exact .failed hfull hgrown harrays
    · rw [if_neg hfull] at h
      exact .inserted hfull h

end Traced

section Hashed
variable {d d' g : DicT} {a : Allocs} {key : Str} {value : Option Str}

/-- A slot that gets a key gets its hash value, whatever value the slots that lose theirs get. -/
theorem DicT.Hashed.set_slot {t : DicT} (h : d.Hashed) {c : Option Str} {x : UInt32}
    (hc : ∀ key, c = some key → x = stringDicHash key) (hkey : t.key = d.key.set i c)
    (hhash : t.hash = d.hash.set i x) : t.Hashed := by
  intro j k y hk hy
  rw [hkey, List.getElem?_set] at hk
  rw [hhash, List.getElem?_set] at hy
  split at hk
  · next heq =>
    rw [if_pos heq] at hy
    split at hk
    · cases hk
      split at hy
      · cases hy
        exact hc k rfl
      · cases hy
    · cases hk
  · next hne =>
    rw [if_neg hne] at hy
    exact h j k y hk hy

theorem DicT.Hashed.insert (h : d.Hashed) (hd' : (d.insert a key value).result = some (d', ret)) :
    d'.Hashed := by
  obtain ⟨_, i, val, rfl⟩ := insert_result hd'
  refine h.set_slot ?_ rfl rfl
  intro k hk
  split at hk
  · cases hk
    rfl
  · cases hk

theorem getElem?_doubled {front : List α} {zero x : α} (hle : size ≤ front.length)
    (h : (front.take size ++ List.replicate size zero)[i]? = some x) (hne : x ≠ zero) :
    i < size ∧ front[i]? = some x := by
  have hlength : (front.take size).length = size := List.length_take_of_le hle
  obtain hlt | hge := Nat.lt_or_ge i size
  · rw [List.getElem?_append_left (by rwa [hlength]), List.getElem?_take_of_lt hlt] at h
    exact ⟨hlt, h⟩
  · rw [List.getElem?_append_right (by rwa [hlength])] at h
    exact absurd (List.eq_of_mem_replicate (List.mem_of_getElem? h)) hne

theorem DicT.Hashed.grown (h : d.Hashed) (hgrown : Grown d a g) : g.Hashed := by
  intro i k y hk hy
  obtain ⟨_, hle, hkey⟩ | ⟨_, hkey⟩ := memDoubleAlloc_result _ _ _ _ hgrown.key
  · obtain ⟨_, hle', hhash⟩ | ⟨_, hhash⟩ := memDoubleAlloc_result _ _ _ _ hgrown.hash
    · rw [hkey] at hk
      obtain ⟨hlt, hk⟩ := getElem?_doubled hle hk nofun
      rw [hhash, List.getElem?_append_left (by rwa [List.length_take_of_le hle']),
        List.getElem?_take_of_lt hlt] at hy
      exact h i k y hk hy
    · rw [hhash] at hy
      cases hy
  · rw [hkey] at hk
    cases hk

theorem DicT.Hashed.doubled (h : g.Hashed) : g.doubled.Hashed := h

theorem DicT.Hashed.sets (h : d.Hashed) (hd' : Sets d a key value d' ret) : d'.Hashed := by
  cases hd' with
  | replaced _ val => exact h
  | inserted _ hd' => exact h.insert hd'
  | grown _ hgrown _ hd' =>
    exact (h.grown hgrown).doubled.insert hd'
  | failed _ hgrown _ => exact h.grown hgrown

theorem DicT.Hashed.unset (h : d.Hashed) (key : Option Str) (hd' : d.unset key = some d') :
    d'.Hashed := by
  cases key with
  | none =>
    cases hd'
    exact h
  | some key =>
    obtain ⟨found, _, hd'⟩ := Option.bind_eq_some_iff.1 hd'
    cases found with
    | none =>
      cases hd'
      exact h
    | some i =>
      obtain ⟨val, _, hd'⟩ := Option.bind_eq_some_iff.1 hd'
      obtain ⟨hash, hhash, rfl⟩ := Option.map_eq_some_iff.1 hd'
      refine h.set_slot ?_ rfl (store_eq_some hhash).2
      exact fun _ hnone => nomatch hnone

theorem hashed_new (a : Allocs) (size : Nat) : (dicNew a size).Hashed := by
  intro i k y hk _
  rw [dicNew] at hk
  dsimp only [calloc] at hk
  split at hk
  · cases List.eq_of_mem_replicate (List.mem_of_getElem? hk)
  · cases hk

theorem Made.hashed (h : Made d) : d.Hashed := by
  apply h.invariant
  · rintro d ⟨a, size, rfl⟩
    exact hashed_new a size
  · rintro d d' hd ⟨a, call, hstep⟩
    cases call with
    | set key value =>
      obtain ⟨⟨_, ret⟩, hresult, rfl⟩ := Option.map_eq_some_iff.1 hstep
      cases key with
      | none =>
        cases hresult
        exact hd
      | some key => exact hd.sets (sets_of_result hresult)
    | unset key => exact hd.unset key hstep

/-- No slot is looked at. -/
theorem get_of_size (h : d.size ≤ 0) (key : Str) (dflt : Option Str) :
    d.get key dflt = some dflt := by
  rw [DicT.get, DicT.find, Int.toNat_of_nonpos h]
  rfl

/-- The first key that stands in a slot is found, where it can be. -/
theorem get_first (h : d.Hashed) (hpos : 0 < d.size) (hkey : d.key[0]? = some (some key))
    (dflt : Option Str) (hget : d.get key dflt = some v) : d.hash ≠ [] ∧ d.val ≠ [] := by
  obtain ⟨k, hk⟩ : ∃ k, d.size.toNat = k + 1 := ⟨d.size.toNat - 1, by omega⟩
  rw [DicT.get, DicT.find, hk, DicT.findFrom, hkey, Option.bind_some] at hget
  dsimp only at hget
  cases hhash : d.hash[0]? with
  | none =>
    rw [hhash] at hget
    cases hget
  | some x =>
    have hx := h 0 key x hkey hhash
    rw [hhash, Option.bind_some, if_pos ⟨hx.symm, rfl⟩, Option.bind_some] at hget
    refine ⟨?_, ?_⟩
    · intro hnil
      rw [hnil] at hhash
      cases hhash
    · intro hnil
      rw [hnil] at hget
      cases hget

theorem exists_first {keys : List (Option Str)} {size : Int}
    (h : size = (keys.take size.toNat).countP Option.isSome) (hpos : 0 < size) :
    ∃ key, keys[0]? = some (some key) := by
  have hle : (keys.take size.toNat).length ≤ size.toNat := List.length_take_le _ _
  have hcount : (keys.take size.toNat).countP Option.isSome ≤ (keys.take size.toNat).length :=
    List.countP_le_length
  have hall := List.countP_eq_length.1 (show (keys.take size.toNat).countP Option.isSome =
    (keys.take size.toNat).length by omega)
  cases keys with
  | nil =>
    rw [List.take_nil, List.countP_nil] at h
    omega
  | cons key keys =>
    obtain ⟨k, hk⟩ : ∃ k, size.toNat = k + 1 := ⟨size.toNat - 1, by omega⟩
    have hsome := hall key (by rw [hk, List.take_succ_cons]; exact List.mem_cons_self)
    obtain ⟨key, rfl⟩ := Option.isSome_iff_exists.1 hsome
    exact ⟨key, rfl⟩

/-- A failure of growth is safe only where there is nothing to lose. -/
theorem Grown.safe_iff (h : d.Hashed) (hgrown : Grown d a g) (hfull : d.n = d.size)
    (harrays : ¬ a.Arrays) :
    (∀ key dflt, ∃ v, d.get key dflt = some v ∧ g.get key dflt = some v) ∧ g.n = g.stored ↔
      d.size = 0 := by
  obtain ⟨hn, hsize⟩ := hgrown.counters
  constructor
  · rintro ⟨hget, hcount⟩
    by_contra hne
    rw [hn, hfull] at hcount
    have hpos : 0 < d.size := by omega
    have hsome : ∃ key, g.key[0]? = some (some key) := by
      apply exists_first
      · rwa [DicT.stored, hsize] at hcount
      · exact hpos
    obtain ⟨key, hkey⟩ := hsome
    obtain ⟨v, _, hv⟩ := hget key none
    obtain ⟨hhash, hval⟩ := get_first (h.grown hgrown) (hsize ▸ hpos) hkey none hv
    obtain ⟨hok, _⟩ | ⟨_, hnil⟩ := memDoubleAlloc_result _ _ _ _ hgrown.val
    · obtain ⟨hok', _⟩ | ⟨_, hnil⟩ := memDoubleAlloc_result _ _ _ _ hgrown.key
      · obtain ⟨hok'', _⟩ | ⟨_, hnil⟩ := memDoubleAlloc_result _ _ _ _ hgrown.hash
        · exact harrays ⟨hok, hok', hok''⟩
        · exact hhash hnil
      · rw [hnil] at hkey
        cases hkey
    · exact hval hnil
  · intro hzero
    have hempty : d.size ≤ 0 := Int.le_of_eq hzero
    refine ⟨fun key dflt => ⟨dflt, get_of_size hempty key dflt,
      get_of_size (hsize ▸ hempty) key dflt⟩, ?_⟩
    rw [hn, hfull, DicT.stored, hsize, hzero]
    rfl

theorem memDoubleAlloc_zero (ok : Bool) (ptr : List α) (zero : α) :
    (memDoubleAlloc ok ptr zero 0).result = some [] := by
  rw [memDoubleAlloc]
  cases ok with
  | false => rfl
  | true =>
    rw [Block.read, if_pos (Nat.zero_le _)]
    rfl

/-- Where an allocation fails, the call is safe only if the dictionary has no slots. -/
theorem failsSafely_iff (h : Made d) (key : Option Str)
    (hfail : false ∈ (d.set a key value).outcomes) :
    FailsSafely d a key value ↔ d.n = 0 ∧ d.size = 0 ∧ ¬ a.Arrays := by
  cases key with
  | none => cases hfail
  | some key =>
    constructor
    · rintro ⟨d', ret, hresult, hret, hsafe⟩
      cases sets_of_result hresult with
      | replaced => exact absurd rfl hret
      | inserted _ hinsert => exact absurd (insert_result hinsert).1 hret
      | grown _ _ _ hinsert => exact absurd (insert_result hinsert).1 hret
      | failed hfull hgrown harrays =>
        have hzero := (hgrown.safe_iff h.hashed hfull harrays).1 hsafe
        exact ⟨hfull.trans hzero, hzero, harrays⟩
    · rintro ⟨hn, hsize, harrays⟩
      have hgrown : Grown d a { d with val := [], key := [], hash := [] } := by
        refine ⟨⟨rfl, rfl⟩, ?_, ?_, ?_⟩
        · rw [hsize]
          exact memDoubleAlloc_zero _ _ _
        · rw [hsize]
          exact memDoubleAlloc_zero _ _ _
        · rw [hsize]
          exact memDoubleAlloc_zero _ _ _
      have hfull : d.n = d.size := hn.trans hsize.symm
      refine ⟨_, -1, ?_, by decide, (hgrown.safe_iff h.hashed hfull harrays).2 hsize⟩
      have hskip : ¬ 0 < d.n := by omega
      simp only [DicT.set, Traced.result_bind, Traced.result_lift, if_neg hskip, Option.bind_some,
        if_pos hfull, hgrown.val, hgrown.key, hgrown.hash, if_neg harrays]
      rfl

/-- Every allocation succeeds but the copy of the key. -/
def noKey : Allocs := ⟨true, true, true, false, true⟩

theorem dicNew_eq : dicNew noKey 0 =
    ⟨0, 128, List.replicate 128 none, List.replicate 128 none, List.replicate 128 0⟩ := by
  have hsize : toInt (max 0 STR_DICT_MIN_SIZE) = 128 := toInt_of_lt (by decide)
  rw [dicNew, hsize]
  rfl

theorem noKey_fails : false ∈ ((dicNew noKey 0).set noKey (some [97]) none).outcomes := by
  rw [dicNew_eq]
  decide

theorem failsSafely_iff_new : ¬ FailsSafely (dicNew noKey 0) noKey (some [97]) none := by
  intro h
  have hempty := (failsSafely_iff (.init ⟨noKey, 0, rfl⟩) _ noKey_fails).1 h
  rw [dicNew_eq] at hempty
  exact absurd hempty.2.1 (by decide)

/-- The key is lost, and the call returns 0. -/
theorem not_failsSafely : ¬ ∀ d a key value, Made d → false ∈ (d.set a key value).outcomes →
    FailsSafely d a key value := by
  intro h
  obtain ⟨d', ret, hresult, hret, _⟩ := h _ _ _ _ (.init ⟨noKey, 0, rfl⟩) noKey_fails
  cases sets_of_result hresult with
  | replaced => exact hret rfl
  | inserted _ hinsert => exact hret (insert_result hinsert).1
  | grown _ _ _ hinsert => exact hret (insert_result hinsert).1
  | failed hfull _ _ =>
    rw [dicNew_eq] at hfull
    exact absurd hfull (by decide)

end Hashed

end BigBox.StringDic
