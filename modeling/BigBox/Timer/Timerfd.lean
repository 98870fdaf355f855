import BigBox.Lib.Decimal
import BigBox.Lib.Epoll
import BigBox.Timer.TimerfdHash
import BigBox.Timer.TimerfdHashCalls

namespace BigBox.Timer
open Buckets
set_option autoImplicit true

/-- The address of a `timerfd_t`. -/
abbrev Tm := Nat

/-- A `timerfd_t` with the field that the table of timers is about. -/
structure Timerfd where
  tm : Tm
  mTimerid : Int32

/-- `char` is signed. -/
def hashOpsString (aString : Text) : UInt32 :=
  aString.1.foldl (fun h c => c.toInt8.toInt32.toUInt32 + 31 * h) 0

/-- The duplicate in memory that held the bytes `held`. There is room for the bytes of the key
only, and no zero is written behind them. -/
def hashKeyDup (held : List UInt8) (key : Option Text) : Option Text :=
  key.map fun key => textOf (key.1 ++ held.drop key.1.length)

def strcmpKeys (a b : Option Text) : Int := strcmp (a.getD (textOf [])) (b.getD (textOf []))

/-- `tmap_hash_ops`, with what the memory of the next duplicate holds. -/
def tmapHashOps (held : List UInt8) : HashOps Text Tm where
  hash key := hashOpsString (key.getD (textOf []))
  compare := strcmpKeys
  keyDup := some (hashKeyDup held)
  dataDup := none

/-- `mHash` of a `timermap_t`. -/
abbrev Timermap := HashTable Text Tm

def createTimermap (memory : Timermap) : Option Timermap := hashNew memory 0 (tmapHashOps [])

/-- `num` behind `sprintf(num, "%d", fd)`. -/
def num (fd : Int32) : Text := ⟨decimalInt fd.toInt, zero_not_mem_decimalInt fd.toInt⟩

/-- `ctl` is what `epoll_ctl` returns. The entry is that of `hash_add`. -/
def addTimer (g : Timermap) (a : Allocator) (grow : Bool) (held : List UInt8) (ctl : Int)
    (tm : Timerfd) : Option (Timermap × Option Iter × Int) := do
  let (g, iter) ← hashAdd { g with ops := tmapHashOps held } a grow (num tm.mTimerid) (some tm.tm)
  return (g, iter, ctl)

def delTimer (g : Timermap) (tm : Timerfd) : Option (Timermap × Int) := do
  let g ← hashDel g (num tm.mTimerid)
  return (g, -1)

/-- A round of the loop of `timermap_listen` over the events, with the timer it executes. -/
def listenEvent (g : Timermap) (events : UInt32) (fd : Int32) : Option (Option Tm) :=
  if events &&& epollIn ≠ 0 then do
    match ← hashLookup g (num fd) with
    | some p => return g.data p
    | none => return none
  else some none

/-- `grow` tells whether there is memory for a larger table. -/
inductive TimerCall where
  | addTimer (a : Allocator) (grow : Bool) (held : List UInt8) (ctl : Int) (tm : Timerfd)
  | delTimer (tm : Timerfd)
  | listenEvent (events : UInt32) (fd : Int32)

/-- The timer a descriptor was last added with, and the entry it was registered in, while it is not
deleted. -/
abbrev Registered := Int32 → Option (Iter × Tm)

structure TimerAnswer where
  result : Int
  exec : Option Tm
  deriving DecidableEq, Repr

def timerStep (s : Timermap × Registered) :
    TimerCall → Option ((Timermap × Registered) × TimerAnswer)
  | .addTimer a grow held ctl tm =>
    (addTimer s.1 a grow held ctl tm).map fun (g, iter, result) =>
      ((g, Function.update s.2 tm.mTimerid (iter.map fun p => (p, tm.tm))), ⟨result, none⟩)
  | .delTimer tm =>
    (delTimer s.1 tm).map fun (g, result) =>
      ((g, Function.update s.2 tm.mTimerid none), ⟨result, none⟩)
  | .listenEvent events fd => (listenEvent s.1 events fd).map fun exec => (s, ⟨0, exec⟩)

section Operations
variable {K D : Type} {ops ops' : HashOps K D} {t : HashTable K D}

/-- Operations that differ in the duplicates of keys only. -/
structure HashOps.Agrees (ops ops' : HashOps K D) : Prop where
  hash : ops.hash = ops'.hash
  compare : ops.compare = ops'.compare
  dataDup : ops.dataDup = ops'.dataDup

theorem find_agrees (h : ops.Agrees t.ops) (key : Option K) :
    HashTable.find { t with ops } key = t.find key := by
  rw [HashTable.find, HashTable.find]
  simp only [h.hash, h.compare]

theorem growIfFull_ops (t : HashTable K D) (ops : HashOps K D) (grow : Bool) :
    growIfFull { t with ops } grow = (growIfFull t grow).map fun t => { t with ops } := by
  rw [growIfFull, growIfFull]
  split
  case isFalse => rfl
  case isTrue =>
    rw [rehash, rehash]
    split
    case isTrue => rfl
    case isFalse =>
      simp only [Option.bind_eq_bind, Option.map_bind]
      rfl

theorem growIfFull_keeps (h : growIfFull t grow = some t') : t'.key = t.key ∧ t'.ops = t.ops := by
  rw [growIfFull, rehash] at h
  split at h
  case isFalse =>
    cases h
    exact ⟨rfl, rfl⟩
  case isTrue =>
    split at h
    case isTrue =>
      cases h
      exact ⟨rfl, rfl⟩
    case isFalse =>
      obtain ⟨links, _, hret⟩ := Option.bind_eq_some_iff.1 h
      cases hret
      exact ⟨rfl, rfl⟩

theorem hashIterDel_ops (t : HashTable K D) (ops : HashOps K D) (p : Iter) :
    hashIterDel { t with ops } p = (hashIterDel t p).map fun t => { t with ops } := by
  rw [hashIterDel, hashIterDel]
  dsimp only
  split
  case isTrue => rfl
  case isFalse =>
    simp only [Option.bind_eq_bind, Option.map_bind]
    rfl

theorem hashDel_agrees (h : ops.Agrees t.ops) (key : Option K) :
    hashDel { t with ops } key = (hashDel t key).map fun t => { t with ops } := by
  rw [hashDel, hashDel, find_agrees h]
  cases t.find key with
  | none => rfl
  | some iter =>
    cases iter with
    | none => rfl
    | some p => exact hashIterDel_ops t ops p

theorem calloc_agrees {f f' : Option K → Option K} (h : ops.Agrees t.ops)
    (hf : ops.keyDup = some f) (hf' : t.ops.keyDup = some f') (p : Iter) (key : Option K)
    (hdup : f key = f' key) :
    HashTable.calloc { t with ops } p key = { t.calloc p key with ops } := by
  simp only [HashTable.calloc, hf, hf', hdup, h.hash]

/-- A new entry needs the duplicate of its own key only. -/
theorem hashLookadd_agrees {f f' : Option K → Option K} (h : ops.Agrees t.ops)
    (hf : ops.keyDup = some f) (hf' : t.ops.keyDup = some f') (a : Allocator) (grow : Bool)
    (key : K) (hdup : t.find (some key) = some none → f (some key) = f' (some key)) :
    hashLookadd { t with ops } a grow (some key) =
      (hashLookadd t a grow (some key)).map fun r => ({ r.1 with ops }, r.2) := by
  have hlookup : hashLookup { t with ops } (some key) = t.find (some key) := find_agrees h _
  have hlookup' : hashLookup t (some key) = t.find (some key) := rfl
  rw [hashLookadd, hashLookadd]
  simp only [hlookup, hlookup']
  cases hfind : t.find (some key) with
  | none => rfl
  | some iter =>
    cases iter with
    | some p => rfl
    | none =>
      simp only [Option.bind_eq_bind, Option.bind_some,
        calloc_agrees h hf hf' _ (some key) (hdup hfind), growIfFull_ops]
      generalize growIfFull (t.calloc (a.pick t.blocks) (some key)) grow = grown
      cases grown with
      | none => rfl
      | some t' =>
        simp only [Option.map_some, Option.bind_some, Option.map_bind]
        congr 1
        funext i
        rw [Function.comp_apply, Option.map_bind]
        congr 1

theorem hashAdd_agrees {f f' : Option K → Option K} (h : ops.Agrees t.ops)
    (hf : ops.keyDup = some f) (hf' : t.ops.keyDup = some f') (a : Allocator) (grow : Bool)
    (key : K) (data : Option D)
    (hdup : t.find (some key) = some none → f (some key) = f' (some key)) :
    hashAdd { t with ops } a grow (some key) data =
      (hashAdd t a grow (some key) data).map fun r => ({ r.1 with ops }, r.2) := by
  rw [hashAdd, hashAdd, hashLookadd_agrees h hf hf' a grow key hdup]
  cases hrun : hashLookadd t a grow (some key) with
  | none => rfl
  | some r =>
    obtain ⟨t', iter⟩ := r
    cases iter with
    | none => rfl
    | some p =>
      have hkept :=
        hashLookadd_agrees (HashOps.Agrees.mk rfl rfl rfl) hf' hf' a grow key fun _ => rfl
      change hashLookadd t a grow (some key) = _ at hkept
      rw [hrun, Option.map_some] at hkept
      have hdata : ops.dataDup = t'.ops.dataDup := by
        rw [(Prod.mk.inj (Option.some.inj hkept)).1]
        exact h.dataDup
      simp only [Option.map_some, Option.bind_eq_bind, Option.bind_some, HashTable.setData, hdata]
      rfl

theorem find_same (h : t.find key = some (some p)) : t.ops.compare key (t.key p) = 0 := by
  rw [HashTable.find] at h
  obtain ⟨i, _, h⟩ := Option.bind_eq_some_iff.1 h
  obtain ⟨b, _, h⟩ := Option.bind_eq_some_iff.1 h
  have hsame := findNode_same h
  rwa [decide_eq_true_iff] at hsame

/-- A key without an entry gets one, with its duplicate. -/
theorem hashAdd_absent {f : Option K → Option K} (hf : t.ops.keyDup = some f) (key : K)
    (hfind : t.find (some key) = some none)
    (h : hashAdd t a grow (some key) data = some (t', iter)) :
    ∃ p, iter = some p ∧ t'.key p = f (some key) ∧ t'.ops = t.ops := by
  have hlookup : hashLookup t (some key) = some none := hfind
  rw [hashAdd, hashLookadd, hlookup] at h
  obtain ⟨r, hadd, h⟩ := Option.bind_eq_some_iff.1 h
  obtain ⟨found, hnone, hadd⟩ := Option.bind_eq_some_iff.1 hadd
  cases hnone
  obtain ⟨t₁, hgrow, hadd⟩ := Option.bind_eq_some_iff.1 hadd
  obtain ⟨i, _, hadd⟩ := Option.bind_eq_some_iff.1 hadd
  obtain ⟨b, _, hadd⟩ := Option.bind_eq_some_iff.1 hadd
  cases hadd
  cases h
  obtain ⟨hkey, hops⟩ := growIfFull_keeps hgrow
  refine ⟨_, rfl, ?_, hops⟩
  change t₁.key _ = _
  rw [hkey]
  simp only [HashTable.calloc, hf, Function.update_self]

end Operations

section Duplicate

theorem textOf_append (key : Text) (memory : List UInt8) :
    (textOf (key.1 ++ memory)).1 = key.1 ++ cString memory := cString_append key.2 memory

/-- A duplicate is the key exactly when the memory behind it starts with a zero. -/
theorem dup_eq_iff (held : List UInt8) (key : Text) :
    textOf (key.1 ++ held.drop key.1.length) = key ↔ held.getD key.1.length 0 = 0 := by
  have hhead : (held.drop key.1.length).getD 0 0 = held.getD key.1.length 0 := by
    rw [List.getD_eq_getElem?_getD, List.getD_eq_getElem?_getD, List.getElem?_drop, Nat.add_zero]
  rw [Subtype.ext_iff, textOf_append, List.append_right_eq_self, cString_eq_nil, hhead]

theorem hashKeyDup_nil (key : Text) : hashKeyDup [] (some key) = some key :=
  congrArg some ((dup_eq_iff [] key).2 rfl)

theorem tmapHashOps_faithful : (tmapHashOps []).Faithful id hashOpsString id where
  compare a b := strcmp_eq_zero a b
  hash _ := rfl
  keyDup f hf key := by
    cases hf
    exact ⟨key, hashKeyDup_nil key, rfl⟩
  dataDup := nofun

theorem tmapHashOps_agrees {t : Timermap} (h : t.ops = tmapHashOps []) (held : List UInt8) :
    (tmapHashOps held).Agrees t.ops := by
  rw [h]
  exact ⟨rfl, rfl, rfl⟩

theorem num_inj (h : num fd = num fd') : fd = fd' :=
  Int32.toInt_inj.1 (decimalInt_inj (congrArg Subtype.val h))

end Duplicate

end BigBox.Timer
