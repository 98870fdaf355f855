import Mathlib.Data.Finset.Card
import BigBox.Cstl.TreeRefines
import BigBox.Lib.FiniteMap
import BigBox.Lib.TryRun

namespace BigBox.Cstl
open Rbtree
set_option autoImplicit true

def intMax : Int := 2147483647
def einval : Int := 22
def enomem : Int := 12
def enoent : Int := 2

structure MultisetNode (K : Type) where
  key : K
  count : Int

/-- `multiset_t`. What its `make_key` does, where there is one, is part of each call. -/
structure MultisetT (K : Type) where
  size : Int
  makeKey : Bool
  compareKey : Option (K → K → Int)
  tree : Tree (MultisetNode K)

/-- The operations are assigned behind it. -/
def multisetInit (node : Ptr → Node) (entry : Ptr → MultisetNode K) : MultisetT K :=
  ⟨0, false, none, Tree.empty node entry⟩

/-- A call, with the allocator of `calloc` unless it fails, and with what `make_key` returns and
leaves in the new node. -/
inductive MultisetCall (K : Type) where
  | insert (calloc : Option Allocator) (made : Int × K) (key : K)
  | remove (key : K)

/-- `++` on an `int`. -/
def increment (n : Int) : Option Int := if n = intMax then none else some (n + 1)

def multisetInsert (set : MultisetT K) (calloc : Option Allocator) (made : Int × K) (key : K) :
    Option (MultisetT K × Int) :=
  match set.compareKey with
  | none => some (set, -einval)
  | some compareKey => do
    match ← set.tree.findPlace fun tmp => compareKey key tmp.key with
    | .node p =>
      let tmp := set.tree.entry p
      let count ← increment tmp.count
      return ({ set with tree := set.tree.set p { tmp with count := count } }, 0)
    | .link link =>
      match calloc with
      | none => return (set, -enomem)
      | some a =>
        let made := if set.makeKey then made else (0, key)
        if made.1 ≠ 0 then return (set, made.1)
        else
          let tree ← set.tree.link a link ⟨made.2, 0⟩
          let size ← increment set.size
          return ({ set with tree := tree, size := size }, 0)

def multisetRemove (set : MultisetT K) (key : K) : Option (MultisetT K × Int) :=
  match set.compareKey with
  | none => some (set, -einval)
  | some compareKey => do
    match ← set.tree.lookup fun tmp => compareKey key tmp.key with
    | none => return (set, -enoent)
    | some p =>
      let node := set.tree.entry p
      let node := { node with count := node.count - 1 }
      let tree := set.tree.set p node
      if node.count ≤ 0 then
        let tree ← tree.remove p
        return ({ set with tree := tree, size := set.size - 1 }, 0)
      else return ({ set with tree := tree }, 0)

def multisetContains (set : MultisetT K) (key : K) : Option Bool :=
  match set.compareKey with
  | none => some false
  | some compareKey => do
    let node ← set.tree.lookup fun tmp => compareKey key tmp.key
    return node.isSome

def multisetCount (set : MultisetT K) (key : K) : Option Int :=
  match set.compareKey with
  | none => some 0
  | some compareKey => do
    match ← set.tree.lookup fun tmp => compareKey key tmp.key with
    | some p => return (set.tree.entry p).count
    | none => return 0

def MultisetT.step (set : MultisetT K) : MultisetCall K → Option (MultisetT K × Int)
  | .insert calloc made key => multisetInsert set calloc made key
  | .remove key => multisetRemove set key

section Refinement
variable {K Q : Type} [LinearOrder Q] {content : K → Q} {makes : Bool} {cmp : K → K → Int}

/-- The counts in the nodes, by the contents of the keys. -/
abbrev Counts (Q : Type) := Finmap fun _ : Q => Int

def countsInsert (content : K → Q) (makes : Bool) (m : Counts Q) (calloc : Option Allocator)
    (made : Int × K) (key : K) : Option (Counts Q × Int) :=
  match m.lookup (content key) with
  | some count => (increment count).map fun count => (m.insert (content key) count, 0)
  | none =>
    match calloc with
    | none => some (m, -enomem)
    | some _ =>
      if makes = true ∧ made.1 ≠ 0 then some (m, made.1)
      else (increment m.keys.card).map fun _ => (m.insert (content key) 0, 0)

def countsRemove (content : K → Q) (m : Counts Q) (key : K) : Counts Q × Int :=
  match m.lookup (content key) with
  | none => (m, -enoent)
  | some count =>
    if count - 1 ≤ 0 then (m.erase (content key), 0)
    else (m.insert (content key) (count - 1), 0)

/-- What the calls do to the counts. -/
def countsStep (content : K → Q) (makes : Bool) (m : Counts Q) :
    MultisetCall K → Option (Counts Q × Int)
  | .insert calloc made key => countsInsert content makes m calloc made key
  | .remove key => some (countsRemove content m key)

/-- A key that `make_key` leaves in a new node has the same content. -/
def MultisetCall.Faithful (content : K → Q) : MultisetCall K → Prop
  | .insert _ made key => made.1 = 0 → content made.2 = content key
  | .remove _ => True

/-- The set holds these counts. -/
structure MultisetT.Refines (set : MultisetT K) (compareKey : K → K → Int) (makes : Bool)
    (content : K → Q) (m : Counts Q) : Prop where
  compareKey : set.compareKey = some compareKey
  makeKey : set.makeKey = makes
  size : set.size = m.keys.card
  tree : ∃ l, set.tree.Refines (fun node => content node.key) l ∧
    Binds m (fun node => content node.key) MultisetNode.count l

/-- Two results have the same return value and states that refine each other, or there are
none. -/
abbrev MultisetT.Same (compareKey : K → K → Int) (makes : Bool) (content : K → Q) :=
  Option.Rel fun (r : MultisetT K × Int) (r' : Counts Q × Int) =>
    r.1.Refines compareKey makes content r'.1 ∧ r.2 = r'.2

/-- A count in a node changes. -/
theorem MultisetT.Refines.setCount {set : MultisetT K} (h : set.Refines cmp makes content m)
    (hhit : set.tree.Hit (fun node => content node.key) c p l l')
    (hbinds : Binds m (fun node => content node.key) MultisetNode.count l) (count : Int) :
    MultisetT.Refines { set with tree := set.tree.set p { set.tree.entry p with count } } cmp makes
      content (m.insert c count) := by
  have hkey : content (set.tree.entry p).key = c := hhit.content_eq
  have hmem : c ∈ m := hkey ▸ hbinds.mem hhit.perm
  let node := { set.tree.entry p with count }
  have hreplace : Binds (m.insert (content (set.tree.entry p).key) node.count) _ _ (node :: l') :=
    hbinds.replace hhit.perm rfl
  rw [hkey] at hreplace
  refine ⟨h.compareKey, h.makeKey, ?_, _, hhit.set _ hkey, hreplace⟩
  rw [h.size, hreplace.card, hbinds.card, hhit.perm.length_eq]
  rfl

theorem MultisetT.Refines.insert {set : MultisetT K} (h : set.Refines cmp makes content m)
    (hc : Compares cmp content) (calloc : Option Allocator) (made : Int × K) (key : K)
    (hmade : made.1 = 0 → content made.2 = content key) :
    MultisetT.Same cmp makes content (multisetInsert set calloc made key)
      (countsInsert content makes m calloc made key) := by
  obtain ⟨l, htree, hbinds⟩ := h.tree
  have horder := hc.orders MultisetNode.key key
  obtain ⟨n, makeKey, compareKey, tree⟩ := set
  obtain rfl : compareKey = some cmp := h.compareKey
  obtain rfl : makeKey = makes := h.makeKey
  obtain rfl : n = m.keys.card := h.size
  unfold multisetInsert countsInsert
  rcases htree.findPlace horder with ⟨p, l', hrun, hhit⟩ | ⟨link, hrun, hmiss⟩
  · have hlookup := hbinds.lookup hhit.perm
    rw [hhit.content_eq] at hlookup
    simp only [hrun, hlookup, Option.bind_eq_bind, Option.bind_some]
    cases increment (tree.entry p).count with
    | none => exact .none
    | some count => exact .some ⟨h.setCount hhit hbinds count, rfl⟩
  · have hmem : content key ∉ m := hbinds.notMem hmiss.absent
    simp only [hrun, Finmap.lookup_eq_none.2 hmem, Option.bind_eq_bind, Option.bind_some]
    cases calloc with
    | none => exact .some ⟨h, rfl⟩
    | some a =>
      have hmake : makeKey = true → (if makeKey = true then made else (0, key)) = made :=
        fun hm => if_pos hm
      have hskip : makeKey ≠ true → (if makeKey = true then made else (0, key)) = (0, key) :=
        fun hm => if_neg hm
      generalize (if makeKey = true then made else (0, key)) = node at hmake hskip ⊢
      have hfails : (makeKey = true ∧ made.1 ≠ 0) ↔ node.1 ≠ 0 := by
        cases makeKey with
        | true => rw [hmake rfl, and_iff_right rfl]
        | false => exact ⟨nofun, fun hne => (hne (by rw [hskip nofun])).elim⟩
      by_cases herr : node.1 ≠ 0
      · have hret : node.1 = made.1 := by rw [hmake (hfails.2 herr).1]
        simp only [if_pos herr, if_pos (hfails.2 herr)]
        exact .some ⟨h, hret⟩
      · have hkey : content node.2 = content key := by
          cases makeKey with
          | true =>
            rw [hmake rfl] at herr ⊢
            exact hmade (Classical.not_not.1 herr)
          | false => rw [hskip nofun]
        obtain ⟨tree', hlink, htree'⟩ := hmiss.link a ⟨node.2, 0⟩ hkey
        have hinsert := hbinds.insert (e := ⟨node.2, 0⟩) (hkey ▸ hmem)
        simp only [hkey] at hinsert
        simp only [if_neg herr, if_neg (fun hf => herr (hfails.1 hf)), hlink, Option.bind_some]
        cases hsize : increment ↑m.keys.card with
        | none => exact .none
        | some size =>
          refine .some ⟨⟨rfl, rfl, ?_, _, htree', hinsert⟩, rfl⟩
          have hcard : size = m.keys.card + 1 := by
            rw [increment] at hsize
            split at hsize
            case isTrue => cases hsize
            case isFalse => exact (Option.some.inj hsize).symm
          rw [hinsert.card, hcard, hbinds.card]
          rfl

theorem MultisetT.Refines.remove {set : MultisetT K} (h : set.Refines cmp makes content m)
    (hc : Compares cmp content) (key : K) :
    MultisetT.Same cmp makes content (multisetRemove set key) (countsRemove content m key) := by
  obtain ⟨l, htree, hbinds⟩ := h.tree
  have horder := hc.orders MultisetNode.key key
  obtain ⟨n, makeKey, compareKey, tree⟩ := set
  obtain rfl : compareKey = some cmp := h.compareKey
  obtain rfl : makeKey = makes := h.makeKey
  obtain rfl : n = m.keys.card := h.size
  rw [multisetRemove, countsRemove]
  rcases htree.lookup horder with ⟨p, l', hrun, hhit⟩ | ⟨hrun, habsent⟩
  · have hlookup := hbinds.lookup hhit.perm
    rw [hhit.content_eq] at hlookup
    simp only [hrun, hlookup, Option.bind_eq_bind, Option.bind_some]
    by_cases hcount : (tree.entry p).count - 1 ≤ 0
    · obtain ⟨tree', hremove, htree'⟩ := hhit.remove_set
        { tree.entry p with count := (tree.entry p).count - 1 } hhit.content_eq
      have herase := hbinds.erase hhit.perm
      rw [hhit.content_eq] at herase
      rw [if_pos hcount, if_pos hcount, hremove]
      refine .some ⟨⟨rfl, rfl, ?_, _, htree', herase⟩, rfl⟩
      have hlen : (m.keys.card : Int) = l'.length + 1 := by
        rw [hbinds.card, hhit.perm.length_eq]
        rfl
      rw [herase.card]
      exact Int.sub_eq_iff_eq_add.2 hlen
    · rw [if_neg hcount, if_neg hcount]
      exact .some ⟨h.setCount hhit hbinds _, rfl⟩
  · simp only [hrun, Finmap.lookup_eq_none.2 (hbinds.notMem habsent), Option.bind_eq_bind,
      Option.bind_some]
    exact .some ⟨h, rfl⟩

theorem multisetStep_refines {set : MultisetT K} (hc : Compares cmp content)
    (h : set.Refines cmp makes content m) (call : MultisetCall K)
    (hcall : call.Faithful content) :
    MultisetT.Same cmp makes content (set.step call) (countsStep content makes m call) := by
  cases call with
  | insert calloc made key => exact h.insert hc calloc made key hcall
  | remove key => exact h.remove hc key

/-- `multiset_count` and `multiset_contains` read the counts. -/
theorem MultisetT.Refines.count {set : MultisetT K} (h : set.Refines cmp makes content m)
    (hc : Compares cmp content) (key : K) :
    multisetCount set key = some ((m.lookup (content key)).getD 0) ∧
      multisetContains set key = some (m.lookup (content key)).isSome := by
  obtain ⟨l, htree, hbinds⟩ := h.tree
  rw [multisetCount, multisetContains, h.compareKey]
  simp only
  have horder := hc.orders MultisetNode.key key
  rcases htree.lookup horder with ⟨p, l', hrun, hhit⟩ | ⟨hrun, habsent⟩
  · have hlookup := hbinds.lookup hhit.perm
    rw [hhit.content_eq] at hlookup
    rw [hrun, hlookup]
    exact ⟨rfl, rfl⟩
  · rw [hrun, Finmap.lookup_eq_none.2 (hbinds.notMem habsent)]
    exact ⟨rfl, rfl⟩

end Refinement

open Rbtree
set_option autoImplicit true

section Counts
variable {K Q : Type} [LinearOrder Q] {content : K → Q} {makes : Bool} {cmp : K → K → Int}

/-- What a call that returned `r` adds to the successful insertions of a key less its
successful removals. -/
def delta (content : K → Q) (q : Q) : MultisetCall K × Int → Int
  | (.insert _ _ key, r) => if content key = q ∧ r = 0 then 1 else 0
  | (.remove key, r) => if content key = q ∧ r = 0 then -1 else 0

/-- The successful insertions of a key less its successful removals. -/
def balance (content : K → Q) (q : Q) (log : List (MultisetCall K × Int)) : Int :=
  (log.map (delta content q)).sum

/-- An insertion of an absent key gives it a node. -/
def Allocates (makes : Bool) (calloc : Option Allocator) (made : Int × K) : Prop :=
  calloc.isSome ∧ (makes = true → made.1 = 0)

instance (makes : Bool) (calloc : Option Allocator) (made : Int × K) :
    Decidable (Allocates makes calloc made) :=
  inferInstanceAs (Decidable (calloc.isSome ∧ (makes = true → made.1 = 0)))

/-- No key is inserted while it is present, never more than `intMax` keys are present, and none
is at the end. -/
def Balanced (content : K → Q) (makes : Bool) : Finset Q → List (MultisetCall K) → Prop
  | present, [] => present = ∅
  | present, .insert calloc made key :: calls =>
    content key ∉ present ∧
      if Allocates makes calloc made then
        (present.card : Int) < intMax ∧ Balanced content makes (insert (content key) present) calls
      else Balanced content makes present calls
  | present, .remove key :: calls => Balanced content makes (present.erase (content key)) calls

theorem lookup_insert_eq (m : Counts Q) (k q : Q) (c : Int) :
    (m.insert k c).lookup q = if q = k then some c else m.lookup q := by
  split
  case isTrue h => rw [h, Finmap.lookup_insert]
  case isFalse h => rw [Finmap.lookup_insert_of_ne m h]

theorem lookup_erase_eq (m : Counts Q) (k q : Q) :
    (m.erase k).lookup q = if q = k then none else m.lookup q := by
  split
  case isTrue h => rw [h, Finmap.lookup_erase]
  case isFalse h => rw [Finmap.lookup_erase_ne h]

/-- The counts are what the calls make them. -/
def Agrees (content : K → Q) (m : Counts Q) (total : Q → Int) : Prop :=
  ∀ key, (m.lookup (content key)).getD 0 = total (content key) ∧
    (m.lookup (content key)).isSome = decide (0 < total (content key))

/-- How much a count lacks, where the first insertion of a key that is present and has not been
inserted again does not count. -/
def lack (c : Option Int) (total : Int) : Int :=
  total - c.getD 0 - if c = some 0 then 1 else 0

theorem lack_none (total : Int) : lack none total = total := by
  rw [lack, if_neg nofun, Option.getD_none, Int.sub_zero, Int.sub_zero]

theorem lack_zero (total : Int) : lack (some 0) total = total - 1 := by
  rw [lack, if_pos rfl, Option.getD_some, Int.sub_zero]

theorem lack_pos (h : 0 < c) (total : Int) : lack (some c) total = total - c := by
  have hne : (some c : Option Int) ≠ some 0 := fun he => Int.ne_of_gt h (Option.some.inj he)
  rw [lack, if_neg hne, Option.getD_some, Int.sub_zero]

theorem lack_le (h : 0 ≤ c) (total : Int) : lack (some c) total ≤ total - c := by
  rcases Int.lt_or_eq_of_le h with hpos | rfl
  · exact Int.le_of_eq (lack_pos hpos total)
  · rw [lack_zero]
    omega

/-- The count of some key lacks something that no call adds any more. -/
structure Tainted (content : K → Q) (m : Counts Q) (total : Q → Int) : Prop where
  nonneg : ∀ q c, m.lookup q = some c → 0 ≤ c
  lacks : ∃ key, 0 < lack (m.lookup (content key)) (total (content key))

theorem Tainted.not_agrees (h : Tainted content m total) : ¬ Agrees content m total := by
  intro ha
  obtain ⟨key, hlack⟩ := h.lacks
  rw [lack, (ha key).1] at hlack
  split at hlack <;> omega

def Nonneg (m : Counts Q) : Prop := ∀ q c, m.lookup q = some c → 0 ≤ c

/-- A call closes no gap between the counts and what the calls make them. -/
structure Grows (content : K → Q) (m m' : Counts Q) (entry : MultisetCall K × Int) : Prop where
  nonneg : Nonneg m'
  lack : ∀ q total, lack (m.lookup q) total ≤ lack (m'.lookup q) (total + delta content q entry)

/-- A call changes the count and the balance of one key. -/
theorem grows_of_update (hm : Nonneg m)
    (hlookup : ∀ q, m'.lookup q = if q = k then c else m.lookup q)
    (hdelta : ∀ q, delta content q entry = if q = k then d else 0)
    (hc : ∀ n, c = some n → 0 ≤ n) (hlack : ∀ total, lack (m.lookup k) total ≤ lack c (total + d)) :
    Grows content m m' entry := by
  constructor
  · intro q n hq
    rw [hlookup] at hq
    split at hq
    case isTrue => exact hc n hq
    case isFalse => exact hm q n hq
  · intro q total
    rw [hlookup, hdelta]
    split
    case isTrue h =>
      rw [h]
      exact hlack total
    case isFalse => rw [Int.add_zero]

theorem delta_failure (content : K → Q) (q : Q) (call : MultisetCall K) (hr : r ≠ 0) :
    delta content q (call, r) = 0 := by
  cases call with
  | insert _ _ key => exact if_neg fun h => hr h.2
  | remove key => exact if_neg fun h => hr h.2

theorem grows_of_failure (hm : Nonneg m) (call : MultisetCall K) (hr : r ≠ 0) :
    Grows content m m (call, r) := by
  refine ⟨hm, fun q total => ?_⟩
  rw [delta_failure content q call hr, Int.add_zero]

theorem delta_insert (content : K → Q) (q : Q) (calloc : Option Allocator) (made : Int × K)
    (key : K) :
    delta content q (.insert calloc made key, 0) = if q = content key then 1 else 0 := by
  simp only [delta, and_true, eq_comm]

theorem delta_remove (content : K → Q) (q : Q) (key : K) :
    delta content q (.remove key, 0) = if q = content key then -1 else 0 := by
  simp only [delta, and_true, eq_comm]

theorem countsInsert_grows {m : Counts Q} (hm : Nonneg m)
    (h : countsInsert content makes m calloc made key = some (m', r)) :
    Grows content m m' (.insert calloc made key, r) := by
  unfold countsInsert at h
  cases hlookup : m.lookup (content key) with
  | some count =>
    rw [hlookup] at h
    obtain ⟨count', hcount, he⟩ := Option.map_eq_some_iff.1 h
    cases he
    have hnonneg : 0 ≤ count := hm _ _ hlookup
    have hcount' : count' = count + 1 := by
      rw [increment] at hcount
      split at hcount
      case isTrue => cases hcount
      case isFalse => exact (Option.some.inj hcount).symm
    apply grows_of_update hm (lookup_insert_eq m (content key) · count')
      (delta_insert content · calloc made key)
    · intro n hn
      cases hn
      omega
    · intro total
      have hle := lack_le hnonneg total
      have hpos : 0 < count + 1 := by omega
      rw [hlookup, hcount', lack_pos hpos]
      omega
  | none =>
    rw [hlookup] at h
    cases calloc with
    | none =>
      cases h
      exact grows_of_failure hm _ (by decide)
    | some a =>
      simp only at h
      split at h
      case isTrue hfails =>
        cases h
        exact grows_of_failure hm _ hfails.2
      case isFalse =>
        obtain ⟨_, _, he⟩ := Option.map_eq_some_iff.1 h
        cases he
        apply grows_of_update hm (lookup_insert_eq m (content key) · 0)
          (delta_insert content · (some a) made key)
        · intro n hn
          cases hn
          exact Int.le_refl _
        · intro total
          rw [hlookup, lack_none, lack_zero]
          omega

theorem countsRemove_grows {m : Counts Q} (hm : Nonneg m) (key : K) :
    Grows content m (countsRemove content m key).1
      (.remove key, (countsRemove content m key).2) := by
  unfold countsRemove
  cases hlookup : m.lookup (content key) with
  | none =>
    have hr : -enoent ≠ 0 := by decide
    exact grows_of_failure hm _ hr
  | some count =>
    have hnonneg : 0 ≤ count := hm _ _ hlookup
    simp only
    split
    case isTrue hle =>
      apply grows_of_update hm (lookup_erase_eq m (content key)) (delta_remove content · key) nofun
      intro total
      rw [hlookup, lack_none]
      rcases Int.lt_or_eq_of_le hnonneg with hpos | rfl
      · rw [lack_pos hpos]
        omega
      · rw [lack_zero]
        omega
    case isFalse hgt =>
      apply grows_of_update hm (lookup_insert_eq m (content key) · (count - 1))
        (delta_remove content · key)
      · intro n hn
        cases hn
        omega
      · intro total
        rw [hlookup, lack_pos (by omega), lack_pos (by omega)]
        omega

theorem countsStep_grows {m : Counts Q} (hm : Nonneg m)
    (h : countsStep content makes m call = some (m', r)) : Grows content m m' (call, r) := by
  cases call with
  | insert calloc made key => exact countsInsert_grows hm h
  | remove key =>
    have he : countsRemove content m key = (m', r) := Option.some.inj h
    have hgrows : Grows content m (countsRemove content m key).1
        (.remove key, (countsRemove content m key).2) := countsRemove_grows hm key
    rw [he] at hgrows
    exact hgrows

theorem Tainted.step {m : Counts Q} (h : Tainted content m total)
    (hstep : countsStep content makes m call = some (m', r)) :
    Tainted content m' fun q => total q + delta content q (call, r) := by
  have hgrows := countsStep_grows h.nonneg hstep
  obtain ⟨key, hlacks⟩ := h.lacks
  exact ⟨hgrows.nonneg, key, Int.lt_of_lt_of_le hlacks (hgrows.lack _ _)⟩

/-- A run ends with counts that are what the calls make them, from these on. -/
def Ends (content : K → Q) (makes : Bool) (m : Counts Q) (total : Q → Int)
    (calls : List (MultisetCall K)) : Prop :=
  ∃ m' rets, tryRun (countsStep content makes) m calls = some (m', rets) ∧
    Agrees content m' fun q => total q + balance content q (calls.zip rets)

theorem ends_nil : Ends content makes m total [] ↔ Agrees content m total := by
  constructor
  · rintro ⟨m', rets, hrun, hagrees⟩
    cases hrun
    simpa only [List.zip_nil_left, balance, List.map_nil, List.sum_nil, Int.add_zero] using hagrees
  · intro hagrees
    refine ⟨m, [], rfl, ?_⟩
    simpa only [List.zip_nil_left, balance, List.map_nil, List.sum_nil, Int.add_zero] using hagrees

theorem ends_cons (h : countsStep content makes m call = some (m', r)) :
    Ends content makes m total (call :: calls) ↔
      Ends content makes m' (fun q => total q + delta content q (call, r)) calls := by
  have hbalance : ∀ q rets, total q + balance content q ((call :: calls).zip (r :: rets)) =
      total q + delta content q (call, r) + balance content q (calls.zip rets) := fun q rets => by
    rw [List.zip_cons_cons, balance, List.map_cons, List.sum_cons, ← Int.add_assoc]
    rfl
  rw [Ends, Ends, tryRun_cons h]
  constructor
  · rintro ⟨m'', rets, hrun, hagrees⟩
    obtain ⟨⟨m₁, rets'⟩, hrun', he⟩ := Option.map_eq_some_iff.1 hrun
    cases he
    simp only [hbalance] at hagrees
    exact ⟨m₁, rets', hrun', hagrees⟩
  · rintro ⟨m'', rets, hrun, hagrees⟩
    refine ⟨m'', r :: rets, by rw [hrun]; rfl, ?_⟩
    simp only [hbalance]
    exact hagrees

theorem not_ends_cons (h : countsStep content makes m call = none) :
    ¬ Ends content makes m total (call :: calls) := by
  rintro ⟨m', rets, hrun, _⟩
  rw [tryRun_cons_none h] at hrun
  cases hrun

/-- What is lost stays lost. -/
theorem Tainted.not_ends (h : Tainted content m total) (calls : List (MultisetCall K)) :
    ¬ Ends content makes m total calls := by
  induction calls generalizing m total with
  | nil => exact fun he => h.not_agrees (ends_nil.1 he)
  | cons call calls ih =>
    cases hstep : countsStep content makes m call with
    | none => exact not_ends_cons hstep
    | some r =>
      rw [ends_cons hstep]
      exact ih (h.step hstep)

/-- The keys present have been inserted once each. -/
structure Clean (content : K → Q) (m : Counts Q) (total : Q → Int) (present : Finset Q) :
    Prop where
  lookup : ∀ q, m.lookup q = if q ∈ present then some 0 else none
  total_eq : ∀ q, total q = if q ∈ present then 1 else 0
  keyed : ∀ q ∈ present, ∃ key, content key = q
  bound : (present.card : Int) ≤ intMax

theorem Clean.card (h : Clean content m total present) : m.keys.card = present.card := by
  congr 1
  ext q
  rw [Finmap.mem_keys, ← Finmap.lookup_isSome, h.lookup]
  split
  case isTrue hq => exact iff_of_true rfl hq
  case isFalse hq => exact iff_of_false Bool.false_ne_true hq

theorem Clean.nonneg (h : Clean content m total present) : Nonneg m := by
  intro q c hq
  rw [h.lookup] at hq
  split at hq
  case isTrue =>
    cases hq
    exact Int.le_refl _
  case isFalse => cases hq

theorem Clean.agrees_iff (h : Clean content m total present) :
    Agrees content m total ↔ present = ∅ := by
  constructor
  · intro hagrees
    apply Finset.eq_empty_of_forall_notMem
    intro q hq
    obtain ⟨key, rfl⟩ := h.keyed q hq
    have hcount := (hagrees key).1
    rw [h.lookup, h.total_eq, if_pos hq, if_pos hq] at hcount
    cases hcount
  · rintro rfl key
    rw [h.lookup, h.total_eq, if_neg (Finset.notMem_empty _), if_neg (Finset.notMem_empty _)]
    exact ⟨rfl, rfl⟩

theorem Clean.create (h : Clean content m total present) (hkey : content key ∉ present)
    (hlt : (present.card : Int) < intMax) (calloc : Option Allocator) (made : Int × K) :
    Clean content (m.insert (content key) 0)
      (fun q => total q + delta content q (.insert calloc made key, 0))
      (insert (content key) present) := by
  constructor
  · intro q
    rw [lookup_insert_eq, h.lookup]
    by_cases hq : q = content key
    · rw [if_pos hq, if_pos (hq ▸ Finset.mem_insert_self _ _)]
    · simp only [hq, if_false, Finset.mem_insert, false_or]
  · intro q
    rw [delta_insert, h.total_eq]
    by_cases hq : q = content key
    · rw [if_pos hq, if_neg (hq ▸ hkey), if_pos (hq ▸ Finset.mem_insert_self _ _)]
      rfl
    · simp only [hq, if_false, Finset.mem_insert, false_or, Int.add_zero]
  · intro q hq
    rcases Finset.mem_insert.1 hq with rfl | hq
    · exact ⟨key, rfl⟩
    · exact h.keyed q hq
  · rw [Finset.card_insert_of_notMem hkey]
    exact hlt

theorem Clean.remove (h : Clean content m total present) (hkey : content key ∈ present) :
    Clean content (m.erase (content key)) (fun q => total q + delta content q (.remove key, 0))
      (present.erase (content key)) := by
  constructor
  · intro q
    rw [lookup_erase_eq, h.lookup]
    by_cases hq : q = content key
    · rw [if_pos hq, if_neg (hq ▸ Finset.notMem_erase _ _)]
    · simp only [hq, if_false, Finset.mem_erase, ne_eq, not_false_eq_true, true_and]
  · intro q
    rw [delta_remove, h.total_eq]
    by_cases hq : q = content key
    · rw [if_pos hq, if_pos (hq ▸ hkey), if_neg (hq ▸ Finset.notMem_erase _ _)]
      rfl
    · simp only [hq, if_false, Finset.mem_erase, ne_eq, not_false_eq_true, true_and, Int.add_zero]
  · exact fun q hq => h.keyed q (Finset.mem_of_mem_erase hq)
  · exact Int.le_trans (Int.ofNat_le.2 (Finset.card_erase_le)) h.bound

/-- A call that fails leaves everything as it is. -/
theorem Clean.failure (h : Clean content m total present) (call : MultisetCall K) (hr : r ≠ 0) :
    Clean content m (fun q => total q + delta content q (call, r)) present := by
  refine ⟨h.lookup, fun q => ?_, h.keyed, h.bound⟩
  rw [delta_failure content q call hr, Int.add_zero, h.total_eq]

/-- A second insertion of a key that is present spoils its count. -/
theorem Clean.taint (makes : Bool) (h : Clean content m total present)
    (hkey : content key ∈ present) (calloc : Option Allocator) (made : Int × K) :
    ∃ m', countsStep content makes m (.insert calloc made key) = some (m', 0) ∧
      Tainted content m' fun q => total q + delta content q (.insert calloc made key, 0) := by
  have hlookup : m.lookup (content key) = some 0 := by rw [h.lookup, if_pos hkey]
  have hstep : countsStep content makes m (.insert calloc made key) =
      some (m.insert (content key) 1, 0) := by
    rw [countsStep]
    unfold countsInsert
    rw [hlookup]
    rfl
  refine ⟨_, hstep, (countsStep_grows h.nonneg hstep).nonneg, key, ?_⟩
  rw [Finmap.lookup_insert, lack_pos (by decide), delta_insert, h.total_eq, if_pos hkey, if_pos rfl]
  decide

theorem Clean.insert_absent (h : Clean content m total present)
    (hlookup : m.lookup (content key) = none) (hmade : Allocates makes calloc made) :
    countsStep content makes m (.insert calloc made key) =
      if (present.card : Int) = intMax then none else some (m.insert (content key) 0, 0) := by
  obtain ⟨a, rfl⟩ := Option.isSome_iff_exists.1 hmade.1
  rw [countsStep]
  unfold countsInsert
  rw [hlookup]
  simp only
  rw [if_neg fun hf => hf.2 (hmade.2 hf.1), increment, h.card]
  split <;> rfl

theorem insert_failure {m : Counts Q} (hlookup : m.lookup (content key) = none)
    (hmade : ¬ Allocates makes calloc made) :
    ∃ r, r ≠ 0 ∧ countsStep content makes m (.insert calloc made key) = some (m, r) := by
  rw [countsStep]
  unfold countsInsert
  rw [hlookup]
  cases calloc with
  | none => exact ⟨-enomem, by decide, rfl⟩
  | some a =>
    have hfails : makes = true ∧ made.1 ≠ 0 := by
      by_contra hno
      apply hmade
      refine ⟨rfl, fun hmakes => ?_⟩
      by_contra hne
      exact hno ⟨hmakes, hne⟩
    exact ⟨made.1, hfails.2, if_pos hfails⟩

theorem Clean.ends_iff (h : Clean content m total present) (calls : List (MultisetCall K)) :
    Ends content makes m total calls ↔ Balanced content makes present calls := by
  induction calls generalizing m total present with
  | nil => exact ends_nil.trans h.agrees_iff
  | cons call calls ih =>
    cases call with
    | insert calloc made key =>
      by_cases hkey : content key ∈ present
      · obtain ⟨m', hstep, htainted⟩ := h.taint makes hkey calloc made
        rw [ends_cons hstep]
        exact iff_of_false (htainted.not_ends calls) fun hb => hb.1 hkey
      · have hlookup : m.lookup (content key) = none := by rw [h.lookup, if_neg hkey]
        rw [Balanced, and_iff_right hkey]
        by_cases hmade : Allocates makes calloc made
        · rw [if_pos hmade]
          have hstep := h.insert_absent hlookup hmade
          by_cases hlt : (present.card : Int) < intMax
          · rw [if_neg (Int.ne_of_lt hlt)] at hstep
            rw [ends_cons hstep, and_iff_right hlt]
            exact ih (h.create hkey hlt calloc made)
          · rw [if_pos (Int.le_antisymm h.bound (Int.not_lt.1 hlt))] at hstep
            exact iff_of_false (not_ends_cons hstep) fun hb => hlt hb.1
        · obtain ⟨r, hr, hstep⟩ := insert_failure hlookup hmade
          rw [if_neg hmade, ends_cons hstep]
          exact ih (h.failure _ hr)
    | remove key =>
      by_cases hkey : content key ∈ present
      · have hstep : countsStep content makes m (.remove key) =
            some (m.erase (content key), 0) := by
          have hlookup : m.lookup (content key) = some 0 := by rw [h.lookup, if_pos hkey]
          rw [countsStep, countsRemove, hlookup]
          rfl
        rw [ends_cons hstep]
        exact ih (h.remove hkey)
      · have hstep : countsStep content makes m (.remove key) = some (m, -enoent) := by
          have hlookup : m.lookup (content key) = none := by rw [h.lookup, if_neg hkey]
          rw [countsStep, countsRemove, hlookup]
        rw [ends_cons hstep, Balanced, Finset.erase_eq_of_notMem hkey]
        exact ih (h.failure _ (by decide))

theorem Clean.empty : Clean content ∅ (fun _ => 0) ∅ := by
  refine ⟨fun q => ?_, fun q => ?_, nofun, ?_⟩
  · rw [if_neg (Finset.notMem_empty q)]
    exact Finmap.lookup_empty q
  · rw [if_neg (Finset.notMem_empty q)]
  · rw [Finset.card_empty]
    decide

/-- The counts read through the calls agree with a balance exactly when the counts do. -/
theorem MultisetT.Refines.agrees_iff {set : MultisetT K} (h : set.Refines cmp makes content m)
    (hc : Compares cmp content) (total : Q → Int) :
    (∀ key, multisetCount set key = some (total (content key)) ∧
      multisetContains set key = some (decide (0 < total (content key)))) ↔
      Agrees content m total := by
  apply forall_congr'
  intro key
  obtain ⟨hcount, hcontains⟩ := h.count hc key
  rw [hcount, hcontains, Option.some_inj, Option.some_inj]

/-- The counts of all keys are right at the end of a run exactly when no key was inserted while
it was present, never more than `intMax` keys were present and none is at the end: the first
insertion of a key starts its count at 0 instead of 1. -/
theorem multiset_count_iff (hc : Compares cmp content) (node : Ptr → Node)
    (entry : Ptr → MultisetNode K) (calls : List (MultisetCall K))
    (hcalls : ∀ call ∈ calls, call.Faithful content) :
    (∃ set rets, tryRun MultisetT.step
        { multisetInit node entry with makeKey := makes, compareKey := some cmp } calls =
          some (set, rets) ∧
      ∀ key, multisetCount set key = some (balance content (content key) (calls.zip rets)) ∧
        multisetContains set key =
          some (decide (0 < balance content (content key) (calls.zip rets)))) ↔
      Balanced content makes ∅ calls := by
  have hinit : MultisetT.Refines
      { multisetInit node entry with makeKey := makes, compareKey := some cmp } cmp makes content
      (∅ : Counts Q) := ⟨rfl, rfl, rfl, [], Tree.empty_refines node entry, binds_empty _ _⟩
  have hsim := tryRun_simulation (R := fun set m => MultisetT.Refines set cmp makes content m)
    (fun _ _ call h hcall => multisetStep_refines hc h call hcall) hinit hcalls
  rw [← Clean.empty.ends_iff calls, Ends]
  simp only [Int.zero_add]
  generalize tryRun MultisetT.step _ calls = r at hsim ⊢
  generalize tryRun (countsStep content makes) ∅ calls = r' at hsim ⊢
  cases hsim with
  | none => exact iff_of_false (fun ⟨_, _, he, _⟩ => nomatch he) fun ⟨_, _, he, _⟩ => nomatch he
  | @some r r' hr =>
    obtain ⟨set, rets⟩ := r
    obtain ⟨m, rets'⟩ := r'
    obtain ⟨hset, rfl⟩ : set.Refines cmp makes content m ∧ rets = rets' := hr
    constructor
    · rintro ⟨_, _, he, hcount⟩
      cases he
      exact ⟨m, rets, rfl, (hset.agrees_iff hc _).1 hcount⟩
    · rintro ⟨_, _, he, hagrees⟩
      cases he
      exact ⟨set, rets, rfl, (hset.agrees_iff hc _).2 hagrees⟩

end Counts

/-- Numbers as keys. -/
def natMultiset : MultisetT Nat :=
  { multisetInit (fun _ => ⟨none, .red, none, none⟩) fun _ => ⟨0, 0⟩ with
    makeKey := false, compareKey := some fun a b => (a : Int) - b }

theorem multiset_count_iff_pair :
    (∃ set rets, tryRun MultisetT.step natMultiset
        [.insert (some .next) (0, 1) 1, .remove 1] = some (set, rets) ∧
      ∀ key, multisetCount set key = some (balance id key
          (List.zip [.insert (some .next) (0, 1) 1, .remove 1] rets)) ∧
        multisetContains set key = some (decide (0 < balance id key
          (List.zip [.insert (some .next) (0, 1) 1, .remove 1] rets)))) ↔
      Balanced id false ∅ [MultisetCall.insert (some .next) (0, 1) 1, .remove 1] :=
  multiset_count_iff ⟨by simp only [id]; omega, by simp only [id]; omega⟩ _ _ _
    (List.forall_mem_cons.2 ⟨fun _ => rfl, List.forall_mem_cons.2 ⟨trivial, nofun⟩⟩)

/-- A key inserted once has the count 0. -/
theorem not_multiset_count :
    ¬ ∃ set rets, tryRun MultisetT.step natMultiset [.insert (some .next) (0, 1) 1] =
        some (set, rets) ∧
      ∀ key, multisetCount set key =
        some (balance id key (List.zip [.insert (some .next) (0, 1) 1] rets)) ∧
        multisetContains set key = some (decide (0 < balance id key
          (List.zip [.insert (some .next) (0, 1) 1] rets))) := by
  rintro ⟨set, rets, hrun, hcount⟩
  have hcode : (tryRun MultisetT.step natMultiset [.insert (some .next) (0, 1) 1]).bind
      (fun r => (multisetCount r.1 1).map (·, r.2)) = some (0, [0]) := rfl
  rw [hrun, Option.bind_some, (hcount 1).1, Option.map_some] at hcode
  obtain ⟨hbalance, rfl⟩ := Prod.mk.inj (Option.some.inj hcode)
  exact absurd hbalance (by decide)

end BigBox.Cstl
