import Mathlib.Data.Vector.Basic
import BigBox.Lib.Rearrange

namespace BigBox.Sort
open Rearrange
set_option autoImplicit true

/-- The bytes of an array. A pointer is an offset into it, and an access outside has no result. -/
def load (m : List UInt8) (x : Int) : Option UInt8 := if 0 ≤ x then m[x.toNat]? else none

def store (m : List UInt8) (x : Int) (c : UInt8) : Option (List UInt8) :=
  if 0 ≤ x ∧ x < m.length then some (m.set x.toNat c) else none

/-- The bytes behind a pointer. -/
def loadBytes (m : List UInt8) : Int → (n : Nat) → Option (List.Vector UInt8 n)
  | _, 0 => some .nil
  | x, n + 1 => do
    let c ← load m x
    let cs ← loadBytes m (x + 1) n
    return .cons c cs

/-- The loop of `exch`. -/
def exchLoop : Nat → Int → Int → List UInt8 → Option (List UInt8)
  | 0, _, _, m => some m
  | size + 1, x, y, m => do
    let z ← load m x
    let c ← load m y
    let m ← store m x c
    let m ← store m y z
    exchLoop size (x + 1) (y + 1) m

def exch (m : List UInt8) (size : Nat) (a b : Int) : Option (List UInt8) :=
  exchLoop size (a * size) (b * size) m

section Quicksort
variable (xjExch : List UInt8 → Nat → Int → Int → Option (List UInt8)) {size : Nat}
  (compare : List.Vector UInt8 size → List.Vector UInt8 size → Int)

/-- `compare` on two elements of the array. -/
def compareAt (m : List UInt8) (a b : Int) : Option Int := do
  let x ← loadBytes m (a * size) size
  let y ← loadBytes m (b * size) size
  return compare x y

/-- The loop `while (++i != r && compare(base+i*size,v)<0)`. -/
def scanUp (m : List UInt8) (r : Int) : Nat → Int → Option Int
  | 0, _ => none
  | n + 1, i =>
    if i + 1 = r then some (i + 1)
    else do
      let result ← compareAt compare m (i + 1) r
      if result < 0 then scanUp m r n (i + 1) else return i + 1

/-- The loop `while (compare(v,base+(--j)*size)<0) if (j == l) break`. -/
def scanDown (m : List UInt8) (l r : Int) : Nat → Int → Option Int
  | 0, _ => none
  | n + 1, j => do
    let result ← compareAt compare m r (j - 1)
    if result < 0 then
      if j - 1 = l then return j - 1 else scanDown m l r n (j - 1)
    else return j - 1

/-- The statement `if (compare(base+i*size,v)==0) xj_exch(base,size,++p,i)`. -/
def parkLeft (m : List UInt8) (r i p : Int) : Option (Int × List UInt8) := do
  let result ← compareAt compare m i r
  if result = 0 then (xjExch m size (p + 1) i).map (p + 1, ·) else return (p, m)

/-- The statement `if (compare(v,base+j*size)==0) xj_exch(base,size,j,--q)`. -/
def parkRight (m : List UInt8) (r j q : Int) : Option (Int × List UInt8) := do
  let result ← compareAt compare m r j
  if result = 0 then (xjExch m size j (q - 1)).map (q - 1, ·) else return (q, m)

/-- The first loop of `quicksort`, with what it leaves in `i`, `p`, `q` and the array. -/
def partition (rounds : Nat) (l r : Int) :
    Nat → Int → Int → Int → Int → List UInt8 → Option (Int × Int × Int × List UInt8)
  | 0, _, _, _, _, _ => none
  | n + 1, i, j, p, q, m => do
    let i ← scanUp compare m r rounds i
    let j ← scanDown compare m l r rounds j
    if i ≥ j then return (i, p, q, m)
    else
      let m ← xjExch m size i j
      let (p, m) ← parkLeft xjExch compare m r i p
      let (q, m) ← parkRight xjExch compare m r j q
      partition rounds l r n i j p q m

/-- The loop `for (k=l; k<p; k++, j--)`, with what it leaves in `j` and the array. -/
def swapLeft (size : Nat) (p : Int) :
    Nat → Int → Int → List UInt8 → Option (Int × List UInt8)
  | 0, _, _, _ => none
  | n + 1, k, j, m =>
    if k < p then do
      let m ← xjExch m size k j
      swapLeft size p n (k + 1) (j - 1) m
    else some (j, m)

/-- The loop `for (k=r-1; k>q; k--, i++)`, with what it leaves in `i` and the array. -/
def swapRight (size : Nat) (q : Int) :
    Nat → Int → Int → List UInt8 → Option (Int × List UInt8)
  | 0, _, _, _ => none
  | n + 1, k, i, m =>
    if k > q then do
      let m ← xjExch m size i k
      swapRight size q n (k - 1) (i + 1) m
    else some (i, m)

/-- The depth of the recursion is limited, as is the number of rounds of each loop. -/
def quicksort : Nat → Int → Int → List UInt8 → Option (List UInt8)
  | 0, _, _, _ => none
  | n + 1, l, r, m =>
    if r ≤ l then some m
    else do
      let (i, p, q, m) ← partition xjExch compare (n + 1) l r (n + 1) (l - 1) r (l - 1) r m
      let m ← xjExch m size i r
      let (j, m) ← swapLeft xjExch size p (n + 1) l (i - 1) m
      let (i, m) ← swapRight xjExch size q (n + 1) (r - 1) (i + 1) m
      let m ← quicksort n l j m
      quicksort n i r m

end Quicksort

/-- `qsort`, with the number of elements as the `unsigned` it is compared as. -/
def qsort (xjExch : List UInt8 → Nat → Int → Int → Option (List UInt8)) (fuel : Nat)
    (m : List UInt8) (nmemb : Int) (size : Nat)
    (compare : List.Vector UInt8 size → List.Vector UInt8 size → Int) : Option (List UInt8) :=
  if nmemb % 4294967296 ≥ 2147483647 ∨ size ≥ 2147483647 then some m
  else if nmemb > 1 then quicksort xjExch compare fuel 0 (nmemb - 1) m
  else some m

/-- The loop of `bsearch`. -/
def bsearchLoop (m : List UInt8) (key : List.Vector UInt8 typesize)
    (cmp : List.Vector UInt8 typesize → List.Vector UInt8 typesize → Int) :
    Nat → Nat → Nat → Option (Option Nat)
  | 0, _, _ => none
  | n + 1, start, stop =>
    if start < stop then do
      let mid := start + (stop - start) / 2
      let elem ← loadBytes m (mid * typesize : Nat) typesize
      let result := cmp key elem
      if result < 0 then bsearchLoop m key cmp n start mid
      else if result > 0 then bsearchLoop m key cmp n (mid + 1) stop
      else return some (mid * typesize)
    else some none

/-- The result is the offset of the element, `none` the null pointer. -/
def bsearch (fuel : Nat) (m : List UInt8) (key : List.Vector UInt8 typesize) (num : Nat)
    (cmp : List.Vector UInt8 typesize → List.Vector UInt8 typesize → Int) : Option (Option Nat) :=
  bsearchLoop m key cmp fuel 0 num

set_option autoImplicit true

theorem load_middle (a : List UInt8) (c : UInt8) (b : List UInt8) :
    load (a ++ c :: b) a.length = some c := by
  rw [load, if_pos (Int.natCast_nonneg _), Int.toNat_natCast,
    List.getElem?_append_right (Nat.le_refl _), Nat.sub_self, List.getElem?_cons_zero]

theorem store_middle (a : List UInt8) (c : UInt8) (b : List UInt8) (d : UInt8) :
    store (a ++ c :: b) a.length d = some (a ++ d :: b) := by
  have hin : (0 : Int) ≤ a.length ∧ (a.length : Int) < (a ++ c :: b).length := by
    rw [List.length_append, List.length_cons]
    omega
  rw [store, if_pos hin, Int.toNat_natCast, List.set_append_right _ _ (Nat.le_refl _),
    Nat.sub_self, List.set_cons_zero]

theorem loadBytes_middle (a : List UInt8) (x : List.Vector UInt8 n) (b : List UInt8) :
    loadBytes (a ++ x.toList ++ b) a.length n = some x := by
  induction n generalizing a with
  | zero => rw [loadBytes, List.Vector.eq_nil x]
  | succ n ih =>
    obtain ⟨c, cs, rfl⟩ := x.exists_eq_cons
    have hrest := ih (a ++ [c]) cs
    rw [List.length_append, List.length_singleton, Nat.cast_add, Nat.cast_one,
      List.append_assoc a, List.singleton_append] at hrest
    rw [List.Vector.toList_cons, loadBytes, List.append_assoc, List.cons_append, load_middle,
      ← List.cons_append, ← List.append_assoc]
    simp only [hrest, Option.bind_eq_bind, Option.bind_some, Option.pure_def]

/-- Two strings of bytes change places, one byte after the other. -/
theorem exchLoop_middle (a b c : List UInt8) (h : y.length = x.length) :
    exchLoop x.length a.length (a.length + x.length + b.length : Nat)
      (a ++ x ++ b ++ y ++ c) = some (a ++ y ++ b ++ x ++ c) := by
  induction x generalizing a b y with
  | nil =>
    rw [List.length_eq_zero_iff.1 h]
    rfl
  | cons s x ih =>
    cases y with
    | nil => cases h
    | cons t y =>
      have hrest := ih (a ++ [t]) (b ++ [s]) (Nat.succ.inj h)
      have hy : ((a.length + (s :: x).length + b.length : Nat) : Int) =
          (a ++ (s :: x) ++ b).length := by
        rw [List.length_append, List.length_append]
      have hy' : ((a.length + (s :: x).length + b.length : Nat) : Int) =
          (a ++ (t :: x) ++ b).length := by
        rw [List.length_append, List.length_append, List.length_cons, List.length_cons]
      have hnext : ((a.length + (s :: x).length + b.length : Nat) : Int) + 1 =
          ((a ++ [t]).length + x.length + (b ++ [s]).length : Nat) := by
        simp only [List.length_append, List.length_cons, List.length_nil]
        omega
      have hnext' : (a.length : Int) + 1 = ((a ++ [t]).length : Nat) := by
        rw [List.length_append, List.length_singleton, Nat.cast_add, Nat.cast_one]
      have hx : load (a ++ s :: x ++ b ++ t :: y ++ c) a.length = some s := by
        rw [List.append_assoc, List.append_assoc, List.append_assoc a]
        exact load_middle a s _
      have hy₁ : load (a ++ s :: x ++ b ++ t :: y ++ c)
          (a.length + (s :: x).length + b.length : Nat) = some t := by
        rw [hy, List.append_assoc _ (t :: y)]
        exact load_middle _ t _
      have hx₁ : store (a ++ s :: x ++ b ++ t :: y ++ c) a.length t =
          some (a ++ t :: x ++ b ++ t :: y ++ c) := by
        rw [List.append_assoc, List.append_assoc, List.append_assoc a, List.append_assoc _ (t :: y),
          List.append_assoc (a ++ t :: x), List.append_assoc a]
        exact store_middle a s _ t
      have hy₂ : store (a ++ t :: x ++ b ++ t :: y ++ c)
          (a.length + (s :: x).length + b.length : Nat) s =
          some (a ++ t :: x ++ b ++ s :: y ++ c) := by
        rw [hy', List.append_assoc _ (t :: y), List.append_assoc _ (s :: y)]
        exact store_middle _ t _ s
      generalize a.length + (s :: x).length + b.length = p at hy₁ hy₂ hnext ⊢
      rw [List.length_cons, exchLoop, hx, hy₁]
      simp only [hx₁, hy₂, Option.bind_eq_bind, Option.bind_some]
      rw [hnext, hnext']
      simp only [List.append_assoc, List.cons_append] at hrest ⊢
      exact hrest

theorem load_some (h : load m x = some c) : (0 ≤ x ∧ x < m.length) ∧ m[x.toNat]? = some c := by
  rw [load] at h
  split at h
  case isTrue hx =>
    obtain ⟨hlt, _⟩ := List.getElem?_eq_some_iff.1 h
    exact ⟨by omega, h⟩
  case isFalse => cases h

/-- Two bytes change places in any order. -/
theorem store_comm (hx : load m x = some z) (hy : load m y = some c) :
    ((store m x c).bind fun m => store m y z) = (store m y z).bind fun m => store m x c := by
  obtain ⟨hxin, hxm⟩ := load_some hx
  obtain ⟨hyin, hym⟩ := load_some hy
  have hset : (m.set x.toNat c).set y.toNat z = (m.set y.toNat z).set x.toNat c := by
    by_cases he : x.toNat = y.toNat
    · rw [he] at hxm ⊢
      rw [Option.some.inj (hxm.symm.trans hym)]
    · exact List.set_comm _ _ he
  simp only [store, if_pos hxin, if_pos hyin, Option.bind_some, List.length_set, hset]

/-- The pointers of `exch` may be given in any order. -/
theorem exchLoop_comm (n : Nat) (x y : Int) (m : List UInt8) :
    exchLoop n x y m = exchLoop n y x m := by
  induction n generalizing x y m with
  | zero => rfl
  | succ n ih =>
    rw [exchLoop, exchLoop]
    cases hx : load m x with
    | none => cases load m y <;> rfl
    | some z =>
      cases hy : load m y with
      | none => rfl
      | some c =>
        simp only [Option.bind_eq_bind, Option.bind_some, ← Option.bind_assoc, store_comm hx hy,
          ih (x + 1)]

theorem exchLoop_self (a x b : List UInt8) :
    exchLoop x.length a.length a.length (a ++ x ++ b) = some (a ++ x ++ b) := by
  induction x generalizing a with
  | nil => rfl
  | cons c x ih =>
    have hrest := ih (a ++ [c])
    rw [List.length_append, List.length_singleton, Nat.cast_add, Nat.cast_one,
      List.append_assoc a, List.singleton_append] at hrest
    have hload : load (a ++ c :: x ++ b) a.length = some c := by
      rw [List.append_assoc]
      exact load_middle a c _
    have hstore : store (a ++ c :: x ++ b) a.length c = some (a ++ c :: x ++ b) := by
      rw [List.append_assoc]
      exact store_middle a c _ c
    rw [List.length_cons, exchLoop, hload]
    simp only [hstore, Option.bind_eq_bind, Option.bind_some]
    exact hrest

section Elements
variable {size : Nat} {a : List (List.Vector UInt8 size)} {i j : Int}

/-- The bytes of the elements of an array. -/
def bytes (a : List (List.Vector UInt8 size)) : List UInt8 := a.flatMap List.Vector.toList

theorem length_bytes (a : List (List.Vector UInt8 size)) : (bytes a).length = a.length * size := by
  induction a with
  | nil => rw [bytes, List.flatMap_nil, List.length_nil, List.length_nil, Nat.zero_mul]
  | cons x a ih =>
    have hcons : bytes (x :: a) = x.toList ++ bytes a := List.flatMap_cons
    rw [hcons, List.length_append, ih, List.Vector.toList_length, List.length_cons, Nat.succ_mul,
      Nat.add_comm]

theorem bytes_append (a b : List (List.Vector UInt8 size)) : bytes (a ++ b) = bytes a ++ bytes b :=
  List.flatMap_append

theorem bytes_cons (x : List.Vector UInt8 size) (a : List (List.Vector UInt8 size)) :
    bytes (x :: a) = x.toList ++ bytes a := List.flatMap_cons

/-- An array around one of its elements. -/
theorem exists_around (hi : 0 ≤ i) (h : i < a.length) :
    ∃ b c, a = b ++ item a i :: c ∧ (b.length : Int) = i := by
  obtain ⟨hlt, he⟩ := item_eq a h hi
  refine ⟨a.take i.toNat, a.drop (i.toNat + 1), ?_, ?_⟩
  · rw [he, ← List.drop_eq_getElem_cons hlt, List.take_append_drop]
  · rw [List.length_take]
    omega

theorem loadBytes_item (hi : 0 ≤ i) (h : i < a.length) :
    loadBytes (bytes a) (i * size) size = some (item a i) := by
  obtain ⟨b, c, ha, rfl⟩ := exists_around hi h
  have hload := loadBytes_middle (bytes b) (item a b.length) (bytes c)
  rw [length_bytes, Nat.cast_mul] at hload
  rw [← hload, List.append_assoc, ← bytes_cons, ← bytes_append, ← ha]

theorem compareAt_eq (compare : List.Vector UInt8 size → List.Vector UInt8 size → Int)
    (hi : 0 ≤ i) (h : i < a.length) (hj : 0 ≤ j) (h' : j < a.length) :
    compareAt compare (bytes a) i j = some (compare (item a i) (item a j)) := by
  rw [compareAt, loadBytes_item hi h, loadBytes_item hj h']
  rfl

theorem exists_around_two (hi : 0 ≤ i) (hij : i < j) (hj : j < a.length) :
    ∃ b d e, a = b ++ item a i :: (d ++ item a j :: e) ∧ (b.length : Int) = i ∧
      ((b.length + 1 + d.length : Nat) : Int) = j := by
  obtain ⟨b, rest, ha, rfl⟩ := exists_around hi (Int.lt_trans hij hj)
  have hlen : a.length = b.length + (rest.length + 1) := by
    have hlen := congrArg List.length ha
    rwa [List.length_append, List.length_cons] at hlen
  obtain ⟨d, e, hc, hd⟩ := exists_around (a := rest) (i := j - b.length - 1) (by omega) (by omega)
  have hitem : item rest (j - b.length - 1) = item a j := by
    have hnat : j.toNat = b.length + ((j - b.length - 1).toNat + 1) := by omega
    have hget : a[j.toNat]? = rest[(j - b.length - 1).toNat]? := by
      rw [ha, hnat, List.getElem?_append_right (Nat.le_add_right _ _), Nat.add_sub_cancel_left,
        List.getElem?_cons_succ]
    rw [item, item, List.getD_eq_getElem?_getD, List.getD_eq_getElem?_getD, hget]
  refine ⟨b, d, e, ?_, rfl, by omega⟩
  rw [← hitem, ← hc]
  exact ha

theorem swap_around (b d e : List (List.Vector UInt8 size)) (x y : List.Vector UInt8 size) :
    ((b ++ x :: (d ++ y :: e)).set b.length y).set (b.length + 1 + d.length) x =
      b ++ y :: (d ++ x :: e) := by
  have hle : b.length ≤ b.length + 1 + d.length := by omega
  have hsub : b.length + 1 + d.length - b.length = d.length + 1 := by omega
  rw [List.set_append_right _ _ (Nat.le_refl _), Nat.sub_self, List.set_cons_zero,
    List.set_append_right _ _ hle, hsub, List.set_cons_succ,
    List.set_append_right _ _ (Nat.le_refl _), Nat.sub_self, List.set_cons_zero]

theorem exch_lt (hi : 0 ≤ i) (hij : i < j) (hj : j < a.length) :
    exch (bytes a) size i j = some (bytes (swap a i j)) := by
  obtain ⟨b, d, e, ha, hb, hd⟩ := exists_around_two hi hij hj
  have hswap : swap a i j = b ++ item a j :: (d ++ item a i :: e) := by
    have hset := swap_around b d e (item a i) (item a j)
    rw [← ha] at hset
    rw [swap, ← hb, ← hd, Int.toNat_natCast, Int.toNat_natCast, hb, hd]
    exact hset
  have hx : (item a i).toList.length = size := List.Vector.toList_length _
  have hlen : (item a j).toList.length = (item a i).toList.length := by
    rw [hx, List.Vector.toList_length]
  have hfrom : i * size = ((bytes b).length : Nat) := by
    rw [← hb, length_bytes, Nat.cast_mul]
  have hto : j * size = ((bytes b).length + (item a i).toList.length + (bytes d).length : Nat) := by
    rw [← hd, length_bytes, length_bytes, hx, ← Nat.cast_mul, Nat.add_mul, Nat.add_mul, Nat.one_mul]
  have hrun := exchLoop_middle (bytes b) (bytes d) (bytes e) hlen
  rw [exch, hfrom, hto]
  nth_rewrite 1 [← hx]
  simp only [List.append_assoc] at hrun
  rw [hswap]
  nth_rewrite 3 [ha]
  simp only [bytes_append, bytes_cons]
  exact hrun

/-- `exch` swaps two elements. -/
theorem exch_eq (hi : 0 ≤ i) (hi' : i < a.length) (hj : 0 ≤ j) (hj' : j < a.length) :
    exch (bytes a) size i j = some (bytes (swap a i j)) := by
  rcases Int.lt_trichotomy i j with hij | rfl | hji
  · exact exch_lt hi hij hj'
  · obtain ⟨b, c, ha, hb⟩ := exists_around hi hi'
    have hswap : swap a i i = a := by
      obtain ⟨hlt, he⟩ := item_eq a hi' hi
      rw [swap, List.set_set, he, List.set_getElem_self]
    have hx : (item a i).toList.length = size := List.Vector.toList_length _
    have hat : i * size = ((bytes b).length : Nat) := by
      rw [← hb, length_bytes, Nat.cast_mul]
    have hrun := exchLoop_self (bytes b) (item a i).toList (bytes c)
    rw [hx, List.append_assoc, ← bytes_cons, ← bytes_append, ← ha] at hrun
    rw [hswap, exch, hat]
    exact hrun
  · have hrun := exch_lt hj hji hi'
    rw [exch, exchLoop_comm, swap_comm]
    exact hrun

end Elements

end BigBox.Sort
