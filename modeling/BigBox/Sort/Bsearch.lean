import BigBox.Sort.QsortSorts

namespace BigBox.Sort
open Rearrange
set_option autoImplicit true

section Bsearch
variable {size : Nat} {compare : List.Vector UInt8 size → List.Vector UInt8 size → Int}
  {a b : List (List.Vector UInt8 size)} {key : List.Vector UInt8 size} {start stop n : Nat}

/-- The result is the place of an element that compares equal to the key, or there is none. -/
structure Found (compare : List.Vector UInt8 size → List.Vector UInt8 size → Int)
    (a : List (List.Vector UInt8 size)) (key : List.Vector UInt8 size) (result : Option Nat) :
    Prop where
  place : ∀ off, result = some off → ∃ k x, a[k]? = some x ∧ off = k * size ∧ compare key x = 0
  isSome : result.isSome ↔ ∃ x ∈ a, compare key x = 0

/-- The search ends: in front of `start` the key is larger, from `stop` on it is smaller. -/
theorem bsearchLoop_eq (hcmp : Preorders compare)
    (hsorted : SortedOn (fun x y => compare x y ≤ 0) 0 (a.length - 1) a)
    (hstop : stop ≤ a.length) (hn : stop - start < n)
    (hbefore : ∀ k : Nat, k < start → 0 < compare key (item a k))
    (hbehind : ∀ k : Nat, stop ≤ k → k < a.length → compare key (item a k) < 0) :
    ∃ result, bsearchLoop (bytes a) key compare n start stop = some result ∧
      Found compare a key result := by
  induction n generalizing start stop with
  | zero => exact (Nat.not_lt_zero _ hn).elim
  | succ n ih =>
    rw [bsearchLoop]
    by_cases hlt : start < stop
    · obtain ⟨mid, hmid⟩ : ∃ mid, mid = start + (stop - start) / 2 := ⟨_, rfl⟩
      have hload : loadBytes (bytes a) (mid * size : Nat) size = some (item a mid) := by
        rw [Nat.cast_mul]
        exact loadBytes_item (Int.natCast_nonneg _) (by omega)
      rw [if_pos hlt, ← hmid]
      simp only [hload, Option.bind_eq_bind, Option.bind_some]
      by_cases hless : compare key (item a mid) < 0
      · rw [if_pos hless]
        apply ih (by omega) (by omega) hbefore
        intro k hk hk'
        exact hcmp.lt_of_lt_of_le hless (hsorted mid k (by omega) (by omega) (by omega))
      · rw [if_neg hless]
        by_cases hmore : compare key (item a mid) > 0
        · rw [if_pos hmore]
          apply ih hstop (by omega) _ hbehind
          intro k hk
          have hle := hsorted k mid (by omega) (by omega) (by omega)
          by_contra hno
          have hkey := hcmp.trans key (item a k) (item a mid) (Int.not_lt.1 hno) hle
          omega
        · rw [if_neg hmore]
          have hzero : compare key (item a mid) = 0 := by omega
          obtain ⟨hin, hitem⟩ := item_eq a (i := mid) (by omega) (by omega)
          rw [Int.toNat_natCast] at hin
          simp only [Int.toNat_natCast] at hitem
          refine ⟨some (mid * size), rfl, fun off hoff => ?_, iff_of_true rfl ?_⟩
          · cases hoff
            exact ⟨mid, item a mid, by rw [List.getElem?_eq_getElem hin, hitem], rfl, hzero⟩
          · exact ⟨item a mid, by rw [hitem]; exact List.getElem_mem hin, hzero⟩
    · rw [if_neg hlt]
      refine ⟨none, rfl, nofun, iff_of_false Bool.false_ne_true ?_⟩
      rintro ⟨x, hx, hzero⟩
      obtain ⟨k, hk, rfl⟩ := List.getElem_of_mem hx
      obtain ⟨_, hitem⟩ := item_eq a (i := k) (by omega) (by omega)
      simp only [Int.toNat_natCast] at hitem
      rw [← hitem] at hzero
      by_cases hks : k < start
      · have hpos := hbefore k hks
        omega
      · have hneg := hbehind k (by omega) hk
        omega

theorem bytes_inj (h : bytes a = bytes b) (hlen : a.length = b.length) : a = b := by
  induction a generalizing b with
  | nil => exact (List.length_eq_zero_iff.1 hlen.symm).symm
  | cons x a ih =>
    cases b with
    | nil => cases hlen
    | cons y b =>
      rw [bytes_cons, bytes_cons] at h
      have hxy : x.toList.length = y.toList.length := by
        rw [List.Vector.toList_length, List.Vector.toList_length]
      obtain ⟨hx, ha⟩ := List.append_inj h hxy
      rw [List.Vector.toList_injective hx, ih ha (Nat.succ.inj hlen)]

variable {xjExch : List UInt8 → Nat → Int → Int → Option (List UInt8)} {fuel : Nat}

theorem pairwise_of_short {R : α → α → Prop} {l : List α} (h : l.length ≤ 1) : l.Pairwise R := by
  match l, h with
  | [], _ => exact .nil
  | [x], _ => exact List.pairwise_singleton _ x

/-- What `qsort` leaves, unless it is told that there are 2147483647 elements. -/
theorem qsort_eq (hcmp : Preorders compare)
    (hxj : ∀ m size i j, xjExch m size i j = exch m size i j) (hn : a.length < 2147483647)
    (hbytes : a.length * size ≤ 2147483647) (hfuel : a.length < fuel) :
    ∃ b, qsort xjExch fuel (bytes a) a.length size compare = some (bytes b) ∧ b.Perm a ∧
      b.Pairwise fun x y => compare x y ≤ 0 := by
  obtain rfl : xjExch = exch :=
    funext fun m => funext fun size => funext fun i => funext fun j => hxj m size i j
  rw [qsort]
  by_cases hguard : (a.length : Int) % 4294967296 ≥ 2147483647 ∨ size ≥ 2147483647
  · rw [if_pos hguard]
    refine ⟨a, rfl, .refl a, pairwise_of_short ?_⟩
    have hsize : 2147483647 ≤ size := hguard.resolve_left (by omega)
    by_contra hmore
    have hmul : 2 * 2147483647 ≤ a.length * size := Nat.mul_le_mul (by omega) hsize
    omega
  · rw [if_neg hguard]
    by_cases hmore : (a.length : Int) > 1
    · rw [if_pos hmore]
      obtain ⟨b, hrun, hre, hsorted⟩ := quicksort_eq (n := fuel) (l := 0) (r := a.length - 1)
        (a := a) hcmp (Int.le_refl 0) (by omega) (by omega) (by omega)
      rw [← hre.length_eq] at hsorted
      exact ⟨b, hrun, hre.perm, hsorted.pairwise⟩
    · rw [if_neg hmore]
      exact ⟨a, rfl, .refl a, pairwise_of_short (by omega)⟩

theorem bsearch_found (hcmp : Preorders compare)
    (hsorted : b.Pairwise fun x y => compare x y ≤ 0) (hfuel : b.length < fuel)
    (key : List.Vector UInt8 size) :
    ∃ result, bsearch fuel (bytes b) key b.length compare = some result ∧
      Found compare b key result := by
  apply bsearchLoop_eq hcmp (sortedOn_of_pairwise hcmp.refl hsorted) (Nat.le_refl _) hfuel
  · intro k hk
    exact (Nat.not_lt_zero k hk).elim
  · intro k hk hk'
    exact (Nat.not_lt.2 hk hk').elim

/-- `qsort` ends within the array, with the elements in order, and `bsearch` then finds what is
there, exactly when there are fewer than 2147483647 elements or they are in order before. -/
theorem qsort_bsearch_iff (hcmp : Preorders compare)
    (hxj : ∀ m size i j, xjExch m size i j = exch m size i j) (hn : a.length ≤ 2147483647)
    (hbytes : a.length * size ≤ 2147483647) (hfuel : a.length < fuel) :
    (∃ b, qsort xjExch fuel (bytes a) a.length size compare = some (bytes b) ∧ b.Perm a ∧
      (b.Pairwise fun x y => compare x y ≤ 0) ∧
      ∀ key, ∃ result, bsearch fuel (bytes b) key b.length compare = some result ∧
        Found compare b key result) ↔
    a.length < 2147483647 ∨ a.Pairwise fun x y => compare x y ≤ 0 := by
  constructor
  · rintro ⟨b, hrun, hperm, hsorted, _⟩
    by_cases hlt : a.length < 2147483647
    · exact .inl hlt
    · have hguard : (a.length : Int) % 4294967296 ≥ 2147483647 ∨ size ≥ 2147483647 := by omega
      rw [qsort, if_pos hguard] at hrun
      have hsame : a = b := bytes_inj (Option.some.inj hrun) hperm.length_eq.symm
      exact .inr (hsame ▸ hsorted)
  · intro hok
    obtain ⟨b, hrun, hperm, hsorted⟩ : ∃ b, qsort xjExch fuel (bytes a) a.length size compare =
        some (bytes b) ∧ b.Perm a ∧ b.Pairwise fun x y => compare x y ≤ 0 := by
      by_cases hlt : a.length < 2147483647
      · exact qsort_eq hcmp hxj hlt hbytes hfuel
      · have hguard : (a.length : Int) % 4294967296 ≥ 2147483647 ∨ size ≥ 2147483647 := by omega
        exact ⟨a, by rw [qsort, if_pos hguard], .refl a, hok.resolve_left hlt⟩
    exact ⟨b, hrun, hperm, hsorted,
      bsearch_found hcmp hsorted (by rw [hperm.length_eq]; exact hfuel)⟩

end Bsearch

section Witness

/-- Bytes in the order of their values. -/
def compareBytes (x y : List.Vector UInt8 1) : Int := (x.head.toNat : Int) - y.head.toNat

theorem compareBytes_preorders : Preorders compareBytes where
  swap := by
    intro x y
    unfold compareBytes
    omega
  trans := by
    intro x y z
    unfold compareBytes
    omega

def oneByte (c : UInt8) : List.Vector UInt8 1 := .cons c .nil

def threeBytes : List (List.Vector UInt8 1) := [oneByte 3, oneByte 1, oneByte 2]

theorem qsort_bsearch_iff_three :
    (∃ b, qsort exch 4 (bytes threeBytes) threeBytes.length 1 compareBytes = some (bytes b) ∧
      b.Perm threeBytes ∧ (b.Pairwise fun x y => compareBytes x y ≤ 0) ∧
      ∀ key, ∃ result, bsearch 4 (bytes b) key b.length compareBytes = some result ∧
        Found compareBytes b key result) ↔
    threeBytes.length < 2147483647 ∨ threeBytes.Pairwise fun x y => compareBytes x y ≤ 0 :=
  qsort_bsearch_iff compareBytes_preorders (fun _ _ _ _ => rfl) (by decide) (by decide) (by decide)

/-- 2147483647 bytes, only the first of them not 0. -/
def manyBytes : List (List.Vector UInt8 1) :=
  oneByte 1 :: oneByte 0 :: List.replicate 2147483645 (oneByte 0)

theorem not_qsort :
    ¬ ∃ b, qsort exch 2147483648 (bytes manyBytes) manyBytes.length 1 compareBytes =
        some (bytes b) ∧
      b.Perm manyBytes ∧ b.Pairwise fun x y => compareBytes x y ≤ 0 := by
  rintro ⟨b, hrun, hperm, hsorted⟩
  have hlen : manyBytes.length = 2147483647 := by
    rw [manyBytes, List.length_cons, List.length_cons, List.length_replicate]
  have hguard : (manyBytes.length : Int) % 4294967296 ≥ 2147483647 ∨ 1 ≥ 2147483647 := by
    rw [hlen]
    decide
  rw [qsort, if_pos hguard] at hrun
  have hsame : manyBytes = b := bytes_inj (Option.some.inj hrun) hperm.length_eq.symm
  rw [← hsame, manyBytes] at hsorted
  have hfirst := (List.pairwise_cons.1 hsorted).1 _ List.mem_cons_self
  exact absurd hfirst (by decide)

end Witness

end BigBox.Sort
