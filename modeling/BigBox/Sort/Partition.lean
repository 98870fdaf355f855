import BigBox.Sort.Qsort

namespace BigBox.Sort
open Rearrange
set_option autoImplicit true

/-- A comparison that is a total preorder. -/
structure Preorders (compare : α → α → Int) : Prop where
  swap : ∀ x y, compare x y < 0 ↔ 0 < compare y x
  trans : ∀ x y z, compare x y ≤ 0 → compare y z ≤ 0 → compare x z ≤ 0

section Preorders
variable {compare : α → α → Int} {x y z : α}

theorem Preorders.refl (h : Preorders compare) (x : α) : compare x x ≤ 0 := by
  have hswap := h.swap x x
  omega

theorem Preorders.nonneg_iff (h : Preorders compare) : 0 ≤ compare x y ↔ compare y x ≤ 0 := by
  have hswap := h.swap x y
  omega

theorem Preorders.zero_comm (h : Preorders compare) (he : compare x y = 0) : compare y x = 0 := by
  have hswap := h.swap x y
  have hswap' := h.swap y x
  omega

theorem Preorders.lt_of_lt_of_le (h : Preorders compare) (hxy : compare x y < 0)
    (hyz : compare y z ≤ 0) : compare x z < 0 := by
  have hxz := h.trans x y z (Int.le_of_lt hxy) hyz
  by_contra hno
  have hzx : compare z x ≤ 0 := h.nonneg_iff.1 (Int.not_lt.1 hno)
  have hyx := h.trans y z x hyz hzx
  have hswap := h.swap x y
  omega

end Preorders

section Scans
variable {size : Nat} {compare : List.Vector UInt8 size → List.Vector UInt8 size → Int}
  {a : List (List.Vector UInt8 size)} {i j l r : Int} {n : Nat}

variable (compare) in
theorem scanUp_eq (hi : -1 ≤ i) (hir : i < r) (hr : r < a.length) (hn : r - i ≤ n) :
    ∃ i', scanUp compare (bytes a) r n i = some i' ∧ i < i' ∧ i' ≤ r ∧
      (∀ k, i < k → k < i' → compare (item a k) (item a r) < 0) ∧
      (i' = r ∨ 0 ≤ compare (item a i') (item a r)) := by
  induction n generalizing i with
  | zero => omega
  | succ n ih =>
    rw [scanUp]
    by_cases hend : i + 1 = r
    · rw [if_pos hend]
      exact ⟨i + 1, rfl, by omega, by omega, fun k hk hk' => by omega, .inl hend⟩
    · rw [if_neg hend, compareAt_eq compare (by omega) (by omega) (by omega) hr]
      simp only [Option.bind_eq_bind, Option.bind_some]
      split
      case isTrue hlt =>
        obtain ⟨i', hrun, hii, hir', hless, hstop⟩ :=
          ih (i := i + 1) (by omega) (by omega) (by omega)
        refine ⟨i', hrun, by omega, hir', fun k hk hk' => ?_, hstop⟩
        by_cases hki : k = i + 1
        · rw [hki]
          exact hlt
        · exact hless k (by omega) hk'
      case isFalse hge =>
        exact ⟨i + 1, rfl, by omega, by omega, fun k hk hk' => by omega, .inr (Int.not_lt.1 hge)⟩

variable (compare) in
theorem scanDown_eq (hl : 0 ≤ l) (hlj : l < j) (hjr : j ≤ r) (hr : r < a.length) (hn : j - l ≤ n) :
    ∃ j', scanDown compare (bytes a) l r n j = some j' ∧ l ≤ j' ∧ j' < j ∧
      (∀ k, j' < k → k < j → compare (item a r) (item a k) < 0) ∧
      (j' = l ∨ 0 ≤ compare (item a r) (item a j')) := by
  induction n generalizing j with
  | zero => omega
  | succ n ih =>
    rw [scanDown, compareAt_eq compare (by omega) hr (by omega) (by omega)]
    simp only [Option.bind_eq_bind, Option.bind_some]
    split
    case isTrue hlt =>
      split
      case isTrue hend =>
        exact ⟨j - 1, rfl, by omega, by omega, fun k hk hk' => by omega, .inl hend⟩
      case isFalse hend =>
        obtain ⟨j', hrun, hlj', hjj, hmore, hstop⟩ :=
          ih (j := j - 1) (by omega) (by omega) (by omega)
        refine ⟨j', hrun, hlj', by omega, fun k hk hk' => ?_, hstop⟩
        by_cases hkj : k = j - 1
        · rw [hkj]
          exact hlt
        · exact hmore k hk (by omega)
    case isFalse hge =>
      exact ⟨j - 1, rfl, by omega, by omega, fun k hk hk' => by omega, .inr (Int.not_lt.1 hge)⟩

end Scans

section Partition
variable {size : Nat} {compare : List.Vector UInt8 size → List.Vector UInt8 size → Int}
  {a a' : List (List.Vector UInt8 size)} {i j l r p q : Int} {n : Nat}
  {v : List.Vector UInt8 size}

/-- Elements equal to `v` up to `p`, then smaller ones up to `i`. -/
structure Lower (compare : List.Vector UInt8 size → List.Vector UInt8 size → Int)
    (v : List.Vector UInt8 size) (l p i : Int) (a : List (List.Vector UInt8 size)) : Prop where
  start : l - 1 ≤ p
  stop : p ≤ i
  equal : ∀ k, l ≤ k → k ≤ p → compare (item a k) v = 0
  less : ∀ k, p < k → k ≤ i → compare (item a k) v < 0

/-- Larger elements from `j` on, then ones equal to `v` from `q` on. -/
structure Upper (compare : List.Vector UInt8 size → List.Vector UInt8 size → Int)
    (v : List.Vector UInt8 size) (j q r : Int) (a : List (List.Vector UInt8 size)) : Prop where
  start : j ≤ q
  stop : q ≤ r
  more : ∀ k, j ≤ k → k < q → compare v (item a k) < 0
  equal : ∀ k, q ≤ k → k < r → compare v (item a k) = 0

theorem Lower.congr (h : Lower compare v l p i a)
    (he : ∀ k, l ≤ k → k ≤ i → item a' k = item a k) : Lower compare v l p i a' := by
  refine ⟨h.start, h.stop, fun k hk hk' => ?_, fun k hk hk' => ?_⟩
  · rw [he k hk (Int.le_trans hk' h.stop)]
    exact h.equal k hk hk'
  · have hstart := h.start
    rw [he k (by omega) hk']
    exact h.less k hk hk'

theorem Upper.congr (h : Upper compare v j q r a)
    (he : ∀ k, j ≤ k → k < r → item a' k = item a k) : Upper compare v j q r a' := by
  refine ⟨h.start, h.stop, fun k hk hk' => ?_, fun k hk hk' => ?_⟩
  · have hstop := h.stop
    rw [he k hk (by omega)]
    exact h.more k hk hk'
  · rw [he k (Int.le_trans h.start hk) hk']
    exact h.equal k hk hk'

theorem Lower.extend (h : Lower compare v l p i a) (hii : i < i')
    (hless : ∀ k, i < k → k < i' → compare (item a k) v < 0) :
    Lower compare v l p (i' - 1) a := by
  have hstop := h.stop
  refine ⟨h.start, by omega, h.equal, fun k hk hk' => ?_⟩
  by_cases hki : k ≤ i
  · exact h.less k hk hki
  · exact hless k (by omega) (by omega)

theorem Upper.extend (h : Upper compare v j q r a) (hjj : j' < j)
    (hmore : ∀ k, j' < k → k < j → compare v (item a k) < 0) :
    Upper compare v (j' + 1) q r a := by
  have hstart := h.start
  refine ⟨by omega, h.stop, fun k hk hk' => ?_, h.equal⟩
  by_cases hkj : j ≤ k
  · exact h.more k hkj hk'
  · exact hmore k (by omega) (by omega)

/-- An element equal to `v` changes places with the first smaller one. -/
theorem Lower.park (h : Lower compare v l p (i - 1) a) (hl : 0 ≤ l) (hi : i < a.length)
    (he : compare (item a i) v = 0) : Lower compare v l (p + 1) i (swap a (p + 1) i) := by
  have hstart := h.start
  have hstop := h.stop
  have hitem := fun k (hk : 0 ≤ k) =>
    item_swap (a := a) (i := p + 1) (j := i) (by omega) (by omega) (by omega) hi hk
  refine ⟨by omega, by omega, fun k hk hk' => ?_, fun k hk hk' => ?_⟩
  · rw [hitem k (by omega)]
    by_cases hki : k = p + 1
    · by_cases hki' : k = i
      · rw [if_pos hki', ← hki, hki']
        exact he
      · rw [if_neg hki', if_pos hki]
        exact he
    · rw [if_neg (by omega), if_neg hki]
      exact h.equal k hk (by omega)
  · rw [hitem k (by omega)]
    by_cases hki : k = i
    · rw [if_pos hki]
      exact h.less (p + 1) (by omega) (by omega)
    · rw [if_neg hki, if_neg (by omega)]
      exact h.less k (by omega) (by omega)

/-- An element equal to `v` changes places with the last larger one. -/
theorem Upper.park (h : Upper compare v (j + 1) q r a) (hj : 0 ≤ j) (hr : r < a.length)
    (he : compare v (item a j) = 0) : Upper compare v j (q - 1) r (swap a j (q - 1)) := by
  have hstart := h.start
  have hstop := h.stop
  have hitem := fun k (hk : 0 ≤ k) =>
    item_swap (a := a) (i := j) (j := q - 1) hj (by omega) (by omega) (by omega) hk
  refine ⟨by omega, by omega, fun k hk hk' => ?_, fun k hk hk' => ?_⟩
  · rw [hitem k (by omega), if_neg (by omega)]
    by_cases hkj : k = j
    · rw [if_pos hkj]
      exact h.more (q - 1) (by omega) (by omega)
    · rw [if_neg hkj]
      exact h.more k (by omega) (by omega)
  · rw [hitem k (by omega)]
    by_cases hkq : k = q - 1
    · rw [if_pos hkq]
      exact he
    · rw [if_neg hkq, if_neg (by omega)]
      exact h.equal k (by omega) hk'

theorem Lower.push (h : Lower compare v l p (i - 1) a) (hless : compare (item a i) v < 0) :
    Lower compare v l p i a := by
  have hstop := h.stop
  refine ⟨h.start, by omega, h.equal, fun k hk hk' => ?_⟩
  by_cases hki : k = i
  · rw [hki]
    exact hless
  · exact h.less k hk (by omega)

theorem Upper.push (h : Upper compare v (j + 1) q r a) (hmore : compare v (item a j) < 0) :
    Upper compare v j q r a := by
  have hstart := h.start
  refine ⟨by omega, h.stop, fun k hk hk' => ?_, h.equal⟩
  by_cases hkj : k = j
  · rw [hkj]
    exact hmore
  · exact h.more k (by omega) hk'

/-- What the partition ends with. -/
structure Split (compare : List.Vector UInt8 size → List.Vector UInt8 size → Int)
    (v : List.Vector UInt8 size) (l r i p q : Int) (a : List (List.Vector UInt8 size)) : Prop where
  lower : Lower compare v l p (i - 1) a
  hiq : i ≤ q
  hqr : q ≤ r
  atLeast : ∀ k, i ≤ k → k < q → compare v (item a k) ≤ 0
  equal : ∀ k, q ≤ k → k < r → compare v (item a k) = 0
  pivot : item a r = v

/-- The scans have met. -/
theorem Upper.split (hcmp : Preorders compare) (hlower : Lower compare v l p i a)
    (hupper : Upper compare v j q r a) (hpivot : item a r = v) (hij : i < j) (hii : i < i')
    (hir : i' ≤ r) (hless : ∀ k, i < k → k < i' → compare (item a k) v < 0)
    (hstop : i' = r ∨ 0 ≤ compare (item a i') v) (hjj : j' < j)
    (hmore : ∀ k, j' < k → k < j → compare v (item a k) < 0) (hmeet : i' ≥ j') :
    Split compare v l r i' p q a := by
  have hstart := hupper.start
  have hend := hupper.stop
  have hiq : i' ≤ q := by
    by_contra hno
    have hq := hupper.equal q (Int.le_refl q) (by omega)
    have hlt := hless q (by omega) (by omega)
    rw [hcmp.zero_comm hq] at hlt
    exact absurd hlt (by decide)
  refine ⟨hlower.extend hii hless, hiq, hend, fun k hk hk' => ?_, hupper.equal, hpivot⟩
  have hupper' := hupper.extend hjj hmore
  by_cases hkj : k = j'
  · have hki : k = i' := by omega
    rw [hki]
    exact hcmp.nonneg_iff.1 (hstop.resolve_left (by omega))
  · exact Int.le_of_lt (hupper'.more k (by omega) hk')

theorem parkLeft_eq (hl : 0 ≤ l) (h : Lower compare v l p (i - 1) a) (hir : i < r)
    (hr : r < a.length) (hpivot : item a r = v) (hle : compare (item a i) v ≤ 0) :
    ∃ p' a', parkLeft exch compare (bytes a) r i p = some (p', bytes a') ∧
      Rearranged l i a a' ∧ Lower compare v l p' i a' := by
  have hstart := h.start
  have hstop := h.stop
  rw [parkLeft, compareAt_eq compare (by omega) (by omega) (by omega) hr, hpivot]
  simp only [Option.bind_eq_bind, Option.bind_some]
  by_cases he : compare (item a i) v = 0
  · refine ⟨p + 1, swap a (p + 1) i, ?_, ?_, h.park hl (by omega) he⟩
    · rw [if_pos he, exch_eq (by omega) (by omega) (by omega) (by omega)]
      rfl
    · exact rearranged_swap hl (by omega) (by omega) (by omega) (by omega) (by omega)
  · exact ⟨p, a, if_neg he, rearranged_refl l i a, h.push (by omega)⟩

theorem parkRight_eq (hj : 0 ≤ j) (h : Upper compare v (j + 1) q r a) (hr : r < a.length)
    (hpivot : item a r = v) (hle : compare v (item a j) ≤ 0) :
    ∃ q' a', parkRight exch compare (bytes a) r j q = some (q', bytes a') ∧
      Rearranged j (r - 1) a a' ∧ Upper compare v j q' r a' := by
  have hstart := h.start
  have hstop := h.stop
  rw [parkRight, compareAt_eq compare (by omega) hr hj (by omega), hpivot]
  simp only [Option.bind_eq_bind, Option.bind_some]
  by_cases he : compare v (item a j) = 0
  · refine ⟨q - 1, swap a j (q - 1), ?_, ?_, h.park hj hr he⟩
    · rw [if_pos he, exch_eq (by omega) (by omega) (by omega) (by omega)]
      rfl
    · exact rearranged_swap hj (by omega) (by omega) (by omega) (by omega) (by omega)
  · exact ⟨q, a, if_neg he, rearranged_refl j (r - 1) a, h.push (by omega)⟩

/-- The partition ends, and puts the elements on the sides they belong to. -/
theorem partition_eq {m : Nat} (hcmp : Preorders compare) (hl : 0 ≤ l) (hr : r < a.length)
    (hrounds : r - l < m) (hlower : Lower compare v l p i a)
    (hupper : Upper compare v j q r a) (hpivot : item a r = v) (hij : i < j) (hlj : l < j)
    (hn : j - i < n) :
    ∃ i' p' q' a', partition exch compare m l r n i j p q (bytes a) =
        some (i', p', q', bytes a') ∧
      Rearranged l (r - 1) a a' ∧ Split compare v l r i' p' q' a' := by
  induction n generalizing i j p q a with
  | zero => omega
  | succ n ih =>
    have hpl := hlower.start
    have hpi := hlower.stop
    have hjq := hupper.start
    have hqr := hupper.stop
    obtain ⟨i', hup, hii, hir, hless, hstop⟩ :=
      scanUp_eq compare (i := i) (n := m) (by omega) (by omega) hr (by omega)
    obtain ⟨j', hdown, hlj', hjj, hmore, hstop'⟩ :=
      scanDown_eq compare (j := j) (n := m) hl hlj (by omega) hr (by omega)
    rw [hpivot] at hless hstop hmore hstop'
    rw [partition, hup]
    simp only [hdown, Option.bind_eq_bind, Option.bind_some]
    by_cases hmeet : i' ≥ j'
    · rw [if_pos hmeet]
      exact ⟨i', p, q, a, rfl, rearranged_refl _ _ a,
        hupper.split hcmp hlower hpivot hij hii hir hless hstop hjj hmore hmeet⟩
    · rw [if_neg hmeet]
      have hitem := fun k (hk : 0 ≤ k) =>
        item_swap (a := a) (i := i') (j := j') (by omega) (by omega) (by omega) (by omega) hk
      have hr' : r < (swap a i' j').length := by rwa [length_swap]
      have hleft : item (swap a i' j') i' = item a j' := by
        rw [hitem i' (by omega), if_neg (by omega), if_pos rfl]
      have hright : item (swap a i' j') j' = item a i' := by
        rw [hitem j' (by omega), if_pos rfl]
      have hother : ∀ k, 0 ≤ k → k ≠ i' → k ≠ j' → item (swap a i' j') k = item a k :=
        fun k hk hki hkj => by rw [hitem k hk, if_neg hkj, if_neg hki]
      have hpivot₁ : item (swap a i' j') r = v :=
        (hother r (by omega) (by omega) (by omega)).trans hpivot
      have hle : compare (item (swap a i' j') i') v ≤ 0 := by
        rw [hleft]
        exact hcmp.nonneg_iff.1 (hstop'.resolve_left (by omega))
      have hlower₁ : Lower compare v l p (i' - 1) (swap a i' j') :=
        (hlower.extend hii hless).congr fun k hk hk' => hother k (by omega) (by omega) (by omega)
      obtain ⟨p', a₂, hpark, hre₂, hlower₂⟩ :=
        parkLeft_eq hl hlower₁ (by omega) hr' hpivot₁ hle
      have hsame₂ : ∀ k, i' < k → item a₂ k = item (swap a i' j') k := fun k hk =>
        hre₂.apart k (by omega) (.inr hk)
      have hr₂ : r < a₂.length := by rwa [hre₂.length_eq]
      have hpivot₂ : item a₂ r = v := (hsame₂ r (by omega)).trans hpivot₁
      have hge : compare v (item a₂ j') ≤ 0 := by
        rw [hsame₂ j' (by omega), hright]
        exact hcmp.nonneg_iff.1 (hstop.resolve_left (by omega))
      have hupper₂ : Upper compare v (j' + 1) q r a₂ :=
        (hupper.extend hjj hmore).congr fun k hk hk' =>
          (hsame₂ k (by omega)).trans (hother k (by omega) (by omega) (by omega))
      obtain ⟨q', a₃, hpark', hre₃, hupper₃⟩ := parkRight_eq (by omega) hupper₂ hr₂ hpivot₂ hge
      have hr₃ : r < a₃.length := by rwa [hre₃.length_eq]
      have hpivot₃ : item a₃ r = v := (hre₃.apart r (by omega) (.inr (by omega))).trans hpivot₂
      have hlower₃ : Lower compare v l p' i' a₃ :=
        hlower₂.congr fun k hk hk' => hre₃.apart k (by omega) (.inl (by omega))
      have hre : Rearranged l (r - 1) a a₃ :=
        ((rearranged_swap hl (by omega) (by omega) (by omega) (by omega) (by omega)).trans
          (hre₂.widen (Int.le_refl l) (by omega) hl)).trans
          (hre₃.widen (by omega) (Int.le_refl _) hl)
      obtain ⟨i'', p'', q'', a'', hrun, hre', hsplit⟩ :=
        ih hr₃ hlower₃ hupper₃ hpivot₃ (by omega) (by omega) (by omega)
      refine ⟨i'', p'', q'', a'', ?_, hre.trans hre', hsplit⟩
      rw [exch_eq (by omega) (by omega) (by omega) (by omega)]
      simp only [hpark, hpark', Option.bind_some]
      exact hrun

end Partition

end BigBox.Sort
