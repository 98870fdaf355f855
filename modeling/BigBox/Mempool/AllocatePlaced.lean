import BigBox.Mempool.ChunkAlloc
import BigBox.Mempool.Refill

namespace BigBox.Mempool
open Function
set_option autoImplicit true

/-- The pool `refill` carves its chunk from, after the region `malloc` returned if it asks. -/
def Pool.supplied (p : Pool) (size r : Nat) : Pool :=
  if size ≤ p.bytesLeft then p
  else { p with
    startFree := r
    endFree := r + (2 * (size * 20) + roundUp p.heapSize)
    heapSize := p.heapSize + (2 * (size * 20) + roundUp p.heapSize) }

namespace Pool

@[simp] theorem supplied_freeList (p : Pool) (size r : Nat) :
    (p.supplied size r).freeList = p.freeList := by
  unfold supplied
  split <;> rfl

@[simp] theorem supplied_mem (p : Pool) (size r : Nat) : (p.supplied size r).mem = p.mem := by
  unfold supplied
  split <;> rfl

@[simp] theorem supplied_listed (p : Pool) (size r : Nat) :
    (p.supplied size r).Listed b ↔ p.Listed b := by
  simp only [Listed, supplied_freeList, supplied_mem]

theorem supplied_startFree (p : Pool) (size r : Nat) :
    (p.supplied size r).startFree = p.carveStart size r := by
  unfold supplied carveStart
  split <;> rfl

theorem le_supplied_bytesLeft (p : Pool) (size r : Nat) : size ≤ (p.supplied size r).bytesLeft := by
  unfold supplied
  split
  case isTrue h => exact h
  case isFalse h =>
    simp only [bytesLeft, Nat.add_sub_cancel_left]
    omega

theorem supplied_carveCount (p : Pool) (hpos : 0 < size) (r : Nat) :
    min 20 ((p.supplied size r).bytesLeft / size) = p.carveCount size := by
  unfold supplied carveCount
  split
  case isTrue h => rfl
  case isFalse h =>
    simp only [bytesLeft, Nat.add_sub_cancel_left]
    apply Nat.min_eq_left
    rw [Nat.le_div_iff_mul_le hpos]
    omega

theorem carveCount_pos (p : Pool) (hpos : 0 < size) : 0 < p.carveCount size := by
  unfold carveCount
  split
  case isTrue h => exact Nat.lt_min.2 ⟨Nat.succ_pos _, Nat.div_pos h hpos⟩
  case isFalse h => exact Nat.succ_pos _

/-- Without a remainder in the unused range, a chunk is cut off the pool that is supplied. -/
theorem chunkAlloc_supplied (p : Pool) (hpos : 0 < size)
    (hleft : p.bytesLeft = 0 ∨ size ≤ p.bytesLeft) (hr : p.bytesLeft < size → r ≠ 0) :
    p.chunkAlloc size 20 [r] = (p.supplied size r).chunkAlloc size 20 [] := by
  by_cases hfits : size ≤ p.bytesLeft
  · have hsame : p.supplied size r = p := if_pos hfits
    rw [hsame, chunkAlloc_fits p hpos hfits, chunkAlloc_fits p hpos hfits]
  · have hzero : p.bytesLeft = 0 := hleft.resolve_right hfits
    have hall : ¬size * 20 ≤ p.bytesLeft := by omega
    obtain ⟨k, rfl⟩ := Nat.exists_eq_succ_of_ne_zero (hr (Nat.not_le.1 hfits))
    rw [chunkAlloc, if_neg (Nat.ne_of_gt hpos), if_neg hall, if_neg hfits, keepLeftover,
      if_pos hzero, supplied, if_neg hfits]
    rfl

theorem refill_supplied (p : Pool) (hpos : 0 < size)
    (hleft : p.bytesLeft = 0 ∨ size ≤ p.bytesLeft) (hr : p.bytesLeft < size → r ≠ 0) :
    p.refill size [r] = some (p.carveStart size r,
      (p.supplied size r).carved (freelistIndex size) size (p.carveCount size)) := by
  rw [refill, if_neg (Nat.ne_of_gt hpos), chunkAlloc_supplied p hpos hleft hr,
    chunkAlloc_fits _ hpos (le_supplied_bytesLeft p _ r), supplied_carveCount p hpos,
    Option.map_some, supplied_startFree, carved, supplied_startFree]
  by_cases hone : p.carveCount size = 1
  · simp only [if_pos hone]
  · simp only [if_neg hone]

end Pool

namespace Partition

/-- The pool `refill` carves from keeps the partition. -/
theorem supply (h : Partition H free) (hempty : H.pool.freeList (freelistIndex n) = 0)
    (hmalloc : H.pool.CallsMalloc n → r ≠ 0 ∧ ∀ g ∈ H.regions, (H.pool.asked n r).Apart g) :
    Partition { H with
      pool := H.pool.supplied (roundUp n) r
      regions := if H.pool.CallsMalloc n then H.pool.asked n r :: H.regions
        else H.regions } free := by
  by_cases hfits : roundUp n ≤ H.pool.bytesLeft
  · have hcalls : ¬H.pool.CallsMalloc n := fun hcalls => Nat.not_lt.2 hfits hcalls.2
    rw [Pool.supplied, if_pos hfits, if_neg hcalls]
    exact h
  · have hcalls : H.pool.CallsMalloc n := ⟨hempty, Nat.not_le.1 hfits⟩
    obtain ⟨hr, hfresh⟩ := hmalloc hcalls
    rw [Pool.supplied, if_neg hfits, if_pos hcalls]
    exact h.grow hr hfresh

/-- A clean `allocate` returns, and the regions stay divided. -/
theorem allocate (h : Partition H free) (hlegal : H.Legal (.allocate n r))
    (hclean : Clean H (.allocate n r)) :
    ∃ H' b free', H.step (.allocate n r) = some H' ∧ H'.live = b :: H.live ∧ n ≤ b.size ∧
      Partition H' free' := by
  obtain ⟨⟨hn, hn'⟩, hmalloc⟩ := hlegal
  obtain ⟨hpop, hrefill⟩ := hclean
  have hc := freelistIndex_lt hn hn'
  have hclass := classSize_freelistIndex hn
  have hpos := roundUp_pos hn
  have hnz : ¬n = 0 := Nat.ne_of_gt hn
  have hle : ¬MAX_BYTES < n := Nat.not_lt.2 hn'
  by_cases hempty : H.pool.freeList (freelistIndex n) = 0
  · have hr := hrefill hempty
    have hstep : H.pool.allocate n [r] = some (H.pool.carveStart (roundUp n) r,
        (H.pool.supplied (roundUp n) r).carved (freelistIndex n) (roundUp n)
          (H.pool.carveCount (roundUp n))) := by
      rw [Pool.allocate, if_neg hnz, if_neg hle, if_pos hempty, ← freelistIndex_roundUp]
      exact H.pool.refill_supplied hpos hr.noLeftover fun hlt => (hmalloc ⟨hempty, hlt⟩).1
    have hfit : roundUp n * H.pool.carveCount (roundUp n) ≤
        (H.pool.supplied (roundUp n) r).bytesLeft := by
      rw [← H.pool.supplied_carveCount hpos r]
      exact Nat.le_trans (Nat.mul_le_mul_left _ (Nat.min_le_right ..)) (Nat.mul_div_le ..)
    obtain ⟨-, hcarved, hlive, hlisted, hlast⟩ := hr
    have hstray : H.pool.newStray n r = beyondChunk (H.pool.supplied (roundUp n) r).startFree
        (roundUp n) (H.pool.carveCount (roundUp n)) := by
      rw [Pool.supplied_startFree]
      exact if_pos hempty
    rw [hstray] at hlive hlisted
    rw [← Pool.supplied_startFree] at hcarved hlast
    have hcarve := (h.supply hempty hmalloc).carve hc hclass.symm
      ((congrFun (H.pool.supplied_freeList _ r) _).trans hempty) (H.pool.carveCount_pos hpos) hfit
      hcarved hlive (fun t ht b hb => hlisted t ht b ((H.pool.supplied_listed _ r).1 hb))
      fun hone => (congrFun (H.pool.supplied_mem _ r) _).trans (hlast hone)
    refine ⟨_, _, _, ?_, rfl, le_roundUp n, hcarve⟩
    rw [History.step, hstep, Option.map_some, hstray, Pool.supplied_startFree]
  · have hstep : H.pool.allocate n [r] = some (H.pool.freeList (freelistIndex n),
        { H.pool with
          freeList := update H.pool.freeList (freelistIndex n)
            (H.pool.mem (H.pool.freeList (freelistIndex n))) }) := by
      rw [Pool.allocate, if_neg hnz, if_neg hle, if_neg hempty]
    have hcalls : ¬H.pool.CallsMalloc n := fun hcalls => hempty hcalls.1
    have hstray : H.pool.newStray n r = [] := if_neg hempty
    rw [← hclass] at hpop
    obtain ⟨free', hfree'⟩ := h.pop hc hempty hpop
    rw [hclass] at hfree'
    refine ⟨_, _, free', ?_, rfl, le_roundUp n, hfree'⟩
    rw [History.step, hstep, Option.map_some, if_neg hcalls, hstray, List.nil_append]

theorem step (h : Partition H free) (hlegal : H.Legal a) (hclean : Clean H a)
    (hstep : H.step a = some H') : ∃ free', Partition H' free' := by
  cases a with
  | allocate n r =>
    obtain ⟨H'', b, free', hstep', -, -, h'⟩ := h.allocate hlegal hclean
    rw [hstep, Option.some.injEq] at hstep'
    exact ⟨free', hstep' ▸ h'⟩
  | deallocate q n =>
    obtain ⟨⟨hn, hn'⟩, hb⟩ := hlegal
    rw [History.step, Option.some.injEq] at hstep
    exact ⟨_, hstep ▸ h.deallocate hn hn' hb⟩
  | store a w =>
    obtain ⟨b, hb, ha⟩ := hlegal
    rw [History.step, Option.some.injEq] at hstep
    exact ⟨free, hstep ▸ h.store hb ha w⟩

end Partition

theorem Possible.partition (h : Possible Clean H) : ∃ free, Partition H free := by
  apply h.invariant
  · rintro H ⟨mem, rfl⟩
    exact ⟨[], .init mem⟩
  · rintro H H' ⟨free, hp⟩ ⟨a, hlegal, hclean, hstep⟩
    exact hp.step hlegal hclean hstep

/-- In every run whose steps are clean, `allocate` returns a block in its own place. -/
theorem allocate_placed (h : Possible Clean H) (hlegal : H.Legal (.allocate n r))
    (hclean : Clean H (.allocate n r)) : AllocatesPlaced H n r := by
  obtain ⟨free, hp⟩ := h.partition
  obtain ⟨H', b, free', hstep, hlive, hsize, hp'⟩ := hp.allocate hlegal hclean
  exact ⟨H', b, hstep, hlive, hsize, hp'.placed hlive⟩

theorem cleanRefill_init : CleanRefill (.init fun _ => 0) 8 1024 where
  noLeftover := .inl rfl
  carved _ h := nomatch h
  apart_live _ _ _ h := nomatch h
  apart_listed _ _ _ h := by
    obtain ⟨c, -, -, hon⟩ := h
    exact absurd rfl hon.ne
  last_null _ := rfl

theorem allocate_placed_second :
    ∃ H, Possible Clean H ∧ H.live = [⟨1024, 8⟩] ∧ AllocatesPlaced H 8 0 := by
  have hinit : Possible Clean (.init fun _ => 0) := .init ⟨_, rfl⟩
  have hfirst := hinit.step ⟨.allocate 8 1024, ⟨by decide, fun _ => ⟨by decide, nofun⟩⟩,
    ⟨nofun, fun _ => cleanRefill_init⟩, rfl⟩
  refine ⟨_, hfirst, rfl, allocate_placed hfirst ⟨by decide, ?_⟩ ⟨by decide, ?_⟩⟩
  · exact fun h => absurd h.1 (by decide)
  · exact fun h => absurd h (by decide)

/-- A block of the free list is handed out, and the list goes on with what is stored in it. -/
theorem pop_possible {H : History} (h : Possible (fun _ _ => True) H)
    (hne : H.pool.freeList (freelistIndex 8) ≠ 0) :
    ∃ H', H.step (.allocate 8 0) = some H' ∧ Possible (fun _ _ => True) H' ∧
      H'.live = ⟨H.pool.freeList (freelistIndex 8), 8⟩ :: H.live ∧
      H'.pool.freeList (freelistIndex 8) = H.pool.mem (H.pool.freeList (freelistIndex 8)) ∧
      H'.pool.mem = H.pool.mem ∧ H'.pool.startFree = H.pool.startFree ∧
      H'.pool.endFree = H.pool.endFree := by
  have hallocate : H.pool.allocate 8 [0] = some (H.pool.freeList (freelistIndex 8),
      { H.pool with
        freeList := update H.pool.freeList (freelistIndex 8)
          (H.pool.mem (H.pool.freeList (freelistIndex 8))) }) := by
    rw [Pool.allocate, if_neg (by decide), if_neg (by decide), if_neg hne]
  obtain ⟨H', hstep, hpool, hlive⟩ : ∃ H', H.step (.allocate 8 0) = some H' ∧
      H'.pool = { H.pool with
        freeList := update H.pool.freeList (freelistIndex 8)
          (H.pool.mem (H.pool.freeList (freelistIndex 8))) } ∧
      H'.live = ⟨H.pool.freeList (freelistIndex 8), 8⟩ :: H.live := by
    rw [History.step, hallocate]
    exact ⟨_, rfl, rfl, rfl⟩
  refine ⟨H', hstep, ?_, hlive, ?_, ?_, ?_, ?_⟩
  · exact h.step ⟨.allocate 8 0, ⟨by decide, fun hc => absurd hc.1 hne⟩, trivial, hstep⟩
  · simp only [hpool, update_self]
  · rw [hpool]
  · rw [hpool]
  · rw [hpool]

/-- The fifth block of 8 bytes lies in the unused range. -/
theorem allocate_unplaced_fifth :
    ¬∀ H, Possible (fun _ _ => True) H →
      ∀ n r, H.Legal (.allocate n r) → AllocatesPlaced H n r := by
  intro hall
  have hinit : Possible (fun _ _ => True) (.init fun _ => 0) := .init ⟨_, rfl⟩
  obtain ⟨H₁, hstep, hlist, hnext, hstart, hend⟩ :
      ∃ H₁, (History.init fun _ => 0).step (.allocate 8 1024) = some H₁ ∧
        H₁.pool.freeList (freelistIndex 8) = 1032 ∧ (H₁.pool.mem 1032 = 1096 ∧
        H₁.pool.mem 1096 = 1160 ∧ H₁.pool.mem 1160 = 1224) ∧ H₁.pool.startFree = 1184 ∧
        H₁.pool.endFree = 1344 := ⟨_, rfl, by decide, by decide, by decide, by decide⟩
  obtain ⟨hfirst, hsecond, hthird⟩ := hnext
  have h₁ := hinit.step ⟨.allocate 8 1024, ⟨by decide, fun _ => ⟨by decide, nofun⟩⟩, trivial, hstep⟩
  obtain ⟨H₂, -, h₂, -, hlist₂, hmem₂, hstart₂, hend₂⟩ := pop_possible h₁ (by rw [hlist]; decide)
  rw [hlist, hfirst] at hlist₂
  obtain ⟨H₃, -, h₃, -, hlist₃, hmem₃, hstart₃, hend₃⟩ := pop_possible h₂ (by rw [hlist₂]; decide)
  rw [hlist₂, hmem₂, hsecond] at hlist₃
  obtain ⟨H₄, -, h₄, -, hlist₄, hmem₄, hstart₄, hend₄⟩ := pop_possible h₃ (by rw [hlist₃]; decide)
  rw [hlist₃, hmem₃, hmem₂, hthird] at hlist₄
  have hne : H₄.pool.freeList (freelistIndex 8) ≠ 0 := by
    rw [hlist₄]
    decide
  obtain ⟨H₅, hstep₅, -, hlive, -, -, hstart₅, hend₅⟩ := pop_possible h₄ hne
  obtain ⟨H', b, hstep', hlive', -, hplaced⟩ :=
    hall _ h₄ 8 0 ⟨by decide, fun hc => absurd hc.1 hne⟩
  obtain rfl := Option.some.inj (hstep₅.symm.trans hstep')
  obtain ⟨rfl, -⟩ := List.cons.inj (hlive.symm.trans hlive')
  rw [hlist₄] at hplaced
  apply hplaced.apart_unused 1224 ⟨by decide, by decide⟩
  have hunused : H₅.pool.startFree = 1184 ∧ H₅.pool.endFree = 1344 := by
    rw [hstart₅, hend₅, hstart₄, hend₄, hstart₃, hend₃, hstart₂, hend₂, hstart, hend]
    exact ⟨rfl, rfl⟩
  rw [Pool.unused, Pool.bytesLeft, hunused.1, hunused.2]
  exact ⟨by decide, by decide⟩

end BigBox.Mempool
