import BigBox.Mempool.Pool

namespace BigBox.Mempool
open Function
set_option autoImplicit true

/-- The memory that a request is served from: the unused range, the region that `malloc`
returned as `r`, or the first free block that is large enough. -/
def Pool.source (p : Pool) (size nobjs r : Nat) : Option Extent :=
  if size ≤ p.bytesLeft then some p.unused
  else if r ≠ 0 then some ⟨r, 2 * (size * nobjs) + roundUp p.heapSize⟩
  else (p.searchFreeList size).map fun i => ⟨p.freeList (freelistIndex i), i⟩

/-- Some of the blocks asked for are cut off the start of `e`, and the rest is unused. -/
structure Cut (e : Extent) (size nobjs result n : Nat) (p' : Pool) : Prop where
  start : result = e.start
  one_le : 1 ≤ n
  le : n ≤ nobjs
  fits : size * n ≤ e.size
  startFree : p'.startFree = e.start + size * n
  endFree : p'.endFree = e.start + e.size

/-- A tail too small for a block is in front of the rest of the free list of its size. -/
def Pool.KeepsTail (p p' : Pool) (size : Nat) : Prop :=
  p.bytesLeft < size → 0 < p.bytesLeft →
    ∃ nodes, Chain p.mem (p.freeList (freelistIndex p.bytesLeft)) nodes ∧
      Chain p'.mem (p'.freeList (freelistIndex p.bytesLeft)) (p.startFree :: nodes)

/-- `chunk_alloc` serves the request from its source. Without one it returns `NULL`, and no
memory is unused that was not unused before. -/
def Pool.Serves (p : Pool) (size nobjs r : Nat) : Prop :=
  ∃ result n p', p.chunkAlloc size nobjs [r] = some (result, n, p') ∧ p.KeepsTail p' size ∧
    (∀ e, p.source size nobjs r = some e → Cut e size nobjs result n p') ∧
      (p.source size nobjs r = none → result = 0 ∧ p'.unused ⊆ p.unused)

/-- The pool that the request is made of again, after `malloc` returned `r`. -/
def Pool.next (p : Pool) (size nobjs r : Nat) : Pool :=
  let bytesToGet := 2 * (size * nobjs) + roundUp p.heapSize
  if r ≠ 0 then
    { p with startFree := r, endFree := r + bytesToGet, heapSize := p.heapSize + bytesToGet }
  else
    match p.searchFreeList size with
    | some i =>
      let node := p.freeList (freelistIndex i)
      { p with
        freeList := update p.freeList (freelistIndex i) (p.mem node)
        startFree := node, endFree := node + i }
    | none => { p with startFree := 0, endFree := bytesToGet, heapSize := p.heapSize + bytesToGet }

namespace Pool

/-- A chunk is cut off an unused range that has room for a block. -/
theorem chunkAlloc_fits (p : Pool) (hpos : 0 < size) (h : size ≤ p.bytesLeft) (nobjs : Nat)
    (answers : List Nat) :
    p.chunkAlloc size nobjs answers = some (p.startFree, min nobjs (p.bytesLeft / size),
      { p with startFree := p.startFree + size * min nobjs (p.bytesLeft / size) }) := by
  rw [chunkAlloc, if_neg (Nat.ne_of_gt hpos)]
  by_cases hall : size * nobjs ≤ p.bytesLeft
  · have hmin : min nobjs (p.bytesLeft / size) = nobjs := by
      apply Nat.min_eq_left
      rw [Nat.le_div_iff_mul_le hpos, Nat.mul_comm]
      exact hall
    rw [if_pos hall, hmin]
  · have hmin : min nobjs (p.bytesLeft / size) = p.bytesLeft / size := by
      apply Nat.min_eq_right
      apply Nat.le_of_lt
      rw [Nat.div_lt_iff_lt_mul hpos, Nat.mul_comm]
      exact Nat.not_le.1 hall
    rw [if_neg hall, if_pos h, hmin]

/-- The links of the tail and of the first node of its list. -/
def crossed (p : Pool) : Nat → Nat :=
  update (update p.mem p.startFree (p.freeList (freelistIndex p.bytesLeft)))
    (p.freeList (freelistIndex p.bytesLeft)) p.startFree

theorem keepLeftover_some {p p' : Pool} (h : p.keepLeftover = some p') : p' = p ∧ p.bytesLeft = 0 ∨
    p' = { p with mem := p.crossed } ∧ 0 < p.bytesLeft ∧
      p.freeList (freelistIndex p.bytesLeft) ≠ 0 := by
  rw [keepLeftover] at h
  split at h
  · next hzero =>
    cases h
    exact .inl ⟨rfl, hzero⟩
  · next hpos =>
    dsimp only at h
    split at h
    · cases h
    · next hne =>
      cases h
      exact .inr ⟨rfl, Nat.pos_of_ne_zero hpos, hne⟩

theorem chunkAlloc_asks (p : Pool) (hpos : 0 < size) (h : p.bytesLeft < size) (hn : 0 < nobjs)
    (r : Nat) : p.chunkAlloc size nobjs [r] =
      p.keepLeftover.bind fun p' => (p'.next size nobjs r).chunkAlloc size nobjs [] := by
  have hall : ¬ size * nobjs ≤ p.bytesLeft :=
    Nat.not_le.2 (Nat.lt_of_lt_of_le h (Nat.le_mul_of_pos_right size hn))
  rw [chunkAlloc, if_neg (Nat.ne_of_gt hpos), if_neg hall, if_neg (Nat.not_le.2 h)]
  cases hkeep : p.keepLeftover with
  | none => rfl
  | some p' =>
    have hheap : p'.heapSize = p.heapSize := by
      obtain ⟨rfl, _⟩ | ⟨rfl, _⟩ := keepLeftover_some hkeep
      · rfl
      · rfl
    rw [Option.bind_some, next, hheap]
    cases r with
    | zero =>
      rw [if_neg (not_not_intro rfl)]
      cases hfound : p'.searchFreeList size with
      | none => simp only [hfound, hheap]
      | some i => simp only [hfound, hheap]
    | succ r =>
      rw [if_pos (Nat.succ_ne_zero r)]
      simp only [hheap]

theorem le_of_searchFreeList {p : Pool} (h : p.searchFreeList size = some i) : size ≤ i := by
  obtain ⟨k, _, rfl⟩ := List.mem_range'.1 (List.mem_of_find?_eq_some h)
  exact Nat.le_add_right _ _

/-- The unused range is the source of the request, or a range at the address 0. -/
theorem next_source (p : Pool) (hlt : p.bytesLeft < size) (hn : 0 < nobjs) (r : Nat) :
    (∀ e, p.source size nobjs r = some e → size ≤ e.size ∧
      (p.next size nobjs r).startFree = e.start ∧
        (p.next size nobjs r).endFree = e.start + e.size) ∧
    (p.source size nobjs r = none → (p.next size nobjs r).startFree = 0 ∧
      (p.next size nobjs r).endFree = 2 * (size * nobjs) + roundUp p.heapSize) := by
  have hone : size ≤ size * nobjs := Nat.le_mul_of_pos_right size hn
  have hbytes : size ≤ 2 * (size * nobjs) + roundUp p.heapSize := by omega
  rw [source, if_neg (Nat.not_le.2 hlt), next]
  dsimp only
  by_cases hr : r ≠ 0
  · rw [if_pos hr, if_pos hr]
    refine ⟨?_, nofun⟩
    rintro _ ⟨⟩
    exact ⟨hbytes, rfl, rfl⟩
  · rw [if_neg hr, if_neg hr]
    cases hfound : p.searchFreeList size with
    | none => exact ⟨nofun, fun _ => ⟨rfl, rfl⟩⟩
    | some i =>
      refine ⟨?_, nofun⟩
      rintro _ ⟨⟩
      exact ⟨le_of_searchFreeList hfound, rfl, rfl⟩

theorem source_isSome_iff (p : Pool) (hlt : p.bytesLeft < size) (nobjs r : Nat) :
    (p.source size nobjs r).isSome ↔ r ≠ 0 ∨ (p.searchFreeList size).isSome := by
  rw [source, if_neg (Nat.not_le.2 hlt)]
  by_cases hr : r ≠ 0
  · rw [if_pos hr]
    exact iff_of_true rfl (.inl hr)
  · rw [if_neg hr, Option.isSome_map]
    exact (or_iff_right hr).symm

theorem le_next_bytesLeft (p : Pool) (hlt : p.bytesLeft < size) (hn : 0 < nobjs) (r : Nat) :
    size ≤ (p.next size nobjs r).bytesLeft := by
  have hone : size ≤ size * nobjs := Nat.le_mul_of_pos_right size hn
  obtain ⟨hsome, hnone⟩ := p.next_source hlt hn r
  cases hsource : p.source size nobjs r with
  | none =>
    obtain ⟨hstart, hend⟩ := hnone hsource
    rw [bytesLeft, hstart, hend]
    omega
  | some e =>
    obtain ⟨hle, hstart, hend⟩ := hsome e hsource
    rwa [bytesLeft, hstart, hend, Nat.add_sub_cancel_left]

/-- The request is served from the pool that it is made of again. -/
theorem chunkAlloc_next (p : Pool) (hpos : 0 < size) (h : p.bytesLeft < size) (hn : 0 < nobjs)
    (r : Nat) : p.chunkAlloc size nobjs [r] = p.keepLeftover.map fun p' =>
      let p' := p'.next size nobjs r
      (p'.startFree, min nobjs (p'.bytesLeft / size),
        { p' with startFree := p'.startFree + size * min nobjs (p'.bytesLeft / size) }) := by
  rw [chunkAlloc_asks p hpos h hn]
  cases hkeep : p.keepLeftover with
  | none => rfl
  | some p' =>
    have hlt : p'.bytesLeft < size := by
      obtain ⟨rfl, _⟩ | ⟨rfl, _⟩ := keepLeftover_some hkeep
      · exact h
      · exact h
    exact chunkAlloc_fits _ hpos (le_next_bytesLeft p' hlt hn r) nobjs []

theorem next_mem (p : Pool) (size nobjs r : Nat) : (p.next size nobjs r).mem = p.mem := by
  rw [next]
  dsimp only
  split
  · rfl
  · split
    · rfl
    · rfl

theorem next_freeList (p : Pool) (size nobjs r c : Nat) :
    (p.next size nobjs r).freeList c = p.freeList c ∨
      (p.next size nobjs r).freeList c = p.mem (p.freeList c) := by
  rw [next]
  dsimp only
  split
  · exact .inl rfl
  · split
    · next i _ =>
      by_cases hc : c = freelistIndex i
      · subst hc
        exact .inr (update_self ..)
      · exact .inl (update_of_ne hc ..)
    · exact .inl rfl

theorem crossed_crossed (p : Pool) (h : p.freeList (freelistIndex p.bytesLeft) = head) :
    p.crossed head = p.startFree ∧ p.crossed p.startFree = head := by
  rw [crossed, h]
  have hhead : update (update p.mem p.startFree head) head p.startFree head = p.startFree :=
    update_self ..
  refine ⟨hhead, ?_⟩
  by_cases heq : p.startFree = head
  · rw [heq] at hhead ⊢
    exact hhead
  · rw [update_of_ne heq, update_self]

/-- A tail is never kept: its link and that of the first node of the list make a circle. -/
theorem not_keepsTail {p p' : Pool} (hlt : p.bytesLeft < size) (hpos : 0 < p.bytesLeft)
    (hhead : p.freeList (freelistIndex p.bytesLeft) ≠ 0) (hmem : p'.mem = p.crossed)
    (hlist : ∀ c, p'.freeList c = p.freeList c ∨ p'.freeList c = p.crossed (p.freeList c)) :
    ¬ p.KeepsTail p' size := by
  intro h
  obtain ⟨nodes, _, hchain⟩ := h hlt hpos
  obtain ⟨hto, hback⟩ := p.crossed_crossed rfl
  have hstart : p.startFree ≠ 0 := hchain.2.1
  rw [hmem] at hchain
  obtain heq | heq := hlist (freelistIndex p.bytesLeft)
  · rw [heq] at hchain
    refine Chain.not_circle hhead ?_ ?_ _ hchain
    · rwa [hto]
    · rw [hto, hback]
  · rw [heq, hto] at hchain
    refine Chain.not_circle hstart ?_ ?_ _ hchain
    · rwa [hback]
    · rw [hback, hto]

theorem not_unused_subset {p p' : Pool} (hzero : p.bytesLeft = 0)
    (hlt : p'.startFree < p'.endFree) : ¬ p'.unused ⊆ p.unused := by
  intro hsub
  have hstart : p'.startFree ∈ p'.unused := Extent.start_mem (Nat.sub_pos_of_lt hlt)
  have hin := hsub p'.startFree hstart
  rw [Extent.mem_def, unused, hzero] at hin
  exact absurd (Nat.lt_of_le_of_lt hin.1 hin.2) (Nat.lt_irrefl _)

/-- Blocks are cut off an extent with room for one. -/
theorem cut_min {p : Pool} {e : Extent} (hpos : 0 < size) (hn : 0 < nobjs) (hsize : size ≤ e.size)
    (hstart : p.startFree = e.start) (hend : p.endFree = e.start + e.size) :
    Cut e size nobjs p.startFree (min nobjs (p.bytesLeft / size))
      { p with startFree := p.startFree + size * min nobjs (p.bytesLeft / size) } := by
  have hleft : p.bytesLeft = e.size := by
    rw [bytesLeft, hstart, hend, Nat.add_sub_cancel_left]
  rw [hleft, hstart]
  constructor
  case start => rfl
  case one_le => exact Nat.le_min.2 ⟨hn, Nat.div_pos hsize hpos⟩
  case le => exact Nat.min_le_left _ _
  case fits =>
    exact Nat.le_trans (Nat.mul_le_mul_left size (Nat.min_le_right _ _)) (Nat.mul_div_le _ _)
  case startFree => rfl
  case endFree => exact hend

/-- With the pool's own memory or a large enough source, the request is served. -/
theorem serves_iff (p : Pool) (hpos : 0 < size) (hn : 0 < nobjs) (r : Nat) :
    p.Serves size nobjs r ↔ size ≤ p.bytesLeft ∨
      p.bytesLeft = 0 ∧ (r ≠ 0 ∨ (p.searchFreeList size).isSome) := by
  by_cases hfits : size ≤ p.bytesLeft
  · refine iff_of_true ?_ (.inl hfits)
    have hle : p.startFree ≤ p.endFree := by
      rw [bytesLeft] at hfits
      omega
    refine ⟨_, _, _, chunkAlloc_fits p hpos hfits nobjs [r],
      fun hlt => absurd hfits (Nat.not_le.2 hlt), ?_, ?_⟩
    · intro e he
      rw [source, if_pos hfits] at he
      cases he
      exact cut_min hpos hn hfits rfl (Nat.add_sub_of_le hle).symm
    · intro hnone
      rw [source, if_pos hfits] at hnone
      cases hnone
  · have hlt := Nat.not_le.1 hfits
    obtain ⟨hsome, hnone⟩ := p.next_source hlt hn r
    rw [Serves, chunkAlloc_next p hpos hlt hn]
    by_cases hzero : p.bytesLeft = 0
    · have hkeep : p.keepLeftover = some p := if_pos hzero
      have htail : ∀ p', p.KeepsTail p' size :=
        fun _ _ hne => absurd hzero (Nat.ne_of_gt hne)
      rw [hkeep, Option.map_some]
      rw [← p.source_isSome_iff hlt nobjs r, or_iff_right hfits, and_iff_right hzero]
      cases hsource : p.source size nobjs r with
      | none =>
        obtain ⟨hstart, hend⟩ := hnone hsource
        refine iff_of_false ?_ (by decide)
        rintro ⟨_, _, _, ⟨⟩, _, _, hfailed⟩
        obtain ⟨_, hsub⟩ := hfailed rfl
        have hbytes : 0 < size * nobjs := Nat.mul_pos hpos hn
        have hle : size * min nobjs ((p.next size nobjs r).bytesLeft / size) ≤ size * nobjs :=
          Nat.mul_le_mul_left size (Nat.min_le_left _ _)
        apply not_unused_subset hzero ?_ hsub
        dsimp only
        rw [hstart, hend, Nat.zero_add]
        exact Nat.lt_of_le_of_lt hle (by omega)
      | some e =>
        obtain ⟨hsize, hstart, hend⟩ := hsome e hsource
        refine iff_of_true ⟨_, _, _, rfl, htail _, ?_, ?_⟩ rfl
        · rintro _ ⟨⟩
          exact cut_min hpos hn hsize hstart hend
        · exact nofun
    · refine iff_of_false ?_ ?_
      · rintro ⟨result, n, p', hresult, hkeeps, _⟩
        obtain ⟨kept, hkeep, hp'⟩ := Option.map_eq_some_iff.1 hresult
        obtain ⟨_, hno⟩ | ⟨rfl, hleft, hhead⟩ := keepLeftover_some hkeep
        · exact hzero hno
        · cases hp'
          exact not_keepsTail hlt hleft hhead (next_mem ..) (next_freeList _ size nobjs r) hkeeps
      · rintro (hle | ⟨hno, _⟩)
        · exact hfits hle
        · exact hzero hno

theorem serves_iff_init : (memPoolInit fun _ => 0).Serves 8 20 1024 :=
  ((memPoolInit fun _ => 0).serves_iff (by decide) (by decide) 1024).2
    (.inr ⟨rfl, .inl (by decide)⟩)

/-- A first call of `malloc` that fails leaves the addresses from 8 to 16 in the unused range. -/
theorem not_serves : ¬ ∀ (p : Pool) (size nobjs r : Nat), 0 < size → size ≤ MAX_BYTES →
    ALIGN ∣ size → 0 < nobjs → p.Serves size nobjs r := by
  intro h
  obtain ⟨_, _, _, hresult, _, _, hfailed⟩ :=
    h (memPoolInit fun _ => 0) 8 1 0 (by decide) (by decide) (by decide) (by decide)
  cases hresult
  exact not_unused_subset rfl (by decide) (hfailed rfl).2

end Pool

end BigBox.Mempool
