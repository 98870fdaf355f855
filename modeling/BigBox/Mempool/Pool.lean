import BigBox.Lib.FreeList
import BigBox.Lib.TryRun
import Mathlib.Data.List.Basic
import Mathlib.Logic.Function.Basic

namespace BigBox.Mempool
open Function
set_option autoImplicit true

def ALIGN : Nat := 8
def MAX_BYTES : Nat := 128
def NFREELISTS : Nat := MAX_BYTES / ALIGN

/-- `sizeof(obj)`, the size of the link an unused block starts with. -/
def OBJ_SIZE : Nat := 8

/-- A `mem_pool_manager` and the memory its pointers lead to, word by word. -/
structure Pool where
  freeList : Nat → Nat
  startFree : Nat
  endFree : Nat
  heapSize : Nat
  mem : Nat → Nat

def roundUp (bytes : Nat) : Nat := (bytes + ALIGN - 1) / ALIGN * ALIGN

def freelistIndex (bytes : Nat) : Nat := (bytes + ALIGN - 1) / ALIGN - 1

def memPoolInit (mem : Nat → Nat) : Pool := ⟨fun _ => 0, 0, 0, 0, mem⟩

def Pool.bytesLeft (p : Pool) : Nat := p.endFree - p.startFree

/-- Hand the unused range's remainder to a free list: the list's first node is linked back to
the remainder, which writes through a null pointer when the list is empty. -/
def Pool.keepLeftover (p : Pool) : Option Pool :=
  if p.bytesLeft = 0 then some p
  else
    let head := p.freeList (freelistIndex p.bytesLeft)
    if head = 0 then none
    else
      let linked := Function.update p.mem p.startFree head
      some { p with mem := Function.update linked head p.startFree }

/-- The block size of the first free list, from `size` on, that has a node. -/
def Pool.searchFreeList (p : Pool) (size : Nat) : Option Nat :=
  (List.range' size NFREELISTS ALIGN).find? fun i =>
    i ≤ MAX_BYTES ∧ p.freeList (freelistIndex i) ≠ 0

/-- `chunk_alloc` with the answers of its `malloc` calls: the chunk and its number of blocks. -/
def Pool.chunkAlloc (size nobjs : Nat) : List Nat → Pool → Option (Nat × Nat × Pool)
  | answers, p =>
    if size = 0 then some (0, nobjs, p)
    else if size * nobjs ≤ p.bytesLeft then
      some (p.startFree, nobjs, { p with startFree := p.startFree + size * nobjs })
    else if size ≤ p.bytesLeft then
      let nobjs := p.bytesLeft / size
      some (p.startFree, nobjs, { p with startFree := p.startFree + size * nobjs })
    else
      let bytesToGet := 2 * (size * nobjs) + roundUp p.heapSize
      match answers, p.keepLeftover with
      | [], _ => none
      | _, none => none
      | 0 :: answers, some p =>
        match p.searchFreeList size with
        | some i =>
          let node := p.freeList (freelistIndex i)
          chunkAlloc size nobjs answers { p with
            freeList := Function.update p.freeList (freelistIndex i) (p.mem node)
            startFree := node, endFree := node + i }
        | none =>
          chunkAlloc size nobjs answers { p with
            startFree := 0, endFree := bytesToGet, heapSize := p.heapSize + bytesToGet }
      | answer :: answers, some p =>
        chunkAlloc size nobjs answers { p with
          startFree := answer, endFree := answer + bytesToGet
          heapSize := p.heapSize + bytesToGet }

/-- The loop of `refill`: `next_obj + n` steps over `n` objects, not `n` bytes. -/
def carve (n : Nat) : Nat → Nat → (Nat → Nat) → (Nat → Nat)
  | 0, _, mem => mem
  | i + 1, current, mem =>
    carve n i (current + OBJ_SIZE * n) (Function.update mem current (current + OBJ_SIZE * n))

def Pool.refill (n : Nat) (answers : List Nat) (p : Pool) : Option (Nat × Pool) :=
  if n = 0 then some (0, p)
  else
    (p.chunkAlloc n 20 answers).map fun (chunk, nobjs, p) =>
      if nobjs = 1 then (chunk, p)
      else (chunk, { p with
        freeList := Function.update p.freeList (freelistIndex n) (chunk + n)
        mem := carve n (nobjs - 1) (chunk + n) p.mem })

def Pool.allocate (n : Nat) (answers : List Nat) (p : Pool) : Option (Nat × Pool) :=
  if n = 0 then some (0, p)
  else if MAX_BYTES < n then answers.head?.map fun answer => (answer, p)
  else
    let result := p.freeList (freelistIndex n)
    if result = 0 then p.refill (roundUp n) answers
    else some (result, { p with
      freeList := Function.update p.freeList (freelistIndex n) (p.mem result) })

def Pool.deallocate (q n : Nat) (p : Pool) : Pool :=
  if q = 0 then p
  else if n = 0 then p
  else if MAX_BYTES < n then p
  else { p with
    mem := Function.update p.mem q (p.freeList (freelistIndex n))
    freeList := Function.update p.freeList (freelistIndex n) q }

/-- The size of the blocks on free list `c`. -/
def classSize (c : Nat) : Nat := ALIGN * (c + 1)

def Pool.unused (p : Pool) : Extent := ⟨p.startFree, p.bytesLeft⟩

/-- A block on a free list, as the links in memory say. -/
def Pool.Listed (p : Pool) (b : Extent) : Prop :=
  ∃ c < NFREELISTS, b.size = classSize c ∧ OnChain p.mem (p.freeList c) b.start

/-- `allocate n` has to ask `malloc` for a region. -/
def Pool.CallsMalloc (p : Pool) (n : Nat) : Prop :=
  p.freeList (freelistIndex n) = 0 ∧ p.bytesLeft < roundUp n

instance (p : Pool) (n : Nat) : Decidable (p.CallsMalloc n) :=
  inferInstanceAs (Decidable (_ ∧ _))

/-- The region `malloc` is asked for when it answers `r`. -/
def Pool.asked (p : Pool) (n r : Nat) : Extent := ⟨r, 2 * (roundUp n * 20) + roundUp p.heapSize⟩

/-- Where `refill` carves blocks of `size` bytes, and how many. -/
def Pool.carveStart (p : Pool) (size r : Nat) : Nat :=
  if size ≤ p.bytesLeft then p.startFree else r

def Pool.carveCount (p : Pool) (size : Nat) : Nat :=
  if size ≤ p.bytesLeft then min 20 (p.bytesLeft / size) else 20

/-- The nodes the loop of `refill` links, `OBJ_SIZE * size` bytes apart. -/
def linked (start size count : Nat) : List Extent :=
  if count = 1 then []
  else (List.range' (start + size) count (OBJ_SIZE * size)).map fun a => ⟨a, size⟩

/-- The linked nodes that lie in the carved chunk. -/
def inChunk (start size count : Nat) : List Extent :=
  (linked start size count).takeWhile fun b => b.start < start + size * count

/-- The linked nodes behind the carved chunk. -/
def beyondChunk (start size count : Nat) : List Extent :=
  (linked start size count).dropWhile fun b => b.start < start + size * count

/-- A pool with what happened to it: the regions `malloc` returned, the blocks handed out, and
the nodes `refill` linked behind the chunk it carved. -/
structure History where
  pool : Pool
  regions : List Extent
  live : List Extent
  stray : List Extent

def History.init (mem : Nat → Nat) : History := ⟨memPoolInit mem, [], [], []⟩

/-- What the client does: `allocate` with the answer `malloc` would give, `deallocate`, and
stores to its blocks. -/
inductive Action
  | allocate (n r : Nat)
  | deallocate (q n : Nat)
  | store (a w : Nat)

/-- The nodes behind the chunk that `allocate n` links. -/
def Pool.newStray (p : Pool) (n r : Nat) : List Extent :=
  if p.freeList (freelistIndex n) = 0 then
    beyondChunk (p.carveStart (roundUp n) r) (roundUp n) (p.carveCount (roundUp n))
  else []

def History.step (H : History) : Action → Option History
  | .allocate n r =>
    (H.pool.allocate n [r]).map fun (result, pool) =>
      { pool
        regions := if H.pool.CallsMalloc n then H.pool.asked n r :: H.regions else H.regions
        live := ⟨result, roundUp n⟩ :: H.live
        stray := H.pool.newStray n r ++ H.stray }
  | .deallocate q n =>
    some { H with pool := H.pool.deallocate q n, live := H.live.erase ⟨q, roundUp n⟩ }
  | .store a w => some { H with pool := { H.pool with mem := update H.pool.mem a w } }

/-- What the pool may rely on: sizes from 1 to 128, a block handed back once with its size,
stores only to blocks handed out, and a fresh region from `malloc`. -/
def History.Legal (H : History) : Action → Prop
  | .allocate n r =>
    (1 ≤ n ∧ n ≤ MAX_BYTES) ∧
      (H.pool.CallsMalloc n → r ≠ 0 ∧ ∀ g ∈ H.regions, (H.pool.asked n r).Apart g)
  | .deallocate q n => (1 ≤ n ∧ n ≤ MAX_BYTES) ∧ ⟨q, roundUp n⟩ ∈ H.live
  | .store a _ => ∃ b ∈ H.live, a ∈ b

/-- A refill that leaves no remainder behind, carves no memory where a stray node lies, and
links stray nodes only where nothing else is, the last of which holds a null link. -/
structure CleanRefill (H : History) (n r : Nat) : Prop where
  noLeftover : H.pool.bytesLeft = 0 ∨ roundUp n ≤ H.pool.bytesLeft
  carved : ∀ t ∈ H.stray,
    ∀ b ∈ ⟨H.pool.carveStart (roundUp n) r, roundUp n⟩ ::
      inChunk (H.pool.carveStart (roundUp n) r) (roundUp n) (H.pool.carveCount (roundUp n)),
    t.Apart b
  apart_live : ∀ t ∈ H.pool.newStray n r, ∀ b ∈ H.live ++ H.stray, t.Apart b
  apart_listed : ∀ t ∈ H.pool.newStray n r, ∀ b, H.pool.Listed b → t.Apart b
  last_null : H.pool.carveCount (roundUp n) ≠ 1 →
    H.pool.mem (H.pool.carveStart (roundUp n) r + roundUp n +
      OBJ_SIZE * roundUp n * (H.pool.carveCount (roundUp n) - 1)) = 0

/-- No `allocate` pops a stray node, and every refill is clean. -/
def Clean (H : History) : Action → Prop
  | .allocate n r =>
    (∀ t ∈ H.stray, t.size = roundUp n → t.start ≠ H.pool.freeList (freelistIndex n)) ∧
      (H.pool.freeList (freelistIndex n) = 0 → CleanRefill H n r)
  | _ => True

/-- The histories of the runs whose steps are legal and meet the condition `C`. -/
def Possible (C : History → Action → Prop) : History → Prop :=
  Reachable (fun H => ∃ mem, H = .init mem) fun H H' => ∃ a, H.Legal a ∧ C H a ∧ H.step a = some H'

/-- The block `b` is inside a region and shares no address with a block handed out before, a
block on a free list or the unused range. -/
structure Placed (before after : History) (b : Extent) : Prop where
  in_region : ∃ g ∈ after.regions, b ⊆ g
  apart_live : ∀ d ∈ before.live, b.Apart d
  apart_listed : ∀ d, after.pool.Listed d → b.Apart d
  apart_unused : b.Apart after.pool.unused

/-- `allocate` returns a block of at least `n` bytes in its own place. -/
def AllocatesPlaced (H : History) (n r : Nat) : Prop :=
  ∃ H' b, H.step (.allocate n r) = some H' ∧ H'.live = b :: H.live ∧ n ≤ b.size ∧ Placed H H' b

/-- The starts of the blocks of free list `c`. -/
def nodes (c : Nat) (bs : List Extent) : List Nat :=
  (bs.filter fun b => b.size = classSize c).map Extent.start

/-- The regions are divided into blocks handed out, blocks that are free, the unused range and
memory that is lost, and the free lists hold the free blocks, then the stray nodes. -/
structure Partition (H : History) (free : List Extent) : Prop where
  regions_ne : ∀ g ∈ H.regions, g.start ≠ 0
  apart : (H.pool.unused :: (H.live ++ free)).Pairwise Extent.Apart
  inside : ∀ b ∈ H.pool.unused :: (H.live ++ free), 0 < b.size → ∃ g ∈ H.regions, b ⊆ g
  sized : ∀ b ∈ H.live ++ (free ++ H.stray), ∃ c < NFREELISTS, b.size = classSize c
  stray_apart : ∀ t ∈ H.stray, ∀ b ∈ H.live ++ free, t.Apart b
  chain : ∀ c < NFREELISTS, Chain H.pool.mem (H.pool.freeList c) (nodes c (free ++ H.stray))

theorem classSize_freelistIndex (h : 1 ≤ n) : classSize (freelistIndex n) = roundUp n := by
  simp only [classSize, freelistIndex, roundUp, ALIGN]
  omega

theorem freelistIndex_lt (h : 1 ≤ n) (h' : n ≤ MAX_BYTES) : freelistIndex n < NFREELISTS := by
  simp only [freelistIndex, ALIGN, NFREELISTS, MAX_BYTES] at h' ⊢
  omega

theorem freelistIndex_roundUp (n : Nat) : freelistIndex (roundUp n) = freelistIndex n := by
  simp only [freelistIndex, roundUp, ALIGN]
  omega

theorem le_roundUp (n : Nat) : n ≤ roundUp n := by
  simp only [roundUp, ALIGN]
  omega

theorem roundUp_pos (h : 1 ≤ n) : 0 < roundUp n := Nat.lt_of_lt_of_le h (le_roundUp n)

theorem classSize_inj (h : classSize c = classSize d) : c = d := by
  simp only [classSize, ALIGN] at h
  omega

theorem nodes_append (c : Nat) (bs ds : List Extent) :
    nodes c (bs ++ ds) = nodes c bs ++ nodes c ds := by
  rw [nodes, List.filter_append, List.map_append]
  rfl

theorem nodes_cons_self (h : b.size = classSize c) (bs : List Extent) :
    nodes c (b :: bs) = b.start :: nodes c bs := by
  rw [nodes, List.filter_cons_of_pos (by simpa using h), List.map_cons]
  rfl

theorem nodes_cons_ne (h : b.size ≠ classSize c) (bs : List Extent) :
    nodes c (b :: bs) = nodes c bs := by
  rw [nodes, List.filter_cons_of_neg (by simpa using h)]
  rfl

theorem mem_nodes : a ∈ nodes c bs ↔ ⟨a, classSize c⟩ ∈ bs := by
  constructor
  · intro h
    obtain ⟨b, hb, rfl⟩ := List.mem_map.1 h
    obtain ⟨hb, hs⟩ := List.mem_filter.1 hb
    rw [← of_decide_eq_true hs]
    exact hb
  · intro h
    exact List.mem_map.2 ⟨_, List.mem_filter.2 ⟨h, decide_eq_true rfl⟩, rfl⟩

namespace Partition

theorem init (mem : Nat → Nat) : Partition (.init mem) [] where
  regions_ne _ h := nomatch h
  apart := List.pairwise_singleton _ _
  inside b h h' := by
    rcases List.mem_singleton.1 h with rfl
    exact absurd h' (Nat.lt_irrefl 0)
  sized _ h := nomatch h
  stray_apart _ h := nomatch h
  chain _ _ := rfl

theorem size_pos (h : Partition H free) (hb : b ∈ H.live ++ (free ++ H.stray)) : 0 < b.size := by
  obtain ⟨c, -, hsize⟩ := h.sized b hb
  rw [hsize]
  exact Nat.succ_pos _

/-- A block handed out or free starts at an address other than 0. -/
theorem start_ne (h : Partition H free) (hb : b ∈ H.live ++ free) : b.start ≠ 0 := by
  intro hzero
  have hpos : 0 < b.size := by
    apply h.size_pos
    rw [← List.append_assoc]
    exact List.mem_append_left _ hb
  obtain ⟨g, hg, hsub⟩ := h.inside b (List.mem_cons_of_mem _ hb) hpos
  have hin := hsub b.start (Extent.start_mem hpos)
  exact h.regions_ne g hg (Nat.le_zero.1 (hzero ▸ hin.1))

/-- No block handed out has a node of a free list in it. -/
theorem not_mem_nodes (h : Partition H free) (hb : b ∈ H.live) (ha : a ∈ b) (c : Nat) :
    a ∉ nodes c (free ++ H.stray) := by
  intro hn
  have hin := mem_nodes.1 hn
  have hpos : 0 < classSize c := h.size_pos (List.mem_append_right _ hin)
  have hstart : a ∈ (⟨a, classSize c⟩ : Extent) := Extent.start_mem (b := ⟨a, classSize c⟩) hpos
  rcases List.mem_append.1 hin with hin | hin
  · have hapart := (List.pairwise_append.1 (List.pairwise_cons.1 h.apart).2).2.2 b hb _ hin
    exact hapart a ha hstart
  · exact h.stray_apart _ hin b (List.mem_append_left _ hb) a hstart ha

theorem listed (h : Partition H free) (hb : H.pool.Listed b) : b ∈ free ++ H.stray := by
  obtain ⟨c, hc, hsize, hon⟩ := hb
  have hin := mem_nodes.1 ((h.chain c hc).mem_of_onChain hon)
  rw [← hsize] at hin
  exact hin

theorem listed_of_mem (h : Partition H free) (hb : b ∈ free ++ H.stray) : H.pool.Listed b := by
  obtain ⟨c, hc, hsize⟩ := h.sized b (List.mem_append_right _ hb)
  have hn : b.start ∈ nodes c (free ++ H.stray) := mem_nodes.2 (hsize ▸ hb)
  exact ⟨c, hc, hsize, (h.chain c hc).onChain hn⟩

theorem store (h : Partition H free) (hb : b ∈ H.live) (ha : a ∈ b) (w : Nat) :
    Partition { H with pool := { H.pool with mem := update H.pool.mem a w } } free :=
  { h with chain := fun c hc => (h.chain c hc).update (h.not_mem_nodes hb ha c) w }

theorem deallocate (h : Partition H free) (hn : 1 ≤ n) (hn' : n ≤ MAX_BYTES)
    (hb : ⟨q, roundUp n⟩ ∈ H.live) :
    Partition { H with pool := H.pool.deallocate q n, live := H.live.erase ⟨q, roundUp n⟩ }
      (⟨q, roundUp n⟩ :: free) := by
  have hq : q ≠ 0 := h.start_ne (List.mem_append_left _ hb)
  have hpool : H.pool.deallocate q n = { H.pool with
      mem := update H.pool.mem q (H.pool.freeList (freelistIndex n))
      freeList := update H.pool.freeList (freelistIndex n) q } := by
    rw [Pool.deallocate, if_neg hq, if_neg (Nat.ne_of_gt hn), if_neg (Nat.not_lt.2 hn')]
  have hperm : (H.live ++ free).Perm (H.live.erase ⟨q, roundUp n⟩ ++ ⟨q, roundUp n⟩ :: free) :=
    ((List.perm_cons_erase hb).append_right free).trans List.perm_middle.symm
  have hpos : 0 < roundUp n := roundUp_pos hn
  rw [hpool]
  constructor
  case regions_ne => exact h.regions_ne
  case apart => exact pairwise_apart_perm (hperm.cons _) h.apart
  case inside =>
    intro b hb
    exact h.inside b ((hperm.cons _).mem_iff.2 hb)
  case sized =>
    intro b hb
    apply h.sized
    rw [← List.append_assoc] at hb ⊢
    exact (hperm.append_right H.stray).mem_iff.2 hb
  case stray_apart =>
    intro t ht b hb
    exact h.stray_apart t ht b (hperm.mem_iff.2 hb)
  case chain =>
    intro c hc
    have hfresh := h.not_mem_nodes hb (Extent.start_mem hpos) c
    have hclass := classSize_freelistIndex hn
    rw [List.cons_append]
    by_cases he : c = freelistIndex n
    · subst he
      rw [nodes_cons_self hclass.symm]
      simp only [update_self]
      exact (h.chain _ hc).push hfresh hq
    · have hne : roundUp n ≠ classSize c := fun hs => he (classSize_inj (hclass.trans hs)).symm
      rw [nodes_cons_ne hne]
      simp only [update_of_ne he]
      exact (h.chain c hc).update hfresh _

/-- A node popped from a free list is a free block, unless it is a stray node. -/
theorem exists_popped (h : Partition H free) (hc : c < NFREELISTS) (hne : H.pool.freeList c ≠ 0)
    (hclean : ∀ t ∈ H.stray, t.size = classSize c → t.start ≠ H.pool.freeList c) :
    ∃ before behind, free = before ++ ⟨H.pool.freeList c, classSize c⟩ :: behind ∧
      Chain H.pool.mem (H.pool.mem (H.pool.freeList c))
        (nodes c (before ++ behind ++ H.stray)) := by
  obtain ⟨as, hnodes, htail⟩ := (h.chain c hc).exists_cons hne
  rw [nodes_append] at hnodes
  cases hfree : free.filter fun b => b.size = classSize c with
  | nil =>
    rw [nodes, hfree, List.map_nil, List.nil_append] at hnodes
    have hstray : H.pool.freeList c ∈ nodes c H.stray := hnodes ▸ List.mem_cons_self
    exact absurd rfl (hclean _ (mem_nodes.1 hstray) rfl)
  | cons b bs =>
    obtain ⟨before, behind, hsplit, hbefore, hb, hbehind⟩ := List.filter_eq_cons_iff.1 hfree
    rw [nodes, hfree, List.map_cons, List.cons_append, List.cons.injEq] at hnodes
    obtain ⟨hstart, has⟩ := hnodes
    have hsize : b.size = classSize c := of_decide_eq_true hb
    have hbs : nodes c (before ++ behind) = bs.map Extent.start := by
      rw [nodes, List.filter_append, hbehind, List.filter_eq_nil_iff.2 hbefore, List.nil_append]
    refine ⟨before, behind, ?_, ?_⟩
    · rw [hsplit, ← hstart, ← hsize]
    · rw [nodes_append, hbs, has]
      exact htail

theorem pop (h : Partition H free) (hc : c < NFREELISTS) (hne : H.pool.freeList c ≠ 0)
    (hclean : ∀ t ∈ H.stray, t.size = classSize c → t.start ≠ H.pool.freeList c) :
    ∃ free', Partition { H with
      pool := { H.pool with
        freeList := update H.pool.freeList c (H.pool.mem (H.pool.freeList c)) }
      live := ⟨H.pool.freeList c, classSize c⟩ :: H.live } free' := by
  obtain ⟨before, behind, rfl, hchain⟩ := h.exists_popped hc hne hclean
  have hperm : (H.live ++ (before ++ ⟨H.pool.freeList c, classSize c⟩ :: behind)).Perm
      (⟨H.pool.freeList c, classSize c⟩ :: H.live ++ (before ++ behind)) :=
    (List.perm_middle.append_left H.live).trans List.perm_middle
  refine ⟨before ++ behind, ?_⟩
  constructor
  case regions_ne => exact h.regions_ne
  case apart => exact pairwise_apart_perm (hperm.cons _) h.apart
  case inside =>
    intro b hb
    exact h.inside b ((hperm.cons _).mem_iff.2 hb)
  case sized =>
    intro b hb
    apply h.sized
    rw [← List.append_assoc] at hb ⊢
    exact (hperm.append_right H.stray).mem_iff.2 hb
  case stray_apart =>
    intro t ht b hb
    exact h.stray_apart t ht b (hperm.mem_iff.2 hb)
  case chain =>
    intro d hd
    by_cases he : d = c
    · subst he
      simp only [update_self]
      exact hchain
    · have hold := h.chain d hd
      have hne' : classSize c ≠ classSize d := fun hs => he (classSize_inj hs).symm
      simp only [update_of_ne he]
      rw [List.append_assoc, nodes_append, List.cons_append, nodes_cons_ne hne'] at hold
      rw [List.append_assoc, nodes_append]
      exact hold

/-- The newest block handed out is in its own place. -/
theorem placed (h : Partition after free) (hlive : after.live = b :: before.live) :
    Placed before after b := by
  have hmem : b ∈ after.live := hlive ▸ List.mem_cons_self
  obtain ⟨hunused, hpieces⟩ := List.pairwise_cons.1 h.apart
  constructor
  case in_region =>
    have hin : b ∈ after.live ++ free := List.mem_append_left _ hmem
    exact h.inside b (List.mem_cons_of_mem _ hin) (h.size_pos (List.mem_append_left _ hmem))
  case apart_live =>
    intro d hd
    rw [hlive, List.cons_append] at hpieces
    exact (List.pairwise_cons.1 hpieces).1 d (List.mem_append_left _ hd)
  case apart_listed =>
    intro d hd
    rcases List.mem_append.1 (h.listed hd) with hfree | hstray
    · exact (List.pairwise_append.1 hpieces).2.2 b hmem d hfree
    · exact (h.stray_apart d hstray b (List.mem_append_left _ hmem)).symm
  case apart_unused => exact (hunused b (List.mem_append_left _ hmem)).symm

end Partition

end BigBox.Mempool
