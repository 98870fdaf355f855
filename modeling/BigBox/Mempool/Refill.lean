import BigBox.Mempool.Pool

namespace BigBox.Mempool
open Function
set_option autoImplicit true

theorem carve_of_not_mem (mem : Nat → Nat) (h : a ∉ List.range' current i (OBJ_SIZE * n)) :
    carve n i current mem a = mem a := by
  induction i generalizing current mem with
  | zero => rfl
  | succ i ih =>
    rw [List.range'_succ, List.mem_cons, not_or] at h
    rw [carve, ih _ h.2, update_of_ne h.1]

/-- The loop of `refill` links the addresses it steps over into a chain. -/
theorem chain_carve {mem : Nat → Nat} (hn : 0 < n) (hne : current ≠ 0)
    (hlast : mem (current + OBJ_SIZE * n * i) = 0) :
    Chain (carve n i current mem) current (List.range' current (i + 1) (OBJ_SIZE * n)) := by
  induction i generalizing current mem with
  | zero => exact ⟨rfl, hne, hlast⟩
  | succ i ih =>
    have hstep : 0 < OBJ_SIZE * n := Nat.mul_pos (Nat.succ_pos _) hn
    have hnot : current ∉ List.range' (current + OBJ_SIZE * n) i (OBJ_SIZE * n) := by
      intro hmem
      obtain ⟨k, -, hk⟩ := List.mem_range'.1 hmem
      omega
    have hlink : carve n (i + 1) current mem current = current + OBJ_SIZE * n := by
      rw [carve, carve_of_not_mem _ hnot, update_self]
    rw [List.range'_succ]
    refine ⟨rfl, hne, ?_⟩
    rw [hlink, carve]
    apply ih
    · omega
    · rw [Nat.add_assoc, Nat.add_comm (OBJ_SIZE * n), ← Nat.mul_succ, update_of_ne]
      · exact hlast
      · rw [Nat.mul_succ]
        omega

theorem slot_le (size : Nat) (h : i < j) (s : Nat) : s + size * i + size ≤ s + size * j := by
  have := Nat.mul_le_mul_left size h
  rw [Nat.mul_succ] at this
  omega

theorem mem_linked (h : b ∈ linked start size count) :
    ∃ k < count, b = ⟨start + size * (OBJ_SIZE * k + 1), size⟩ := by
  rw [linked] at h
  split at h
  case isTrue => cases h
  case isFalse =>
    obtain ⟨a, ha, rfl⟩ := List.mem_map.1 h
    obtain ⟨k, hk, rfl⟩ := List.mem_range'.1 ha
    refine ⟨k, hk, ?_⟩
    rw [Nat.mul_add, Nat.mul_one, Nat.mul_comm OBJ_SIZE size, Nat.mul_assoc, Nat.add_assoc,
      Nat.add_comm size]

theorem size_of_mem_linked (h : b ∈ linked start size count) : b.size = size := by
  obtain ⟨k, -, rfl⟩ := mem_linked h
  rfl

theorem inChunk_append_beyondChunk (start size count : Nat) :
    inChunk start size count ++ beyondChunk start size count = linked start size count :=
  List.takeWhile_append_dropWhile

theorem mem_inChunk (hpos : 0 < size) (h : b ∈ inChunk start size count) :
    ∃ k, 0 < k ∧ k < count ∧ b = ⟨start + size * k, size⟩ := by
  have hlt : b.start < start + size * count := by
    simpa using List.mem_takeWhile_imp (l := linked start size count) h
  obtain ⟨k, -, rfl⟩ := mem_linked (List.takeWhile_subset _ h)
  refine ⟨OBJ_SIZE * k + 1, Nat.succ_pos _, ?_, rfl⟩
  exact (Nat.mul_lt_mul_left hpos).1 (Nat.lt_of_add_lt_add_left hlt)

/-- The linked nodes share no address, nor does the chunk's first block with them. -/
theorem linked_apart (start : Nat) (hpos : 0 < size) (count : Nat) :
    (⟨start, size⟩ :: linked start size count).Pairwise Extent.Apart := by
  refine List.pairwise_cons.2 ⟨?_, ?_⟩
  · intro b hb
    obtain ⟨k, -, rfl⟩ := mem_linked hb
    exact Extent.apart_of_le (slot_le size (i := 0) (Nat.succ_pos _) start)
  · rw [linked]
    split
    case isTrue => exact List.Pairwise.nil
    case isFalse =>
      have hstep : 0 < OBJ_SIZE * size := Nat.mul_pos (Nat.succ_pos _) hpos
      refine List.pairwise_map.2 ((List.pairwise_lt_range' _ hstep).imp_of_mem ?_)
      intro a b ha hb hlt
      obtain ⟨j, -, rfl⟩ := List.mem_range'.1 ha
      obtain ⟨k, -, rfl⟩ := List.mem_range'.1 hb
      apply Extent.apart_of_le
      have hjk : j < k := (Nat.mul_lt_mul_left hstep).1 (Nat.lt_of_add_lt_add_left hlt)
      have := slot_le (OBJ_SIZE * size) hjk (start + size)
      have hle : size ≤ OBJ_SIZE * size := Nat.le_mul_of_pos_left size (Nat.succ_pos _)
      exact Nat.le_trans (Nat.add_le_add_left hle _) this

theorem nodes_linked (start c : Nat) (h : count ≠ 1) :
    nodes c (linked start (classSize c) count) =
      List.range' (start + classSize c) count (OBJ_SIZE * classSize c) := by
  have hall : ∀ b ∈ linked start (classSize c) count, decide (b.size = classSize c) = true :=
    fun b hb => decide_eq_true (size_of_mem_linked hb)
  rw [nodes, List.filter_eq_self.2 hall, linked, if_neg h, List.map_map]
  exact List.map_id' _

theorem nodes_eq_nil (h : ∀ b ∈ bs, b.size ≠ classSize c) : nodes c bs = [] := by
  rw [nodes, List.filter_eq_nil_iff.2 fun b hb => by simpa using h b hb]
  rfl

/-- The pool after `count` blocks of free list `c` are carved off its unused range. -/
def Pool.carved (p : Pool) (c size count : Nat) : Pool :=
  { p with
    startFree := p.startFree + size * count
    freeList := if count = 1 then p.freeList else update p.freeList c (p.startFree + size)
    mem := if count = 1 then p.mem else carve size (count - 1) (p.startFree + size) p.mem }

namespace Partition

/-- A fresh region takes the place of the unused range. -/
theorem grow (h : Partition H free) (hr : r ≠ 0)
    (hfresh : ∀ g ∈ H.regions, Extent.Apart ⟨r, bytes⟩ g) :
    Partition { H with
      pool := { H.pool with
        startFree := r, endFree := r + bytes, heapSize := H.pool.heapSize + bytes }
      regions := ⟨r, bytes⟩ :: H.regions } free := by
  have hunused : ({ H.pool with
      startFree := r, endFree := r + bytes
      heapSize := H.pool.heapSize + bytes } : Pool).unused = ⟨r, bytes⟩ := by
    simp only [Pool.unused, Pool.bytesLeft, Nat.add_sub_cancel_left]
  have hinside : ∀ b ∈ H.live ++ free, 0 < b.size → ∃ g ∈ H.regions, b ⊆ g := by
    intro b hb
    exact h.inside b (List.mem_cons_of_mem _ hb)
  constructor
  case regions_ne =>
    intro g hg
    rcases List.mem_cons.1 hg with rfl | hg
    · exact hr
    · exact h.regions_ne g hg
  case apart =>
    refine List.pairwise_cons.2 ⟨?_, (List.pairwise_cons.1 h.apart).2⟩
    intro b hb
    rw [hunused]
    have hpos : 0 < b.size := by
      apply h.size_pos
      rw [← List.append_assoc]
      exact List.mem_append_left _ hb
    obtain ⟨g, hg, hsub⟩ := hinside b hb hpos
    exact ((hfresh g hg).symm.mono hsub).symm
  case inside =>
    intro b hb hpos
    rcases List.mem_cons.1 hb with rfl | hb
    · exact ⟨_, List.mem_cons_self, fun x hx => hunused ▸ hx⟩
    · obtain ⟨g, hg, hsub⟩ := hinside b hb hpos
      exact ⟨g, List.mem_cons_of_mem _ hg, hsub⟩
  case sized => exact h.sized
  case stray_apart => exact h.stray_apart
  case chain => exact h.chain

/-- The blocks of a chunk and what is left behind it lie apart in the unused range. -/
theorem parts_apart (p : Pool) (hpos : 0 < size) (hcount : 0 < count)
    (hfit : size * count ≤ p.bytesLeft) :
    (⟨p.startFree + size * count, p.bytesLeft - size * count⟩ ::
        ⟨p.startFree, size⟩ :: inChunk p.startFree size count).Pairwise Extent.Apart ∧
      ∀ b ∈ ⟨p.startFree + size * count, p.bytesLeft - size * count⟩ ::
        ⟨p.startFree, size⟩ :: inChunk p.startFree size count, b ⊆ p.unused := by
  have hslot : ∀ b ∈ ⟨p.startFree, size⟩ :: inChunk p.startFree size count,
      ∃ k < count, b = ⟨p.startFree + size * k, size⟩ := by
    intro b hb
    rcases List.mem_cons.1 hb with rfl | hb
    · exact ⟨0, hcount, rfl⟩
    · obtain ⟨k, -, hk, rfl⟩ := mem_inChunk hpos hb
      exact ⟨k, hk, rfl⟩
  constructor
  · refine List.pairwise_cons.2 ⟨?_, ?_⟩
    · intro b hb
      obtain ⟨k, hk, rfl⟩ := hslot b hb
      exact (Extent.apart_of_le (slot_le size hk _)).symm
    · have hsub := (List.takeWhile_sublist (l := linked p.startFree size count)
        fun b => b.start < p.startFree + size * count).cons_cons ⟨p.startFree, size⟩
      exact (linked_apart p.startFree hpos count).sublist hsub
  · intro b hb x hx
    have hin := Extent.mem_def.1 hx
    rcases List.mem_cons.1 hb with rfl | hb
    · refine Extent.mem_def.2 ⟨Nat.le_trans (Nat.le_add_right ..) hin.1, ?_⟩
      have := hin.2
      simp only [Pool.unused] at this ⊢
      omega
    · obtain ⟨k, hk, rfl⟩ := hslot b hb
      refine Extent.mem_def.2 ⟨Nat.le_trans (Nat.le_add_right ..) hin.1, ?_⟩
      have := slot_le size hk p.startFree
      exact Nat.lt_of_lt_of_le hin.2 (Nat.le_trans this (Nat.add_le_add_left hfit _))

/-- A chunk is carved: its first block is handed out, the linked blocks in it are free, and
the nodes linked behind it are stray. -/
theorem carve (h : Partition H free) (hc : c < NFREELISTS) (hs : size = classSize c)
    (hempty : H.pool.freeList c = 0) (hcount : 0 < count) (hfit : size * count ≤ H.pool.bytesLeft)
    (hcarved : ∀ t ∈ H.stray, ∀ b ∈ ⟨H.pool.startFree, size⟩ ::
      inChunk H.pool.startFree size count, t.Apart b)
    (hlive : ∀ t ∈ beyondChunk H.pool.startFree size count, ∀ b ∈ H.live ++ H.stray, t.Apart b)
    (hlisted : ∀ t ∈ beyondChunk H.pool.startFree size count, ∀ b, H.pool.Listed b → t.Apart b)
    (hlast : count ≠ 1 →
      H.pool.mem (H.pool.startFree + size + OBJ_SIZE * size * (count - 1)) = 0) :
    Partition { H with
        pool := H.pool.carved c size count
        live := ⟨H.pool.startFree, size⟩ :: H.live
        stray := beyondChunk H.pool.startFree size count ++ H.stray }
      (inChunk H.pool.startFree size count ++ free) := by
  subst hs
  have hpos : 0 < classSize c := Nat.succ_pos _
  have hsplit := inChunk_append_beyondChunk H.pool.startFree (classSize c) count
  have hlinked := linked_apart H.pool.startFree hpos count
  obtain ⟨hparts, hsub⟩ := parts_apart H.pool hpos hcount hfit
  have hunused : (H.pool.carved c (classSize c) count).unused =
      ⟨H.pool.startFree + classSize c * count, H.pool.bytesLeft - classSize c * count⟩ := by
    simp only [Pool.carved, Pool.unused, Pool.bytesLeft, Nat.sub_add_eq]
  generalize hin : inChunk H.pool.startFree (classSize c) count = inner at *
  generalize hbe : beyondChunk H.pool.startFree (classSize c) count = beyond at *
  have hsize : ∀ b ∈ inner ++ beyond, b.size = classSize c := by
    intro b hb
    exact size_of_mem_linked (hsplit ▸ hb)
  have hperm : (⟨H.pool.startFree + classSize c * count, H.pool.bytesLeft - classSize c * count⟩ ::
      ⟨H.pool.startFree, classSize c⟩ :: inner ++ (H.live ++ free)).Perm
      (⟨H.pool.startFree + classSize c * count, H.pool.bytesLeft - classSize c * count⟩ ::
        (⟨H.pool.startFree, classSize c⟩ :: H.live ++ (inner ++ free))) := by
    apply List.Perm.cons
    apply List.Perm.cons
    exact List.perm_append_comm_assoc inner H.live free
  rw [← hsplit] at hlinked
  obtain ⟨hfirst, hlinked⟩ := List.pairwise_cons.1 hlinked
  have hacross := (List.pairwise_append.1 hlinked).2.2
  constructor
  case regions_ne => exact h.regions_ne
  case apart =>
    rw [hunused]
    exact pairwise_apart_perm hperm (pairwise_carve h.apart hparts hsub)
  case inside =>
    intro b hb hb'
    rw [hunused] at hb
    rcases List.mem_append.1 (hperm.mem_iff.2 hb) with hb | hb
    · have hleft : 0 < H.pool.bytesLeft :=
        Nat.lt_of_lt_of_le (Nat.mul_pos hpos hcount) hfit
      obtain ⟨g, hg, hin⟩ := h.inside _ List.mem_cons_self hleft
      exact ⟨g, hg, fun x hx => hin x (hsub b hb x hx)⟩
    · exact h.inside b (List.mem_cons_of_mem _ hb) hb'
  case sized =>
    intro b hb
    simp only [List.cons_append, List.mem_cons, List.mem_append] at hb
    rcases hb with rfl | hb | (hb | hb) | hb | hb
    · exact ⟨c, hc, rfl⟩
    · exact h.sized b (List.mem_append_left _ hb)
    · exact ⟨c, hc, hsize b (List.mem_append_left _ hb)⟩
    · exact h.sized b (List.mem_append_right _ (List.mem_append_left _ hb))
    · exact ⟨c, hc, hsize b (List.mem_append_right _ hb)⟩
    · exact h.sized b (List.mem_append_right _ (List.mem_append_right _ hb))
  case stray_apart =>
    intro t ht b hb
    simp only [List.cons_append, List.mem_cons, List.mem_append] at hb
    rcases List.mem_append.1 ht with ht | ht
    · rcases hb with rfl | hb | hb | hb
      · exact (hfirst t (List.mem_append_right _ ht)).symm
      · exact hlive t ht b (List.mem_append_left _ hb)
      · exact (hacross b hb t ht).symm
      · exact hlisted t ht b (h.listed_of_mem (List.mem_append_left _ hb))
    · rcases hb with rfl | hb | hb | hb
      · exact hcarved t ht _ List.mem_cons_self
      · exact h.stray_apart t ht b (List.mem_append_left _ hb)
      · exact hcarved t ht b (List.mem_cons_of_mem _ hb)
      · exact h.stray_apart t ht b (List.mem_append_right _ hb)
  case chain =>
    intro d hd
    have hold := h.chain d hd
    by_cases hone : count = 1
    · rw [linked, if_pos hone] at hsplit
      obtain ⟨rfl, rfl⟩ := List.append_eq_nil_iff.1 hsplit
      simp only [Pool.carved, if_pos hone]
      exact hold
    · simp only [Pool.carved, if_neg hone]
      by_cases he : d = c
      · subst he
        rw [hempty] at hold
        have hnil := hold.eq_nil
        rw [nodes_append, List.append_eq_nil_iff] at hnil
        have hcurrent : H.pool.startFree + classSize d ≠ 0 :=
          Nat.ne_of_gt (Nat.add_pos_right _ hpos)
        have hchain := chain_carve (i := count - 1) hpos hcurrent (hlast hone)
        rw [Nat.sub_add_cancel hcount] at hchain
        rw [update_self, nodes_append, nodes_append, nodes_append, hnil.1, hnil.2, List.append_nil,
          List.append_nil, ← nodes_append, hsplit, nodes_linked _ _ hone]
        exact hchain
      · have hne : ∀ b ∈ inner ++ beyond, b.size ≠ classSize d := by
          intro b hb hs
          exact he (classSize_inj ((hsize b hb).symm.trans hs)).symm
        have hinner := nodes_eq_nil fun b hb => hne b (List.mem_append_left _ hb)
        have hbeyond := nodes_eq_nil fun b hb => hne b (List.mem_append_right _ hb)
        rw [update_of_ne he, nodes_append, nodes_append, nodes_append, hinner, hbeyond,
          List.nil_append, List.nil_append, ← nodes_append]
        apply hold.congr
        intro a ha
        apply carve_of_not_mem
        intro hmem
        obtain ⟨k, hk, hak⟩ := List.mem_range'.1 hmem
        have hin : (⟨a, classSize c⟩ : Extent) ∈ inner ++ beyond := by
          rw [hsplit]
          apply mem_nodes.1
          rw [nodes_linked _ _ hone]
          exact List.mem_range'.2 ⟨k, Nat.lt_of_lt_of_le hk (Nat.sub_le ..), hak⟩
        have hb := mem_nodes.1 ha
        have hapart : Extent.Apart ⟨a, classSize c⟩ ⟨a, classSize d⟩ := by
          rcases List.mem_append.1 hin with hin | hin
          · rcases List.mem_append.1 hb with hb | hb
            · have hunused := (List.pairwise_cons.1 h.apart).1 _ (List.mem_append_right _ hb)
              apply hunused.mono
              exact hsub _ (List.mem_cons_of_mem _ (List.mem_cons_of_mem _ hin))
            · exact (hcarved _ hb _ (List.mem_cons_of_mem _ hin)).symm
          · exact hlisted _ hin _ (h.listed_of_mem hb)
        exact hapart.start_ne hpos (Nat.succ_pos _) rfl

end Partition

end BigBox.Mempool
