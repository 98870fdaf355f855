import BigBox.Lib.Fifo
import Mathlib.Algebra.Order.Ring.Int
import Mathlib.Data.List.Forall2
import Mathlib.Data.List.Nodup
import Mathlib.Data.List.Perm.Basic

namespace BigBox
set_option autoImplicit true

theorem countP_le_of_forall₂ {p : α → Bool}
    (h : List.Forall₂ (fun a b => p a = true → p b = true) l₁ l₂) :
    l₁.countP p ≤ l₂.countP p := by
  induction h with
  | nil => exact Nat.le_refl _
  | @cons a b l₁ l₂ hab _ ih =>
    rw [List.countP_cons, List.countP_cons]
    apply Nat.add_le_add ih
    split
    case isTrue ha => exact Nat.le_of_eq (if_pos (hab ha)).symm
    case isFalse => exact Nat.zero_le _

/-- A property that passes from each element to its image under a rearrangement passes back. -/
theorem forall₂_of_perm {p : α → Bool} {R : α → α → Prop}
    (hR : ∀ a b, R a b → p a = true → p b = true) (h : List.Forall₂ R l₁ l₂)
    (hperm : l₁.Perm l₂) :
    List.Forall₂ (fun a b => R a b ∧ (p b = true → p a = true)) l₁ l₂ := by
  have hcount : l₂.countP p ≤ l₁.countP p := Nat.le_of_eq (hperm.countP_eq p).symm
  clear hperm
  induction h with
  | nil => exact .nil
  | @cons a b l₁ l₂ hab hrest ih =>
    have hle := countP_le_of_forall₂ (hrest.imp hR)
    rw [List.countP_cons, List.countP_cons] at hcount
    by_cases hb : p b = true
    · by_cases ha : p a = true
      · rw [if_pos ha, if_pos hb] at hcount
        exact .cons ⟨hab, fun _ => ha⟩ (ih (Nat.le_of_add_le_add_right hcount))
      · rw [if_neg ha, if_pos hb] at hcount
        exact absurd (Nat.le_trans hcount hle) (Nat.not_succ_le_self _)
    · rw [if_neg hb] at hcount
      refine .cons ⟨hab, fun h => absurd h hb⟩ (ih (Nat.le_trans hcount ?_))
      split
      case isTrue ha => exact absurd (hR a b hab ha) hb
      case isFalse => exact Nat.le_refl _

theorem exists_of_forall₂ {R : α → β → Prop} (h : List.Forall₂ R l₁ l₂) (ha : a ∈ l₁) :
    ∃ b ∈ l₂, R a b := by
  induction h with
  | nil => cases ha
  | @cons c d l₁ l₂ hcd _ ih =>
    rcases List.mem_cons.1 ha with rfl | ha
    · exact ⟨d, List.mem_cons_self, hcd⟩
    · obtain ⟨b, hb, hab⟩ := ih ha
      exact ⟨b, List.mem_cons_of_mem _ hb, hab⟩

/-- A rearrangement that keeps distinct keys in place keeps everything in place. -/
theorem eq_of_perm_of_keys {f : α → β} (h : List.Forall₂ (fun a b => f b = f a) l₁ l₂)
    (hperm : l₁.Perm l₂) (hnodup : (l₁.map f).Nodup) : l₁ = l₂ := by
  have hmem : ∀ a ∈ l₂, a ∈ l₁ := fun a ha => hperm.mem_iff.2 ha
  clear hperm
  rw [← List.forall₂_eq_eq_eq]
  rw [List.forall₂_iff_zip] at h ⊢
  refine ⟨h.1, ?_⟩
  intro a b hab
  obtain ⟨ha, hb⟩ := List.of_mem_zip hab
  exact List.inj_on_of_nodup_map hnodup ha (hmem b hb) (h.2 hab).symm

/-- A piece of a list that is cut into pieces of `sz` elements, the last of which is shorter. -/
def chunk (sz : Nat) (l : List α) (i : Nat) : List α := (l.drop (i * sz)).take sz

theorem length_chunk (sz : Nat) (l : List α) (i : Nat) :
    (chunk sz l i).length = min sz (l.length - i * sz) := by
  rw [chunk, List.length_take, List.length_drop]

theorem length_chunk_le (sz : Nat) (l : List α) (i : Nat) : (chunk sz l i).length ≤ sz :=
  List.length_take_le _ _

/-- The pieces in order are the list. -/
theorem chunks_eq (sz : Nat) (l : List α) (k : Nat) :
    (List.range k).flatMap (chunk sz l) = l.take (k * sz) := by
  induction k with
  | zero => rw [Nat.zero_mul, List.take_zero, List.range_zero, List.flatMap_nil]
  | succ k ih =>
    rw [List.range_succ, List.flatMap_append, ih, List.flatMap_singleton, chunk, Nat.succ_mul,
      List.take_add]

/-- Behind a short piece there is nothing. -/
theorem chunks_eq_of_short (h : (chunk sz l k).length < sz) :
    (List.range (k + 1)).flatMap (chunk sz l) = l := by
  have hlen : (chunk sz l k).length = min sz (l.length - k * sz) := length_chunk sz l k
  rw [chunks_eq, List.take_of_length_le]
  rw [Nat.succ_mul]
  omega

/-- The pieces of a list that they divide are full. -/
theorem chunk_full (hdvd : sz ∣ l.length) (h : chunk sz l k ≠ []) : (chunk sz l k).length = sz := by
  obtain ⟨n, hn⟩ := hdvd
  have hlen : (chunk sz l k).length = min sz (l.length - k * sz) := length_chunk sz l k
  have hpos : 0 < (chunk sz l k).length := List.length_pos_iff.2 h
  have hlt : k < n := by
    by_contra hle
    have hmul : n * sz ≤ k * sz := Nat.mul_le_mul_right sz (Nat.not_lt.1 hle)
    rw [Nat.mul_comm] at hmul
    omega
  have hmul : (k + 1) * sz ≤ n * sz := Nat.mul_le_mul_right sz hlt
  rw [Nat.succ_mul, Nat.mul_comm n] at hmul
  omega

section Flatten

theorem take_flatten {items : List (List α)} (h : ∀ item ∈ items, item.length = sz) (n : Nat) :
    items.flatten.take (n * sz) = (items.take n).flatten := by
  induction items generalizing n with
  | nil => rw [List.flatten_nil, List.take_nil, List.take_nil, List.flatten_nil]
  | cons item items ih =>
    have hitem := h item List.mem_cons_self
    have hrest := ih fun item hitem => h item (List.mem_cons_of_mem _ hitem)
    cases n with
    | zero => rw [Nat.zero_mul, List.take_zero, List.take_zero, List.flatten_nil]
    | succ n =>
      rw [List.flatten_cons, List.take_succ_cons, List.flatten_cons, ← hrest, Nat.succ_mul,
        Nat.add_comm, ← hitem, List.take_length_add_append]

theorem drop_flatten {items : List (List α)} (h : ∀ item ∈ items, item.length = sz) (n : Nat) :
    items.flatten.drop (n * sz) = (items.drop n).flatten := by
  induction items generalizing n with
  | nil => rw [List.flatten_nil, List.drop_nil, List.drop_nil, List.flatten_nil]
  | cons item items ih =>
    have hitem := h item List.mem_cons_self
    have hrest := ih fun item hitem => h item (List.mem_cons_of_mem _ hitem)
    cases n with
    | zero => rw [Nat.zero_mul, List.drop_zero, List.drop_zero]
    | succ n =>
      rw [List.flatten_cons, List.drop_succ_cons, ← hrest, Nat.succ_mul, Nat.add_comm, ← hitem,
        List.drop_length_add_append]

theorem length_flatten {items : List (List α)} (h : ∀ item ∈ items, item.length = sz) :
    items.flatten.length = items.length * sz := by
  induction items with
  | nil => rw [List.flatten_nil, List.length_nil, List.length_nil, Nat.zero_mul]
  | cons item items ih =>
    have hrest := ih fun item hitem => h item (List.mem_cons_of_mem _ hitem)
    rw [List.flatten_cons, List.length_append, hrest, h item List.mem_cons_self,
      List.length_cons, Nat.succ_mul, Nat.add_comm]

theorem range_flatten {items : List (List α)} (h : ∀ item ∈ items, item.length = sz) :
    ((List.range items.length).map fun i => (items.flatten.drop (i * sz)).take sz) = items := by
  apply List.ext_getElem
  · rw [List.length_map, List.length_range]
  · intro i hi hi'
    have hrest : ∀ item ∈ items.drop i, item.length = sz :=
      fun item hitem => h item (List.mem_of_mem_drop hitem)
    have htake := take_flatten hrest 1
    rw [Nat.one_mul] at htake
    rw [List.getElem_map, List.getElem_range, drop_flatten h, htake, List.drop_eq_getElem_cons hi',
      List.take_succ_cons, List.take_zero, List.flatten_singleton]

end Flatten

/-- The bytes in a place of a block, if they lie inside it. -/
def Block.read (block : List α) (off n : Nat) : Option (List α) :=
  if off + n ≤ block.length then some ((block.drop off).take n) else none

def Block.write (block : List α) (off : Nat) (bytes : List α) : Option (List α) :=
  if off + bytes.length ≤ block.length then some (copyAt block off bytes) else none

def Block.move (block : List α) (dst src n : Nat) : Option (List α) :=
  (Block.read block src n).bind (Block.write block dst)

/-- Places that overlap have no result. -/
def Block.memcpy (block : List α) (dst src n : Nat) : Option (List α) :=
  if n = 0 ∨ dst + n ≤ src ∨ src + n ≤ dst then Block.move block dst src n else none

/-- A block of a new length, with fresh bytes behind the old ones. -/
def Block.realloc (block : List α) (fresh : Nat → α) (n : Nat) : List α :=
  block.take n ++ (List.range (n - block.length)).map fresh

section Block

theorem Block.read_middle (a x b : List α) (hoff : off = a.length) (hn : n = x.length) :
    Block.read (a ++ x ++ b) off n = some x := by
  have hin : off + n ≤ (a ++ x ++ b).length := by
    rw [List.length_append, List.length_append, hoff, hn]
    exact Nat.le_add_right _ _
  rw [Block.read, if_pos hin, hoff, hn, List.append_assoc, List.drop_left, List.take_left]

theorem Block.read_none (h : block.length < off + n) : Block.read block off n = none :=
  if_neg (Nat.not_le.2 h)

theorem Block.write_none {bytes : List α} (h : block.length < off + bytes.length) :
    Block.write block off bytes = none :=
  if_neg (Nat.not_le.2 h)

theorem Block.write_middle (a x b bytes : List α) (hoff : off = a.length)
    (h : bytes.length = x.length) :
    Block.write (a ++ x ++ b) off bytes = some (a ++ bytes ++ b) := by
  have hin : off + bytes.length ≤ (a ++ x ++ b).length := by
    rw [List.length_append, List.length_append, hoff, h]
    exact Nat.le_add_right _ _
  rw [Block.write, if_pos hin, copyAt, hoff, h, ← List.length_append, List.drop_left,
    List.append_assoc a x b, List.take_left]

theorem Block.write_cons (a : List α) (x c : α) (b : List α) (hoff : off = a.length) :
    Block.write (a ++ x :: b) off [c] = some (a ++ c :: b) := by
  have hwrite := Block.write_middle a [x] b [c] hoff rfl
  rwa [List.append_assoc, List.append_assoc] at hwrite

theorem Block.length_write {bytes : List α} (h : Block.write block off bytes = some block') :
    block'.length = block.length := by
  rw [Block.write] at h
  split at h
  case isTrue hin =>
    cases h
    exact length_copyAt block off bytes hin
  case isFalse => cases h

theorem Block.take_write {bytes : List α} (h : Block.write block off bytes = some block') :
    block'.take (off + bytes.length) = block.take off ++ bytes := by
  rw [Block.write] at h
  split at h
  case isTrue hin =>
    cases h
    have hoff : (block.take off).length = off := by
      rw [List.length_take]
      omega
    have hlength : (block.take off ++ bytes).length = off + bytes.length := by
      rw [List.length_append, hoff]
    rw [copyAt, List.take_left' hlength]
  case isFalse => cases h

theorem Block.length_move (h : Block.move block dst src n = some block') :
    block'.length = block.length := by
  obtain ⟨bytes, _, hwrite⟩ := Option.bind_eq_some_iff.1 h
  exact Block.length_write hwrite

theorem Block.length_memcpy (h : Block.memcpy block dst src n = some block') :
    block'.length = block.length := by
  rw [Block.memcpy] at h
  split at h
  case isTrue => exact Block.length_move h
  case isFalse => cases h

/-- What is moved to the front starts the block. -/
theorem Block.move_front (block : List α) (src n : Nat) (h : src + n ≤ block.length) :
    ∃ block', Block.move block 0 src n = some block' ∧ block'.length = block.length ∧
      block'.take n = (block.drop src).take n := by
  have hlength : ((block.drop src).take n).length = n := by
    rw [List.length_take, List.length_drop]
    omega
  have hwrite : Block.write block 0 ((block.drop src).take n) =
      some (copyAt block 0 ((block.drop src).take n)) := if_pos (by omega)
  have htake := Block.take_write hwrite
  rw [hlength, Nat.zero_add, List.take_zero, List.nil_append] at htake
  refine ⟨_, ?_, Block.length_write hwrite, htake⟩
  rw [Block.move, Block.read, if_pos h, Option.bind_some, hwrite]

theorem Block.move_none (hsrc : src + n ≤ block.length) (h : block.length < dst + n) :
    Block.move block dst src n = none := by
  rw [Block.move, Block.read, if_pos hsrc, Option.bind_some]
  apply Block.write_none
  rwa [List.length_take, List.length_drop, Nat.min_eq_left (Nat.le_sub_of_add_le' hsrc)]

/-- Room is made in front of the end of the used part. -/
theorem Block.move_right (a b rest : List α) (hc : c ≤ rest.length) :
    ∃ x z, x.length = c ∧
      Block.move (a ++ b ++ rest) (a.length + c) a.length b.length = some (a ++ x ++ (b ++ z)) := by
  have hlength : (b ++ rest).length = b.length + rest.length := List.length_append
  have hx : ((b ++ rest).take c).length = c := by
    rw [List.length_take, hlength]
    omega
  have hy : b.length = (((b ++ rest).drop c).take b.length).length := by
    rw [List.length_take, List.length_drop, hlength]
    omega
  have hsplit : a ++ b ++ rest = (a ++ (b ++ rest).take c) ++
      ((b ++ rest).drop c).take b.length ++ ((b ++ rest).drop c).drop b.length := by
    rw [List.append_assoc a, List.append_assoc a, List.append_assoc a,
      List.append_assoc ((b ++ rest).take c), List.take_append_drop, List.take_append_drop]
  refine ⟨(b ++ rest).take c, ((b ++ rest).drop c).drop b.length, hx, ?_⟩
  rw [Block.move, Block.read_middle a b rest rfl rfl, Option.bind_some, hsplit,
    Block.write_middle _ _ _ _ (by rw [List.length_append, hx]) hy, List.append_assoc _ b]

/-- A gap is closed. -/
theorem Block.move_left (a x b rest : List α) :
    ∃ z, Block.move (a ++ x ++ b ++ rest) a.length (a.length + x.length) b.length =
      some (a ++ b ++ z) := by
  have hy : b.length = ((x ++ b ++ rest).take b.length).length := by
    rw [List.length_take, List.length_append, List.length_append]
    omega
  have hsplit : a ++ x ++ b ++ rest =
      a ++ (x ++ b ++ rest).take b.length ++ (x ++ b ++ rest).drop b.length := by
    rw [List.append_assoc a (List.take ..), List.take_append_drop, ← List.append_assoc,
      ← List.append_assoc]
  refine ⟨(x ++ b ++ rest).drop b.length, ?_⟩
  rw [Block.move, Block.read_middle (a ++ x) b rest List.length_append.symm rfl, Option.bind_some,
    hsplit, Block.write_middle _ _ _ _ rfl hy]

theorem Block.length_realloc (block : List α) (fresh : Nat → α) (n : Nat) :
    (Block.realloc block fresh n).length = n := by
  rw [Block.realloc, List.length_append, List.length_take, List.length_map, List.length_range]
  omega

/-- What fits in the new length is kept. -/
theorem Block.realloc_append (a b : List α) (fresh : Nat → α) (h : a.length ≤ n) :
    ∃ rest, Block.realloc (a ++ b) fresh n = a ++ rest := by
  rw [Block.realloc, List.take_append, List.take_of_length_le h, List.append_assoc]
  exact ⟨_, rfl⟩

end Block

end BigBox
