import BigBox.Lib.Block
import BigBox.Lib.CInt
import BigBox.Lib.TryRun

namespace BigBox.Cstl.Vector
set_option autoImplicit true

/-- A `vector_t` without a free handler. -/
structure VectorT where
  data : List UInt8
  size : Nat
  allocSize : Nat
  typesize : Nat

def VECTOR_INIT_SIZE : Nat := 16

def VECTOR_INCR_FACTOR : Nat := 2

/-- An element, as the bytes it is stored in. -/
abbrev Elem := List UInt8

def VectorT.offset (v : VectorT) (n : Nat) : Nat := sizeT (n * v.typesize)

/-- The bytes `realloc` adds are whatever it finds. -/
def VectorT.realloc (v : VectorT) (newCount : Nat) (fresh : Nat → UInt8) : VectorT :=
  { v with data := Block.realloc v.data fresh (v.offset newCount), allocSize := newCount }

def vectorInit (typesize : Nat) (fresh : Nat → UInt8) : VectorT :=
  VectorT.realloc ⟨[], 0, 0, typesize⟩ VECTOR_INIT_SIZE fresh

/-- The loop that doubles the capacity; after 64 rounds it is zero. -/
def growLoop (need : Nat) : Nat → Nat → Option Nat
  | 0, _ => none
  | n + 1, allocSize =>
    if allocSize < need then growLoop need n (sizeT (allocSize * VECTOR_INCR_FACTOR))
    else some allocSize

def VectorT.grow (v : VectorT) (need : Nat) (fresh : Nat → UInt8) : Option VectorT :=
  if v.allocSize < need then (growLoop need 65 v.allocSize).map fun n => v.realloc n fresh
  else some v

/-- `__vector_insert`. -/
def VectorT.insert (v : VectorT) (pos : Nat) (data : List Elem) (fresh : Nat → UInt8) :
    Option VectorT :=
  (v.grow (sizeT (v.size + data.length)) fresh).bind fun v =>
    let offset := v.offset data.length
    let moved := if pos < v.size then
        Block.move v.data (v.offset pos + offset) (v.offset pos) (v.offset (v.size - pos))
      else some v.data
    moved.bind fun block =>
      (Block.write block (v.offset pos) (data.flatten.take offset)).map fun block =>
        { v with data := block, size := sizeT (v.size + data.length) }

/-- `__vector_erase`. -/
def VectorT.erase (v : VectorT) (pos : Nat) : Option VectorT :=
  if v.size ≤ pos then some v
  else
    let moved := if pos < v.size - 1 then
        Block.move v.data (v.offset pos) (v.offset pos + v.typesize) (v.offset (v.size - 1 - pos))
      else some v.data
    moved.map fun block => { v with data := block, size := v.size - 1 }

def vectorReserve (v : VectorT) (newCap : Nat) (fresh : Nat → UInt8) : VectorT :=
  if v.allocSize < newCap then v.realloc newCap fresh else v

def vectorShrinkToFit (v : VectorT) (fresh : Nat → UInt8) : VectorT := v.realloc v.size fresh

def vectorInsert1 (v : VectorT) (pos : Option Nat) (data : List Elem) (fresh : Nat → UInt8) :
    Option VectorT :=
  match pos with
  | none => some v
  | some pos => v.insert pos data fresh

def vectorErase (v : VectorT) (pos : Nat) : Option VectorT := v.erase pos

def vectorPushBack (v : VectorT) (data : Elem) (fresh : Nat → UInt8) : Option VectorT :=
  v.insert v.size [data] fresh

def vectorPopBack (v : VectorT) : VectorT :=
  if v.size = 0 then v else { v with size := v.size - 1 }

def vectorResize (v : VectorT) (count : Nat) (fresh : Nat → UInt8) : Option VectorT :=
  let v := vectorReserve v count fresh
  if count < v.size then some { v with size := count }
  else
    let zeros := List.replicate (sizeT ((count - v.size) * v.typesize)) 0
    (Block.write v.data (v.offset v.size) zeros).map fun block =>
      { v with data := block, size := count }

def vectorClear (v : VectorT) : VectorT := { v with size := 0 }

/-- A call, with the bytes `realloc` adds where it is made. A position is the index of an
iterator, which may be null. -/
inductive Call where
  | insert1 (pos : Option Nat) (data : List Elem) (fresh : Nat → UInt8)
  | erase (pos : Nat)
  | pushBack (data : Elem) (fresh : Nat → UInt8)
  | popBack
  | reserve (newCap : Nat) (fresh : Nat → UInt8)
  | resize (count : Nat) (fresh : Nat → UInt8)
  | clear
  | shrinkToFit (fresh : Nat → UInt8)

/-- One call; `none` is an access outside of the block, or a loop without an end. -/
def vectorStep (v : VectorT) (c : Call) : Option (VectorT × Unit) :=
  (match c with
  | .insert1 pos data fresh => vectorInsert1 v pos data fresh
  | .erase pos => vectorErase v pos
  | .pushBack data fresh => vectorPushBack v data fresh
  | .popBack => some (vectorPopBack v)
  | .reserve newCap fresh => some (vectorReserve v newCap fresh)
  | .resize count fresh => vectorResize v count fresh
  | .clear => some (vectorClear v)
  | .shrinkToFit fresh => some (vectorShrinkToFit v fresh)).map fun v => (v, ())

/-- The reference list. -/
def specStep (typesize : Nat) (t : List Elem) (c : Call) : List Elem × Unit :=
  (match c with
  | .insert1 none _ _ => t
  | .insert1 (some pos) data _ => t.take pos ++ data ++ t.drop pos
  | .erase pos => t.eraseIdx pos
  | .pushBack data _ => t ++ [data]
  | .popBack => t.dropLast
  | .reserve _ _ => t
  | .resize count _ => t.take count ++ List.replicate (count - t.length) (List.replicate typesize 0)
  | .clear => []
  | .shrinkToFit _ => t, ())

/-- The elements the block holds. -/
def VectorT.contents (v : VectorT) : Option (List Elem) :=
  (Block.read v.data 0 (v.size * v.typesize)).map fun bytes =>
    (List.range v.size).map fun i => (bytes.drop (i * v.typesize)).take v.typesize

structure VectorT.Shows (v : VectorT) (t : List Elem) : Prop where
  contents_eq : v.contents = some t
  size_le : v.size ≤ v.allocSize

/-- The elements of a vector and so many new ones lie in memory. -/
def VectorT.Holdable (v : VectorT) (count : Nat) : Prop :=
  (v.size + count) * v.typesize < 9223372036854775808

/-- What clients pass: positions up to the size, elements of the size of the type, which all lie
in memory, and counts that are a `size_t`. -/
def Call.Valid (v : VectorT) : Call → Prop
  | .insert1 pos data _ => (∀ p ∈ pos, p ≤ v.size) ∧ (∀ e ∈ data, e.length = v.typesize) ∧
      v.Holdable data.length
  | .erase pos => pos ≤ v.size
  | .pushBack data _ => data.length = v.typesize ∧ v.Holdable 1
  | .reserve newCap _ => newCap < 18446744073709551616
  | .resize count _ => count < 18446744073709551616
  | _ => True

/-- There is room for so many more elements, or the capacity can be doubled. -/
def VectorT.RoomFor (v : VectorT) (count : Nat) : Prop :=
  if v.size + count ≤ v.allocSize then (v.size + count) * v.typesize ≤ v.data.length
  else v.allocSize ≠ 0

/-- The calls a vector serves. -/
def Call.Ok (v : VectorT) : Call → Prop
  | .insert1 pos data _ => pos.isSome → v.RoomFor data.length
  | .pushBack _ _ => v.RoomFor 1
  | .reserve newCap _ => newCap ≤ v.allocSize ∨ v.size * v.typesize ≤ sizeT (newCap * v.typesize)
  | .resize count _ => count ≤ v.size ∨
      if count ≤ v.allocSize then count * v.typesize ≤ v.data.length
      else count * v.typesize < 18446744073709551616
  | _ => True

section Holds
variable {ts : Nat} {v : VectorT} {t : List Elem}

/-- The elements stand at the start of the block. -/
structure Holds (ts : Nat) (v : VectorT) (t : List Elem) : Prop where
  typesize_eq : v.typesize = ts
  pos : 0 < ts
  sized : ∀ e ∈ t, e.length = ts
  size_eq : v.size = t.length
  size_le : v.size ≤ v.allocSize
  data_eq : ∃ rest, v.data = t.flatten ++ rest
  bound : v.data.length < 18446744073709551616

theorem Holds.room (h : Holds ts v t) : v.size * ts ≤ v.data.length := by
  obtain ⟨rest, hdata⟩ := h.data_eq
  rw [hdata, List.length_append, length_flatten h.sized, h.size_eq]
  exact Nat.le_add_right _ _

theorem Holds.shows (h : Holds ts v t) : v.Shows t := by
  obtain ⟨rest, hdata⟩ := h.data_eq
  refine ⟨?_, h.size_le⟩
  have hread : Block.read v.data 0 (v.size * ts) = some t.flatten := by
    rw [hdata, ← List.nil_append t.flatten]
    exact Block.read_middle [] t.flatten rest rfl (by rw [length_flatten h.sized, h.size_eq])
  rw [VectorT.contents, h.typesize_eq, hread, Option.map_some, h.size_eq, range_flatten h.sized]

theorem Holds.offset_eq (h : Holds ts v t) (hn : n * ts < 18446744073709551616) :
    v.offset n = n * ts := by
  rw [VectorT.offset, h.typesize_eq, sizeT_of_lt hn]

/-- What the new length has room for is kept. -/
theorem Holds.realloc (h : Holds ts v t) (hn : v.size ≤ n) (hroom : v.size * ts ≤ v.offset n)
    (fresh : Nat → UInt8) : Holds ts (v.realloc n fresh) t := by
  obtain ⟨rest, hdata⟩ := h.data_eq
  have hlength : t.flatten.length ≤ v.offset n := by
    rwa [length_flatten h.sized, ← h.size_eq]
  refine ⟨h.typesize_eq, h.pos, h.sized, h.size_eq, hn, ?_, ?_⟩
  · rw [VectorT.realloc, hdata]
    exact Block.realloc_append _ _ fresh hlength
  · rw [VectorT.realloc, Block.length_realloc]
    exact sizeT_lt _

theorem Holds.reserve (h : Holds ts v t) (hroom : newCap ≤ v.allocSize ∨
    v.size * v.typesize ≤ sizeT (newCap * v.typesize)) (fresh : Nat → UInt8) :
    Holds ts (vectorReserve v newCap fresh) t := by
  rw [vectorReserve]
  split
  case isTrue hgrow =>
    have hroom := hroom.resolve_left (Nat.not_le.2 hgrow)
    rw [h.typesize_eq] at hroom
    apply h.realloc
    · exact Nat.le_of_lt (Nat.lt_of_le_of_lt h.size_le hgrow)
    · rwa [VectorT.offset, h.typesize_eq]
  case isFalse => exact h

/-- The doubled capacity stays below twice what is needed. -/
theorem growLoop_some (hneed : need < 9223372036854775808) (ha : 1 ≤ a) (hn : need ≤ a * 2 ^ n)
    (hbound : a < 2 * need) :
    ∃ g, growLoop need (n + 1) a = some g ∧ need ≤ g ∧ g < 2 * need := by
  induction n generalizing a with
  | zero =>
    rw [Nat.pow_zero, Nat.mul_one] at hn
    exact ⟨a, if_neg (Nat.not_lt.2 hn), hn, hbound⟩
  | succ n ih =>
    rw [growLoop]
    by_cases hlt : a < need
    · have hsmall : a * 2 < 18446744073709551616 := by omega
      have hdouble : sizeT (a * VECTOR_INCR_FACTOR) = a * 2 := sizeT_of_lt hsmall
      rw [if_pos hlt, hdouble]
      rw [Nat.pow_succ', ← Nat.mul_assoc] at hn
      exact ih (by omega) hn (by omega)
    · rw [if_neg hlt]
      exact ⟨a, rfl, Nat.not_lt.1 hlt, hbound⟩

/-- Nothing is doubled to nothing. -/
theorem growLoop_zero (hneed : 0 < need) (n : Nat) : growLoop need n 0 = none := by
  induction n with
  | zero => rfl
  | succ n ih =>
    have hdouble : sizeT (0 * VECTOR_INCR_FACTOR) = 0 := sizeT_of_lt (by decide)
    rw [growLoop, if_pos hneed, hdouble, ih]

theorem Holds.count_lt (h : Holds ts v t) (hin : v.Holdable n) :
    v.size + n < 9223372036854775808 := by
  rw [VectorT.Holdable, h.typesize_eq] at hin
  exact Nat.lt_of_le_of_lt (Nat.le_mul_of_pos_right _ h.pos) hin

theorem Holds.grow (h : Holds ts v t) (hin : v.Holdable n) (hroom : v.RoomFor n)
    (fresh : Nat → UInt8) :
    ∃ v', v.grow (sizeT (v.size + n)) fresh = some v' ∧ Holds ts v' t ∧ v.size + n ≤ v'.allocSize ∧
      (v.size + n) * ts ≤ v'.data.length := by
  have hcount := h.count_lt hin
  rw [VectorT.Holdable, h.typesize_eq] at hin
  rw [VectorT.RoomFor, h.typesize_eq] at hroom
  rw [VectorT.grow, sizeT_of_lt (Nat.lt_trans hcount (by decide))]
  by_cases hle : v.size + n ≤ v.allocSize
  · rw [if_pos hle] at hroom
    rw [if_neg (Nat.not_lt.2 hle)]
    exact ⟨v, rfl, h, hle, hroom⟩
  · rw [if_neg hle] at hroom
    have hlt := Nat.not_le.1 hle
    obtain ⟨g, hg, hneed, hbound⟩ := growLoop_some (n := 64) hcount (Nat.pos_of_ne_zero hroom)
      (Nat.le_trans (Nat.le_of_lt (Nat.lt_trans hcount (by decide)))
        (Nat.le_mul_of_pos_left (2 ^ 64) (Nat.pos_of_ne_zero hroom))) (by omega)
    have hbytes : g * ts < 18446744073709551616 := by
      have hle : g * ts ≤ 2 * (v.size + n) * ts := Nat.mul_le_mul_right _ (Nat.le_of_lt hbound)
      rw [Nat.mul_assoc] at hle
      omega
    have hoffset := h.offset_eq hbytes
    rw [if_pos hlt, hg]
    refine ⟨_, rfl, h.realloc (by omega) ?_ fresh, hneed, ?_⟩
    · rw [hoffset]
      exact Nat.mul_le_mul_right _ (by omega)
    · change _ ≤ (Block.realloc v.data fresh (v.offset g)).length
      rw [Block.length_realloc, hoffset]
      exact Nat.mul_le_mul_right _ hneed

/-- The parts of the block around a position. -/
theorem Holds.split (h : Holds ts v t) (p : Nat) :
    ∃ rest, v.data = (t.take p).flatten ++ (t.drop p).flatten ++ rest := by
  obtain ⟨rest, hdata⟩ := h.data_eq
  refine ⟨rest, ?_⟩
  rw [hdata, ← List.flatten_append, List.take_append_drop]

theorem Holds.length_take (h : Holds ts v t) (hp : p ≤ v.size) :
    (t.take p).flatten.length = p * ts := by
  rw [length_flatten fun e he => h.sized e (List.mem_of_mem_take he), List.length_take,
    Nat.min_eq_left (h.size_eq ▸ hp)]

theorem Holds.length_drop (h : Holds ts v t) (p : Nat) :
    (t.drop p).flatten.length = (v.size - p) * ts := by
  rw [length_flatten fun e he => h.sized e (List.mem_of_mem_drop he), List.length_drop, h.size_eq]

/-- The elements behind a position make room. -/
theorem Holds.move_right (h : Holds ts v t) (hp : p ≤ v.size)
    (hlength : (v.size + n) * ts ≤ v.data.length) :
    ∃ x z, x.length = n * ts ∧
      ((t.take p).flatten ++ x ++ ((t.drop p).flatten ++ z)).length = v.data.length ∧
      (if p < v.size then
        Block.move v.data (v.offset p + v.offset n) (v.offset p) (v.offset (v.size - p))
      else some v.data) = some ((t.take p).flatten ++ x ++ ((t.drop p).flatten ++ z)) := by
  obtain ⟨rest, hdata⟩ := h.split p
  have htake := h.length_take hp
  have hdrop := h.length_drop p
  have hbound := h.bound
  have hsum : (v.size + n) * ts = p * ts + (v.size - p) * ts + n * ts := by
    rw [← Nat.add_mul, ← Nat.add_mul, Nat.add_sub_cancel' hp]
  have hrest : n * ts ≤ rest.length := by
    rw [hdata, List.length_append, List.length_append, htake, hdrop] at hlength
    omega
  by_cases hlt : p < v.size
  · obtain ⟨x, z, hx, hmove⟩ := Block.move_right (t.take p).flatten (t.drop p).flatten rest hrest
    refine ⟨x, z, hx, ?_, ?_⟩
    · rw [hdata, Block.length_move hmove]
    · rw [if_pos hlt, h.offset_eq (by omega), h.offset_eq (by omega), h.offset_eq (by omega),
        hdata, ← hmove, htake, hdrop]
  · have hend : t.drop p = [] := List.drop_of_length_le (h.size_eq ▸ Nat.not_lt.1 hlt)
    have hsplit : (t.take p).flatten ++ rest.take (n * ts) ++
        ((t.drop p).flatten ++ rest.drop (n * ts)) = v.data := by
      rw [hdata, hend, List.flatten_nil, List.append_nil, List.nil_append, List.append_assoc,
        List.take_append_drop]
    refine ⟨rest.take (n * ts), rest.drop (n * ts), ?_, ?_, ?_⟩
    · rw [List.length_take, Nat.min_eq_left hrest]
    · rw [hsplit]
    · rw [if_neg hlt, hsplit]

theorem Holds.insert (h : Holds ts v t) (hp : p ≤ v.size) (hsized : ∀ e ∈ data, e.length = ts)
    (hin : v.Holdable data.length) (hroom : v.RoomFor data.length) (fresh : Nat → UInt8) :
    ∃ v', v.insert p data fresh = some v' ∧ Holds ts v' (t.take p ++ data ++ t.drop p) := by
  have hcount := h.count_lt hin
  obtain ⟨v', hgrow, h', halloc, hlength⟩ := h.grow hin hroom fresh
  have hsize : v'.size = v.size := h'.size_eq.trans h.size_eq.symm
  rw [← hsize] at hp halloc hlength hcount
  obtain ⟨x, z, hx, hmoved, hmove⟩ := h'.move_right hp hlength
  have hbound := h'.bound
  have hoffset : v'.offset p = (t.take p).flatten.length := by
    have hle : p * ts ≤ (v'.size + data.length) * ts := Nat.mul_le_mul_right _ (by omega)
    rw [h'.length_take hp, h'.offset_eq (by omega)]
  have hcopied : data.flatten.take (v'.offset data.length) = data.flatten := by
    have hle : data.length * ts ≤ (v'.size + data.length) * ts :=
      Nat.mul_le_mul_right _ (Nat.le_add_left _ _)
    rw [h'.offset_eq (by omega), ← length_flatten hsized, List.take_length]
  have hwrite := Block.write_middle (t.take p).flatten x ((t.drop p).flatten ++ z) data.flatten
    hoffset (by rw [length_flatten hsized, hx])
  have hlist : t.length + data.length = (t.take p ++ data ++ t.drop p).length := by
    rw [List.length_append, List.length_append, List.length_take, List.length_drop]
    omega
  rw [VectorT.insert, hgrow, Option.bind_some]
  simp only [hmove, Option.bind_some, hcopied, hwrite, Option.map_some]
  refine ⟨_, rfl, h'.typesize_eq, h'.pos, fun e he => ?_, ?_, ?_, ⟨z, ?_⟩, ?_⟩
  · rcases List.mem_append.1 he with he | he
    · rcases List.mem_append.1 he with he | he
      · exact h.sized e (List.mem_of_mem_take he)
      · exact hsized e he
    · exact h.sized e (List.mem_of_mem_drop he)
  · rw [← hlist, ← h'.size_eq]
    exact sizeT_of_lt (Nat.lt_trans hcount (by decide))
  · exact Nat.le_trans (sizeT_le _) halloc
  · rw [List.flatten_append, List.flatten_append, List.append_assoc _ _ z]
  · rw [Block.length_write hwrite, hmoved]
    exact hbound

/-- Without room the copy ends outside of the block, or the capacity stays zero. -/
theorem Holds.insert_none (h : Holds ts v t) (hp : p ≤ v.size)
    (hsized : ∀ e ∈ data, e.length = ts) (hin : v.Holdable data.length)
    (hroom : ¬ v.RoomFor data.length) (fresh : Nat → UInt8) : v.insert p data fresh = none := by
  have hcount := h.count_lt hin
  have hneed : sizeT (v.size + data.length) = v.size + data.length :=
    sizeT_of_lt (Nat.lt_trans hcount (by decide))
  rw [VectorT.Holdable, h.typesize_eq] at hin
  rw [VectorT.RoomFor, h.typesize_eq] at hroom
  rw [VectorT.insert, VectorT.grow, hneed]
  by_cases hle : v.size + data.length ≤ v.allocSize
  · rw [if_pos hle] at hroom
    have hout := Nat.not_le.1 hroom
    have hplace : p * ts + (v.size - p) * ts = v.size * ts := by
      rw [← Nat.add_mul, Nat.add_sub_cancel' hp]
    have hsum : (v.size + data.length) * ts = v.size * ts + data.length * ts := Nat.add_mul ..
    have hsize := h.room
    rw [if_neg (Nat.not_lt.2 hle), Option.bind_some]
    simp only [h.offset_eq (n := p) (by omega), h.offset_eq (n := data.length) (by omega),
      h.offset_eq (n := v.size - p) (by omega)]
    by_cases hlt : p < v.size
    · rw [if_pos hlt, Block.move_none (by omega) (by omega), Option.bind_none]
    · have hend : p = v.size := Nat.le_antisymm hp (Nat.not_lt.1 hlt)
      rw [if_neg hlt, Option.bind_some, Block.write_none, Option.map_none]
      rw [← length_flatten hsized, List.take_length, length_flatten hsized, hend]
      omega
  · rw [if_neg hle] at hroom
    have hzero := Classical.not_not.1 hroom
    have hpos : 0 < v.size + data.length := Nat.lt_of_le_of_lt (Nat.zero_le _) (Nat.not_le.1 hle)
    rw [if_pos (Nat.not_le.1 hle), hzero, growLoop_zero hpos]
    rfl

/-- The first elements stay when only the size changes. -/
theorem Holds.take (h : Holds ts v t) (hn : n ≤ v.size) :
    Holds ts { v with size := n } (t.take n) := by
  obtain ⟨rest, hdata⟩ := h.split n
  refine ⟨h.typesize_eq, h.pos, fun e he => h.sized e (List.mem_of_mem_take he), ?_,
    Nat.le_trans hn h.size_le, ⟨(t.drop n).flatten ++ rest, ?_⟩, h.bound⟩
  · rw [List.length_take, Nat.min_eq_left (h.size_eq ▸ hn)]
  · rw [hdata, List.append_assoc]

/-- The elements behind a position close the gap. -/
theorem Holds.move_left (h : Holds ts v t) (hp : p < v.size) :
    ∃ block z, (if p < v.size - 1 then
        Block.move v.data (v.offset p) (v.offset p + v.typesize) (v.offset (v.size - 1 - p))
      else some v.data) = some block ∧ block = (t.eraseIdx p).flatten ++ z ∧
      block.length = v.data.length := by
  obtain ⟨rest, hdata⟩ := h.split p
  have hp' : p < t.length := h.size_eq ▸ hp
  have htake := h.length_take (Nat.le_of_lt hp)
  have hdrop := h.length_drop (p + 1)
  have helem : t[p].length = ts := h.sized _ (List.getElem_mem hp')
  have hbound := h.bound
  have hsize := h.room
  have hle : (v.size - (p + 1)) * ts ≤ v.size * ts := Nat.mul_le_mul_right _ (Nat.sub_le ..)
  have hle' : p * ts ≤ v.size * ts := Nat.mul_le_mul_right _ (Nat.le_of_lt hp)
  rw [List.drop_eq_getElem_cons hp', List.flatten_cons, ← List.append_assoc] at hdata
  rw [List.eraseIdx_eq_take_drop_succ, List.flatten_append]
  by_cases hlt : p < v.size - 1
  · obtain ⟨z, hmove⟩ := Block.move_left (t.take p).flatten t[p] (t.drop (p + 1)).flatten rest
    have hmoved := Block.length_move hmove
    refine ⟨_, z, ?_, rfl, ?_⟩
    · rw [if_pos hlt, Nat.sub_sub, Nat.add_comm 1 p, h.offset_eq (by omega),
        h.offset_eq (by omega), h.typesize_eq, hdata, ← hmove, htake, hdrop, helem]
    · rw [hmoved, hdata]
  · have hlength := h.size_eq
    have hend : t.drop (p + 1) = [] := List.drop_of_length_le (by omega)
    refine ⟨v.data, t[p] ++ rest, if_neg hlt, ?_, rfl⟩
    rw [hdata, hend, List.flatten_nil, List.append_nil, List.append_nil, List.append_assoc]

theorem Holds.erase (h : Holds ts v t) (p : Nat) :
    ∃ v', v.erase p = some v' ∧ Holds ts v' (t.eraseIdx p) := by
  rw [VectorT.erase]
  by_cases hp : v.size ≤ p
  · rw [if_pos hp, List.eraseIdx_of_length_le (h.size_eq ▸ hp)]
    exact ⟨v, rfl, h⟩
  · have hlt := Nat.not_le.1 hp
    obtain ⟨block, z, hmove, hblock, hlength⟩ := h.move_left hlt
    rw [if_neg hp]
    simp only [hmove, Option.map_some]
    refine ⟨_, rfl, h.typesize_eq, h.pos, fun e he => h.sized e (List.mem_of_mem_eraseIdx he), ?_,
      Nat.le_trans (Nat.sub_le _ _) h.size_le, ⟨z, hblock⟩, ?_⟩
    · rw [List.length_eraseIdx_of_lt (h.size_eq ▸ hlt), h.size_eq]
    · rw [hlength]
      exact h.bound

theorem Holds.popBack (h : Holds ts v t) : Holds ts (vectorPopBack v) t.dropLast := by
  rw [vectorPopBack, List.dropLast_eq_take, ← h.size_eq]
  split
  case isTrue hempty =>
    have hnil : t = [] := List.eq_nil_of_length_eq_zero (h.size_eq.symm.trans hempty)
    rw [hnil, List.take_nil]
    exact hnil ▸ h
  case isFalse => exact h.take (Nat.sub_le _ _)

/-- Zeroes are written behind the elements. -/
theorem Holds.fill (h : Holds ts v t) (hle : v.size ≤ count) (halloc : count ≤ v.allocSize)
    (hroom : count * ts ≤ v.data.length) :
    ∃ v', (Block.write v.data (v.offset v.size)
        (List.replicate (sizeT ((count - v.size) * v.typesize)) 0)).map
          (fun block => { v with data := block, size := count }) = some v' ∧
      Holds ts v' (t ++ List.replicate (count - t.length) (List.replicate ts 0)) := by
  obtain ⟨rest, hdata⟩ := h.data_eq
  have hflat : t.flatten.length = v.size * ts := by
    rw [length_flatten h.sized, h.size_eq]
  have hsum : v.size * ts + (count - v.size) * ts = count * ts := by
    rw [← Nat.add_mul, Nat.add_sub_cancel' hle]
  have hbound := h.bound
  have hrest : (count - v.size) * ts ≤ rest.length := by
    rw [hdata, List.length_append, hflat] at hroom
    omega
  have hzeros : (List.replicate (count - t.length) (List.replicate ts (0 : UInt8))).flatten =
      List.replicate (sizeT ((count - v.size) * v.typesize)) 0 := by
    rw [List.flatten_replicate_replicate, h.typesize_eq, sizeT_of_lt (by omega), h.size_eq]
  have hwrite := Block.write_middle t.flatten (rest.take ((count - v.size) * ts))
    (rest.drop ((count - v.size) * ts)) (List.replicate (sizeT ((count - v.size) * v.typesize)) 0)
    hflat.symm (by rw [List.length_replicate, h.typesize_eq, sizeT_of_lt (by omega),
      List.length_take, Nat.min_eq_left hrest])
  rw [List.append_assoc, List.take_append_drop, ← hdata] at hwrite
  rw [h.offset_eq (by omega), hwrite, Option.map_some]
  refine ⟨_, rfl, h.typesize_eq, h.pos, fun e he => ?_, ?_, halloc,
    ⟨rest.drop ((count - v.size) * ts), ?_⟩, ?_⟩
  · rcases List.mem_append.1 he with he | he
    · exact h.sized e he
    · rw [List.eq_of_mem_replicate he, List.length_replicate]
  · rw [List.length_append, List.length_replicate, ← h.size_eq, Nat.add_sub_cancel' hle]
  · rw [List.flatten_append, hzeros]
  · rw [Block.length_write hwrite]
    exact hbound

theorem reserve_size (v : VectorT) (newCap : Nat) (fresh : Nat → UInt8) :
    (vectorReserve v newCap fresh).size = v.size := by
  rw [vectorReserve]
  split <;> rfl

theorem reserve_typesize (v : VectorT) (newCap : Nat) (fresh : Nat → UInt8) :
    (vectorReserve v newCap fresh).typesize = v.typesize := by
  rw [vectorReserve]
  split <;> rfl

/-- A reserved capacity that does not overflow has its block. -/
theorem Holds.reserve_room (h : Holds ts v t) (hle : v.size ≤ count) (fresh : Nat → UInt8)
    (hroom : if count ≤ v.allocSize then count * ts ≤ v.data.length
      else count * ts < 18446744073709551616) :
    Holds ts (vectorReserve v count fresh) t ∧ count ≤ (vectorReserve v count fresh).allocSize ∧
      count * ts ≤ (vectorReserve v count fresh).data.length := by
  rw [vectorReserve]
  by_cases hin : count ≤ v.allocSize
  · rw [if_pos hin] at hroom
    rw [if_neg (Nat.not_lt.2 hin)]
    exact ⟨h, hin, hroom⟩
  · rw [if_neg hin] at hroom
    have hoffset := h.offset_eq hroom
    rw [if_pos (Nat.not_le.1 hin)]
    refine ⟨h.realloc hle ?_ fresh, Nat.le_refl _, ?_⟩
    · rw [hoffset]
      exact Nat.mul_le_mul_right _ hle
    · change _ ≤ (Block.realloc v.data fresh (v.offset count)).length
      rw [Block.length_realloc, hoffset]

theorem Holds.resize (h : Holds ts v t) (fresh : Nat → UInt8)
    (hok : (Call.resize count fresh).Ok v) :
    ∃ v', vectorResize v count fresh = some v' ∧
      Holds ts v' (t.take count ++ List.replicate (count - t.length) (List.replicate ts 0)) := by
  rw [vectorResize]
  by_cases hlt : count < v.size
  · have hsame : vectorReserve v count fresh = v :=
      if_neg (Nat.not_lt.2 (Nat.le_trans (Nat.le_of_lt hlt) h.size_le))
    have hnone : count - t.length = 0 := Nat.sub_eq_zero_of_le (h.size_eq ▸ Nat.le_of_lt hlt)
    simp only [hsame, if_pos hlt, hnone, List.replicate_zero, List.append_nil]
    exact ⟨_, rfl, h.take (Nat.le_of_lt hlt)⟩
  · have hle := Nat.not_lt.1 hlt
    have hroom : if count ≤ v.allocSize then count * ts ≤ v.data.length
        else count * ts < 18446744073709551616 := by
      rcases hok with hsmall | hroom
      · obtain rfl := Nat.le_antisymm hsmall hle
        rw [if_pos h.size_le]
        exact h.room
      · rwa [h.typesize_eq] at hroom
    obtain ⟨h', halloc, hlength⟩ := h.reserve_room hle fresh hroom
    have hsize := reserve_size v count fresh
    have hfill := h'.fill (hsize ▸ hle) halloc hlength
    rw [List.take_of_length_le (h.size_eq ▸ hle)]
    simp only [hsize, if_neg hlt]
    rwa [hsize] at hfill

theorem not_shows (hshort : v.data.length < v.size * v.typesize) : ¬ v.Shows t := by
  intro hshows
  have hcontents := hshows.contents_eq
  rw [VectorT.contents, Block.read_none (by rwa [Nat.zero_add])] at hcontents
  cases hcontents

theorem resize_bad (hbad : ¬ (Call.resize count fresh).Ok v)
    (hstep : vectorResize v count fresh = some v') : ¬ v'.Shows t' := by
  obtain ⟨hlarge, hroom⟩ := not_or.1 hbad
  have hlt := Nat.not_le.1 hlarge
  have hshort : (vectorReserve v count fresh).data.length < count * v.typesize := by
    rw [vectorReserve]
    by_cases hin : count ≤ v.allocSize
    · rw [if_pos hin] at hroom
      rw [if_neg (Nat.not_lt.2 hin)]
      exact Nat.not_le.1 hroom
    · rw [if_neg hin] at hroom
      rw [if_pos (Nat.not_le.1 hin)]
      change (Block.realloc v.data fresh (v.offset count)).length < _
      rw [Block.length_realloc]
      exact Nat.lt_of_lt_of_le (sizeT_lt _) (Nat.not_lt.1 hroom)
  rw [vectorResize] at hstep
  simp only [reserve_size, if_neg (Nat.not_lt.2 (Nat.le_of_lt hlt))] at hstep
  obtain ⟨block, hwrite, he⟩ := Option.map_eq_some_iff.1 hstep
  cases he
  apply not_shows
  change block.length < count * (vectorReserve v count fresh).typesize
  rwa [Block.length_write hwrite, reserve_typesize]

theorem vectorStep_good (h : Holds ts v t) (c : Call) (hvalid : c.Valid v) (hok : c.Ok v) :
    ∃ v', vectorStep v c = some (v', ()) ∧ Holds ts v' (specStep ts t c).1 := by
  cases c with
  | insert1 pos data fresh =>
    cases pos with
    | none => exact ⟨v, rfl, h⟩
    | some p =>
      obtain ⟨hpos, hsized, hin⟩ := hvalid
      rw [h.typesize_eq] at hsized
      obtain ⟨v', hstep, h'⟩ := h.insert (hpos p rfl) hsized hin (hok rfl) fresh
      exact ⟨v', by rw [vectorStep, vectorInsert1, hstep]; rfl, h'⟩
  | erase pos =>
    obtain ⟨v', hstep, h'⟩ := h.erase pos
    exact ⟨v', by rw [vectorStep, vectorErase, hstep]; rfl, h'⟩
  | pushBack data fresh =>
    obtain ⟨hsized, hin⟩ := hvalid
    have hall : ∀ e ∈ [data], e.length = ts := by
      intro e he
      rw [List.mem_singleton.1 he, hsized, h.typesize_eq]
    obtain ⟨v', hstep, h'⟩ := h.insert (Nat.le_refl _) hall hin hok fresh
    rw [h.size_eq, List.take_length, List.drop_length, List.append_nil] at h'
    exact ⟨v', by rw [vectorStep, vectorPushBack, hstep]; rfl, h'⟩
  | popBack => exact ⟨_, rfl, h.popBack⟩
  | reserve newCap fresh => exact ⟨_, rfl, h.reserve hok fresh⟩
  | resize count fresh =>
    obtain ⟨v', hstep, h'⟩ := h.resize fresh hok
    exact ⟨v', by rw [vectorStep, hstep]; rfl, h'⟩
  | clear => exact ⟨_, rfl, h.take (Nat.zero_le _)⟩
  | shrinkToFit fresh =>
    refine ⟨_, rfl, h.realloc (Nat.le_refl _) ?_ fresh⟩
    rw [h.offset_eq (Nat.lt_of_le_of_lt h.room h.bound)]

theorem vectorStep_bad (h : Holds ts v t) (c : Call) (hvalid : c.Valid v) (hbad : ¬ c.Ok v)
    (hstep : vectorStep v c = some (v', ())) : ¬ v'.Shows t' := by
  obtain ⟨v'', hv, he⟩ := Option.map_eq_some_iff.1 hstep
  cases he
  cases c with
  | insert1 pos data fresh =>
    cases pos with
    | none => exact (hbad fun hno => by cases hno).elim
    | some p =>
      obtain ⟨hpos, hsized, hin⟩ := hvalid
      rw [h.typesize_eq] at hsized
      have hnone := h.insert_none (hpos p rfl) hsized hin (fun hroom => hbad fun _ => hroom) fresh
      cases hnone.symm.trans hv
  | erase pos => exact (hbad trivial).elim
  | pushBack data fresh =>
    obtain ⟨hsized, hin⟩ := hvalid
    have hall : ∀ e ∈ [data], e.length = ts := by
      intro e he
      rw [List.mem_singleton.1 he, hsized, h.typesize_eq]
    have hnone := h.insert_none (Nat.le_refl _) hall hin hbad fresh
    cases hnone.symm.trans hv
  | popBack => exact (hbad trivial).elim
  | reserve newCap fresh =>
    obtain ⟨hgrow, hshort⟩ := not_or.1 hbad
    cases hv
    apply not_shows
    rw [vectorReserve, if_pos (Nat.not_le.1 hgrow)]
    change (Block.realloc v.data fresh (v.offset newCap)).length < v.size * v.typesize
    rw [Block.length_realloc]
    exact Nat.not_le.1 hshort
  | resize count fresh => exact resize_bad hbad hv
  | clear => exact (hbad trivial).elim
  | shrinkToFit fresh => exact (hbad trivial).elim

theorem vectorInit_holds (hpos : 0 < ts) (fresh : Nat → UInt8) :
    Holds ts (vectorInit ts fresh) [] := by
  refine ⟨rfl, hpos, ?_, rfl, Nat.zero_le _, ⟨_, rfl⟩, ?_⟩
  · intro e he
    cases he
  · change (Block.realloc [] fresh (sizeT (VECTOR_INIT_SIZE * ts))).length < _
    rw [Block.length_realloc]
    exact sizeT_lt _

/-- A vector is the reference list throughout a run exactly when its capacity is never zero or too
small at an insertion, and no byte count it is resized to overflows. -/
theorem vector_refines_iff (typesize : Nat) (hpos : 0 < typesize) (fresh : Nat → UInt8)
    (cs : List Call)
    (hvalid : Admits vectorStep (fun v c => c.Valid v) (vectorInit typesize fresh) cs) :
    Follows vectorStep (specStep typesize) VectorT.Shows (vectorInit typesize fresh) [] cs ↔
      Admits vectorStep (fun v c => c.Ok v) (vectorInit typesize fresh) cs := by
  apply follows_iff_admits (R := Holds typesize)
  · exact fun _ _ h => h.shows
  · exact fun _ _ c h hvalid hok => vectorStep_good h c hvalid hok
  · exact fun _ _ c h hvalid hbad _ hstep => vectorStep_bad h c hvalid hbad hstep
  · exact vectorInit_holds hpos fresh
  · exact hvalid

end Holds

section Witness

/-- A new vector of bytes. -/
def newBytes : VectorT := vectorInit 1 fun _ => 0

theorem vector_refines_iff_push :
    Follows vectorStep (specStep 1) VectorT.Shows newBytes [] [.pushBack [7] fun _ => 0] ↔
      Admits vectorStep (fun v c => c.Ok v) newBytes [.pushBack [7] fun _ => 0] := by
  apply vector_refines_iff 1 (Nat.succ_pos 0) (fun _ => 0) [.pushBack [7] fun _ => 0]
  refine ⟨⟨rfl, ?_⟩, fun _ _ _ => trivial⟩
  exact (by decide : (0 + 1) * 1 < 9223372036854775808)

/-- A vector that is shrunk while it is empty has no capacity left to double. -/
theorem not_vector_refines :
    Admits vectorStep (fun v c => c.Valid v) newBytes
        [.shrinkToFit fun _ => 0, .pushBack [7] fun _ => 0] ∧
      (vectorShrinkToFit newBytes fun _ => 0).allocSize = 0 ∧
      (∀ n, growLoop 1 n 0 = none) ∧
      ¬ Follows vectorStep (specStep 1) VectorT.Shows newBytes []
        [.shrinkToFit fun _ => 0, .pushBack [7] fun _ => 0] := by
  have hnew : Holds 1 newBytes [] := vectorInit_holds (Nat.succ_pos 0) _
  have hpush (v : VectorT) (hv : v = vectorShrinkToFit newBytes fun _ => 0) :
      (Call.pushBack [7] fun _ => 0).Valid v := by
    subst hv
    exact ⟨rfl, (by decide : (0 + 1) * 1 < 9223372036854775808)⟩
  refine ⟨⟨trivial, fun v o hstep => ?_⟩, rfl, growLoop_zero (Nat.succ_pos 0), ?_⟩
  · cases hstep
    exact ⟨hpush _ rfl, fun _ _ _ => trivial⟩
  · rintro ⟨_, v, hshrink, _, v', hstep, hshows⟩
    cases hshrink
    obtain ⟨v₁, hv₁, h₁⟩ := vectorStep_good hnew (.shrinkToFit fun _ => 0) trivial trivial
    cases hv₁
    have hbad : ¬ (Call.pushBack [7] fun _ => 0).Ok (vectorShrinkToFit newBytes fun _ => 0) :=
      fun hroom => hroom rfl
    exact vectorStep_bad h₁ _ (hpush _ rfl) hbad hstep hshows

end Witness

end BigBox.Cstl.Vector
