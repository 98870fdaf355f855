import BigBox.Lib.Block
import BigBox.Lib.CString

namespace BigBox
set_option autoImplicit true

/-- What `malloc` gives for a number of bytes: nothing, or memory with some content. It never gives
more than PTRDIFF_MAX bytes. -/
structure Malloc where
  fresh : Nat → Option (Nat → UInt8)
  limit : ∀ n, 9223372036854775808 ≤ n → fresh n = none

/-- There is memory for everything that fits in 2 ^ 48 bytes. -/
def Malloc.Gives (heap : Malloc) : Prop := ∀ n < 281474976710656, heap.fresh n ≠ none

/-- A block from `malloc`. -/
def Malloc.alloc (heap : Malloc) (n : Nat) : Option (List UInt8) :=
  (heap.fresh n).map fun content => (List.range n).map content

/-- A block from `realloc`. -/
def Malloc.realloc (heap : Malloc) (block : List UInt8) (n : Nat) : Option (List UInt8) :=
  (heap.fresh n).map fun content => Block.realloc block content n

/-- Memory that holds one byte everywhere, as far as there is any. -/
def Malloc.filled (c : UInt8) : Malloc :=
  ⟨fun n => if n < 281474976710656 then some fun _ => c else none, fun _ hn => if_neg (by omega)⟩

/-- `strcpy` of a string to a place of a block. -/
def Block.strcpy (block : List UInt8) (off : Nat) (s : List UInt8) : Option (List UInt8) :=
  Block.write block off (s ++ [0])

/-- `strncpy` of the first characters of a string, with zeros behind a string that is shorter. -/
def Block.strncpy (block : List UInt8) (off : Nat) (s : List UInt8) (n : Nat) :
    Option (List UInt8) :=
  Block.write block off (s.take n ++ List.replicate (n - s.length) 0)

/-- `strncat` of the first characters of a string to the string in a block. -/
def Block.strncat (block src : List UInt8) (n : Nat) : Option (List UInt8) :=
  (stringAt block 0).bind fun text => Block.strcpy block text.length ((cString src).take n)

theorem Malloc.filled_gives (c : UInt8) : (Malloc.filled c).Gives :=
  fun _ hn => Option.ne_none_iff_exists'.2 ⟨_, if_pos hn⟩

section Alloc
variable {heap : Malloc} {block t s rest : List UInt8}

theorem Malloc.length_alloc (h : heap.alloc n = some block) : block.length = n := by
  obtain ⟨content, _, rfl⟩ := Option.map_eq_some_iff.1 h
  rw [List.length_map, List.length_range]

theorem Malloc.Gives.alloc (h : heap.Gives) (hn : n < 281474976710656) :
    ∃ block, heap.alloc n = some block ∧ block.length = n := by
  obtain ⟨content, hcontent⟩ := Option.ne_none_iff_exists'.1 (h n hn)
  have halloc : heap.alloc n = some ((List.range n).map content) := by
    rw [Malloc.alloc, hcontent, Option.map_some]
  exact ⟨_, halloc, Malloc.length_alloc halloc⟩

theorem Malloc.Gives.realloc (h : heap.Gives) (hn : n < 281474976710656) (hs : s.length ≤ n) :
    ∃ rest', heap.realloc (s ++ rest) n = some (s ++ rest') := by
  obtain ⟨content, hcontent⟩ := Option.ne_none_iff_exists'.1 (h n hn)
  obtain ⟨rest', hrest'⟩ := Block.realloc_append s rest content hs
  refine ⟨rest', ?_⟩
  rw [Malloc.realloc, hcontent, Option.map_some, hrest']

/-- A string that is written over the end of another one. -/
theorem Block.strcpy_end (t s rest : List UInt8) (c : UInt8) :
    Block.strcpy (t ++ c :: rest) t.length s =
      if s.length ≤ rest.length then some (t ++ s ++ 0 :: rest.drop s.length) else none := by
  rw [Block.strcpy]
  split
  case isTrue hle =>
    have hsplit : c :: rest = (c :: rest).take (s.length + 1) ++ rest.drop s.length :=
      (List.take_append_drop (s.length + 1) (c :: rest)).symm
    have hlen : (s ++ [0]).length = ((c :: rest).take (s.length + 1)).length := by
      rw [List.length_take, List.length_append, List.length_cons]
      exact (Nat.min_eq_left (Nat.succ_le_succ hle)).symm
    rw [hsplit, ← List.append_assoc, Block.write_middle t _ _ (s ++ [0]) rfl hlen,
      ← List.append_assoc, List.append_assoc _ [0]]
    rfl
  case isFalse hgt =>
    apply Block.write_none
    simp only [List.length_append, List.length_cons, List.length_nil]
    omega

theorem Block.strncat_text (ht : 0 ∉ t) (hsrc : cString src = s) (hn : s.length ≤ n)
    (rest : List UInt8) : Block.strncat (t ++ 0 :: rest) src n =
      if s.length ≤ rest.length then some (t ++ s ++ 0 :: rest.drop s.length) else none := by
  have htext : stringAt (t ++ 0 :: rest) 0 = some t := stringAt_middle [] rest ht
  rw [Block.strncat, htext, Option.bind_some, hsrc, List.take_of_length_le hn]
  exact Block.strcpy_end t s rest 0

end Alloc

end BigBox
