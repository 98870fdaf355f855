import BigBox.Lib.CInt
import BigBox.Lib.Loop
import BigBox.Lib.Malloc
import BigBox.Lib.Search
import Mathlib.Tactic.Ring

namespace BigBox.StrReplace
set_option autoImplicit true

open Loop

/-- The place that `strstr` finds from a place of the subject on. -/
def strstrAt (search subject : List UInt8) (i : Nat) : Option Nat :=
  (strstr search (subject.drop i)).map fun r => subject.length - r.length

/-- `p + search_size`. A pointer outside the subject has no result. -/
def advance (subject : List UInt8) (search_size : Int) (p : Nat) : Option Nat :=
  if 0 ≤ p + search_size ∧ p + search_size ≤ subject.length then some (p + search_size).toNat
  else none

/-- A round of the loop that counts the places. -/
def countRound (search subject : List UInt8) (search_size : Int) :
    Option Nat × Int → Option (Round (Option Nat × Int) Int)
  | (none, c) => some (.done c)
  | (some p, c) => do
    let c ← checkedInt (c + 1)
    let q ← advance subject search_size p
    return .next (strstrAt search subject q, c)

/-- A round of the loop that copies. -/
def copyRound (search replace subject : List UInt8) (search_size : Int) :
    Option Nat × Nat × List UInt8 →
      Option (Round (Option Nat × Nat × List UInt8) (Nat × List UInt8))
  | (none, old, new_subject) => some (.done (old, new_subject))
  | (some p, old, new_subject) => do
    let text ← stringAt new_subject 0
    let new_subject ← Block.strncpy new_subject text.length (subject.drop old) (p - old)
    let text ← stringAt new_subject 0
    let new_subject ← Block.strcpy new_subject text.length replace
    let old ← advance subject search_size p
    return .next (strstrAt search subject old, old, new_subject)

/-- `str_replace`, up to so many rounds of each loop: the block that it returns. -/
def strReplace (heap : Malloc) (fuel : Nat) (search replace subject : List UInt8) :
    Option (List UInt8) := do
  let search_size := toInt search.length
  let c ← iterate (countRound search subject search_size) fuel (strstrAt search subject 0, 0)
  let size := ((replace.length - search_size) * c + subject.length) % 18446744073709551616
  let c := toInt size.toNat
  let new_subject ← heap.alloc (c % 18446744073709551616).toNat
  let new_subject ← Block.strcpy new_subject 0 []
  let (old, new_subject) ← iterate (copyRound search replace subject search_size) fuel
    (strstrAt search subject 0, 0, new_subject)
  let text ← stringAt new_subject 0
  Block.strcpy new_subject text.length (subject.drop old)

/-- The zero is overwritten, and what the block held behind it stays in the text. -/
example : iterate (copyRound [98] [99, 100] [97, 98] 1) 2 (some 1, 0, [0, 7, 0, 0, 0]) =
    some (2, [97, 7, 99, 100, 0]) := by
  decide

/-- A text with a search string replaced from left to right, so many times at most. -/
def replaceAll (search replace : List UInt8) : Nat → List UInt8 → List UInt8
  | 0, s => s
  | n + 1, s =>
    match strstr search s with
    | none => s
    | some r => between s r ++ replace ++ replaceAll search replace n (r.drop search.length)

/-- The text comes back with every place of the search string replaced. -/
def Replaces (heap : Malloc) (search replace subject : Text) : Prop :=
  ∃ fuel block, strReplace heap fuel search.1 replace.1 subject.1 = some block ∧
    stringAt block 0 = some (replaceAll search.1 replace.1 subject.1.length subject.1)

section Places
variable {search subject : List UInt8}

theorem strstrAt_range (h : strstrAt search subject i = some p) (hi : i ≤ subject.length) :
    i ≤ p ∧ p ≤ subject.length := by
  obtain ⟨r, hr, rfl⟩ := Option.map_eq_some_iff.1 h
  obtain ⟨a, _, hsplit, _⟩ := strstr_some hr
  have hlen := congrArg List.length hsplit
  rw [List.length_drop, List.length_append] at hlen
  omega

theorem advance_range (h : advance subject size p = some q) :
    (q : Int) = p + size ∧ q ≤ subject.length := by
  rw [advance] at h
  split at h
  case isTrue hrange =>
    cases h
    omega
  case isFalse => cases h

end Places

section Copy
variable {block block' t t' piece : List UInt8}

/-- What is written over the end of a string makes it longer. -/
theorem le_of_write (h : Block.write block t.length (piece ++ tail) = some block')
    (ht : stringAt block 0 = some t) (hpiece : 0 ∉ piece) (ht' : stringAt block' 0 = some t') :
    t.length + piece.length ≤ t'.length := by
  obtain ⟨w, rest, hblock, hw, _⟩ := stringAt_split ht
  obtain ⟨w', rest', hblock', hw', _⟩ := stringAt_split ht'
  have hclean := not_mem_of_stringAt ht
  have htake := Block.take_write h
  rw [List.length_eq_zero_iff.1 hw, List.nil_append] at hblock
  rw [List.length_eq_zero_iff.1 hw', List.nil_append] at hblock'
  have hfront : block.take t.length = t := by
    rw [hblock]
    exact List.take_left
  rw [hfront, ← List.append_assoc] at htake
  have hprefix : t ++ piece <+: block' :=
    (List.prefix_append (t ++ piece) tail).trans (htake ▸ List.take_prefix _ _)
  by_contra hlt
  have hmem : 0 ∈ t ++ piece := by
    have hshort : t' ++ [0] <+: block' := ⟨rest', by rw [hblock', List.append_assoc]; rfl⟩
    have hinner := List.prefix_of_prefix_length_le hshort hprefix (by
      rw [List.length_append, List.length_append, List.length_singleton]
      omega)
    exact hinner.subset (List.mem_append_right t' List.mem_cons_self)
  rcases List.mem_append.1 hmem with hzero | hzero
  · exact hclean hzero
  · exact hpiece hzero

theorem le_of_strncpy {s : List UInt8} (h : Block.strncpy block t.length s n = some block')
    (hn : n ≤ s.length) (ht : stringAt block 0 = some t) (hs : 0 ∉ s)
    (ht' : stringAt block' 0 = some t') : t.length + n ≤ t'.length := by
  have hle := le_of_write h ht (fun hzero => hs (List.mem_of_mem_take hzero)) ht'
  rwa [List.length_take_of_le hn] at hle

theorem le_of_strcpy {s : List UInt8} (h : Block.strcpy block t.length s = some block')
    (ht : stringAt block 0 = some t) (hs : 0 ∉ s) (ht' : stringAt block' 0 = some t') :
    t.length + s.length ≤ t'.length :=
  le_of_write h ht hs ht'

end Copy

section Bound
variable {search replace subject : List UInt8} {size : Int} {p : Option Nat}
  {block block' : List UInt8}

/-- The string in the block has at least so many characters. -/
def AtLeast (block : List UInt8) (e : Nat) : Prop :=
  ∀ t, stringAt block 0 = some t → e ≤ t.length

theorem copyRound_bound (hsubject : 0 ∉ subject) (hreplace : 0 ∉ replace) (hold : old ≤ q)
    (hq : q ≤ subject.length) (he : AtLeast block e)
    (h : copyRound search replace subject size (some q, old, block) =
      some (.next (p', old', block'))) :
    advance subject size q = some old' ∧ p' = strstrAt search subject old' ∧
      block'.length = block.length ∧ AtLeast block' (e + (q - old) + replace.length) := by
  simp only [copyRound, Option.bind_eq_bind, Option.bind_eq_some_iff] at h
  obtain ⟨text, htext, block₁, hcopy, text₁, htext₁, block₂, hreplaced, next, hnext, hsome⟩ := h
  cases hsome
  have hle := he text htext
  have hdrop : 0 ∉ subject.drop old := fun hzero => hsubject (List.mem_of_mem_drop hzero)
  have hle₁ := le_of_strncpy hcopy (by rw [List.length_drop]; omega) htext hdrop htext₁
  refine ⟨hnext, rfl, (Block.length_write hreplaced).trans (Block.length_write hcopy), ?_⟩
  intro t ht
  have hle₂ := le_of_strcpy hreplaced htext₁ hreplace ht
  omega

theorem copyRound_next (h : copyRound search replace subject size (some q, old, block) = some r) :
    ∃ s, r = .next s := by
  simp only [copyRound, Option.bind_eq_bind, Option.bind_eq_some_iff] at h
  obtain ⟨_, _, _, _, _, _, _, _, _, _, hsome⟩ := h
  exact ⟨_, (Option.some.inj hsome).symm⟩

theorem countRound_next (h : countRound search subject size (some q, c) = some r) :
    ∃ q', advance subject size q = some q' ∧ r = .next (strstrAt search subject q', c + 1) := by
  simp only [countRound, Option.bind_eq_bind, Option.bind_eq_some_iff] at h
  obtain ⟨c', hc, q', hadvance, hsome⟩ := h
  cases checkedInt_eq_some hc
  exact ⟨q', hadvance, (Option.some.inj hsome).symm⟩

/-- The copying loop takes the steps of the counting loop, and its string grows by what the count
is multiplied with. -/
theorem copy_bound (hsubject : 0 ∉ subject) (hreplace : 0 ∉ replace)
    (hcount : iterate (countRound search subject size) fuel (p, c) = some k)
    (hold : old ≤ subject.length) (hp : ∀ q, p = some q → old ≤ q ∧ q ≤ subject.length)
    (he : AtLeast block e)
    (hcopy : iterate (copyRound search replace subject size) fuel' (p, old, block) =
      some (old', block')) :
    old' ≤ subject.length ∧ block'.length = block.length ∧ ∃ e', AtLeast block' e' ∧
      (e' : Int) - old' = e - old + (replace.length - size) * (k - c) := by
  induction fuel generalizing p c old block e fuel' with
  | zero => cases hcount
  | succ fuel ih =>
    cases fuel' with
    | zero => cases hcopy
    | succ fuel' =>
      cases p with
      | none =>
        have hk : c = k := Option.some.inj hcount
        have hout : (old, block) = (old', block') := Option.some.inj hcopy
        cases hout
        rw [hk, Int.sub_self, Int.mul_zero, Int.add_zero]
        exact ⟨hold, rfl, e, he, rfl⟩
      | some q =>
        obtain ⟨hqold, hq⟩ := hp q rfl
        obtain ⟨r, hround, hrest⟩ := Option.bind_eq_some_iff.1 hcopy
        obtain ⟨r', hround', hrest'⟩ := Option.bind_eq_some_iff.1 hcount
        obtain ⟨⟨p₁, old₁, block₁⟩, rfl⟩ := copyRound_next hround
        obtain ⟨q', hadvance, rfl⟩ := countRound_next hround'
        obtain ⟨hadvance', rfl, hlen, he'⟩ :=
          copyRound_bound hsubject hreplace hqold hq he hround
        have hsame : q' = old₁ := Option.some.inj (hadvance.symm.trans hadvance')
        subst hsame
        obtain ⟨hq', hle⟩ := advance_range hadvance
        obtain ⟨hfinal, hlen', e', hlast, hsum⟩ := ih hrest' hle
          (fun _ hplace => strstrAt_range hplace hle) he' hrest
        refine ⟨hfinal, hlen'.trans hlen, e', hlast, ?_⟩
        have hdiff : ((q - old : Nat) : Int) = q - old := Int.ofNat_sub hqold
        rw [hsum, hq']
        push_cast
        rw [hdiff]
        ring

/-- A block is not longer than the number from which its size is computed. -/
theorem allocated_le {heap : Malloc} {n : Int}
    (h : heap.alloc (toInt (n % 18446744073709551616).toNat % 18446744073709551616).toNat =
      some block) (hn : 0 ≤ n) :
    ((toInt (n % 18446744073709551616).toNat % 18446744073709551616).toNat : Int) ≤ n := by
  have hle := toInt_le (n % 18446744073709551616).toNat
  have hlow := le_toInt (n % 18446744073709551616).toNat
  by_cases hneg : toInt (n % 18446744073709551616).toNat < 0
  · have hlarge : 9223372036854775808 ≤
        (toInt (n % 18446744073709551616).toNat % 18446744073709551616).toNat := by
      omega
    rw [Malloc.alloc, heap.limit _ hlarge] at h
    cases h
  · omega

/-- The last string does not fit in the block. -/
theorem strReplace_none (heap : Malloc) (fuel : Nat) (search : List UInt8)
    (hsubject : 0 ∉ subject) (hreplace : 0 ∉ replace) :
    strReplace heap fuel search replace subject = none := by
  rw [Option.eq_none_iff_forall_ne_some]
  intro block hrun
  simp only [strReplace, Option.bind_eq_bind, Option.bind_eq_some_iff] at hrun
  obtain ⟨k, hcount, block₀, halloc, block₁, hempty, ⟨old, block₂⟩, hcopy, text, htext, hlast⟩ :=
    hrun
  have hstart : AtLeast block₁ 0 := fun _ _ => Nat.zero_le _
  obtain ⟨hold, hlen, e, he, hsum⟩ := copy_bound hsubject hreplace hcount (Nat.zero_le _)
    (fun q hq => strstrAt_range hq (Nat.zero_le _)) hstart hcopy
  have hle := he text htext
  have hblock := (Block.length_write hempty).trans (Malloc.length_alloc halloc)
  have hfits : text.length + (subject.drop old ++ [0]).length ≤ block₂.length := by
    by_contra hlt
    rw [Block.strcpy, Block.write_none (Nat.lt_of_not_le hlt)] at hlast
    cases hlast
  rw [List.length_append, List.length_drop, List.length_singleton, hlen] at hfits
  have hmul : ((replace.length : Int) - toInt search.length) * k = e - old := by
    rw [hsum, Int.sub_zero, Int.natCast_zero, Int.sub_zero, Int.zero_add]
  rw [hmul] at halloc hblock
  have hpos : (0 : Int) ≤ e - old + subject.length := by
    clear hfits hblock halloc
    omega
  have hsize := allocated_le halloc hpos
  rw [← hblock] at hsize
  clear halloc hblock
  omega

end Bound

/-- No run has a result, whatever the memory contains. -/
theorem not_replaces (heap : Malloc) (search replace subject : Text) :
    ¬Replaces heap search replace subject := by
  rintro ⟨fuel, block, hrun, _⟩
  rw [strReplace_none heap fuel search.1 subject.2 replace.2] at hrun
  cases hrun

theorem not_replaces_letter : ¬∀ heap : Malloc, heap.Gives →
    Replaces heap ⟨[98], by decide⟩ ⟨[99], by decide⟩ ⟨[97, 98], by decide⟩ := by
  intro h
  obtain ⟨fuel, block, hrun, _⟩ := h (Malloc.filled 0) (Malloc.filled_gives 0)
  rw [strReplace_none _ fuel _ (by decide) (by decide)] at hrun
  cases hrun

end BigBox.StrReplace
