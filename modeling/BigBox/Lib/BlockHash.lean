import BigBox.Lib.Block
import Mathlib.Data.Nat.ModEq

namespace BigBox
set_option autoImplicit true

/-- The whole blocks of a message. -/
def blocksOf (sz : Nat) (m : List α) : List (List α) :=
  (List.range (m.length / sz)).map fun i => (m.drop (i * sz)).take sz

theorem blocksOf_flatten {blocks : List (List α)} (hsz : 0 < sz)
    (h : ∀ b ∈ blocks, b.length = sz) : blocksOf sz blocks.flatten = blocks := by
  rw [blocksOf, length_flatten h, Nat.mul_div_cancel _ hsz, range_flatten h]

theorem exists_blocks (hsz : 0 < sz) (m : List α) :
    ∃ (blocks : List (List α)) (rest : List α), (∀ b ∈ blocks, b.length = sz) ∧
      m = blocks.flatten ++ rest ∧ rest.length < sz := by
  induction hn : m.length using Nat.strongRecOn generalizing m with
  | ind n ih =>
    by_cases hlt : m.length < sz
    · exact ⟨[], m, fun _ h => (nomatch h), rfl, hlt⟩
    · have hlen : (m.drop sz).length < n := by
        rw [List.length_drop]
        omega
      obtain ⟨blocks, rest, hblocks, hsplit, hrest⟩ := ih _ hlen (m.drop sz) rfl
      refine ⟨m.take sz :: blocks, rest, List.forall_mem_cons.2 ⟨?_, hblocks⟩, ?_, hrest⟩
      · rw [List.length_take]
        omega
      · rw [List.flatten_cons, List.append_assoc, ← hsplit, List.take_append_drop]

/-- A message with a mark, zeros and room for `k` more elements in its last block. -/
def padded (mark zero : α) (sz k : Nat) (m : List α) : List α :=
  m ++ mark :: List.replicate ((2 * sz - 1 - k - m.length % sz) % sz) zero

/-- The zeros are the fewest that fill the last block. -/
theorem padded_length (mark zero : α) (m : List α) (hk : k < sz) :
    sz ∣ (padded mark zero sz k m).length + k ∧
      (padded mark zero sz k m).length + k ≤ m.length + 1 + k + (sz - 1) := by
  have hmod := Nat.mod_lt m.length (Nat.zero_lt_of_lt hk)
  have hzeros := Nat.mod_lt (2 * sz - 1 - k - m.length % sz) (Nat.zero_lt_of_lt hk)
  have hlen : (padded mark zero sz k m).length =
      m.length + ((2 * sz - 1 - k - m.length % sz) % sz + 1) := by
    rw [padded, List.length_append, List.length_cons, List.length_replicate]
  constructor
  · have hsum : m.length % sz + (2 * sz - 1 - k - m.length % sz) + 1 + k = 2 * sz := by omega
    have hmod : m.length + (2 * sz - 1 - k - m.length % sz) % sz + (1 + k) ≡
        m.length % sz + (2 * sz - 1 - k - m.length % sz) + (1 + k) [MOD sz] :=
      ((Nat.mod_modEq _ _).symm.add (Nat.mod_modEq _ _)).add_right _
    rw [hlen, ← Nat.add_assoc, Nat.add_assoc _ 1 k]
    apply Nat.dvd_of_mod_eq_zero
    rw [hmod, ← Nat.add_assoc, hsum, Nat.mul_mod_left]
  · omega

section Absorbed
variable {σ : Type} {compress : σ → List α → σ} {s t : σ} {m rest c : List α}

/-- What a hash has done with a message: its whole blocks went into the state, the rest waits. -/
structure Absorbed (compress : σ → List α → σ) (sz : Nat) (s : σ) (m : List α) (t : σ)
    (rest : List α) : Prop where
  lt : rest.length < sz
  split : ∃ blocks : List (List α), (∀ b ∈ blocks, b.length = sz) ∧ m = blocks.flatten ++ rest ∧
    t = blocks.foldl compress s

theorem absorbed_nil (hsz : 0 < sz) (s : σ) : Absorbed compress sz s [] s [] :=
  ⟨hsz, [], fun _ h => (nomatch h), rfl, rfl⟩

namespace Absorbed

theorem length_mod (h : Absorbed compress sz s m t rest) : m.length % sz = rest.length := by
  obtain ⟨blocks, hblocks, rfl, _⟩ := h.split
  rw [List.length_append, length_flatten hblocks, Nat.mul_add_mod_self_right, Nat.mod_eq_of_lt h.lt]

/-- More of a message, cut into blocks behind what waits. -/
theorem append (h : Absorbed compress sz s m t rest) (blocks : List (List α))
    (hblocks : ∀ b ∈ blocks, b.length = sz) (hsplit : rest ++ c = blocks.flatten ++ rest')
    (hlt : rest'.length < sz) :
    Absorbed compress sz s (m ++ c) (blocks.foldl compress t) rest' := by
  obtain ⟨before, hbefore, rfl, rfl⟩ := h.split
  refine ⟨hlt, before ++ blocks, ?_, ?_, List.foldl_append.symm⟩
  · intro b hb
    rcases List.mem_append.1 hb with hb | hb
    · exact hbefore b hb
    · exact hblocks b hb
  · rw [List.flatten_append, List.append_assoc, List.append_assoc, hsplit]

theorem wait (h : Absorbed compress sz s m t rest) (hlt : (rest ++ c).length < sz) :
    Absorbed compress sz s (m ++ c) t (rest ++ c) :=
  h.append [] (fun _ hb => nomatch hb) rfl hlt

/-- What waits becomes a block. -/
theorem block (h : Absorbed compress sz s m t rest) (hlen : (rest ++ c).length = sz) :
    Absorbed compress sz s (m ++ c) (compress t (rest ++ c)) [] := by
  have hsz : ([] : List α).length < sz := Nat.zero_lt_of_lt h.lt
  apply h.append [rest ++ c] _ _ hsz
  · intro b hb
    rwa [List.mem_singleton.1 hb]
  · rw [List.flatten_singleton, List.append_nil]

theorem state (h : Absorbed compress sz s m t []) : t = (blocksOf sz m).foldl compress s := by
  obtain ⟨blocks, hblocks, rfl, rfl⟩ := h.split
  rw [List.append_nil, blocksOf_flatten h.lt hblocks]

end Absorbed

end Absorbed

end BigBox
