import Mathlib.Data.List.Basic
import Mathlib.Data.List.TakeWhile
import Mathlib.Logic.Function.Basic

namespace BigBox
set_option autoImplicit true

/-- A range of memory addresses. -/
structure Extent where
  start : Nat
  size : Nat
deriving DecidableEq

instance : Membership Nat Extent := ⟨fun b x => b.start ≤ x ∧ x < b.start + b.size⟩

theorem Extent.mem_def {b : Extent} : x ∈ b ↔ b.start ≤ x ∧ x < b.start + b.size := Iff.rfl

theorem Extent.start_mem {b : Extent} (h : 0 < b.size) : b.start ∈ b :=
  ⟨Nat.le_refl _, Nat.lt_add_of_pos_right h⟩

instance : HasSubset Extent := ⟨fun b c => ∀ x ∈ b, x ∈ c⟩

/-- Two ranges without a common address. -/
def Extent.Apart (b c : Extent) : Prop := ∀ x ∈ b, x ∉ c

theorem Extent.Apart.symm {b c : Extent} (h : Apart b c) : Apart c b := fun x hc hb => h x hb hc

theorem Extent.Apart.mono {b c d : Extent} (h : Apart b c) (hd : d ⊆ b) : Apart d c :=
  fun x hx => h x (hd x hx)

theorem Extent.Apart.start_ne {b c : Extent} (h : Apart b c) (hb : 0 < b.size) (hc : 0 < c.size) :
    b.start ≠ c.start := by
  intro he
  exact h b.start (start_mem hb) (he ▸ start_mem hc)

theorem Extent.apart_of_le {b c : Extent} (h : b.start + b.size ≤ c.start) : Apart b c := by
  intro x hb hc
  exact absurd (Nat.lt_of_lt_of_le hb.2 (Nat.le_trans h hc.1)) (Nat.lt_irrefl x)

/-- Carving a range into disjoint parts keeps a list of disjoint ranges disjoint. -/
theorem pairwise_carve {u : Extent} {parts rest : List Extent}
    (h : (u :: rest).Pairwise Extent.Apart) (hparts : parts.Pairwise Extent.Apart)
    (hsub : ∀ b ∈ parts, b ⊆ u) : (parts ++ rest).Pairwise Extent.Apart := by
  obtain ⟨hu, hrest⟩ := List.pairwise_cons.1 h
  refine List.pairwise_append.2 ⟨hparts, hrest, ?_⟩
  intro b hb c hc
  exact (hu c hc).mono (hsub b hb)

theorem pairwise_apart_perm {bs cs : List Extent} (h : bs.Perm cs)
    (hbs : bs.Pairwise Extent.Apart) : cs.Pairwise Extent.Apart :=
  (h.pairwise_iff fun h => h.symm).1 hbs

/-- The nodes of a list linked through the memory, ended by the address 0. -/
def Chain (mem : Nat → Nat) : Nat → List Nat → Prop
  | h, [] => h = 0
  | h, a :: as => h = a ∧ a ≠ 0 ∧ Chain mem (mem a) as

/-- The addresses met when the links are followed from `h` to the address 0. -/
inductive OnChain (mem : Nat → Nat) : Nat → Nat → Prop
  | head (h : a ≠ 0) : OnChain mem a a
  | next (h : a ≠ 0) (h' : OnChain mem (mem a) b) : OnChain mem a b

theorem OnChain.ne (h : OnChain mem a b) : a ≠ 0 := by
  cases h with
  | head h => exact h
  | next h _ => exact h

theorem Chain.mem_of_onChain {mem : Nat → Nat} (h : Chain mem a as) (hb : OnChain mem a b) :
    b ∈ as := by
  induction hb generalizing as with
  | head ha =>
    cases as with
    | nil => exact absurd h ha
    | cons a as => exact h.1 ▸ List.mem_cons_self
  | next ha _ ih =>
    cases as with
    | nil => exact absurd h ha
    | cons c as =>
      obtain ⟨rfl, -, htail⟩ := h
      exact List.mem_cons_of_mem _ (ih htail)

theorem Chain.onChain {mem : Nat → Nat} (h : Chain mem a as) (hb : b ∈ as) : OnChain mem a b := by
  induction as generalizing a with
  | nil => cases hb
  | cons c as ih =>
    obtain ⟨rfl, ha, htail⟩ := h
    rcases List.mem_cons.1 hb with rfl | hb
    · exact .head ha
    · exact .next ha (ih htail hb)

/-- A chain is read from the links of its nodes only. -/
theorem Chain.congr {mem mem' : Nat → Nat} (h : Chain mem a as)
    (hsame : ∀ b ∈ as, mem' b = mem b) : Chain mem' a as := by
  induction as generalizing a with
  | nil => exact h
  | cons c as ih =>
    obtain ⟨rfl, ha, htail⟩ := h
    refine ⟨rfl, ha, ?_⟩
    rw [hsame _ List.mem_cons_self]
    exact ih htail fun b hb => hsame b (List.mem_cons_of_mem _ hb)

theorem Chain.update {mem : Nat → Nat} (h : Chain mem a as) (hb : b ∉ as) (w : Nat) :
    Chain (Function.update mem b w) a as := by
  apply h.congr
  intro c hc
  have hne : c ≠ b := fun he => hb (he ▸ hc)
  exact Function.update_of_ne hne w mem

theorem Chain.push {mem : Nat → Nat} (h : Chain mem a as) (hb : b ∉ as) (hb' : b ≠ 0) :
    Chain (Function.update mem b a) b (b :: as) := by
  refine ⟨rfl, hb', ?_⟩
  rw [Function.update_self]
  exact h.update hb a

theorem Chain.eq_nil {mem : Nat → Nat} (h : Chain mem 0 as) : as = [] := by
  cases as with
  | nil => rfl
  | cons a as => exact absurd h.1.symm h.2.1

/-- Two addresses that lead to each other are on no chain. -/
theorem Chain.not_circle {mem : Nat → Nat} (ha : a ≠ 0) (hb : mem a ≠ 0) (h : mem (mem a) = a) :
    ∀ as, ¬ Chain mem a as
  | [], hchain => ha hchain
  | [_], ⟨heq, _, hend⟩ => hb (heq ▸ hend)
  | _ :: _ :: as, ⟨heq, _, heq', _, htail⟩ => by
    rw [← heq', ← heq, h] at htail
    exact not_circle ha hb h as htail

theorem Chain.exists_cons {mem : Nat → Nat} (h : Chain mem a as) (ha : a ≠ 0) :
    ∃ bs, as = a :: bs ∧ Chain mem (mem a) bs := by
  cases as with
  | nil => exact absurd h ha
  | cons b bs =>
    obtain ⟨rfl, -, htail⟩ := h
    exact ⟨bs, rfl, htail⟩

end BigBox
