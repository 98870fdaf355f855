import BigBox.Timer.TimerfdHashCalls

namespace BigBox.Timer
open Buckets
set_option autoImplicit true

section Definitions
variable {K D : Type}

def hashBegin (t : HashTable K D) : Option Iter := firstHead t.links.tab t.size 0

/-- The outer result is missing when an `int` overflows. -/
def hashIterNext (t : HashTable K D) (p : Iter) : Option (Option Iter) :=
  match t.links.next p with
  | some q => some (some q)
  | none => do
    let h ← hindex (t.hkey p) t.size
    let i := ((← checkedInt (toInt h + 1)) % 18446744073709551616).toNat
    return firstHead t.links.tab (t.size - i) i

/-- The inner loop of `hash_iter_prev` over a bucket. -/
def chainEnd (next : Iter → Option Iter) : Nat → Option Iter → Option (Option Iter)
  | _, none => some none
  | 0, some _ => none
  | n + 1, some p =>
    match next p with
    | none => some (some p)
    | some q => chainEnd next n (some q)

/-- The outer loop of `hash_iter_prev`. It ends before bucket 0. -/
def lastBelow (t : HashTable K D) : Nat → Option (Option Iter)
  | 0 => some none
  | i + 1 => do
    match ← chainEnd t.links.next (t.blocks.length + 1) (t.links.tab (i + 1)) with
    | some p => return some p
    | none => lastBelow t i

def hashIterPrev (t : HashTable K D) (p : Iter) : Option (Option Iter) :=
  match t.links.prev p with
  | some q => some (some q)
  | none => do
    let h ← hindex (t.hkey p) t.size
    let i ← checkedInt (toInt h - 1)
    lastBelow t i.toNat

/-- The entries met from `hash_begin` on. -/
def HashTable.forwards (t : HashTable K D) : Option (List Iter) :=
  walk (hashIterNext t) (t.blocks.length + 1) (hashBegin t)

/-- The entries met backwards from one on. -/
def HashTable.backwards (t : HashTable K D) (p : Option Iter) : Option (List Iter) :=
  walk (hashIterPrev t) (t.blocks.length + 1) p

/-- Both ways go over every entry once, in opposite orders. -/
def HashTable.Reverses (t : HashTable K D) : Prop :=
  ∃ ps, t.forwards = some ps ∧ ps.Perm t.blocks ∧ t.backwards ps.getLast? = some ps.reverse

/-- Bucket 0 is empty, or all others are, and no `int` overflows. -/
def HashTable.PlainStart (t : HashTable K D) : Prop :=
  (t.links.tab 0 = none ∨ ∀ b, 0 < b → b < t.size → t.links.tab b = none) ∧
    (2147483647 < t.size → t.links.tab 2147483647 = none)

end Definitions

section Valid
variable {K D Q E : Type} {ops : HashOps K D} {content : K → Q} {hash : Q → UInt32}
  {value : Option D → E} {t : HashTable K D} {s : HashSpec Q E} {rows : Nat → List Iter}

/-- A table as the calls leave it: every entry is in a bucket whose index fits in an `int`. -/
structure HashTable.Valid (t : HashTable K D) (ops : HashOps K D) (content : K → Q)
    (hash : Q → UInt32) (value : Option D → E) (s : HashSpec Q E) : Prop where
  refines : t.Refines ops content hash value s
  indexed : ∀ e ∈ s.live, s.indexed hash e.2

theorem indexed_remove (h : ∀ e ∈ s.live, s.indexed hash e.2) [DecidableEq Q]
    (o : Option (Iter × Q)) : ∀ e ∈ (s.remove o).live, (s.remove o).indexed hash e.2 := by
  cases o with
  | none => exact h
  | some x => exact fun e he => h e (List.mem_of_mem_erase he)

theorem indexed_grown [DecidableEq Q] (hlive : ∀ e ∈ s.live, s.indexed hash e.2)
    (hq : s.indexed hash q) (a : Allocator) (grow : Bool) (v : E) :
    ∀ e ∈ (s.lookadd a grow q v).live, (s.lookadd a grow q v).indexed hash e.2 := by
  rw [HashSpec.lookadd]
  split
  case isTrue => exact hlive
  case isFalse =>
    intro e he
    rcases List.mem_cons.1 he with rfl | he
    · exact HashSpec.grown_indexed hq grow
    · exact HashSpec.grown_indexed (hlive e he) grow

/-- The calls keep the indexes of the entries in the reach of an `int`. -/
theorem hashSpec_indexed [DecidableEq Q] (hlive : ∀ e ∈ s.live, s.indexed hash e.2)
    (call : HashCall K D) (hok : call.ok content hash s) :
    ∀ e ∈ (hashSpec content value s call).1.live,
      (hashSpec content value s call).1.indexed hash e.2 := by
  cases call with
  | add a grow key data => exact indexed_grown hlive hok.1 a grow (value none)
  | lookadd a grow key => exact indexed_grown hlive hok.1 a grow (value none)
  | del key => exact indexed_remove hlive _
  | iterDel p => exact indexed_remove hlive _
  | clear => exact fun e he => nomatch he
  | lookup key => exact hlive

/-- Every run of calls that has a result leaves a valid table. -/
theorem run_valid [DecidableEq Q] (hops : ops.Faithful content hash value)
    (h : t.Valid ops content hash value s) (calls : List (HashCall K D))
    (hvalid : Meets (hashSpec content value) (fun s call => call.valid s) s calls)
    (hrun : tryRun (HashTable.step value) t calls = some (t', answers)) :
    t'.Valid ops content hash value (run (hashSpec content value) s calls).1 := by
  induction calls generalizing t s answers with
  | nil =>
    cases hrun
    exact h
  | cons call calls ih =>
    by_cases hok : call.ok content hash s
    · obtain ⟨t₁, hstep, hrefines⟩ := hashStep_good hops h.refines call hvalid.1 hok
      rw [tryRun_cons hstep] at hrun
      obtain ⟨r, hr, he⟩ := Option.map_eq_some_iff.1 hrun
      cases he
      exact ih ⟨hrefines, hashSpec_indexed h.indexed call hok⟩ hvalid.2 hr
    · rw [tryRun_cons_none (hashStep_bad hops h.refines call hok)] at hrun
      cases hrun

end Valid

section Iteration
variable {K D Q E : Type} {ops : HashOps K D} {content : K → Q} {hash : Q → UInt32}
  {value : Option D → E} {t : HashTable K D} {s : HashSpec Q E} {rows : Nat → List Iter}

theorem HashTable.Table.tab_eq (h : t.Table ops content hash value s rows) (hb : b < t.size) :
    t.links.tab b = (rows b).head? := Threaded.head (h.links.chain b hb)

theorem HashTable.Table.neighbours (h : t.Table ops content hash value s rows) (hb : b < t.size)
    (hrow : rows b = u ++ p :: v) :
    t.links.prev p = u.getLast? ∧ t.links.next p = v.head? ∧
      hindex (t.hkey p) t.size = some b := by
  have hchain := h.links.chain b hb
  rw [hrow] at hchain
  obtain ⟨hprev, hnext⟩ := Threaded.middle hchain
  rw [lastOf_some, Option.or_none] at hprev
  refine ⟨hprev, hnext, ?_⟩
  rw [hindex_pos _ h.pos, h.links.bucket b hb p]
  rw [hrow]
  exact List.mem_append_right _ List.mem_cons_self

theorem HashTable.Valid.row_small (h : t.Table ops content hash value s rows)
    (hindexed : ∀ e ∈ s.live, s.indexed hash e.2) (hb : b < t.size) (hp : p ∈ rows b) :
    b < 2147483648 := by
  obtain ⟨e, he, rfl⟩ := h.entry_of_row hb hp
  have hlt := hindexed e he
  rw [HashSpec.indexed, ← h.size, ← h.hashed e he, h.links.bucket b hb e.1 hp] at hlt
  exact hlt

theorem hashBegin_eq (h : t.Table ops content hash value s rows) :
    hashBegin t = (slots t.size rows).head? := by
  rw [slots_eq_span]
  apply firstHead_eq
  intro m hm
  rw [Nat.zero_add]
  exact h.tab_eq hm

theorem hashIterNext_eq (h : t.Table ops content hash value s rows)
    (hindexed : ∀ e ∈ s.live, s.indexed hash e.2)
    (hno : 2147483647 < t.size → t.links.tab 2147483647 = none)
    (hp : slots t.size rows = xs ++ p :: ys) : hashIterNext t p = some ys.head? := by
  rw [slots_eq_span] at hp
  obtain ⟨m, u, v, hm, hrow, _, rfl⟩ := span_middle hp
  rw [Nat.zero_add] at hrow ⊢
  obtain ⟨_, hnext, hindex⟩ := h.neighbours hm hrow
  have hmem : p ∈ rows m := by
    rw [hrow]
    exact List.mem_append_right _ List.mem_cons_self
  have hsmall := HashTable.Valid.row_small h hindexed hm hmem
  have hne : m ≠ 2147483647 := by
    rintro rfl
    have hnone := hno hm
    rw [h.tab_eq hm, List.head?_eq_none_iff] at hnone
    rw [hnone] at hmem
    cases hmem
  rw [hashIterNext, hnext, List.head?_append]
  cases v with
  | cons q v => rfl
  | nil =>
    have hi : ((m : Int) + 1) % 18446744073709551616 = ((m + 1 : Nat) : Int) := by omega
    have hint : checkedInt (toInt m + 1) = some ((m : Int) + 1) := by
      rw [toInt_of_lt hsmall]
      exact checkedInt_of_lt (by omega) (by omega)
    rw [List.head?_nil, Option.none_or]
    dsimp only
    rw [hindex, Option.bind_eq_bind, Option.bind_some, hint, Option.bind_eq_bind, Option.bind_some,
      hi, Int.toNat_natCast, Nat.sub_sub]
    apply congrArg some
    apply firstHead_eq
    intro k hk
    exact h.tab_eq (by omega)

/-- The next entry of the last one of a bucket is looked for behind an `int`. -/
theorem hashIterNext_none (h : t.Table ops content hash value s rows)
    (hsize : 2147483647 < t.size) (hrow : rows 2147483647 = u ++ [p]) :
    hashIterNext t p = none := by
  obtain ⟨_, hnext, hindex⟩ := h.neighbours hsize hrow
  have hint : checkedInt (toInt 2147483647 + 1) = none := by
    rw [toInt_of_lt (by decide)]
    exact if_neg (by decide)
  rw [hashIterNext, hnext]
  dsimp only [List.head?_nil]
  rw [hindex, Option.bind_eq_bind, Option.bind_some, hint]
  rfl

theorem chainEnd_eq (h : Threaded next back of r p ps) (hn : ps.length ≤ n) :
    chainEnd next n p = some ps.getLast? := by
  induction ps generalizing r p n with
  | nil =>
    cases h
    cases n <;> rfl
  | cons q ps ih =>
    obtain ⟨rfl, _, hps⟩ := h
    cases n with
    | zero => exact (Nat.not_succ_le_zero _ hn).elim
    | succ n =>
      have hhead := hps.head
      rw [chainEnd]
      cases ps with
      | nil =>
        rw [hhead]
        rfl
      | cons q' ps =>
        rw [hhead] at hps ⊢
        rw [List.getLast?_cons_cons]
        exact ih hps (Nat.le_of_succ_le_succ hn)

theorem lastBelow_eq (h : t.Table ops content hash value s rows) (hi : i < t.size) :
    lastBelow t i = some (span 1 i rows).getLast? := by
  induction i with
  | zero => rfl
  | succ i ih =>
    have hchain := chainEnd_eq (h.links.chain (i + 1) hi) (Nat.le_succ_of_le (h.row_length hi))
    rw [lastBelow, hchain, Option.bind_eq_bind, Option.bind_some, span_concat, Nat.add_comm 1,
      List.getLast?_append]
    cases (rows (i + 1)).getLast? with
    | some p => rfl
    | none => exact ih (Nat.lt_of_succ_lt hi)

/-- The way back from a bucket behind bucket 0. -/
theorem hashIterPrev_eq (h : t.Table ops content hash value s rows)
    (hindexed : ∀ e ∈ s.live, s.indexed hash e.2) (hb : b < t.size) (hrow : rows b = u ++ p :: v) :
    hashIterPrev t p = some (span 1 (b - 1) rows ++ u).getLast? := by
  obtain ⟨hprev, _, hindex⟩ := h.neighbours hb hrow
  have hmem : p ∈ rows b := by
    rw [hrow]
    exact List.mem_append_right _ List.mem_cons_self
  have hsmall := HashTable.Valid.row_small h hindexed hb hmem
  rw [hashIterPrev, hprev, List.getLast?_append]
  cases hu : u.getLast? with
  | some q => rfl
  | none =>
    have hint : checkedInt (toInt b - 1) = some ((b : Int) - 1) := by
      rw [toInt_of_lt hsmall]
      exact checkedInt_of_lt (by omega) (by omega)
    have hi : ((b : Int) - 1).toNat = b - 1 := Int.toNat_sub b 1
    dsimp only
    rw [hindex, Option.bind_eq_bind, Option.bind_some, hint, Option.bind_eq_bind, Option.bind_some,
      hi, lastBelow_eq h (Nat.lt_of_le_of_lt (Nat.sub_le b 1) hb)]
    rfl

theorem slots_tail (h : 0 < n) (rows : Nat → List Iter) :
    slots n rows = rows 0 ++ span 1 (n - 1) rows := by
  obtain ⟨k, rfl⟩ := Nat.exists_eq_succ_of_ne_zero (Nat.ne_of_gt h)
  rw [slots_eq_span, span_succ]
  rfl

/-- From the last entry behind bucket 0 back to the first one. -/
theorem backwards_tail (h : t.Table ops content hash value s rows)
    (hindexed : ∀ e ∈ s.live, s.indexed hash e.2) :
    t.backwards (span 1 (t.size - 1) rows).getLast? =
      some (span 1 (t.size - 1) rows).reverse := by
  apply walk_back
  · intro xs p ys hp
    obtain ⟨m, u, v, hm, hrow, rfl, _⟩ := span_middle hp
    have hprev := hashIterPrev_eq h hindexed (Nat.add_lt_of_lt_sub' hm) hrow
    rwa [Nat.add_sub_cancel_left] at hprev
  · have hlen := congrArg List.length (slots_tail h.pos rows)
    rw [h.perm.length_eq, List.length_append] at hlen
    omega

theorem backwards_first (h : t.Table ops content hash value s rows)
    (hindexed : ∀ e ∈ s.live, s.indexed hash e.2) :
    t.backwards (rows 0).getLast? = some (rows 0).reverse := by
  apply walk_back
  · intro xs p ys hp
    exact hashIterPrev_eq h hindexed h.pos hp
  · exact Nat.le_succ_of_le (h.row_length h.pos)

theorem forwards_eq (h : t.Table ops content hash value s rows)
    (hindexed : ∀ e ∈ s.live, s.indexed hash e.2)
    (hno : 2147483647 < t.size → t.links.tab 2147483647 = none) :
    t.forwards = some (slots t.size rows) := by
  rw [HashTable.forwards, hashBegin_eq h]
  apply walk_eq
  · exact fun xs p ys hp => hashIterNext_eq h hindexed hno hp
  · rw [h.perm.length_eq]
    exact Nat.le_succ _

/-- Nothing is behind bucket 0 when its heads are missing there. -/
theorem tail_nil_iff (h : t.Table ops content hash value s rows) :
    span 1 (t.size - 1) rows = [] ↔ ∀ b, 0 < b → b < t.size → t.links.tab b = none := by
  rw [span, List.flatMap_eq_nil_iff]
  constructor
  · intro hnil b hpos hb
    rw [h.tab_eq hb, hnil b (List.mem_range'_1.2 ⟨hpos, by omega⟩)]
    rfl
  · intro hnone b hb
    obtain ⟨hpos, hlt⟩ := List.mem_range'_1.1 hb
    have hnil := hnone b hpos (by omega)
    rwa [h.tab_eq (by omega), List.head?_eq_none_iff] at hnil

/-- The entries are met in opposite orders both ways exactly when bucket 0 is empty or the only one
with entries, and none is in the bucket of the largest `int`. -/
theorem reverses_iff (h : t.Valid ops content hash value s) : t.Reverses ↔ t.PlainStart := by
  obtain ⟨⟨rows, htable⟩, hindexed⟩ := h
  have hslots := slots_tail htable.pos rows
  have hfirst : t.links.tab 0 = none ↔ rows 0 = [] := by
    rw [htable.tab_eq htable.pos, List.head?_eq_none_iff]
  constructor
  · rintro ⟨ps, hforwards, hperm, hbackwards⟩
    have hno : 2147483647 < t.size → t.links.tab 2147483647 = none := by
      intro hsize
      rw [htable.tab_eq hsize, List.head?_eq_none_iff]
      by_contra hne
      obtain ⟨u, p, hrow⟩ := List.eq_nil_or_concat' (rows 2147483647) |>.resolve_left hne
      have hmem : p ∈ slots t.size rows := by
        refine mem_slots.2 ⟨2147483647, hsize, ?_⟩
        rw [hrow]
        exact List.mem_append_right _ (List.mem_singleton_self p)
      apply step_of_mem_walk hforwards (hperm.mem_iff.2 (htable.perm.mem_iff.1 hmem))
      exact hashIterNext_none htable hsize hrow
    refine ⟨?_, hno⟩
    rw [forwards_eq htable hindexed hno, Option.some_inj] at hforwards
    rw [hfirst, ← tail_nil_iff htable]
    by_contra hboth
    obtain ⟨hrow, htail⟩ := not_or.1 hboth
    have hlast : ps.getLast? = (span 1 (t.size - 1) rows).getLast? := by
      rw [← hforwards, hslots, List.getLast?_append_of_ne_nil _ htail]
    rw [hlast, backwards_tail htable hindexed, Option.some_inj, ← hforwards, hslots] at hbackwards
    have hlen := congrArg List.length hbackwards
    rw [List.length_reverse, List.length_reverse, List.length_append] at hlen
    exact hrow (List.length_eq_zero_iff.1 (Nat.right_eq_add.1 hlen))
  · rintro ⟨hstart, hno⟩
    refine ⟨_, forwards_eq htable hindexed hno, htable.perm, ?_⟩
    rw [hfirst, ← tail_nil_iff htable] at hstart
    rw [hslots]
    rcases hstart with hnil | hnil
    · rw [hnil, List.nil_append]
      exact backwards_tail htable hindexed
    · rw [hnil, List.append_nil]
      exact backwards_first htable hindexed

end Iteration

section Witness

theorem natTable_valid : (natTable 10).Valid natOps id UInt32.ofNat id ⟨10, [], ∅⟩ where
  refines := hashNew_refines (rfl : hashNew (natTable 0) 0 natOps = some (natTable 10))
  indexed := nofun

/-- Two entries in different buckets, and none in bucket 0. -/
theorem reverses_iff_add : ∃ t answers,
    tryRun (HashTable.step id) (natTable 10) [.add .next true 1 (some 5), .lookadd .next true 2] =
      some (t, answers) ∧ (t.Reverses ↔ t.PlainStart) := by
  have hsome : (tryRun (HashTable.step id) (natTable 10)
      [.add .next true 1 (some 5), .lookadd .next true 2]).isSome = true := by decide +kernel
  obtain ⟨⟨t, answers⟩, hrun⟩ := Option.isSome_iff_exists.1 hsome
  have hvalid := run_valid natOps_faithful natTable_valid
    [.add .next true 1 (some 5), .lookadd .next true 2] ⟨trivial, trivial, trivial⟩ hrun
  exact ⟨t, answers, hrun, reverses_iff hvalid⟩

/-- The entry in bucket 0 is not met on the way back. -/
theorem not_reverses : ∃ t answers,
    tryRun (HashTable.step id) (natTable 10) [.lookadd .next true 0, .lookadd .next true 1] =
      some (t, answers) ∧ ¬ t.Reverses := by
  have hboth : (tryRun (HashTable.step id) (natTable 10)
      [.lookadd .next true 0, .lookadd .next true 1]).map (fun r =>
        (r.1.forwards, r.1.backwards (some 2))) = some (some [1, 2], some [2]) := by decide +kernel
  obtain ⟨⟨t, answers⟩, hrun, he⟩ := Option.map_eq_some_iff.1 hboth
  obtain ⟨hforwards, hback⟩ := Prod.mk.inj he
  refine ⟨t, answers, hrun, ?_⟩
  rintro ⟨ps, hps, _, hbackwards⟩
  cases hforwards.symm.trans hps
  exact absurd (hback.symm.trans hbackwards) (by decide)

end Witness

end BigBox.Timer
