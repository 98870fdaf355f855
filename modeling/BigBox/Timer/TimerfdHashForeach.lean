import BigBox.Timer.TimerfdHashIter

namespace BigBox.Timer
open Buckets
set_option autoImplicit true

section Definitions
variable {K D U : Type}

/-- What a call of the callback comes to: whether it has deleted the entry through `hash_iter_del`,
what it returns and what it leaves of `userdata`. -/
structure Answer (U : Type) where
  delete : Bool
  ret : UInt32
  userdata : U
  deriving DecidableEq, Repr

/-- A callback that does nothing else to the table. -/
abbrev HashFunc (K D U : Type) := Option K → Option D → U → Answer U

structure Visit (U : Type) where
  iter : Iter
  answer : Answer U
  deriving DecidableEq, Repr

/-- A round of the inner loop, with the entry behind this one. -/
def visitEntry (func : HashFunc K D U) (t : HashTable K D) (u : U) (p : Iter) :
    Option (HashTable K D × Answer U × Option Iter) := do
  let t := { t with foreach := Function.update t.foreach p 1 }
  let answer := func (t.key p) (t.data p) u
  let t ← if answer.delete then hashIterDel t p else some t
  let q := t.links.next p
  let t ← if t.foreach p = 0 then hashIterDel t p
    else some { t with foreach := Function.update t.foreach p 0 }
  return (t, answer, q)

/-- The inner loop of `hash_foreach`, with whether it returns. -/
def foreachBucket (func : HashFunc K D U) : Nat → Option Iter → HashTable K D → U →
    Option (HashTable K D × List (Visit U) × Bool × U)
  | _, none, t, u => some (t, [], false, u)
  | 0, some _, _, _ => none
  | n + 1, some p, t, u => do
    let (t, answer, q) ← visitEntry func t u p
    if answer.ret ≠ 0 then return (t, [⟨p, answer⟩], true, answer.userdata)
    let (t, visits, stop, u) ← foreachBucket func n q t answer.userdata
    return (t, ⟨p, answer⟩ :: visits, stop, u)

/-- The outer loop, from a bucket on. -/
def foreachBuckets (func : HashFunc K D U) (rounds : Nat) : Nat → Nat → HashTable K D → U →
    Option (HashTable K D × List (Visit U))
  | 0, _, t, _ => some (t, [])
  | k + 1, h, t, u => do
    let (t, visits, stop, u) ← foreachBucket func rounds (t.links.tab h) t u
    if stop then return (t, visits)
    let (t, rest) ← foreachBuckets func rounds k (h + 1) t u
    return (t, visits ++ rest)

/-- The table behind the call, with the calls of the callback. -/
def hashForeach (t : HashTable K D) (func : HashFunc K D U) (u : U) :
    Option (HashTable K D × List (Visit U)) :=
  foreachBuckets func (t.blocks.length + 1) t.size 0 t u

/-- A call for each of these entries, until one returns something else than 0. -/
def visits (t : HashTable K D) (func : HashFunc K D U) : U → List Iter → List (Visit U)
  | _, [] => []
  | u, p :: ps =>
    let answer := func (t.key p) (t.data p) u
    ⟨p, answer⟩ :: if answer.ret = 0 then visits t func answer.userdata ps else []

def stopped (vs : List (Visit U)) : Bool := vs.any (·.answer.ret ≠ 0)

/-- What the calls leave of `userdata`. -/
def leaves (u : U) (vs : List (Visit U)) : U := vs.foldl (fun _ v => v.answer.userdata) u

def deleted (vs : List (Visit U)) : List Iter := (vs.filter (·.answer.delete)).map (·.iter)

/-- The map without the bindings of these entries. -/
def HashSpec.without [DecidableEq Q] (s : HashSpec Q E) (ps : List Iter) : HashSpec Q E :=
  ps.foldl (fun s p => s.remove (s.live.find? (·.1 = p))) s

/-- These entries are gone, and the others are as they were. -/
structure Without (t t' : HashTable K D) (ps : List Iter) : Prop where
  size : t'.size = t.size
  blocks : t'.blocks = t.blocks.filter (· ∉ ps)
  fields : ∀ q, q ∉ ps → t'.key q = t.key q ∧ t'.data q = t.data q

end Definitions

section Visits
variable {K D U : Type} {t t' t'' : HashTable K D} {func : HashFunc K D U}

theorem without_nil (t : HashTable K D) : Without t t [] where
  size := rfl
  blocks := (List.filter_eq_self.2 fun _ _ => decide_eq_true (List.not_mem_nil)).symm
  fields _ _ := ⟨rfl, rfl⟩

theorem Without.append (h : Without t t' ps) (h' : Without t' t'' qs) :
    Without t t'' (ps ++ qs) where
  size := h'.size.trans h.size
  blocks := by
    rw [h'.blocks, h.blocks, List.filter_filter]
    apply List.filter_congr
    intro q _
    rw [← Bool.decide_and, decide_eq_decide, List.mem_append, not_or, and_comm]
  fields q hq := by
    obtain ⟨hps, hqs⟩ := not_or.1 (mt List.mem_append.2 hq)
    obtain ⟨hkey, hdata⟩ := h.fields q hps
    obtain ⟨hkey', hdata'⟩ := h'.fields q hqs
    exact ⟨hkey'.trans hkey, hdata'.trans hdata⟩

theorem visits_congr (h : ∀ p ∈ ps, t'.key p = t.key p ∧ t'.data p = t.data p) (u : U) :
    visits t' func u ps = visits t func u ps := by
  induction ps generalizing u with
  | nil => rfl
  | cons p ps ih =>
    obtain ⟨hkey, hdata⟩ := h p List.mem_cons_self
    rw [visits, visits, hkey, hdata, ih fun q hq => h q (List.mem_cons_of_mem p hq)]

theorem stopped_cons (v : Visit U) (vs : List (Visit U)) :
    stopped (v :: vs) = (decide (v.answer.ret ≠ 0) || stopped vs) := rfl

theorem visits_append (t : HashTable K D) (func : HashFunc K D U) (u : U) (ps qs : List Iter) :
    visits t func u (ps ++ qs) = visits t func u ps ++
      if stopped (visits t func u ps) then []
      else visits t func (leaves u (visits t func u ps)) qs := by
  induction ps generalizing u with
  | nil => rfl
  | cons p ps ih =>
    rw [List.cons_append, visits, visits]
    by_cases hret : (func (t.key p) (t.data p) u).ret = 0
    · rw [if_pos hret, if_pos hret, ih, stopped_cons, decide_eq_false (not_not.2 hret),
        Bool.false_or, leaves, leaves, List.foldl_cons, List.cons_append]
    · rw [if_neg hret, if_neg hret, stopped_cons, decide_eq_true hret, Bool.true_or]
      rfl

theorem deleted_cons (v : Visit U) (vs : List (Visit U)) :
    deleted (v :: vs) = (if v.answer.delete then [v.iter] else []) ++ deleted vs := by
  rw [deleted, List.filter_cons]
  split <;> rfl

theorem deleted_append (vs ws : List (Visit U)) :
    deleted (vs ++ ws) = deleted vs ++ deleted ws := by
  rw [deleted, List.filter_append, List.map_append]
  rfl

theorem deleted_visits (t : HashTable K D) (func : HashFunc K D U) (u : U) (ps : List Iter) :
    deleted (visits t func u ps) ⊆ ps := by
  induction ps generalizing u with
  | nil => exact fun q hq => hq
  | cons p ps ih =>
    intro q hq
    rw [visits, deleted_cons] at hq
    rcases List.mem_append.1 hq with hq | hq
    · split at hq
      · exact List.mem_cons.2 (.inl (List.mem_singleton.1 hq))
      · cases hq
    · apply List.mem_cons_of_mem p
      split at hq
      · exact ih _ hq
      · cases hq

end Visits

section Foreach
variable {K D U Q E : Type} {ops : HashOps K D} {content : K → Q} {hash : Q → UInt32}
  {value : Option D → E} {t : HashTable K D} {s : HashSpec Q E} {rows : Nat → List Iter}
  {func : HashFunc K D U}

theorem update_self_eq {f : Iter → Int} (h : f p = 0) :
    Function.update (Function.update f p 1) p 0 = f := by
  rw [Function.update_idem, ← h, Function.update_eq_self]

/-- A callback that deletes nothing leaves the table as it is. -/
theorem visitEntry_keep (hforeach : t.foreach p = 0)
    (hkeep : (func (t.key p) (t.data p) u).delete = false) :
    visitEntry func t u p = some (t, func (t.key p) (t.data p) u, t.links.next p) := by
  rw [visitEntry]
  dsimp only
  have hset : ¬ Function.update t.foreach p 1 p = 0 := by
    rw [Function.update_self]
    decide
  rw [hkeep, if_neg Bool.false_ne_true, Option.bind_eq_bind, Option.bind_some]
  dsimp only
  rw [if_neg hset, Option.bind_some, update_self_eq hforeach]
  rfl

/-- A deletion that is put off is made up for behind the callback. -/
theorem visitEntry_delete (hforeach : t.foreach p = 0)
    (hdelete : (func (t.key p) (t.data p) u).delete = true) :
    visitEntry func t u p = (hashIterDel t p).map fun t' =>
      (t', func (t.key p) (t.data p) u, t.links.next p) := by
  have hfirst : hashIterDel { t with foreach := Function.update t.foreach p 1 } p =
      some { t with
        data := Function.update t.data p none
        key := Function.update t.key p none } := by
    rw [hashIterDel]
    dsimp only
    rw [if_pos (Function.update_self p 1 t.foreach), update_self_eq hforeach]
    rfl
  have hsecond : hashIterDel
      { t with data := Function.update t.data p none, key := Function.update t.key p none } p =
        hashIterDel t p := by
    rw [hashIterDel, hashIterDel]
    dsimp only
    rw [Function.update_idem, Function.update_idem]
  rw [visitEntry]
  dsimp only
  rw [hdelete, if_pos rfl, hfirst, Option.bind_eq_bind, Option.bind_some]
  dsimp only
  rw [if_pos hforeach, hsecond]
  cases hashIterDel t p <;> rfl

variable [DecidableEq Q]

theorem without_append (s : HashSpec Q E) (ps qs : List Iter) :
    s.without (ps ++ qs) = (s.without ps).without qs := List.foldl_append

/-- The entries a visit deletes. -/
def gone (answer : Answer U) (p : Iter) : List Iter := if answer.delete then [p] else []

/-- A round of the inner loop: the entry leaves its row or stays, and the next one is the one that
was behind it. -/
theorem visitEntry_eq (h : t.Table ops content hash value s rows) (hb : b < t.size)
    (hrow : rows b = xs ++ p :: ys) (func : HashFunc K D U) (u : U) :
    ∃ t' rows' xs', visitEntry func t u p =
        some (t', func (t.key p) (t.data p) u, ys.head?) ∧
      t'.Table ops content hash value (s.without (gone (func (t.key p) (t.data p) u) p)) rows' ∧
      rows' b = xs' ++ ys ∧ (∀ c, c ≠ b → rows' c = rows c) ∧
      Without t t' (gone (func (t.key p) (t.data p) u) p) := by
  obtain ⟨_, hnext, _⟩ := h.neighbours hb hrow
  have hmem : p ∈ rows b := by
    rw [hrow]
    exact List.mem_append_right _ List.mem_cons_self
  obtain ⟨e, he, rfl⟩ := h.entry_of_row hb hmem
  cases hdelete : (func (t.key e.1) (t.data e.1) u).delete with
  | false =>
    have hgone : gone (func (t.key e.1) (t.data e.1) u) e.1 = [] := by
      rw [gone, hdelete]
      rfl
    rw [hgone, ← hnext]
    refine ⟨t, rows, xs ++ [e.1], visitEntry_keep (h.foreach e he) hdelete, h, ?_,
      fun _ _ => rfl, without_nil t⟩
    rw [hrow, List.append_assoc]
    rfl
  | true =>
    have hgone : gone (func (t.key e.1) (t.data e.1) u) e.1 = [e.1] := by
      rw [gone, hdelete]
      rfl
    have hfind : (s.live.find? fun x => x.1 = e.1) = some e :=
      find?_of_nodup_map (h.blocks ▸ h.nodup) he
    have hwithout : s.without [e.1] = s.remove (some e) := by
      rw [HashSpec.without, List.foldl_cons, List.foldl_nil, hfind]
    obtain ⟨links, hrun, htable⟩ := h.iterDel_row he hb hrow
    rw [hgone, hwithout]
    refine ⟨t.dropped e.1 links, _, xs, ?_, htable, Function.update_self .., ?_, rfl, ?_, ?_⟩
    · rw [visitEntry_delete (h.foreach e he) hdelete, hrun, ← hnext]
      rfl
    · exact fun c hc => Function.update_of_ne hc ..
    · rw [HashTable.dropped, h.nodup.erase_eq_filter]
      apply List.filter_congr
      intro q _
      rw [Bool.eq_iff_iff, bne_iff_ne, decide_eq_true_iff, List.mem_singleton]
    · intro q hq
      rw [List.mem_singleton] at hq
      exact ⟨Function.update_of_ne hq .., Function.update_of_ne hq ..⟩

/-- The inner loop visits the rest of a row. -/
theorem foreachBucket_eq (h : t.Table ops content hash value s rows) (hb : b < t.size)
    (hrow : rows b = xs ++ ys) (hn : ys.length ≤ n) (func : HashFunc K D U) (u : U) :
    ∃ t' rows', foreachBucket func n ys.head? t u =
        some (t', visits t func u ys, stopped (visits t func u ys),
          leaves u (visits t func u ys)) ∧
      t'.Table ops content hash value (s.without (deleted (visits t func u ys))) rows' ∧
      (∀ c, c ≠ b → rows' c = rows c) ∧ Without t t' (deleted (visits t func u ys)) := by
  induction ys generalizing t s rows xs u n with
  | nil =>
    refine ⟨t, rows, ?_, h, fun _ _ => rfl, without_nil t⟩
    cases n <;> rfl
  | cons p ys ih =>
    cases n with
    | zero => exact (Nat.not_succ_le_zero _ hn).elim
    | succ n =>
      obtain ⟨t₁, rows₁, xs₁, hvisit, htable, hrow₁, hother, hwithout⟩ :=
        visitEntry_eq h hb hrow func u
      have hdeleted : ∀ vs, deleted (⟨p, func (t.key p) (t.data p) u⟩ :: vs) =
          gone (func (t.key p) (t.data p) u) p ++ deleted vs := deleted_cons _
      rw [List.head?_cons, foreachBucket, hvisit, Option.bind_eq_bind, Option.bind_some, visits,
        hdeleted]
      by_cases hret : (func (t.key p) (t.data p) u).ret = 0
      · have hnd := nodup_row h.links.nodup hb
        rw [hrow] at hnd
        have hp : p ∉ ys := (List.nodup_cons.1 (List.nodup_append.1 hnd).2.1).1
        have hsame : visits t₁ func (func (t.key p) (t.data p) u).userdata ys =
            visits t func (func (t.key p) (t.data p) u).userdata ys := by
          apply visits_congr
          intro q hq
          apply hwithout.fields q
          rw [gone]
          split
          · rw [List.mem_singleton]
            rintro rfl
            exact hp hq
          · exact List.not_mem_nil
        obtain ⟨t', rows', hrun, htable', hother', hwithout'⟩ := ih htable
          (hwithout.size ▸ hb) hrow₁ (Nat.le_of_succ_le_succ hn)
          (func (t.key p) (t.data p) u).userdata
        rw [hsame] at hrun htable' hwithout'
        rw [if_pos hret, without_append]
        refine ⟨t', rows', ?_, htable', fun c hc => (hother' c hc).trans (hother c hc),
          hwithout.append hwithout'⟩
        dsimp only
        rw [if_neg (not_not.2 hret), hrun, stopped_cons, decide_eq_false (not_not.2 hret),
          Bool.false_or]
        rfl
      · rw [if_neg hret]
        refine ⟨t₁, rows₁, ?_, ?_, hother, ?_⟩
        · dsimp only
          rw [if_pos hret, stopped_cons, decide_eq_true hret, Bool.true_or]
          rfl
        · exact (List.append_nil (gone (func (t.key p) (t.data p) u) p)).symm ▸ htable
        · exact (List.append_nil (gone (func (t.key p) (t.data p) u) p)).symm ▸ hwithout

/-- The outer loop visits the rows from one on. -/
theorem foreachBuckets_eq (h : t.Table ops content hash value s rows) (hb : b + k = t.size)
    (hrounds : t.blocks.length ≤ rounds) (func : HashFunc K D U) (u : U) :
    ∃ t' rows', foreachBuckets func rounds k b t u =
        some (t', visits t func u (span b k rows)) ∧
      t'.Table ops content hash value
        (s.without (deleted (visits t func u (span b k rows)))) rows' ∧
      Without t t' (deleted (visits t func u (span b k rows))) := by
  induction k generalizing t s rows b u with
  | zero => exact ⟨t, rows, rfl, h, without_nil t⟩
  | succ k ih =>
    have hlt : b < t.size := by omega
    obtain ⟨t₁, rows₁, hrun, htable, hother, hwithout⟩ := foreachBucket_eq h hlt
      (List.nil_append (rows b)).symm (Nat.le_trans (h.row_length hlt) hrounds) func u
    rw [foreachBuckets, h.tab_eq hlt, hrun, Option.bind_eq_bind, Option.bind_some, span_succ,
      visits_append]
    cases hstop : stopped (visits t func u (rows b)) with
    | true =>
      rw [if_pos rfl, List.append_nil]
      exact ⟨t₁, rows₁, rfl, htable, hwithout⟩
    | false =>
      have hspan : span (b + 1) k rows₁ = span (b + 1) k rows := by
        apply List.flatMap_congr
        intro c hc
        exact hother c (Nat.ne_of_gt (List.mem_range'_1.1 hc).1)
      have hapart : ∀ q ∈ span (b + 1) k rows, q ∉ deleted (visits t func u (rows b)) := by
        intro q hq hdeleted
        obtain ⟨c, hc, hqc⟩ := List.mem_flatMap.1 hq
        obtain ⟨hbc, hck⟩ := List.mem_range'_1.1 hc
        exact rows_disjoint h.links.nodup hlt (by omega) (Nat.ne_of_lt hbc)
          (deleted_visits t func u (rows b) hdeleted) hqc
      have hsame : ∀ u, visits t₁ func u (span (b + 1) k rows) =
          visits t func u (span (b + 1) k rows) :=
        visits_congr fun q hq => hwithout.fields q (hapart q hq)
      have hlen : t₁.blocks.length ≤ rounds := by
        rw [hwithout.blocks]
        exact Nat.le_trans (List.length_filter_le _ _) hrounds
      have hsize : b + 1 + k = t₁.size := by
        rw [hwithout.size, ← hb]
        omega
      obtain ⟨t', rows', hrun', htable', hwithout'⟩ := ih htable hsize hlen
        (leaves u (visits t func u (rows b)))
      rw [hspan, hsame] at hrun' htable' hwithout'
      rw [if_neg Bool.false_ne_true, deleted_append, without_append]
      refine ⟨t', rows', ?_, htable', hwithout.append hwithout'⟩
      dsimp only
      rw [if_neg Bool.false_ne_true, hrun']
      rfl

/-- The callback is called once for every entry until it returns something else than 0. Behind it
the table holds the entries that have not been deleted, as they were, and counts them. -/
theorem foreach_visits (h : t.Refines ops content hash value s) (func : HashFunc K D U) (u : U) :
    ∃ ps t', ps.Perm t.blocks ∧ hashForeach t func u = some (t', visits t func u ps) ∧
      t'.Refines ops content hash value (s.without (deleted (visits t func u ps))) ∧
      t'.blocks = t.blocks.filter (· ∉ deleted (visits t func u ps)) ∧
      (∀ p ∈ t'.blocks, t'.key p = t.key p ∧ t'.data p = t.data p) ∧
      t'.nelem = t'.blocks.length := by
  obtain ⟨rows, htable⟩ := h
  obtain ⟨t', rows', hrun, htable', hwithout⟩ := foreachBuckets_eq htable (Nat.zero_add t.size)
    (Nat.le_succ t.blocks.length) func u
  rw [← slots_eq_span] at hrun htable' hwithout
  refine ⟨slots t.size rows, t', htable.perm, hrun, ⟨rows', htable'⟩, hwithout.blocks, ?_, ?_⟩
  · intro p hp
    rw [hwithout.blocks] at hp
    exact hwithout.fields p (of_decide_eq_true (List.mem_filter.1 hp).2)
  · rw [htable'.length_live, htable'.blocks, List.length_map]

/-- Two entries, the first of which is deleted. -/
theorem foreach_visits_two : ∃ t answers,
    tryRun (HashTable.step id) (natTable 10) [.add .next true 1 (some 5), .lookadd .next true 2] =
      some (t, answers) ∧
    ∃ ps t', ps.Perm t.blocks ∧
      hashForeach t (fun key _ u => ⟨decide (key = some 1), 0, u⟩) () =
        some (t', visits t (fun key _ u => ⟨decide (key = some 1), 0, u⟩) () ps) ∧
      t'.nelem = t'.blocks.length := by
  have hsome : (tryRun (HashTable.step id) (natTable 10)
      [.add .next true 1 (some 5), .lookadd .next true 2]).isSome = true := by decide +kernel
  obtain ⟨⟨t, answers⟩, hrun⟩ := Option.isSome_iff_exists.1 hsome
  have hvalid := run_valid natOps_faithful natTable_valid
    [.add .next true 1 (some 5), .lookadd .next true 2] ⟨trivial, trivial, trivial⟩ hrun
  obtain ⟨ps, t', hperm, hforeach, _, _, _, hnelem⟩ :=
    foreach_visits hvalid.refines (fun key _ u => ⟨decide (key = some 1), 0, u⟩) ()
  exact ⟨t, answers, hrun, ps, t', hperm, hforeach, hnelem⟩

end Foreach

end BigBox.Timer
