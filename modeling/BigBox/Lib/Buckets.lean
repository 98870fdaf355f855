import Mathlib.Data.List.Basic
import Mathlib.Logic.Function.Basic

namespace BigBox.Buckets
set_option autoImplicit true

section Rows
variable {α : Type}

/-- The elements of the first `n` rows. -/
def slots (n : Nat) (rows : Nat → List α) : List α := (List.range n).flatMap rows

theorem mem_slots : a ∈ slots n rows ↔ ∃ b, b < n ∧ a ∈ rows b := by
  rw [slots, List.mem_flatMap]
  simp only [List.mem_range]

theorem slots_succ (n : Nat) (rows : Nat → List α) :
    slots (n + 1) rows = slots n rows ++ rows n := by
  rw [slots, List.range_succ, List.flatMap_append, List.flatMap_singleton]
  rfl

theorem slots_congr (h : ∀ b, b < n → rows' b = rows b) : slots n rows' = slots n rows := by
  induction n with
  | zero => rfl
  | succ n ih =>
    rw [slots_succ, slots_succ, ih fun b hb => h b (Nat.lt_succ_of_lt hb), h n (Nat.lt_succ_self n)]

theorem slots_empty (n : Nat) : slots n (fun _ => ([] : List α)) = [] := by
  induction n with
  | zero => rfl
  | succ n ih => rw [slots_succ, ih, List.append_nil]

/-- What is in the other rows stays when a row changes. -/
theorem slots_update (rows : Nat → List α) (hb : b < n) :
    ∃ rest, ∀ xs, (slots n (Function.update rows b xs)).Perm (xs ++ rest) := by
  induction n with
  | zero => exact (Nat.not_lt_zero _ hb).elim
  | succ n ih =>
    rcases Nat.lt_succ_iff_lt_or_eq.1 hb with hlt | rfl
    · obtain ⟨rest, hrest⟩ := ih hlt
      refine ⟨rest ++ rows n, fun xs => ?_⟩
      rw [slots_succ, Function.update_of_ne (Nat.ne_of_gt hlt), ← List.append_assoc]
      exact (hrest xs).append_right _
    · refine ⟨slots b rows, fun xs => ?_⟩
      have hsame : slots b (Function.update rows b xs) = slots b rows :=
        slots_congr fun c hc => Function.update_of_ne (Nat.ne_of_lt hc) ..
      rw [slots_succ, Function.update_self, hsame]
      exact List.perm_append_comm

theorem length_row (rows : Nat → List α) (hb : b < n) :
    (rows b).length ≤ (slots n rows).length := by
  obtain ⟨rest, hrest⟩ := slots_update rows hb
  have hrow := hrest (rows b)
  rw [Function.update_eq_self] at hrow
  rw [hrow.length_eq, List.length_append]
  exact Nat.le_add_right _ _

/-- An element moves into a row. -/
theorem slots_push (rows : Nat → List α) (hb : b < n) (a : α) :
    (slots n (Function.update rows b (a :: rows b))).Perm (a :: slots n rows) := by
  obtain ⟨rest, hrest⟩ := slots_update rows hb
  have hold := hrest (rows b)
  rw [Function.update_eq_self] at hold
  exact (hrest _).trans (hold.symm.cons a)

/-- An element leaves a row. -/
theorem slots_remove (hb : b < n) (h : rows b = xs ++ a :: ys) :
    (slots n rows).Perm (a :: slots n (Function.update rows b (xs ++ ys))) := by
  obtain ⟨rest, hrest⟩ := slots_update rows hb
  have hold := hrest (rows b)
  rw [Function.update_eq_self, h] at hold
  have hmiddle : (xs ++ a :: ys ++ rest).Perm (a :: (xs ++ ys ++ rest)) :=
    List.perm_middle.append_right rest
  exact (hold.trans hmiddle).trans ((hrest (xs ++ ys)).symm.cons a)

/-- Rows without a common element have no element twice. -/
theorem nodup_row (h : (slots n rows).Nodup) (hb : b < n) : (rows b).Nodup := by
  obtain ⟨rest, hrest⟩ := slots_update rows hb
  have hold := hrest (rows b)
  rw [Function.update_eq_self] at hold
  exact (List.nodup_append.1 (hold.nodup_iff.1 h)).1

theorem rows_disjoint (h : (slots n rows).Nodup) (hb : b < n) (hc : c < n) (hne : b ≠ c)
    (ha : a ∈ rows b) : a ∉ rows c := by
  obtain ⟨rest, hrest⟩ := slots_update rows hb
  have hold := hrest (rows b)
  rw [Function.update_eq_self] at hold
  have hempty : (slots n (Function.update rows b [])).Perm rest := hrest []
  intro hac
  have hmem : a ∈ rest := by
    rw [← hempty.mem_iff, mem_slots]
    exact ⟨c, hc, by rw [Function.update_of_ne hne.symm]; exact hac⟩
  exact (List.nodup_append.1 (hold.nodup_iff.1 h)).2.2 a ha a hmem rfl

/-- The elements of `n` rows, from a row on. -/
def span (b n : Nat) (rows : Nat → List α) : List α := (List.range' b n).flatMap rows

theorem slots_eq_span (n : Nat) (rows : Nat → List α) : slots n rows = span 0 n rows := by
  rw [slots, span, List.range_eq_range']

theorem span_succ (b n : Nat) (rows : Nat → List α) :
    span b (n + 1) rows = rows b ++ span (b + 1) n rows := by
  rw [span, List.range'_succ, List.flatMap_cons]
  rfl

theorem span_concat (b n : Nat) (rows : Nat → List α) :
    span b (n + 1) rows = span b n rows ++ rows (b + n) := by
  rw [span, List.range'_1_concat, List.flatMap_append, List.flatMap_singleton]
  rfl

/-- The row an element of a span is in, with what is before and behind it. -/
theorem span_middle (h : span b n rows = xs ++ p :: ys) : ∃ m u v, m < n ∧
    rows (b + m) = u ++ p :: v ∧ xs = span b m rows ++ u ∧
      ys = v ++ span (b + m + 1) (n - m - 1) rows := by
  induction n generalizing b xs with
  | zero =>
    rw [span, List.range'_zero, List.flatMap_nil] at h
    cases xs <;> cases h
  | succ n ih =>
    have hlater : ∀ c, xs = rows b ++ c → span (b + 1) n rows = c ++ p :: ys → ∃ m u v,
        m < n + 1 ∧ rows (b + m) = u ++ p :: v ∧ xs = span b m rows ++ u ∧
          ys = v ++ span (b + m + 1) (n + 1 - m - 1) rows := by
      intro c hxs hspan
      obtain ⟨m, u, v, hm, hrow, rfl, hys⟩ := ih hspan
      refine ⟨m + 1, u, v, Nat.succ_lt_succ hm, ?_, ?_, ?_⟩
      · rw [← hrow, Nat.add_comm m, ← Nat.add_assoc]
      · rw [hxs, span_succ, List.append_assoc]
      · rw [hys, Nat.add_comm m, ← Nat.add_assoc, Nat.add_comm 1 m, Nat.add_sub_add_right]
    rw [span_succ] at h
    rcases List.append_eq_append_iff.1 h with ⟨c, hxs, hspan⟩ | ⟨c, hrow, hrest⟩
    · exact hlater c hxs hspan
    · cases c with
      | nil =>
        rw [List.append_nil] at hrow
        exact hlater [] (by rw [hrow, List.append_nil]) hrest.symm
      | cons d c =>
        cases hrest
        exact ⟨0, xs, c, Nat.zero_lt_succ n, hrow, rfl, rfl⟩

/-- The first element of the rows from one on, with so many rows to look at. -/
def firstHead (tab : Nat → Option α) : Nat → Nat → Option α
  | 0, _ => none
  | n + 1, b =>
    match tab b with
    | some p => some p
    | none => firstHead tab n (b + 1)

theorem firstHead_eq {tab : Nat → Option α} (h : ∀ m, m < n → tab (b + m) = (rows (b + m)).head?) :
    firstHead tab n b = (span b n rows).head? := by
  induction n generalizing b with
  | zero => rfl
  | succ n ih =>
    have hb : tab b = (rows b).head? := h 0 (Nat.zero_lt_succ n)
    have hrest := @ih (b + 1) fun m hm => by
      rw [Nat.add_assoc, Nat.add_comm 1]
      exact h (m + 1) (Nat.succ_lt_succ hm)
    rw [firstHead, hb, span_succ, List.head?_append]
    cases (rows b).head? with
    | some p => rfl
    | none => exact hrest

/-- The elements met from one on, in so many steps at most. -/
def walk (step : α → Option (Option α)) : Nat → Option α → Option (List α)
  | _, none => some []
  | 0, some _ => none
  | n + 1, some p => (step p).bind fun q => (walk step n q).map (p :: ·)

theorem walk_eq {step : α → Option (Option α)}
    (h : ∀ xs p ys, l = xs ++ p :: ys → step p = some ys.head?) (hn : l.length ≤ n) :
    walk step n l.head? = some l := by
  have hsuffix : ∀ r xs n, l = xs ++ r → r.length ≤ n → walk step n r.head? = some r := by
    intro r
    induction r with
    | nil =>
      intro xs n _ _
      cases n <;> rfl
    | cons p r ih =>
      intro xs n hl hr
      cases n with
      | zero => exact (Nat.not_succ_le_zero _ hr).elim
      | succ n =>
        have hrest := ih (xs ++ [p]) n (by rw [hl, List.append_assoc]; rfl)
          (Nat.le_of_succ_le_succ hr)
        rw [List.head?_cons, walk, h xs p r hl, Option.bind_some, hrest]
        rfl
  exact hsuffix l [] n rfl hn

/-- The same from the end of a list back to its start. -/
theorem walk_back {step : α → Option (Option α)}
    (h : ∀ xs p ys, l = xs ++ p :: ys → step p = some xs.getLast?) (hn : l.length ≤ n) :
    walk step n l.getLast? = some l.reverse := by
  rw [← List.head?_reverse]
  apply walk_eq _ (by rwa [List.length_reverse])
  intro xs p ys hl
  have hrev : l = ys.reverse ++ p :: xs.reverse := by
    rw [← List.reverse_reverse l, hl, List.reverse_append, List.reverse_cons, List.append_assoc]
    rfl
  rw [h _ p _ hrev, List.getLast?_reverse]

theorem step_of_mem_walk {step : α → Option (Option α)} (h : walk step n p = some l) (hq : q ∈ l) :
    step q ≠ none := by
  induction n generalizing p l with
  | zero =>
    cases p with
    | none =>
      cases h
      cases hq
    | some p => cases h
  | succ n ih =>
    cases p with
    | none =>
      cases h
      cases hq
    | some p =>
      obtain ⟨r, hstep, hrest⟩ := Option.bind_eq_some_iff.1 h
      obtain ⟨l', hwalk, rfl⟩ := Option.map_eq_some_iff.1 hrest
      rcases List.mem_cons.1 hq with rfl | hq
      · rw [hstep]
        exact Option.some_ne_none r
      · exact ih hwalk hq

end Rows

section Threads
variable {α β : Type} [DecidableEq α] {next next' : α → Option α} {back back' : α → β} {of : α → β}

/-- A list threaded through its elements. Each element points to the next one and back: the first
to `r`, the others to what `of` makes of the one before. -/
def Threaded (next : α → Option α) (back : α → β) (of : α → β) : β → Option α → List α → Prop
  | _, h, [] => h = none
  | r, h, p :: ps => h = some p ∧ back p = r ∧ Threaded next back of (of p) (next p) ps

omit [DecidableEq α] in
theorem Threaded.head (h : Threaded next back of r p ps) : p = ps.head? := by
  cases ps with
  | nil => exact h
  | cons q ps => exact h.1

omit [DecidableEq α] in
theorem Threaded.congr (h : Threaded next back of r p ps)
    (he : ∀ q ∈ ps, next' q = next q ∧ back' q = back q) : Threaded next' back' of r p ps := by
  induction ps generalizing r p with
  | nil => exact h
  | cons q ps ih =>
    obtain ⟨hp, hback, hps⟩ := h
    obtain ⟨hnext', hback'⟩ := he q List.mem_cons_self
    refine ⟨hp, hback'.trans hback, ?_⟩
    rw [hnext']
    exact ih hps fun q' hq' => he q' (List.mem_cons_of_mem q hq')

/-- A new element in front. -/
theorem Threaded.push (h : Threaded next back of r p ps) (hnext : next' a = p) (hback : back' a = r)
    (hsame : ∀ q ∈ ps, next' q = next q)
    (hfirst : ∀ q ∈ ps, back' q = if ps.head? = some q then of a else back q)
    (hnd : ps.Nodup) : Threaded next' back' of r (some a) (a :: ps) := by
  refine ⟨rfl, hback, ?_⟩
  rw [hnext]
  cases ps with
  | nil => exact h
  | cons q ps =>
    obtain ⟨hp, _, hps⟩ := h
    have hq : back' q = of a := (hfirst q List.mem_cons_self).trans (if_pos rfl)
    refine ⟨hp, hq, ?_⟩
    rw [hsame q List.mem_cons_self]
    apply hps.congr
    intro q' hq'
    have hmem : q' ∈ q :: ps := List.mem_cons_of_mem q hq'
    have hne : (q :: ps).head? ≠ some q' := fun he =>
      (List.nodup_cons.1 hnd).1 (Option.some.inj he ▸ hq')
    exact ⟨hsame q' hmem, (hfirst q' hmem).trans (if_neg hne)⟩

/-- What an element in the middle points back to. -/
def lastOf (of : α → β) (r : β) : List α → β
  | [] => r
  | x :: xs => lastOf of (of x) xs

omit [DecidableEq α] in
theorem lastOf_eq (of : α → β) (r : β) (xs : List α) :
    lastOf of r xs = (xs.getLast?.map of).getD r := by
  induction xs generalizing r with
  | nil => rfl
  | cons y xs ih =>
    rw [lastOf, ih]
    cases xs with
    | nil => rfl
    | cons z xs =>
      rw [List.getLast?_cons_cons, List.getLast?_eq_some_getLast (List.cons_ne_nil z xs)]
      rfl

omit [DecidableEq α] in
theorem Threaded.middle (h : Threaded next back of r p (xs ++ a :: ys)) :
    back a = lastOf of r xs ∧ next a = ys.head? := by
  induction xs generalizing r p with
  | nil => exact ⟨h.2.1, h.2.2.head⟩
  | cons x xs ih => exact ih h.2.2

/-- An element is taken out: the one before gets its next one, the one behind what it points
back to. -/
theorem Threaded.remove (h : Threaded next back of r p (xs ++ a :: ys))
    (hnext : ∀ q ∈ xs ++ ys, next' q = if xs.getLast? = some q then next a else next q)
    (hback : ∀ q ∈ xs ++ ys, back' q = if ys.head? = some q then back a else back q)
    (hnd : (xs ++ a :: ys).Nodup) :
    Threaded next' back' of r (if xs = [] then next a else p) (xs ++ ys) := by
  induction xs generalizing r p with
  | nil =>
    obtain ⟨_, ha, hys⟩ := h
    rw [if_pos rfl]
    cases ys with
    | nil => exact hys
    | cons y ys =>
      obtain ⟨hy, _, hys⟩ := hys
      have hsame : ∀ q ∈ y :: ys, next' q = next q := by
        intro q hq
        rw [hnext q hq, List.getLast?_nil, if_neg (Option.some_ne_none q).symm]
      refine ⟨hy, ?_, ?_⟩
      · exact (hback y List.mem_cons_self).trans ((if_pos rfl).trans ha)
      · rw [hsame y List.mem_cons_self]
        apply hys.congr
        intro q hq
        have hmem : q ∈ y :: ys := List.mem_cons_of_mem y hq
        have hne : (y :: ys).head? ≠ some q := fun he =>
          (List.nodup_cons.1 (List.nodup_cons.1 hnd).2).1 (Option.some.inj he ▸ hq)
        exact ⟨hsame q hmem, (hback q hmem).trans (if_neg hne)⟩
  | cons x xs ih =>
    obtain ⟨hp, hx, hxs⟩ := h
    rw [if_neg (List.cons_ne_nil x xs)]
    have hnd' : (xs ++ a :: ys).Nodup := (List.nodup_cons.1 hnd).2
    have hxmem : x ∉ xs ++ a :: ys := (List.nodup_cons.1 hnd).1
    have hxhead : ys.head? ≠ some x := fun he => by
      have hx : x ∈ ys := List.mem_of_head? he
      exact hxmem (List.mem_append_right xs (List.mem_cons_of_mem a hx))
    refine ⟨hp, ((hback x List.mem_cons_self).trans (if_neg hxhead)).trans hx, ?_⟩
    have hrest := ih hxs ?_ (fun q hq => hback q (List.mem_cons_of_mem x hq)) hnd'
    · have hnextx : next' x = if xs = [] then next a else next x := by
        rw [hnext x List.mem_cons_self]
        cases xs with
        | nil => rw [List.getLast?_singleton, if_pos rfl, if_pos rfl]
        | cons y xs =>
          have hlast : (x :: y :: xs).getLast? ≠ some x := fun he => by
            rw [List.getLast?_cons_cons] at he
            exact hxmem (List.mem_append_left _ (List.mem_of_getLast? he))
          rw [if_neg hlast, if_neg (List.cons_ne_nil y xs)]
      rw [hnextx]
      exact hrest
    · intro q hq
      rw [hnext q (List.mem_cons_of_mem x hq)]
      cases xs with
      | nil =>
        have hne : some x ≠ some q := fun he => by
          apply hxmem
          rw [Option.some.inj he]
          exact List.mem_cons_of_mem a hq
        rw [List.getLast?_singleton, if_neg hne, List.getLast?_nil,
          if_neg (Option.some_ne_none q).symm]
      | cons y xs => rw [List.getLast?_cons_cons]

/-- The loop that looks for an element of a list. It has no result when the list is longer than the
first number. -/
def findNode (same : α → Bool) (next : α → Option α) : Nat → Option α → Option (Option α)
  | _, none => some none
  | 0, some _ => none
  | n + 1, some node => if same node then some (some node) else findNode same next n (next node)

omit [DecidableEq α] in
theorem findNode_eq (same : α → Bool) (h : Threaded next back of r p ps) (hn : ps.length ≤ n) :
    findNode same next n p = some (ps.find? same) := by
  induction ps generalizing r p n with
  | nil =>
    cases h
    cases n <;> rfl
  | cons q ps ih =>
    obtain ⟨rfl, _, hps⟩ := h
    cases n with
    | zero => exact (Nat.not_succ_le_zero _ hn).elim
    | succ n =>
      rw [findNode, List.find?_cons]
      split
      case isTrue hsame => rw [hsame]
      case isFalse hsame =>
        rw [Bool.not_eq_true] at hsame
        rw [hsame]
        exact ih hps (Nat.le_of_succ_le_succ hn)

omit [DecidableEq α] in
theorem findNode_same {same : α → Bool} {next : α → Option α}
    (h : findNode same next n p = some (some node)) : same node = true := by
  induction n generalizing p with
  | zero => cases p <;> cases h
  | succ n ih =>
    cases p with
    | none => cases h
    | some q =>
      rw [findNode] at h
      split at h
      case isTrue hsame =>
        cases h
        exact hsame
      case isFalse => exact ih h

end Threads

end BigBox.Buckets
