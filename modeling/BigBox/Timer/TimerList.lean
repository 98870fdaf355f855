import BigBox.Lib.Dlist
import BigBox.Lib.TryRun

namespace BigBox.TimerList
open Dlist
set_option autoImplicit true

structure Timeval where
  sec : Int
  usec : Int

/-- The difference in milliseconds, as the `long` it is computed in. -/
def millis (t1 t2 : Timeval) : Int :=
  (t1.sec - t2.sec) * 1000 + (t1.usec - t2.usec).tdiv 1000

def tvDiff (t1 t2 : Timeval) : Int := (millis t1 t2).bmod 4294967296

/-- The difference of two times in microseconds. -/
def micros (t1 t2 : Timeval) : Int := (t1.sec - t2.sec) * 1000000 + (t1.usec - t2.usec)

/-- The fields of all `struct event_timeout`, and the links of the list head. -/
structure Timers (P : Type) where
  heads : P → ListHead P
  pending : P → Bool
  time : P → Timeval

section Calls
variable {P : Type} [DecidableEq P]

/-- An initialized list head. -/
def newTimers (head : P) (heads : P → ListHead P) (time : P → Timeval) : Timers P :=
  ⟨initListHead head heads, fun _ => false, time⟩

/-- The loop of `event_timeout_add`: the first timer that is due later, or the head. -/
def placeFor (head : P) (time : Timeval) (s : Timers P) : Nat → P → Option P
  | 0, _ => none
  | n + 1, p =>
    if p = head then some head
    else if 0 < tvDiff (s.time p) time then some p
    else (s.heads p).next.bind (placeFor head time s n)

def eventTimeoutAdd (n : Nat) (head t : P) (s : Timers P) : Option (Timers P × Int) :=
  if s.pending t then some (s, -1)
  else ((s.heads head).next.bind (placeFor head (s.time t) s n)).bind fun h =>
    (listAddTail t h s.heads).map fun heads =>
      ({ s with heads := heads, pending := Function.update s.pending t true }, 0)

def eventTimeoutCancel (t : P) (s : Timers P) : Option (Timers P × Int) :=
  if s.pending t then (listDel t s.heads).map fun heads =>
    ({ s with heads := heads, pending := Function.update s.pending t false }, 0)
  else some (s, -1)

/-- A callback that cancels timers. -/
def callback : List P → Timers P → Option (Timers P)
  | [], s => some s
  | t :: ts, s => (eventTimeoutCancel t s).bind fun r => callback ts r.1

/-- `event_process_timeouts`, with the timers that expire in it. -/
def eventProcessTimeouts (head : P) (now : Timeval) (cb : P → Option (List P)) :
    Nat → Timers P → Option (Timers P × List P)
  | 0, _ => none
  | n + 1, s => (s.heads head).next.bind fun t =>
    if t = head then some (s, [])
    else if 0 < tvDiff (s.time t) now then some (s, [])
    else (eventTimeoutCancel t s).bind fun r => (callback ((cb t).getD []) r.1).bind fun s =>
      (eventProcessTimeouts head now cb n s).map fun r => (r.1, t :: r.2)

/-- The calls of a client, which sets the time of a timer only when it is not pending. A callback
is given by the timers it cancels, if there is one. -/
inductive Call (P : Type) where
  | add (t : P) (time : Timeval)
  | cancel (t : P)
  | process (now : Timeval) (cb : P → Option (List P))

def Call.times : Call P → List Timeval
  | .add _ time => [time]
  | .cancel _ => []
  | .process now _ => [now]

/-- One call, with the timers that expire in it. -/
def timerStep (n : Nat) (head : P) (s : Timers P) : Call P → Option (Timers P × List P)
  | .add t time =>
    let s := if s.pending t then s else { s with time := Function.update s.time t time }
    (eventTimeoutAdd n head t s).map fun r => (r.1, [])
  | .cancel t => (eventTimeoutCancel t s).map fun r => (r.1, [])
  | .process now cb => eventProcessTimeouts head now cb n s

/-- The head is not a timer. -/
def Call.Valid (head : P) : Call P → Prop
  | .add t _ => t ≠ head
  | _ => True

/-- The timers in the list are those that are pending, each once, and none is due a millisecond
or more behind a later one. -/
structure Listed (head : P) (s : Timers P) (nodes : List P) : Prop where
  linked : ∃ n, walk (fun p => (s.heads p).next) head n head = some nodes
  once : ∀ t, nodes.count t = if s.pending t then 1 else 0
  ordered : nodes.Pairwise fun t u => micros (s.time t) (s.time u) < 1000

def WellFormed (head : P) (s : Timers P) : Prop := ∃ nodes, Listed head s nodes

/-- The timers that expire are due, and only what callbacks cancel is left out. -/
structure Processed (now : Timeval) (cb : P → Option (List P)) (s s' : Timers P)
    (expired : List P) : Prop where
  once : expired.Nodup
  pending : ∀ t ∈ expired, s.pending t
  due : ∀ t ∈ expired, micros (s.time t) now < 1000
  all : ∀ t, s.pending t → micros (s.time t) now ≤ -1000 →
    t ∈ expired ∨ ∃ u ∈ expired, t ∈ (cb u).getD []
  rest : ∀ t, s'.pending t ↔ s.pending t ∧ t ∉ expired ∧ ∀ u ∈ expired, t ∉ (cb u).getD []
  times : s'.time = s.time

/-- What a call does to the timers. -/
def Call.Serves (s : Timers P) (c : Call P) (s' : Timers P) (expired : List P) : Prop :=
  match c with
  | .add t time => (∀ u, s'.pending u ↔ s.pending u ∨ u = t) ∧
      s'.time = if s.pending t then s.time else Function.update s.time t time
  | .cancel t => (∀ u, s'.pending u ↔ s.pending u ∧ u ≠ t) ∧ s'.time = s.time
  | .process now cb => Processed now cb s s' expired

/-- Their difference in milliseconds is an `int`. -/
def Fits (a b : Timeval) : Prop := -2147483648 ≤ millis a b ∧ millis a b < 2147483648

instance (a b : Timeval) : Decidable (Fits a b) := inferInstanceAs (Decidable (_ ∧ _))

end Calls

open Dlist
set_option autoImplicit true

section Millis

theorem tvDiff_eq (h : Fits a b) : tvDiff a b = millis a b := by
  rw [tvDiff]
  apply Int.bmod_eq_of_le
  · exact h.1
  · exact h.2

theorem micros_split (a b : Timeval) :
    micros a b = 1000 * millis a b + (a.usec - b.usec).tmod 1000 := by
  have hsplit := Int.mul_tdiv_add_tmod (a.usec - b.usec) 1000
  rw [micros, millis]
  omega

/-- A difference that counts as later is one. -/
theorem micros_of_pos (h : 0 < millis a b) : 0 < micros a b := by
  have hmod : -1000 < (a.usec - b.usec).tmod 1000 := Int.lt_tmod_of_pos _ (by decide)
  rw [micros_split]
  omega

theorem micros_of_le (h : millis a b ≤ 0) : micros a b < 1000 := by
  have hmod : (a.usec - b.usec).tmod 1000 < 1000 := Int.tmod_lt_of_pos _ (by decide)
  rw [micros_split]
  omega

theorem micros_add (a b c : Timeval) : micros a b + micros b c = micros a c := by
  simp only [micros]
  omega

/-- A timer takes its place between those that are not due later and one that is. -/
theorem ordered_insert {P : Type} {t : P} {f : P → Timeval} {before rest : List P}
    (h : (before ++ rest).Pairwise fun t u => micros (f t) (f u) < 1000)
    (hbefore : ∀ u ∈ before, micros (f u) (f t) < 1000)
    (hafter : ∀ u ∈ rest.head?, 0 < micros (f u) (f t)) :
    (before ++ t :: rest).Pairwise fun t u => micros (f t) (f u) < 1000 := by
  obtain ⟨hb, hr, hbr⟩ := List.pairwise_append.1 h
  have hrest : ∀ u ∈ rest, micros (f t) (f u) < 1000 := by
    cases rest with
    | nil =>
      intro u hu
      cases hu
    | cons v rest =>
      have hv := hafter v rfl
      intro u hu
      rcases List.mem_cons.1 hu with rfl | hu
      · have hself := micros_add (f u) (f t) (f u)
        simp only [micros] at hself hv ⊢
        omega
      · have hvu := (List.pairwise_cons.1 hr).1 u hu
        have hadd := micros_add (f v) (f t) (f u)
        omega
  refine List.pairwise_append.2 ⟨hb, List.pairwise_cons.2 ⟨hrest, hr⟩, fun u hu w hw => ?_⟩
  rcases List.mem_cons.1 hw with rfl | hw
  · exact hbefore u hu
  · exact hbr u hu w hw

end Millis

section Lists
variable {P : Type} [DecidableEq P] {head t p : P} {s : Timers P} {nodes : List P}
  {times : List Timeval}

/-- The pending timers in order, with times of the run. -/
structure Holds (head : P) (times : List Timeval) (s : Timers P) (nodes : List P) : Prop where
  ring : Ring s.heads head nodes
  pending : ∀ t, s.pending t = true ↔ t ∈ nodes
  ordered : nodes.Pairwise fun t u => micros (s.time t) (s.time u) < 1000
  timed : ∀ t ∈ nodes, s.time t ∈ times

theorem Holds.listed (h : Holds head times s nodes) : Listed head s nodes := by
  refine ⟨⟨_, h.ring.forward (Nat.lt_succ_self _)⟩, fun t => ?_, h.ordered⟩
  have hnodup := (List.nodup_cons.1 h.ring.nodup).2
  by_cases ht : t ∈ nodes
  · rw [if_pos ((h.pending t).2 ht), List.count_eq_one_of_mem hnodup ht]
  · rw [if_neg (mt (h.pending t).1 ht), List.count_eq_zero_of_not_mem ht]

theorem newTimers_holds (head : P) (heads : P → ListHead P) (time : P → Timeval) :
    Holds head times (newTimers head heads time) [] := by
  refine ⟨⟨List.nodup_singleton head, List.isChain_pair.2 ⟨?_, ?_⟩⟩, ?_, .nil, ?_⟩
  · rw [newTimers, initListHead, setPrev_next, setNext_next, if_pos rfl]
  · rw [newTimers, initListHead, setPrev_prev, if_pos rfl]
  · intro t
    exact iff_of_false (fun h => by cases h) List.not_mem_nil
  · intro t ht
    cases ht

/-- The place of a time in the rest of a list. -/
theorem placeFor_split (time : Timeval) (front : List P) (h : Ring s.heads head (front ++ nodes))
    (hn : nodes.length < n)
    (hp : nodes ++ [head] = p :: back) :
    ∃ before rest q behind, nodes = before ++ rest ∧ rest ++ [head] = q :: behind ∧
      placeFor head time s n p = some q ∧ (∀ t ∈ before, tvDiff (s.time t) time ≤ 0) ∧
      ∀ t ∈ rest.head?, 0 < tvDiff (s.time t) time := by
  induction nodes generalizing n p front back with
  | nil =>
    cases hp
    obtain ⟨n, rfl⟩ := Nat.exists_eq_succ_of_ne_zero (Nat.ne_of_gt hn)
    refine ⟨[], [], head, [], rfl, rfl, if_pos rfl, ?_, ?_⟩
    · intro t ht
      cases ht
    · intro t ht
      cases ht
  | cons t nodes ih =>
    obtain ⟨rfl, rfl⟩ := List.cons.inj hp
    obtain ⟨n, rfl⟩ :=
      Nat.exists_eq_succ_of_ne_zero (Nat.ne_of_gt (Nat.lt_of_le_of_lt (Nat.zero_le _) hn))
    have hhead : t ≠ head := by
      rintro rfl
      exact (List.nodup_cons.1 h.nodup).1 (List.mem_append_right _ List.mem_cons_self)
    rw [placeFor, if_neg hhead]
    by_cases hlater : 0 < tvDiff (s.time t) time
    · refine ⟨[], t :: nodes, t, nodes ++ [head], rfl, rfl, if_pos hlater, ?_, ?_⟩
      · intro u hu
        cases hu
      · intro u hu
        cases hu
        exact hlater
    · obtain ⟨q, back, hq⟩ := exists_cons_concat nodes head
      have hnext : (s.heads t).next = some q := by
        apply h.next_eq
        rw [List.cons_append, List.append_assoc, List.cons_append, hq, ← List.cons_append]
      have hring : Ring s.heads head ((front ++ [t]) ++ nodes) := by
        rwa [List.append_assoc]
      obtain ⟨before, rest, q', behind, rfl, hrest, hplace, hbefore, hafter⟩ :=
        ih (front ++ [t]) hring (Nat.lt_of_succ_lt_succ hn) hq
      refine ⟨t :: before, rest, q', behind, rfl, hrest, ?_, ?_, hafter⟩
      · rw [if_neg hlater, hnext, Option.bind_some, hplace]
      · exact List.forall_mem_cons.2 ⟨Int.not_lt.1 hlater, hbefore⟩

theorem Holds.time_update (h : Holds head times s nodes) (ht : s.pending t = false)
    (time : Timeval) :
    Holds head times { s with time := Function.update s.time t time } nodes := by
  have hsame : ∀ u ∈ nodes, Function.update s.time t time u = s.time u := by
    intro u hu
    have hne : u ≠ t := by
      rintro rfl
      rw [(h.pending u).2 hu] at ht
      cases ht
    exact Function.update_of_ne hne ..
  refine ⟨h.ring, h.pending, h.ordered.imp_of_mem fun ht hu htu => ?_, fun u hu => ?_⟩
  · change micros (Function.update s.time t time _) (Function.update s.time t time _) < 1000
    rwa [hsame _ ht, hsame _ hu]
  · change Function.update s.time t time u ∈ times
    rw [hsame u hu]
    exact h.timed u hu

theorem Holds.add (h : Holds head times s nodes) (hfit : ∀ a ∈ times, ∀ b ∈ times, Fits a b)
    (hn : nodes.length < n) (ht : s.pending t = false) (hhead : t ≠ head)
    (htime : s.time t ∈ times) :
    ∃ s' nodes', eventTimeoutAdd n head t s = some (s', 0) ∧ Holds head times s' nodes' ∧
      nodes'.length = nodes.length + 1 ∧ s'.pending = Function.update s.pending t true ∧
      s'.time = s.time := by
  obtain ⟨p, back, hp⟩ := exists_cons_concat nodes head
  obtain ⟨before, rest, q, behind, rfl, hrest, hplace, hbefore, hafter⟩ :=
    placeFor_split (s.time t) [] h.ring hn hp
  have hfirst := h.ring.first_eq hp
  have hout : t ∉ before ++ rest := by
    intro hin
    rw [(h.pending t).2 hin] at ht
    cases ht
  have hnew : t ∉ head :: (before ++ rest) := by
    rw [List.mem_cons, not_or]
    exact ⟨hhead, hout⟩
  obtain ⟨heads, hadd, hring⟩ := h.ring.listAddTail hnew before q behind (before ++ t :: rest)
    (by rw [List.append_assoc, hrest]) (by rw [List.append_assoc, List.cons_append, hrest])
  refine ⟨{ s with heads := heads, pending := Function.update s.pending t true },
    before ++ t :: rest, ?_, ⟨hring, fun u => ?_, ?_, fun u hu => ?_⟩, ?_, rfl, rfl⟩
  · rw [eventTimeoutAdd, if_neg (by rw [ht]; decide), hfirst, Option.bind_some, hplace,
      Option.bind_some, hadd]
    rfl
  · change Function.update s.pending t true u = true ↔ _
    rw [List.mem_append, List.mem_cons, ← or_assoc, or_comm (b := u = t), or_assoc,
      ← List.mem_append]
    rcases eq_or_ne u t with rfl | hu
    · exact iff_of_true (Function.update_self ..) (.inl rfl)
    · rw [Function.update_of_ne hu, h.pending u]
      exact ⟨.inr, fun hin => hin.resolve_left hu⟩
  · refine ordered_insert h.ordered (fun u hu => ?_) fun u hu => ?_
    · have hle := hbefore u hu
      have hin := List.mem_append_left rest hu
      rw [tvDiff_eq (hfit _ (h.timed u hin) _ htime)] at hle
      exact micros_of_le hle
    · have hlt := hafter u hu
      have hin := List.mem_append_right before (List.mem_of_mem_head? hu)
      rw [tvDiff_eq (hfit _ (h.timed u hin) _ htime)] at hlt
      exact micros_of_pos hlt
  · rcases List.mem_append.1 hu with hu | hu
    · exact h.timed u (List.mem_append_left _ hu)
    · rcases List.mem_cons.1 hu with rfl | hu
      · exact htime
      · exact h.timed u (List.mem_append_right _ hu)
  · rw [List.length_append, List.length_append, List.length_cons]
    rfl

/-- A timer is cancelled, whether it is pending or not. -/
theorem Holds.cancel (h : Holds head times s nodes) (t : P) :
    ∃ s' out, eventTimeoutCancel t s = some (s', out) ∧
      Holds head times s' (nodes.filter (· ≠ t)) ∧ s'.time = s.time := by
  rw [eventTimeoutCancel]
  by_cases hp : s.pending t = true
  · obtain ⟨before, behind, rfl⟩ := List.append_of_mem ((h.pending t).1 hp)
    obtain ⟨heads, _, hdel, _, _, hring, _⟩ := h.ring.listDel
    have hfilter : (before ++ t :: behind).filter (· ≠ t) = before ++ behind := by
      have hnodup := List.nodup_middle.1 (List.nodup_cons.1 h.ring.nodup).2
      have hne : ∀ u ∈ before ++ behind, decide (u ≠ t) = true := by
        intro u hu
        rw [decide_eq_true_eq]
        rintro rfl
        exact (List.nodup_cons.1 hnodup).1 hu
      rw [List.filter_append, List.filter_cons_of_neg (by simp), ← List.filter_append,
        List.filter_eq_self.2 hne]
    rw [if_pos hp, hdel, hfilter]
    refine ⟨_, 0, rfl, ⟨hring, fun u => ?_, ?_, fun u hu => ?_⟩, rfl⟩
    · change Function.update s.pending t false u = true ↔ _
      rw [← hfilter, List.mem_filter, decide_eq_true_eq, ← h.pending u]
      rcases eq_or_ne u t with rfl | hu
      · rw [Function.update_self]
        exact iff_of_false (by decide) fun hin => hin.2 rfl
      · rw [Function.update_of_ne hu]
        exact ⟨fun hu' => ⟨hu', hu⟩, And.left⟩
    · rw [← hfilter]
      exact h.ordered.filter _
    · rw [← hfilter] at hu
      exact h.timed u (List.mem_of_mem_filter hu)
  · have hfilter : nodes.filter (· ≠ t) = nodes := by
      apply List.filter_eq_self.2
      intro u hu
      rw [decide_eq_true_eq]
      rintro rfl
      exact hp ((h.pending u).2 hu)
    rw [if_neg hp, hfilter]
    exact ⟨s, -1, rfl, h, rfl⟩

theorem Holds.callback (h : Holds head times s nodes) (ts : List P) :
    ∃ s', callback ts s = some s' ∧ Holds head times s' (nodes.filter (· ∉ ts)) ∧
      s'.time = s.time := by
  induction ts generalizing s nodes with
  | nil =>
    have hfilter : nodes.filter (· ∉ ([] : List P)) = nodes := by
      apply List.filter_eq_self.2
      intro u hu
      exact decide_eq_true List.not_mem_nil
    rw [hfilter]
    exact ⟨s, rfl, h, rfl⟩
  | cons t ts ih =>
    obtain ⟨s₁, out, hcancel, h₁, htime₁⟩ := h.cancel t
    obtain ⟨s', hrest, h', htime'⟩ := ih h₁
    have hfilter : (nodes.filter (· ≠ t)).filter (· ∉ ts) = nodes.filter (· ∉ t :: ts) := by
      rw [List.filter_filter]
      apply List.filter_congr
      intro u _
      rw [← Bool.decide_and]
      apply decide_eq_decide.2
      rw [List.mem_cons, not_or, and_comm]
    rw [hfilter] at h'
    refine ⟨s', ?_, h', htime'.trans htime₁⟩
    rw [TimerList.callback, hcancel, Option.bind_some, hrest]

omit [DecidableEq P] in
/-- Nothing is due early when the first timer is due later. -/
theorem Processed.nil {now : Timeval} {cb : P → Option (List P)}
    (hlate : ∀ t, s.pending t → -1000 < micros (s.time t) now) : Processed now cb s s [] := by
  refine ⟨.nil, ?_, ?_, fun t ht hdue => ?_, fun t => ?_, rfl⟩
  · intro t ht
    cases ht
  · intro t ht
    cases ht
  · exact (Int.not_lt.2 hdue (hlate t ht)).elim
  · refine ⟨fun ht => ⟨ht, List.not_mem_nil, fun u hu => ?_⟩, And.left⟩
    cases hu

/-- A timer expires before others. -/
theorem Processed.cons {now : Timeval} {cb : P → Option (List P)} {s₁ s' : Timers P}
    (hpending : ∀ u, s₁.pending u ↔ s.pending u ∧ u ≠ t ∧ u ∉ (cb t).getD [])
    (htime : s₁.time = s.time) (ht : s.pending t) (hdue : micros (s.time t) now < 1000)
    (h : Processed now cb s₁ s' expired) : Processed now cb s s' (t :: expired) := by
  refine ⟨?_, ?_, ?_, ?_, ?_, h.times.trans htime⟩
  · refine List.nodup_cons.2 ⟨fun hin => ?_, h.once⟩
    exact ((hpending t).1 (h.pending t hin)).2.1 rfl
  · exact List.forall_mem_cons.2 ⟨ht, fun u hu => ((hpending u).1 (h.pending u hu)).1⟩
  · refine List.forall_mem_cons.2 ⟨hdue, fun u hu => ?_⟩
    rw [← htime]
    exact h.due u hu
  · intro u hu hlate
    by_cases hut : u = t
    · exact .inl (hut ▸ List.mem_cons_self)
    · by_cases hcb : u ∈ (cb t).getD []
      · exact .inr ⟨t, List.mem_cons_self, hcb⟩
      · rw [← htime] at hlate
        rcases h.all u ((hpending u).2 ⟨hu, hut, hcb⟩) hlate with hin | ⟨v, hv, hcancel⟩
        · exact .inl (List.mem_cons_of_mem _ hin)
        · exact .inr ⟨v, List.mem_cons_of_mem _ hv, hcancel⟩
  · intro u
    rw [h.rest u, hpending u, List.mem_cons, not_or, List.forall_mem_cons]
    constructor
    · rintro ⟨⟨hu, hut, hcb⟩, hout, hcbs⟩
      exact ⟨hu, ⟨hut, hout⟩, hcb, hcbs⟩
    · rintro ⟨hu, ⟨hut, hout⟩, hcb, hcbs⟩
      exact ⟨⟨hu, hut, hcb⟩, hout, hcbs⟩

omit [DecidableEq P] in
theorem Holds.late (h : Holds head times s (t :: nodes)) (hlate : 0 < micros (s.time t) now)
    (hu : s.pending u) : -1000 < micros (s.time u) now := by
  rcases List.mem_cons.1 ((h.pending u).1 hu) with rfl | hu
  · exact Int.lt_trans (by decide) hlate
  · have hbefore := (List.pairwise_cons.1 h.ordered).1 u hu
    have hadd := micros_add (s.time t) (s.time u) now
    omega

theorem Holds.process (h : Holds head times s nodes)
    (hfit : ∀ a ∈ times, ∀ b ∈ times, Fits a b) (hn : nodes.length < n) (hnow : now ∈ times)
    (cb : P → Option (List P)) :
    ∃ s' expired nodes', eventProcessTimeouts head now cb n s = some (s', expired) ∧
      Holds head times s' nodes' ∧ nodes'.length ≤ nodes.length ∧
      Processed now cb s s' expired := by
  induction n generalizing s nodes with
  | zero => exact (Nat.not_lt_zero _ hn).elim
  | succ n ih =>
    rw [eventProcessTimeouts]
    cases nodes with
    | nil =>
      have hfirst : (s.heads head).next = some head := h.ring.first_eq rfl
      rw [hfirst, Option.bind_some, if_pos rfl]
      refine ⟨s, [], [], rfl, h, Nat.le_refl _, .nil fun t ht => ?_⟩
      cases (h.pending t).1 ht
    | cons t rest =>
      have hfirst : (s.heads head).next = some t := h.ring.first_eq rfl
      have hhead : t ≠ head := by
        rintro rfl
        exact (List.nodup_cons.1 h.ring.nodup).1 List.mem_cons_self
      have ht := (h.pending t).2 List.mem_cons_self
      have hfits := hfit _ (h.timed t List.mem_cons_self) _ hnow
      rw [hfirst, Option.bind_some, if_neg hhead, tvDiff_eq hfits]
      by_cases hlate : 0 < millis (s.time t) now
      · rw [if_pos hlate]
        exact ⟨s, [], t :: rest, rfl, h, Nat.le_refl _,
          .nil fun u hu => h.late (micros_of_pos hlate) hu⟩
      · obtain ⟨s₁, out, hcancel, h₁, htime₁⟩ := h.cancel t
        obtain ⟨s₂, hcallback, h₂, htime₂⟩ := h₁.callback ((cb t).getD [])
        have hlength : (((t :: rest).filter (· ≠ t)).filter (· ∉ (cb t).getD [])).length ≤
            rest.length := by
          rw [List.filter_cons_of_neg (by simp)]
          exact (List.filter_sublist.trans List.filter_sublist).length_le
        obtain ⟨s', expired, nodes', hrest, h', hlength', hprocessed⟩ :=
          ih h₂ (Nat.lt_of_le_of_lt hlength (Nat.lt_of_succ_lt_succ hn))
        rw [if_neg hlate, hcancel, Option.bind_some, hcallback, Option.bind_some, hrest]
        refine ⟨s', t :: expired, nodes', rfl, h', ?_, hprocessed.cons (fun u => ?_)
          (htime₂.trans htime₁) ht (micros_of_le (Int.not_lt.1 hlate))⟩
        · exact Nat.le_succ_of_le (Nat.le_trans hlength' hlength)
        · rw [h₂.pending u, List.mem_filter, List.mem_filter, ← h.pending u, decide_eq_true_eq,
            decide_eq_true_eq, and_assoc]

theorem timerStep_holds {n : Nat} {c : Call P} (h : Holds head times s nodes)
    (hfit : ∀ a ∈ times, ∀ b ∈ times, Fits a b) (hn : nodes.length < n) (hvalid : c.Valid head)
    (htimes : ∀ a ∈ c.times, a ∈ times) :
    ∃ s' expired nodes', timerStep n head s c = some (s', expired) ∧
      Holds head times s' nodes' ∧ nodes'.length ≤ nodes.length + 1 ∧ c.Serves s s' expired := by
  cases c with
  | add t time =>
    rw [timerStep]
    by_cases ht : s.pending t = true
    · simp only [if_pos ht, eventTimeoutAdd, Option.map_some]
      refine ⟨s, [], nodes, rfl, h, Nat.le_succ _, fun u => ?_, ?_⟩
      · refine ⟨.inl, ?_⟩
        rintro (hu | rfl)
        · exact hu
        · exact ht
      · rw [if_pos ht]
    · have hno := Bool.eq_false_iff.2 ht
      have htime : Function.update s.time t time t ∈ times := by
        rw [Function.update_self]
        exact htimes time (List.mem_singleton_self time)
      obtain ⟨s', nodes', hadd, h', hlength, hpending, htime'⟩ :=
        (h.time_update hno time).add hfit hn hno hvalid htime
      simp only [if_neg ht, hadd, Option.map_some]
      refine ⟨s', [], nodes', rfl, h', Nat.le_of_eq hlength, fun u => ?_, ?_⟩
      · rw [hpending]
        rcases eq_or_ne u t with rfl | hu
        · exact iff_of_true (Function.update_self ..) (.inr rfl)
        · rw [Function.update_of_ne hu]
          exact ⟨.inl, fun hin => hin.resolve_right hu⟩
      · rw [if_neg ht, htime']
  | cancel t =>
    obtain ⟨s', out, hcancel, h', htime⟩ := h.cancel t
    rw [timerStep, hcancel]
    refine ⟨s', [], _, rfl, h', ?_, fun u => ?_, htime⟩
    · exact Nat.le_succ_of_le List.filter_sublist.length_le
    · rw [h'.pending u, List.mem_filter, ← h.pending u, decide_eq_true_eq]
  | process now cb =>
    have hnow := htimes now (List.mem_singleton_self now)
    obtain ⟨s', expired, nodes', hrun, h', hlength, hprocessed⟩ := h.process hfit hn hnow cb
    exact ⟨s', expired, nodes', hrun, h', Nat.le_succ_of_le hlength, hprocessed⟩

/-- Throughout a run the list holds the pending timers in order of time, to a millisecond, and
timers expire when they are due, to a millisecond. -/
theorem timer_list_sustains (head : P) (heads : P → ListHead P) (time : P → Timeval)
    (cs : List (Call P)) (n : Nat) (hn : cs.length < n) (hvalid : ∀ c ∈ cs, c.Valid head)
    (hfit : ∀ a ∈ cs.flatMap Call.times, ∀ b ∈ cs.flatMap Call.times, Fits a b) :
    Sustains (timerStep n head) (WellFormed head) Call.Serves (newTimers head heads time) cs := by
  apply sustains_of_step
    (R := fun m s => ∃ nodes, Holds head (cs.flatMap Call.times) s nodes ∧ nodes.length + m < n)
  · rintro m s ⟨nodes, h, _⟩
    exact ⟨nodes, h.listed⟩
  · rintro m s c ⟨nodes, h, hm⟩ hc
    have htimes : ∀ a ∈ c.times, a ∈ cs.flatMap Call.times :=
      fun a ha => List.mem_flatMap.2 ⟨c, hc, ha⟩
    obtain ⟨s', expired, nodes', hstep, h', hlength, hserves⟩ :=
      timerStep_holds h hfit (Nat.lt_of_le_of_lt (Nat.le_add_right _ _) hm) (hvalid c hc) htimes
    exact ⟨s', expired, hstep, hserves, nodes', h', by omega⟩
  · exact ⟨[], newTimers_holds head heads time, by rwa [List.length_nil, Nat.zero_add]⟩
  · exact fun c hc => hc

end Lists

section Witness

/-- Two timers, at addresses 1 and 2, of a list with its head at address 0. -/
def twoTimers : List (Call Nat) :=
  [.add 1 ⟨5, 0⟩, .add 2 ⟨4, 999500⟩, .process ⟨6, 0⟩ fun t => if t = 1 then some [2] else none]

theorem timer_list_sustains_two :
    Sustains (timerStep 4 0) (WellFormed 0) Call.Serves
      (newTimers 0 (fun _ => ⟨none, none⟩) fun _ => ⟨0, 0⟩) twoTimers := by
  apply timer_list_sustains 0 _ _ twoTimers 4 (by decide)
  · intro c hc
    rcases List.mem_cons.1 hc with rfl | hc
    · exact (by decide : 1 ≠ 0)
    · rcases List.mem_cons.1 hc with rfl | hc
      · exact (by decide : 2 ≠ 0)
      · rw [List.mem_singleton.1 hc]
        trivial
  · decide

end Witness

end BigBox.TimerList
