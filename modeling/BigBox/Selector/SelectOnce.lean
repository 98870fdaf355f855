import BigBox.Selector.HeapRuns

namespace BigBox.Selector
open RedBlack (Side)
set_option autoImplicit true

/-- `selector_t` with the timers whose `in_heap` is set. It owns all of them. -/
structure SelectorT where
  heap : Heap
  inHeap : Finset Ptr

def EBUSY : Int := 16

def ETIMEDOUT : Int := 110

/-- A bound on the rounds of every loop over the heap. -/
def SelectorT.rounds (sel : SelectorT) : Nat := sel.inHeap.card + 1

/-- A new selector among timers with any fields. -/
def selAllocSelector (timers : Heap) : SelectorT := ⟨{ timers with top := none, last := none }, ∅⟩

def timevalOfMs (timeoutMs : Nat) : Timeval := ⟨timeoutMs / 1000, timeoutMs % 1000 * 1000⟩

def Heap.setTimeout (s : Heap) (timer : Ptr) (timeout : Timeval) : Heap :=
  { s with timeout := Function.update s.timeout timer timeout }

def selStartTimer (sel : SelectorT) (timer : Ptr) (timeoutMs : Nat) : Option (SelectorT × Int) :=
  if timer ∈ sel.inHeap then some (sel, EBUSY)
  else
    (Heap.addToHeap sel.rounds (sel.heap.setTimeout timer (timevalOfMs timeoutMs)) timer).map
      fun heap => (⟨heap, insert timer sel.inHeap⟩, 0)

/-- `timer->sel` is read as `timer->sel_owner`. -/
def selStopTimer (sel : SelectorT) (timer : Ptr) : Option (SelectorT × Int) :=
  if timer ∉ sel.inHeap then some (sel, ETIMEDOUT)
  else (sel.heap.removeFromHeap sel.rounds timer).map fun heap =>
    (⟨heap, sel.inHeap.erase timer⟩, 0)

/-- A clock of microseconds. -/
def gettimeofday (now : Nat) : Timeval := ⟨now / 1000000, now % 1000000⟩

/-- The test of the loop in `sel_select_once` and its body up to the call of a handler, with the
timer whose handler is called. -/
def selectRound (sel : SelectorT) (now : Timeval) : Option (SelectorT × Option Ptr) :=
  match sel.heap.top with
  | none => some (sel, none)
  | some timer =>
    if 0 ≤ cmpTimeval now (sel.heap.timeout timer) then
      (sel.heap.removeFromHeap sel.rounds timer).map fun heap =>
        (⟨heap, sel.inHeap.erase timer⟩, some timer)
    else some (sel, none)

/-- A run of calls of `sel_select_once` is made of its rounds, of time that passes, and of what
handlers and the program do in between. -/
inductive Event where
  | tick (us : Nat)
  | start (timer : Ptr) (timeoutMs : Nat)
  | stop (timer : Ptr)
  | round

inductive Output where
  | returned (ret : Int)
  | invoked (timer : Option Ptr)
  deriving DecidableEq

/-- The selector and the clock. `pending` is no part of the program: it holds when each timer was
started that has not been stopped or invoked since, and its delay in milliseconds. -/
structure World where
  sel : SelectorT
  now : Nat
  pending : Ptr → Option (Nat × Nat)

def World.step (w : World) : Event → Option (World × Output)
  | .tick us => some ({ w with now := w.now + us }, .invoked none)
  | .start timer timeoutMs => (selStartTimer w.sel timer timeoutMs).map fun (sel, ret) =>
    let pending := if ret = 0 then Function.update w.pending timer (some (w.now, timeoutMs))
      else w.pending
    ({ w with sel, pending }, .returned ret)
  | .stop timer => (selStopTimer w.sel timer).map fun (sel, ret) =>
    let pending := if ret = 0 then Function.update w.pending timer none else w.pending
    ({ w with sel, pending }, .returned ret)
  | .round => (selectRound w.sel (gettimeofday w.now)).map fun (sel, invoked) =>
    let pending := match invoked with
      | some timer => Function.update w.pending timer none
      | none => w.pending
    ({ w with sel, pending }, .invoked invoked)

/-- Started, and not stopped or invoked since, with its delay over. -/
def World.Due (w : World) (timer : Ptr) : Prop :=
  ∃ t₀ ms, w.pending timer = some (t₀, ms) ∧ t₀ + 1000 * ms ≤ w.now

/-- A timer is started unless it is pending, stopped if it is, and invoked when it is due. -/
def World.Allows (w : World) : Event → Output → Prop
  | .tick _, _ => True
  | .start timer _, out => out = .returned (if (w.pending timer).isSome then EBUSY else 0)
  | .stop timer, out => out = .returned (if (w.pending timer).isSome then 0 else ETIMEDOUT)
  | .round, out => ∃ invoked, out = .invoked invoked ∧ ∀ timer, invoked = some timer → w.Due timer

/-- A step with a result that is allowed. -/
def World.Serves (w : World) (e : Event) : Prop :=
  ∃ w' out, w.step e = some (w', out) ∧ w.Allows e out

/-- When a round finds a clock that has reached the bare delay of the timer on top, it has reached
the time at which the timer is due. -/
def World.Ready (w : World) : Event → Prop
  | .round => ∀ timer t₀ ms, w.sel.heap.top = some timer → w.pending timer = some (t₀, ms) →
    1000 * ms ≤ w.now → t₀ + 1000 * ms ≤ w.now
  | _ => True

theorem le_gettimeofday (now ms : Nat) :
    0 ≤ cmpTimeval (gettimeofday now) (timevalOfMs ms) ↔ 1000 * ms ≤ now := by
  rw [cmpTimeval, gettimeofday, timevalOfMs]
  dsimp only
  split
  case isTrue => omega
  case isFalse =>
    split
    case isTrue => omega
    case isFalse =>
      split
      case isTrue => omega
      case isFalse =>
        split
        case isTrue => omega
        case isFalse => omega

section Timeout
variable {s s' : Heap}

theorem swapUp_timeout (s : Heap) (elem parent : Ptr) :
    (s.swapUp elem parent).timeout = s.timeout := by
  simp only [Heap.swapUp, moveLast_timeout, setUpOf_timeout, setChild_timeout, setUp_timeout,
    replaceChild_timeout]

theorem swapDown_timeout (s : Heap) (elem other : Ptr) (d : Side) :
    (s.swapDown elem other d).timeout = s.timeout := by
  simp only [Heap.swapDown, moveLast_timeout, setUpOf_timeout, setChild_timeout, setUp_timeout,
    replaceChild_timeout]

theorem sendUp_timeout (h : Heap.sendUp elem fuel s = some s') : s'.timeout = s.timeout := by
  induction fuel generalizing s with
  | zero => cases h
  | succ fuel ih =>
    rw [Heap.sendUp] at h
    split at h
    · split at h
      · exact (ih h).trans (swapUp_timeout ..)
      · cases h
        rfl
    · cases h
      rfl

theorem sendDown_timeout (h : Heap.sendDown elem fuel s = some s') : s'.timeout = s.timeout := by
  induction fuel generalizing s with
  | zero => cases h
  | succ fuel ih =>
    rw [Heap.sendDown] at h
    split at h
    · cases h
      rfl
    · split at h
      · split at h
        · exact (ih h).trans (swapDown_timeout ..)
        · cases h
          rfl
      · split at h
        · exact (ih h).trans (swapDown_timeout ..)
        · cases h
          rfl

theorem addToHeap_timeout (h : Heap.addToHeap fuel s elem = some s') : s'.timeout = s.timeout := by
  rw [addToHeap_eq] at h
  split at h
  · cases h
    rfl
  · obtain ⟨last, _, h⟩ := Option.bind_eq_some_iff.1 h
    obtain ⟨place, _, h⟩ := Option.bind_eq_some_iff.1 h
    split at h
    · exact (sendUp_timeout h).trans rfl
    · cases h
      rfl

theorem propagate_timeout (h : s.propagate fuel elem = some s') : s'.timeout = s.timeout := by
  rw [Heap.propagate] at h
  split at h
  · exact sendUp_timeout h
  · exact sendDown_timeout h

theorem removeFromHeap_timeout (h : s.removeFromHeap fuel elem = some s') :
    s'.timeout = s.timeout := by
  obtain ⟨x, hlast, hrest⟩ := Option.bind_eq_some_iff.1 h
  cases hup : s.up x with
  | none =>
    rw [hup] at hrest
    cases hrest
    rfl
  | some u =>
    rw [hup] at hrest
    obtain ⟨prev, hprev, _⟩ := Option.bind_eq_some_iff.1 hrest
    rw [removeFromHeap_eq hlast hup hprev] at h
    split at h
    · cases h
      exact cut_timeout ..
    · exact ((propagate_timeout h).trans (insertAt_timeout ..)).trans (cut_timeout ..)

end Timeout

/-- The timers in the heap are those that are pending, each with its bare delay. -/
structure World.Tracks (w : World) : Prop where
  stores : w.sel.heap.Stores (w.sel.inHeap.card + 1) w.sel.inHeap
  mem_iff : ∀ timer, timer ∈ w.sel.inHeap ↔ w.pending timer ≠ none
  timeout : ∀ timer t₀ ms, w.pending timer = some (t₀, ms) →
    w.sel.heap.timeout timer = timevalOfMs ms

section Steps
variable {w w' : World}

theorem World.Tracks.start (h : w.Tracks) (timer : Ptr) (timeoutMs : Nat) :
    ∃ w', w.step (.start timer timeoutMs) =
      some (w', .returned (if (w.pending timer).isSome then EBUSY else 0)) ∧ w'.Tracks := by
  rw [step, selStartTimer]
  by_cases hmem : timer ∈ w.sel.inHeap
  · have hsome : (w.pending timer).isSome = true :=
      Option.isSome_iff_ne_none.2 ((h.mem_iff timer).1 hmem)
    rw [if_pos hmem, if_pos hsome]
    exact ⟨w, rfl, h⟩
  · have hnone : w.pending timer = none := Classical.not_not.1 (mt (h.mem_iff timer).2 hmem)
    obtain ⟨heap, hheap, hstores⟩ : ∃ heap, Heap.addToHeap w.sel.rounds
        (w.sel.heap.setTimeout timer (timevalOfMs timeoutMs)) timer = some heap ∧
          heap.Stores (w.sel.inHeap.card + 1 + 1) (insert timer w.sel.inHeap) :=
      h.stores.add hmem (Nat.le_refl _) (timevalOfMs timeoutMs)
    have htimeout := addToHeap_timeout hheap
    rw [← Finset.card_insert_of_notMem hmem] at hstores
    rw [if_neg hmem, hheap, hnone]
    refine ⟨_, rfl, hstores, fun t => ?_, fun t t₀ ms ht => ?_⟩
    · dsimp only
      rw [if_pos rfl, Finset.mem_insert]
      by_cases heq : t = timer
      · subst heq
        rw [Function.update_self]
        exact iff_of_true (.inl rfl) (Option.some_ne_none _)
      · rw [Function.update_of_ne heq, or_iff_right heq]
        exact h.mem_iff t
    · change heap.timeout t = _
      rw [htimeout]
      dsimp only at ht
      rw [if_pos rfl] at ht
      by_cases heq : t = timer
      · subst heq
        rw [Function.update_self] at ht
        cases ht
        exact Function.update_self ..
      · rw [Function.update_of_ne heq] at ht
        exact (Function.update_of_ne heq ..).trans (h.timeout t t₀ ms ht)

/-- A pending timer that leaves the heap. -/
theorem World.Tracks.remove (h : w.Tracks) (hmem : timer ∈ w.sel.inHeap) :
    ∃ heap, w.sel.heap.removeFromHeap w.sel.rounds timer = some heap ∧
      World.Tracks ⟨⟨heap, w.sel.inHeap.erase timer⟩, w.now,
        Function.update w.pending timer none⟩ := by
  obtain ⟨heap, hheap, hstores⟩ := h.stores.remove hmem (Nat.le_succ (w.sel.inHeap.card + 1))
  have htimeout := removeFromHeap_timeout hheap
  have hcard := Finset.card_erase_add_one hmem
  rw [Nat.add_sub_cancel, ← hcard] at hstores
  refine ⟨heap, hheap, hstores, fun t => ?_, fun t t₀ ms ht => ?_⟩
  · dsimp only
    rw [Finset.mem_erase]
    by_cases heq : t = timer
    · rw [heq, Function.update_self]
      exact iff_of_false (fun ht => ht.1 rfl) fun hne => hne rfl
    · rw [Function.update_of_ne heq, and_iff_right heq]
      exact h.mem_iff t
  · dsimp only at ht
    have heq : t ≠ timer := by
      intro heq
      rw [heq, Function.update_self] at ht
      cases ht
    rw [Function.update_of_ne heq] at ht
    exact (congrFun htimeout t).trans (h.timeout t t₀ ms ht)

theorem World.Tracks.stop (h : w.Tracks) (timer : Ptr) :
    ∃ w', w.step (.stop timer) =
      some (w', .returned (if (w.pending timer).isSome then 0 else ETIMEDOUT)) ∧ w'.Tracks := by
  rw [step, selStopTimer]
  by_cases hmem : timer ∈ w.sel.inHeap
  · have hsome : (w.pending timer).isSome = true :=
      Option.isSome_iff_ne_none.2 ((h.mem_iff timer).1 hmem)
    obtain ⟨heap, hheap, htracks⟩ := h.remove hmem
    rw [if_neg (not_not.2 hmem), hheap, if_pos hsome]
    exact ⟨_, rfl, htracks⟩
  · have hnone : w.pending timer = none := Classical.not_not.1 (mt (h.mem_iff timer).2 hmem)
    rw [if_pos hmem, hnone]
    exact ⟨w, rfl, h⟩

/-- A round invokes the handler of the timer on top once the clock has reached its bare delay. -/
theorem World.Tracks.round (h : w.Tracks) :
    ∃ w' invoked, w.step .round = some (w', .invoked invoked) ∧ w'.Tracks ∧
      ∀ timer, invoked = some timer ↔ w.sel.heap.top = some timer ∧
        ∃ t₀ ms, w.pending timer = some (t₀, ms) ∧ 1000 * ms ≤ w.now := by
  rw [step, selectRound]
  cases htop : w.sel.heap.top with
  | none => exact ⟨w, none, rfl, h, fun timer => iff_of_false nofun nofun⟩
  | some timer =>
    have hmem := (h.stores.holds.earliest timer htop).1
    obtain ⟨⟨t₀, ms⟩, hpending⟩ := Option.ne_none_iff_exists'.1 ((h.mem_iff timer).1 hmem)
    dsimp only
    rw [h.timeout timer t₀ ms hpending]
    by_cases hle : 1000 * ms ≤ w.now
    · obtain ⟨heap, hheap, htracks⟩ := h.remove hmem
      rw [if_pos ((le_gettimeofday _ _).2 hle), hheap]
      refine ⟨_, some timer, rfl, htracks, fun t => ?_⟩
      rw [Option.some_inj]
      exact ⟨fun ht => ⟨ht, t₀, ms, ht ▸ hpending, hle⟩, fun ht => ht.1⟩
    · rw [if_neg fun hcmp => hle ((le_gettimeofday _ _).1 hcmp)]
      refine ⟨w, none, rfl, h, fun t => iff_of_false nofun ?_⟩
      rintro ⟨ht, t₁, ms₁, hpending₁, hle₁⟩
      cases ht
      cases hpending.symm.trans hpending₁
      exact hle hle₁

theorem World.Tracks.step (h : w.Tracks) (e : Event) :
    ∃ w' out, w.step e = some (w', out) ∧ w'.Tracks ∧ (w.Allows e out ↔ w.Ready e) := by
  cases e with
  | tick us =>
    exact ⟨_, _, rfl, ⟨h.stores, h.mem_iff, h.timeout⟩, Iff.rfl⟩
  | start timer timeoutMs =>
    obtain ⟨w', hstep, htracks⟩ := h.start timer timeoutMs
    exact ⟨w', _, hstep, htracks, iff_of_true rfl trivial⟩
  | stop timer =>
    obtain ⟨w', hstep, htracks⟩ := h.stop timer
    exact ⟨w', _, hstep, htracks, iff_of_true rfl trivial⟩
  | round =>
    obtain ⟨w', invoked, hstep, htracks, hinvoked⟩ := h.round
    refine ⟨w', _, hstep, htracks, ?_⟩
    constructor
    · rintro ⟨_, he, hdue⟩ timer t₀ ms htop hpending hle
      cases he
      obtain ⟨t₁, ms₁, hpending₁, hle₁⟩ :=
        hdue timer ((hinvoked timer).2 ⟨htop, t₀, ms, hpending, hle⟩)
      cases hpending.symm.trans hpending₁
      exact hle₁
    · intro hready
      refine ⟨invoked, rfl, fun timer ht => ?_⟩
      obtain ⟨htop, t₀, ms, hpending, hle⟩ := (hinvoked timer).1 ht
      exact ⟨t₀, ms, hpending, hready timer t₀ ms htop hpending hle⟩

theorem World.Tracks.serves_iff_ready (h : w.Tracks) (e : Event) : w.Serves e ↔ w.Ready e := by
  obtain ⟨w', out, hstep, _, hallows⟩ := h.step e
  rw [← hallows]
  constructor
  · rintro ⟨w₁, out₁, hstep₁, hallows₁⟩
    cases hstep.symm.trans hstep₁
    exact hallows₁
  · exact fun hallows => ⟨w', out, hstep, hallows⟩

end Steps

/-- A new selector at some time. -/
def selWorld (timers : Heap) (now : Nat) : World := ⟨selAllocSelector timers, now, fun _ => none⟩

theorem selWorld_tracks (timers : Heap) (now : Nat) : (selWorld timers now).Tracks where
  stores := stores_empty rfl rfl
  mem_iff _ := iff_of_false (Finset.notMem_empty _) fun hne => hne rfl
  timeout _ _ _ h := nomatch h

/-- In every run of a new selector the starts, the stops and the handlers are as specified exactly
when no round finds a clock that has reached the bare delay of the timer on top and not the time
at which it is due. -/
theorem punctual_iff (timers : Heap) (now : Nat) (events : List Event) :
    Admits World.step World.Serves (selWorld timers now) events ↔
      Admits World.step World.Ready (selWorld timers now) events := by
  have hall : Admits World.step (fun _ _ => True) (selWorld timers now) events :=
    admits_of_forall _ fun _ _ => trivial
  apply admits_iff _ _ (selWorld_tracks timers now) hall
  · intro w e w' out htracks hstep
    obtain ⟨w₁, out₁, hstep₁, htracks₁, _⟩ := htracks.step e
    cases hstep₁.symm.trans hstep
    exact htracks₁
  · exact fun w e htracks _ => htracks.serves_iff_ready e

section Witness

def zeroTimers : Heap := ⟨fun _ => ⟨0, 0⟩, fun _ _ => none, fun _ => none, none, none⟩

/-- Five seconds after the epoch a timer is started for three seconds more. -/
theorem not_punctual : ¬ Admits World.step World.Serves (selWorld zeroTimers 5000000)
    [.start 1 3000, .round] := by
  rintro ⟨⟨w₁, out₁, hstart, _⟩, hrest⟩
  obtain ⟨⟨w₂, out₂, hround, hallows⟩, _⟩ := hrest w₁ out₁ hstart
  have hrun : (((selWorld zeroTimers 5000000).step (.start 1 3000)).bind fun r =>
      (r.1.step .round).map fun r' => (r.1.pending 1, r.1.now, r'.2)) =
      some (some (5000000, 3000), 5000000, .invoked (some 1)) := by decide +kernel
  rw [hstart, Option.bind_some, hround, Option.map_some, Option.some_inj] at hrun
  obtain ⟨hpending, hrest⟩ := Prod.mk.inj hrun
  obtain ⟨hnow, hout⟩ := Prod.mk.inj hrest
  obtain ⟨invoked, he, hdue⟩ := hallows
  obtain ⟨t₀, ms, hpending₁, hle⟩ := hdue 1 (Output.invoked.inj (he.symm.trans hout))
  rw [hpending] at hpending₁
  cases hpending₁
  rw [hnow] at hle
  exact absurd hle (by decide)

end Witness

end BigBox.Selector
