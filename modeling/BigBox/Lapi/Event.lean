import Mathlib.Data.List.Forall2
import Mathlib.Data.List.Nodup
import BigBox.Lib.Epoll
import BigBox.Lib.TryRun

namespace BigBox.Lapi.Event
set_option autoImplicit true

def eventRead : UInt32 := 1
def eventWrite : UInt32 := 2
def eventError : UInt32 := 4

/-- The address of an `fd_event_t`. -/
abbrev HFdEvent := Nat

/-- `fd_event_t`. A callback stands for a function with its `priv_data`. -/
structure FdEvent (F : Type) where
  func : Option F
  fd : Int
  flags : UInt32
  registered : Bool
  events : UInt32

/-- `epoll_t` with the events there are, and what the kernel has for each file descriptor. -/
structure Epoll (F : Type) where
  event : HFdEvent → FdEvent F
  kernel : EpollSet
  stopped : Bool
  listenMax : Nat
  queue : Nat → Option HFdEvent

section Api
variable {F : Type}

def eventLoopInit (event : HFdEvent → FdEvent F) (max : Nat) : Epoll F :=
  ⟨event, fun _ => none, false, max, fun _ => none⟩

def Epoll.ctl (op : EpollOp) (fd : Int) (event : EpollEvent) (e : Epoll F) : Epoll F × Int :=
  let r := epollCtl op fd event e.kernel
  ({ e with kernel := r.1 }, r.2)

def Epoll.setEvent (ev : HFdEvent) (event : FdEvent F) (e : Epoll F) : Epoll F :=
  { e with event := Function.update e.event ev event }

/-- The statement `ev->events |= events`. -/
def Epoll.orEvents (ev : HFdEvent) (events : UInt32) (e : Epoll F) : Epoll F :=
  e.setEvent ev { e.event ev with events := (e.event ev).events ||| events }

def fdEventSetfunc (ev : HFdEvent) (func : Option F) (e : Epoll F) : Epoll F × Int :=
  (e.setEvent ev { e.event ev with func }, 0)

/-- What `fd_event_add` asks the kernel for. -/
def listenEvents (flags : UInt32) : UInt32 :=
  (if flags &&& eventRead ≠ 0 then epollIn ||| epollRdHup else 0) |||
    (if flags &&& eventWrite ≠ 0 then epollOut else 0)

def fdEventAdd (ev : HFdEvent) (e : Epoll F) : Epoll F × Int :=
  if (e.event ev).registered then (e, -1)
  else
    let r := e.ctl .add (e.event ev).fd ⟨listenEvents (e.event ev).flags, some ev⟩
    if r.2 < 0 then (r.1, -1)
    else (r.1.setEvent ev { r.1.event ev with registered := true }, 0)

def fdEventDel (ev : HFdEvent) (e : Epoll F) : Epoll F × Int :=
  if (e.event ev).registered then e.ctl .del (e.event ev).fd ⟨0, none⟩ else (e, -1)

def eventLoopCancel (e : Epoll F) : Epoll F := { e with stopped := true }

/-- The calls that a callback may make. -/
inductive ApiCall (F : Type) where
  | setfunc (ev : HFdEvent) (func : Option F)
  | add (ev : HFdEvent)
  | del (ev : HFdEvent)
  | cancel

def Epoll.call (e : Epoll F) : ApiCall F → Epoll F
  | .setfunc ev func => (fdEventSetfunc ev func e).1
  | .add ev => (fdEventAdd ev e).1
  | .del ev => (fdEventDel ev e).1
  | .cancel => eventLoopCancel e

def Epoll.perform (calls : List (ApiCall F)) (e : Epoll F) : Epoll F := calls.foldl Epoll.call e

end Api

section Loop
variable {F : Type}

/-- What the loop over the events of a wake-up does with an event that is in the queue. -/
def Epoll.mark (event : EpollEvent) (cur : HFdEvent) (e : Epoll F) : Epoll F :=
  let e := if event.events &&& (epollErr ||| epollHup) ≠ 0 then
    (fdEventDel cur e).1.orEvents cur eventError else e
  let e := if event.events &&& epollIn ≠ 0 then
    ((e.orEvents cur eventRead).ctl .mod (e.event cur).fd ⟨epollOut, some cur⟩).1 else e
  if event.events &&& epollOut ≠ 0 then
    ((e.orEvents cur eventWrite).ctl .mod (e.event cur).fd ⟨epollIn, some cur⟩).1 else e

/-- The loop over the events of a wake-up. -/
def fill (qIndex : Nat) : List EpollEvent → Epoll F → Epoll F
  | [], e => e
  | event :: events, e =>
    match event.ptr with
    | none => fill qIndex events e
    | some cur =>
      fill (qIndex + 1) events
        (Epoll.mark event cur { e with queue := Function.update e.queue qIndex (some cur) })

/-- What a callback does: the calls it makes. -/
abbrev Callback (F : Type) := F → HFdEvent → Epoll F → List (ApiCall F)

/-- The loop over the queue. Its index stays where it is. The second result are the events that
are called. -/
def dispatch (callback : Callback F) (qIndex : Nat) : Nat → Epoll F → Epoll F × List HFdEvent
  | 0, e => (e, [])
  | nfds + 1, e =>
    match e.queue qIndex with
    | none => dispatch callback qIndex nfds e
    | some cur =>
      match (e.event cur).func with
      | none => dispatch callback qIndex nfds e
      | some f =>
        let r := dispatch callback qIndex nfds (e.perform (callback f cur e))
        (r.1, cur :: r.2)

/-- The calls that the callbacks of timeouts make before `epoll_wait`, and what it answers. -/
structure Wakeup (F : Type) where
  timeouts : List (ApiCall F)
  events : List EpollEvent

/-- The state of `event_loop_run` at the head of its loop. -/
structure Loop (F : Type) where
  epoll : Epoll F
  qIndex : Nat

/-- The loop from its head to its head. -/
def Loop.round (callback : Callback F) (l : Loop F) (w : Wakeup F) : Loop F × List HFdEvent :=
  let e := l.epoll.perform w.timeouts
  if w.events = [] then (⟨e, l.qIndex⟩, [])
  else
    let r := dispatch callback 0 w.events.length (fill l.qIndex w.events e)
    (⟨r.1, 0⟩, r.2)

def Loop.step (callback : Callback F) (l : Loop F) (w : Wakeup F) :
    Option (Loop F × List HFdEvent) := some (l.round callback w)

/-- The loop waits, and the kernel answers with what it has for different descriptors. -/
def Wakeup.Valid (l : Loop F) (w : Wakeup F) : Prop :=
  l.epoll.stopped = false ∧ (l.epoll.perform w.timeouts).stopped = false ∧
    w.events.length ≤ l.epoll.listenMax ∧
    ∃ fds : List Int, fds.Nodup ∧ List.Forall₂ (fun fd event => ∃ registered,
      (l.epoll.perform w.timeouts).kernel fd = some registered ∧ event.ptr = registered.ptr)
      fds w.events

/-- Every ready event with a callback is called once. -/
def Wakeup.Dispatched (callback : Callback F) (l : Loop F) (w : Wakeup F) : Prop :=
  ∀ event ∈ w.events, ∀ ev, event.ptr = some ev →
    ((l.epoll.perform w.timeouts).event ev).func ≠ none →
      (l.round callback w).2.count ev = 1

/-- There is one ready event at most, or only the first one has a callback and its callback takes
itself away. -/
def Wakeup.Ok (callback : Callback F) (l : Loop F) (w : Wakeup F) : Prop :=
  let e := l.epoll.perform w.timeouts
  match w.events with
  | [] => True
  | [_] => True
  | x :: xs =>
    (∀ event ∈ xs, ∀ ev, event.ptr = some ev → (e.event ev).func = none) ∧
      ∀ ev f, x.ptr = some ev → (e.event ev).func = some f →
        let e' := fill l.qIndex (x :: xs) e
        ((e'.perform (callback f ev e')).event ev).func = none

end Loop

attribute [local simp] fill dispatch Loop.round Wakeup.Ok fdEventAdd fdEventDel

section Calls
variable {F : Type} {e e' : Epoll F}

/-- What the kernel has for a descriptor points to its event. -/
def Epoll.Owned (e : Epoll F) : Prop :=
  ∀ fd registered, e.kernel fd = some registered →
    ∃ ev, registered.ptr = some ev ∧ (e.event ev).fd = fd

/-- Steps that leave the descriptors of events and the queue as they are. -/
structure Epoll.Keeps (e e' : Epoll F) : Prop where
  owned : e.Owned → e'.Owned
  fd : ∀ ev, (e'.event ev).fd = (e.event ev).fd
  same : e'.queue = e.queue

theorem Epoll.Keeps.refl (e : Epoll F) : e.Keeps e := ⟨id, fun _ => rfl, rfl⟩

theorem Epoll.Keeps.trans {e'' : Epoll F} (h : e.Keeps e') (h' : e'.Keeps e'') : e.Keeps e'' :=
  ⟨fun ho => h'.owned (h.owned ho), fun ev => (h'.fd ev).trans (h.fd ev), h'.same.trans h.same⟩

/-- Steps that also leave the callbacks as they are. -/
structure Epoll.Marks (e e' : Epoll F) : Prop extends Epoll.Keeps e e' where
  func : ∀ ev, (e'.event ev).func = (e.event ev).func

theorem Epoll.Marks.refl (e : Epoll F) : e.Marks e := ⟨.refl e, fun _ => rfl⟩

theorem Epoll.Marks.trans {e'' : Epoll F} (h : e.Marks e') (h' : e'.Marks e'') : e.Marks e'' :=
  ⟨h.toKeeps.trans h'.toKeeps, fun ev => (h'.func ev).trans (h.func ev)⟩

/-- A step that happens or not. -/
theorem Epoll.Marks.ite {p : Prop} [Decidable p] (h : e.Marks e') :
    e.Marks (if p then e' else e) := by
  split
  case isTrue => exact h
  case isFalse => exact .refl e

theorem Epoll.setEvent_keeps (e : Epoll F) (hfd : x.fd = (e.event ev).fd) :
    e.Keeps (e.setEvent ev x) := by
  have hsame : ∀ ev', ((e.setEvent ev x).event ev').fd = (e.event ev').fd := by
    intro ev'
    rcases eq_or_ne ev' ev with rfl | hne
    · have hself : (e.setEvent ev' x).event ev' = x := Function.update_self ..
      rw [hself, hfd]
    · have hother : (e.setEvent ev x).event ev' = e.event ev' := Function.update_of_ne hne ..
      rw [hother]
  refine ⟨fun ho fd registered hk => ?_, hsame, rfl⟩
  obtain ⟨ev', hptr, hev⟩ := ho fd registered hk
  exact ⟨ev', hptr, (hsame ev').trans hev⟩

theorem Epoll.ctl_marks (op : EpollOp) (e : Epoll F)
    (h : op = .del ∨ ∃ ev, x.ptr = some ev ∧ (e.event ev).fd = fd) :
    e.Marks (e.ctl op fd x).1 := by
  refine ⟨⟨fun ho fd' registered hk => ?_, fun _ => rfl, rfl⟩, fun _ => rfl⟩
  rcases epollCtl_lookup hk with hold | ⟨hop, rfl, rfl⟩
  · exact ho fd' registered hold
  · exact h.resolve_left hop

theorem fdEventDel_marks (ev : HFdEvent) (e : Epoll F) : e.Marks (fdEventDel ev e).1 := by
  rw [fdEventDel]
  split
  case isTrue => exact e.ctl_marks .del (.inl rfl)
  case isFalse => exact .refl e

theorem fdEventAdd_keeps (ev : HFdEvent) (e : Epoll F) : e.Keeps (fdEventAdd ev e).1 := by
  have hadd := (e.ctl_marks .add (x := ⟨listenEvents (e.event ev).flags, some ev⟩)
    (.inr ⟨ev, rfl, rfl⟩)).toKeeps
  rw [fdEventAdd]
  split
  case isTrue => exact .refl e
  case isFalse =>
    dsimp only
    split
    case isTrue => exact hadd
    case isFalse => exact hadd.trans (Epoll.setEvent_keeps _ rfl)

theorem Epoll.call_keeps (e : Epoll F) (call : ApiCall F) : e.Keeps (e.call call) := by
  cases call with
  | setfunc ev func => exact e.setEvent_keeps rfl
  | add ev => exact fdEventAdd_keeps ev e
  | del ev => exact (fdEventDel_marks ev e).toKeeps
  | cancel => exact ⟨id, fun _ => rfl, rfl⟩

theorem Epoll.perform_keeps (calls : List (ApiCall F)) (e : Epoll F) :
    e.Keeps (e.perform calls) := by
  induction calls generalizing e with
  | nil => exact .refl e
  | cons call calls ih => exact (e.call_keeps call).trans (ih (e.call call))

end Calls

section Queue
variable {F : Type} {e : Epoll F} {callback : Callback F}

theorem Epoll.orEvents_marks (ev : HFdEvent) (events : UInt32) (e : Epoll F) :
    e.Marks (e.orEvents ev events) := by
  refine ⟨e.setEvent_keeps rfl, fun ev' => ?_⟩
  rcases eq_or_ne ev' ev with rfl | hne
  · have hself : (e.orEvents ev' events).event ev' = _ := Function.update_self ..
    rw [hself]
  · have hother : (e.orEvents ev events).event ev' = e.event ev' := Function.update_of_ne hne ..
    rw [hother]

theorem Epoll.modify_marks (ev : HFdEvent) (flag events : UInt32) (e : Epoll F) :
    e.Marks ((e.orEvents ev flag).ctl .mod (e.event ev).fd ⟨events, some ev⟩).1 :=
  (e.orEvents_marks ev flag).trans
    ((e.orEvents ev flag).ctl_marks .mod (.inr ⟨ev, rfl, (e.orEvents_marks ev flag).fd ev⟩))

theorem Epoll.mark_marks (x : EpollEvent) (cur : HFdEvent) (e : Epoll F) :
    e.Marks (e.mark x cur) := by
  apply Epoll.Marks.trans (Epoll.Marks.ite _)
    (Epoll.Marks.trans (Epoll.Marks.ite _) (Epoll.Marks.ite _))
  · exact (fdEventDel_marks cur e).trans (Epoll.orEvents_marks cur eventError _)
  · exact Epoll.modify_marks cur eventRead epollOut _
  · exact Epoll.modify_marks cur eventWrite epollIn _

/-- The loop over the events writes the queue from its index on and leaves the callbacks. -/
theorem fill_marks (q : Nat) (events : List EpollEvent) (e : Epoll F) :
    (e.Owned → (fill q events e).Owned) ∧
      (∀ ev, ((fill q events e).event ev).func = (e.event ev).func) ∧
      ∀ i, i < q → (fill q events e).queue i = e.queue i := by
  induction events generalizing q e with
  | nil => exact ⟨id, fun _ => rfl, fun _ _ => rfl⟩
  | cons x xs ih =>
    rw [fill]
    cases hptr : x.ptr with
    | none => exact ih q e
    | some cur =>
      let stored : Epoll F := { e with queue := Function.update e.queue q (some cur) }
      have hmark := stored.mark_marks x cur
      obtain ⟨howned, hfunc, hqueue⟩ := ih (q + 1) (stored.mark x cur)
      refine ⟨fun ho => howned (hmark.owned ho), fun ev => (hfunc ev).trans (hmark.func ev),
        fun i hi => ?_⟩
      have hstored : stored.queue i = e.queue i := Function.update_of_ne (Nat.ne_of_lt hi) ..
      rw [← hstored, ← hmark.same]
      exact hqueue i (Nat.lt_succ_of_lt hi)

/-- The first of the events is where the second loop looks. -/
theorem fill_queue (hptr : x.ptr = some cur) (q : Nat) (xs : List EpollEvent) (e : Epoll F) :
    (fill q (x :: xs) e).queue q = some cur := by
  let stored : Epoll F := { e with queue := Function.update e.queue q (some cur) }
  have hfill : fill q (x :: xs) e = fill (q + 1) xs (stored.mark x cur) := by
    rw [fill, hptr]
  have hstored : stored.queue q = some cur := Function.update_self ..
  rw [hfill, (fill_marks (q + 1) xs _).2.2 q (Nat.lt_succ_self q), (stored.mark_marks x cur).same,
    hstored]

theorem dispatch_keeps (callback : Callback F) (q n : Nat) (e : Epoll F) :
    e.Keeps (dispatch callback q n e).1 := by
  induction n generalizing e with
  | zero => exact .refl e
  | succ n ih =>
    rw [dispatch]
    split
    case h_1 => exact ih e
    case h_2 cur _ =>
      split
      case h_1 => exact ih e
      case h_2 f _ => exact (Epoll.perform_keeps _ e).trans (ih _)

/-- Only one event is ever called. -/
theorem dispatch_only (h : e.queue q = some cur) (n : Nat) :
    ∀ ev ∈ (dispatch callback q n e).2, ev = cur := by
  induction n generalizing e with
  | zero => nofun
  | succ n ih =>
    rw [dispatch, h]
    dsimp only
    split
    case h_1 => exact ih h
    case h_2 f _ =>
      have hsame := (Epoll.perform_keeps (callback f cur e) e).same
      intro ev hev
      rcases List.mem_cons.1 hev with rfl | hev
      · rfl
      · exact ih (hsame ▸ h) ev hev

theorem dispatch_none (h : e.queue q = some cur) (hfunc : (e.event cur).func = none) (n : Nat) :
    (dispatch callback q n e).2 = [] := by
  induction n with
  | zero => rfl
  | succ n ih =>
    rw [dispatch, h]
    simp only [hfunc, ih]

theorem dispatch_some (h : e.queue q = some cur) (hfunc : (e.event cur).func = some f)
    (n : Nat) : (dispatch callback q (n + 1) e).2 =
      cur :: (dispatch callback q n (e.perform (callback f cur e))).2 := by
  rw [dispatch, h]
  simp only [hfunc]

end Queue

section Rounds
variable {F : Type} {l : Loop F} {w : Wakeup F} {callback : Callback F}

/-- The index of the queue is back at its start, and the kernel has the events themselves. -/
structure Loop.Inv (l : Loop F) : Prop where
  qIndex : l.qIndex = 0
  owned : l.epoll.Owned

theorem Loop.Inv.round (h : l.Inv) (callback : Callback F) (w : Wakeup F) :
    (l.round callback w).1.Inv := by
  have howned := (Epoll.perform_keeps w.timeouts l.epoll).owned h.owned
  rw [Loop.round]
  split
  case isTrue => exact ⟨h.qIndex, howned⟩
  case isFalse =>
    have hfill := (fill_marks l.qIndex w.events (l.epoll.perform w.timeouts)).1 howned
    exact ⟨rfl, (dispatch_keeps callback 0 w.events.length _).owned hfill⟩

/-- The kernel answers with different events. -/
theorem Wakeup.Valid.distinct (hvalid : w.Valid l) (h : l.Inv) :
    ∃ evs : List HFdEvent, w.events.map EpollEvent.ptr = evs.map some ∧ evs.Nodup := by
  obtain ⟨_, _, _, fds, hfds, hready⟩ := hvalid
  have howned := (Epoll.perform_keeps w.timeouts l.epoll).owned h.owned
  have hevs : ∃ evs : List HFdEvent, w.events.map EpollEvent.ptr = evs.map some ∧
      evs.map (fun ev => ((l.epoll.perform w.timeouts).event ev).fd) = fds := by
    clear hfds
    generalize w.events = events at hready
    induction hready with
    | nil => exact ⟨[], rfl, rfl⟩
    | @cons fd x fds events hx _ ih =>
      obtain ⟨registered, hkernel, hptr⟩ := hx
      obtain ⟨ev, hev, hfd⟩ := howned fd registered hkernel
      obtain ⟨evs, hevs, hrest⟩ := ih
      refine ⟨ev :: evs, ?_, ?_⟩
      · rw [List.map_cons, List.map_cons, hptr, hev, hevs]
      · rw [List.map_cons, hfd, hrest]
  obtain ⟨evs, hptrs, hmap⟩ := hevs
  exact ⟨evs, hptrs, List.Nodup.of_map _ (hmap ▸ hfds)⟩

theorem mem_of_ptrs {events : List EpollEvent} {evs : List HFdEvent}
    (h : events.map EpollEvent.ptr = evs.map some) (hx : x ∈ events)
    (hptr : x.ptr = some ev) : ev ∈ evs := by
  have hmem : some ev ∈ evs.map some := by
    rw [← h, ← hptr]
    exact List.mem_map_of_mem hx
  exact (List.mem_map_of_injective (Option.some_injective _)).1 hmem

/-- The calls of a wake-up whose first event is `ev`. -/
theorem Loop.Inv.calls (h : l.Inv) (callback : Callback F) (hevents : w.events = x :: xs)
    (hptr : x.ptr = some ev) :
    (∀ ev' ∈ (l.round callback w).2, ev' = ev) ∧
      (((l.epoll.perform w.timeouts).event ev).func = none → (l.round callback w).2 = []) ∧
      ∀ f, ((l.epoll.perform w.timeouts).event ev).func = some f → (l.round callback w).2 =
        ev :: (dispatch callback 0 xs.length
          ((fill l.qIndex (x :: xs) (l.epoll.perform w.timeouts)).perform
            (callback f ev (fill l.qIndex (x :: xs) (l.epoll.perform w.timeouts))))).2 := by
  have hround : (l.round callback w).2 = (dispatch callback 0 (xs.length + 1)
      (fill l.qIndex (x :: xs) (l.epoll.perform w.timeouts))).2 := by
    rw [Loop.round, hevents]
    rfl
  have hqueue := fill_queue hptr 0 xs (l.epoll.perform w.timeouts)
  have hfunc := (fill_marks 0 (x :: xs) (l.epoll.perform w.timeouts)).2.1 ev
  rw [hround, h.qIndex]
  exact ⟨dispatch_only hqueue _, fun hnone => dispatch_none hqueue (hfunc.trans hnone) _,
    fun f hf => dispatch_some hqueue (hfunc.trans hf) _⟩

theorem wakeup_dispatched_one (h : l.Inv) (hevents : w.events = [x]) (hptr : x.ptr = some ev) :
    w.Dispatched callback l := by
  obtain ⟨_, _, hsome⟩ := h.calls callback hevents hptr
  intro event hevent ev' hptr' hfunc
  rw [hevents, List.mem_singleton] at hevent
  rw [hevent, hptr] at hptr'
  cases hptr'
  obtain ⟨f, hf⟩ := Option.ne_none_iff_exists'.1 hfunc
  rw [hsome f hf]
  exact List.count_singleton_self

theorem wakeup_dispatched_more {evs : List HFdEvent} (h : l.Inv)
    (hevents : w.events = x :: y :: ys)
    (hptr : x.ptr = some ev) (hptrs : (y :: ys).map EpollEvent.ptr = evs.map some)
    (hev : ev ∉ evs) : w.Dispatched callback l ↔ w.Ok callback l := by
  obtain ⟨honly, _, hsome⟩ := h.calls callback hevents hptr
  have hqueue : ∀ calls, ((fill l.qIndex (x :: y :: ys) (l.epoll.perform w.timeouts)).perform
      calls).queue 0 = some ev := by
    intro calls
    rw [(Epoll.perform_keeps calls _).same, h.qIndex]
    exact fill_queue hptr 0 (y :: ys) _
  rw [Wakeup.Ok, hevents]
  constructor
  · intro hd
    constructor
    · intro event hevent ev' hptr'
      by_contra hfunc
      have hcount := hd event (hevents ▸ List.mem_cons_of_mem x hevent) ev' hptr' hfunc
      have hmem : ev' ∈ (l.round callback w).2 := by
        apply List.count_pos_iff.1
        rw [hcount]
        exact Nat.zero_lt_one
      have hsame : ev' = ev := honly ev' hmem
      exact hev (hsame ▸ mem_of_ptrs hptrs hevent hptr')
    · intro ev' f hptr' hf
      rw [hptr] at hptr'
      cases hptr'
      by_contra hfunc
      obtain ⟨f', hf'⟩ := Option.ne_none_iff_exists'.1 hfunc
      have hcount := hd x (hevents ▸ List.mem_cons_self) ev hptr (by rw [hf]; nofun)
      rw [hsome f hf, List.length_cons, dispatch_some (hqueue _) hf', List.count_cons_self,
        List.count_cons_self] at hcount
      exact absurd hcount (by omega)
  · rintro ⟨htail, hhead⟩ event hevent ev' hptr' hfunc
    rw [hevents] at hevent
    rcases List.mem_cons.1 hevent with rfl | hin
    · rw [hptr] at hptr'
      cases hptr'
      obtain ⟨f, hf⟩ := Option.ne_none_iff_exists'.1 hfunc
      rw [hsome f hf, dispatch_none (hqueue _) (hhead ev f hptr hf)]
      exact List.count_singleton_self
    · exact (hfunc (htail event hin ev' hptr')).elim

theorem wakeup_dispatched_iff (h : l.Inv) (hvalid : w.Valid l) :
    w.Dispatched callback l ↔ w.Ok callback l := by
  obtain ⟨evs, hptrs, hnd⟩ := hvalid.distinct h
  match hevents : w.events with
  | [] =>
    have hok : w.Ok callback l := by
      rw [Wakeup.Ok, hevents]
      trivial
    exact iff_of_true (by rw [Wakeup.Dispatched, hevents]; nofun) hok
  | x :: xs =>
    rw [hevents] at hptrs
    cases evs with
    | nil => cases hptrs
    | cons ev evs =>
      obtain ⟨hptr, hrest⟩ := List.cons.inj hptrs
      cases xs with
      | nil =>
        have hok : w.Ok callback l := by
          rw [Wakeup.Ok, hevents]
          trivial
        exact iff_of_true (wakeup_dispatched_one h hevents hptr) hok
      | cons y ys =>
        exact wakeup_dispatched_more h hevents hptr hrest (List.nodup_cons.1 hnd).1

/-- In a run of the loop every wake-up calls the callback of each ready event once exactly when no
wake-up has a second ready event with a callback, or a first one that keeps its callback. -/
theorem event_loop_dispatch_iff (callback : Callback F) (event : HFdEvent → FdEvent F) (max : Nat)
    (setup : List (ApiCall F)) (ws : List (Wakeup F))
    (hvalid : Admits (Loop.step callback) (fun l w => w.Valid l)
      ⟨(eventLoopInit event max).perform setup, 0⟩ ws) :
    Admits (Loop.step callback) (fun l w => w.Dispatched callback l)
        ⟨(eventLoopInit event max).perform setup, 0⟩ ws ↔
      Admits (Loop.step callback) (fun l w => w.Ok callback l)
        ⟨(eventLoopInit event max).perform setup, 0⟩ ws := by
  have hinit : (eventLoopInit event max).Owned := nofun
  apply admits_iff (I := Loop.Inv) _ _ _ hvalid
  · intro l w l' calls h hstep
    have hround : (l.round callback w).1 = l' := congrArg Prod.fst (Option.some.inj hstep)
    exact hround ▸ h.round callback w
  · intro l w h hw
    exact wakeup_dispatched_iff h hw
  · exact ⟨rfl, (Epoll.perform_keeps setup _).owned hinit⟩

end Rounds

section Witness

/-- Two descriptors to read, and callbacks that call nothing. -/
def twoEvents (ev : HFdEvent) : FdEvent Unit := ⟨none, ev + 3, eventRead, false, eventRead⟩

def twoCallbacks : List (ApiCall Unit) :=
  [.setfunc 0 (some ()), .setfunc 1 (some ()), .add 0, .add 1]

theorem event_loop_dispatch_iff_one :
    Admits (Loop.step fun _ _ _ => []) (fun l w => w.Dispatched (fun _ _ _ => []) l)
        ⟨(eventLoopInit twoEvents 8).perform twoCallbacks, 0⟩ [⟨[], [⟨epollIn, some 0⟩]⟩] ↔
      Admits (Loop.step fun _ _ _ => []) (fun l w => w.Ok (fun _ _ _ => []) l)
        ⟨(eventLoopInit twoEvents 8).perform twoCallbacks, 0⟩ [⟨[], [⟨epollIn, some 0⟩]⟩] :=
  event_loop_dispatch_iff _ twoEvents 8 twoCallbacks _
    ⟨⟨rfl, rfl, by decide, [3], by decide, .cons ⟨_, rfl, rfl⟩ .nil⟩, fun _ _ _ => trivial⟩

/-- Two events are ready: the first is called twice, the second is not. -/
theorem not_event_loop_dispatch :
    Admits (Loop.step fun _ _ _ => []) (fun l w => w.Valid l)
        ⟨(eventLoopInit twoEvents 8).perform twoCallbacks, 0⟩
        [⟨[], [⟨epollIn, some 0⟩, ⟨epollIn, some 1⟩]⟩] ∧
      ¬ Admits (Loop.step fun _ _ _ => []) (fun l w => w.Dispatched (fun _ _ _ => []) l)
        ⟨(eventLoopInit twoEvents 8).perform twoCallbacks, 0⟩
        [⟨[], [⟨epollIn, some 0⟩, ⟨epollIn, some 1⟩]⟩] := by
  constructor
  · exact ⟨⟨rfl, rfl, by decide, [3, 4], by decide, .cons ⟨_, rfl, rfl⟩ (.cons ⟨_, rfl, rfl⟩ .nil)⟩,
      fun _ _ _ => trivial⟩
  · intro h
    have hcount := h.1 ⟨epollIn, some 1⟩ (.tail _ (.head _)) 1 rfl (by decide)
    exact absurd hcount (by decide)

end Witness

end BigBox.Lapi.Event
