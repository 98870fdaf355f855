import Mathlib.Data.List.Nodup
import BigBox.Lib.Epoll
import BigBox.Lib.TryRun

namespace BigBox.Ubox
set_option autoImplicit true

def eventRead : UInt32 := 1
def eventWrite : UInt32 := 2

def eventMaxEvents : Nat := 10

/-- `struct event_fd`. -/
structure EventFd (F : Type) where
  cb : Option F
  fd : Int
  eof : Bool
  error : Bool
  registered : Bool

/-- `struct event_fd_event`. -/
structure EventFdEvent where
  fd : Option Nat
  events : UInt32
  deriving DecidableEq, Repr

/-- What callbacks may change: the events there are, the kernel's set and `event_cancelled`. -/
structure Poll (F : Type) where
  event : Nat → EventFd F
  kernel : EpollSet
  cancelled : Bool

/-- What only the loop changes: `cur_fds` and the static index `cur_fd`. -/
structure Uloop (F : Type) where
  poll : Poll F
  curFds : Nat → EventFdEvent
  curFd : Nat

section Loop
variable {F : Type}

def Poll.setEvent (fd : Nat) (event : EventFd F) (p : Poll F) : Poll F :=
  { p with event := Function.update p.event fd event }

/-- `__event_fd_delete`. The descriptor is overwritten before the kernel is told. -/
def eventFdDeleteRegistered (fd : Nat) (p : Poll F) : Poll F × Int :=
  let p := p.setEvent fd { p.event fd with fd := 0 }
  let r := epollCtl .del (p.event fd).fd ⟨0, none⟩ p.kernel
  ({ p with kernel := r.1 }, r.2)

def eventFdDelete (fd : Nat) (p : Poll F) : Poll F × Int :=
  if (p.event fd).registered = false then (p, 0)
  else eventFdDeleteRegistered fd (p.setEvent fd { p.event fd with registered := false })

/-- What the loop of `event_fetch_events` does with an event of the kernel and an entry of
`cur_fds`. -/
def fetchEvent (event : EpollEvent) (cur : EventFdEvent) (p : Poll F) : EventFdEvent × Poll F :=
  match event.ptr with
  | none => ({ cur with fd := none }, p)
  | some u =>
    let p := if event.events &&& (epollErr ||| epollHup) ≠ 0 then
      (eventFdDelete u (p.setEvent u { p.event u with error := true })).1 else p
    if event.events &&& (epollRdHup ||| epollIn ||| epollOut ||| epollErr ||| epollHup) = 0 then
      ({ cur with fd := none }, p)
    else
      let p := if event.events &&& epollRdHup ≠ 0 then
        p.setEvent u { p.event u with eof := true } else p
      let ev := (if event.events &&& epollIn ≠ 0 then eventRead else 0) |||
        (if event.events &&& epollOut ≠ 0 then eventWrite else 0)
      (⟨some u, ev⟩, p)

/-- The loop of `event_fetch_events`. -/
def fetchEvents (n : Nat) : List EpollEvent → Uloop F → Uloop F
  | [], s => s
  | event :: events, s =>
    let r := fetchEvent event (s.curFds n) s.poll
    fetchEvents (n + 1) events { s with poll := r.2, curFds := Function.update s.curFds n r.1 }

/-- `epoll_wait` answers with events, none after the timeout, or fails. -/
def eventFetchEvents (answer : Option (List EpollEvent)) (s : Uloop F) : Uloop F × Int :=
  match answer with
  | none => (s, -1)
  | some events => (fetchEvents 0 events s, events.length)

/-- What a callback does. -/
abbrev Callback (F : Type) := F → Nat → UInt32 → Poll F → Poll F

/-- An entry of `cur_fds` is read: its callback is called with its events. -/
def handle (callback : Callback F) (cur : EventFdEvent) (p : Poll F) : Poll F × Option F :=
  match cur.fd with
  | none => (p, none)
  | some fd =>
    match (p.event fd).cb with
    | none => (p, none)
    | some f => (callback f fd cur.events p, some f)

/-- An access to `cur_fds`, with what is there and the callback that is called. -/
structure Access (F : Type) where
  index : Nat
  entry : EventFdEvent
  called : Option F

/-- The loop of `event_process_events`, with the value of `cur_nfds`. It has no result when it
reads behind the array. -/
def dispatch (callback : Callback F) : Nat → Uloop F → Option (Uloop F × List (Access F))
  | 0, s => some (s, [])
  | nfds + 1, s =>
    if s.curFd < eventMaxEvents then
      let cur := s.curFds s.curFd
      let r := handle callback cur s.poll
      (dispatch callback nfds { s with poll := r.1, curFd := s.curFd + 1 }).map fun r' =>
        (r'.1, ⟨s.curFd, cur, r.2⟩ :: r'.2)
    else none

def eventProcessEvents (callback : Callback F) (answer : Option (List EpollEvent))
    (s : Uloop F) : Option (Uloop F × List (Access F)) :=
  let r := eventFetchEvents answer s
  dispatch callback r.2.toNat r.1

/-- What the callbacks of the timeouts that are due do before `epoll_wait`, and its answer. -/
structure Wakeup (F : Type) where
  timeouts : Poll F → Poll F
  answer : Option (List EpollEvent)

/-- The number of entries that are fetched. -/
def Wakeup.fetched (w : Wakeup F) : Nat := (w.answer.getD []).length

/-- A round of `event_loop_run`. -/
def Uloop.step (callback : Callback F) (s : Uloop F) (w : Wakeup F) :
    Option (Uloop F × List (Access F)) :=
  eventProcessEvents callback w.answer { s with poll := w.timeouts s.poll }

/-- The loop waits, and the kernel answers with no more events than the array has room for. -/
def Wakeup.Valid (s : Uloop F) (w : Wakeup F) : Prop :=
  s.poll.cancelled = false ∧ (w.timeouts s.poll).cancelled = false ∧ w.fetched ≤ eventMaxEvents

/-- Every entry that is fetched is dispatched once, and no other is read. -/
def Wakeup.Dispatched (callback : Callback F) (s : Uloop F) (w : Wakeup F) : Prop :=
  ∃ s' accesses, s.step callback w = some (s', accesses) ∧
    (∀ access ∈ accesses, access.index < w.fetched) ∧
    ∀ i, i < w.fetched → (accesses.map Access.index).count i = 1 ∧
      ∀ access ∈ accesses, access.index = i → access.entry =
        (eventFetchEvents w.answer { s with poll := w.timeouts s.poll }).1.curFds i

end Loop

section Dispatch
variable {F : Type} {s s' : Uloop F} {callback : Callback F}

theorem fetchEvents_curFd (n : Nat) (events : List EpollEvent) (s : Uloop F) :
    (fetchEvents n events s).curFd = s.curFd := by
  induction events generalizing n s with
  | nil => rfl
  | cons event events ih => exact ih (n + 1) _

/-- The entries are read one behind the other, from the static index on. -/
structure Read (s s' : Uloop F) (n : Nat) (accesses : List (Access F)) : Prop where
  curFd : s'.curFd = s.curFd + n
  index : accesses.map Access.index = List.range' s.curFd n
  entry : ∀ access ∈ accesses, access.entry = s.curFds access.index

theorem dispatch_read (h : dispatch callback n s = some (s', accesses)) :
    Read s s' n accesses := by
  induction n generalizing s accesses with
  | zero =>
    cases h
    exact ⟨rfl, rfl, nofun⟩
  | succ n ih =>
    rw [dispatch] at h
    split at h
    case isFalse => cases h
    case isTrue =>
      obtain ⟨r, hr, he⟩ := Option.map_eq_some_iff.1 h
      cases he
      obtain ⟨hcurFd, hindex, hentry⟩ := ih hr
      refine ⟨?_, ?_, fun access haccess => ?_⟩
      · rw [hcurFd, Nat.add_assoc, Nat.add_comm 1]
      · rw [List.map_cons, hindex, List.range'_succ]
      · rcases List.mem_cons.1 haccess with rfl | haccess
        · rfl
        · exact hentry access haccess

theorem dispatch_some (callback : Callback F) (h : s.curFd + n ≤ eventMaxEvents) :
    ∃ s' accesses, dispatch callback n s = some (s', accesses) := by
  induction n generalizing s with
  | zero => exact ⟨s, [], rfl⟩
  | succ n ih =>
    have hlt : s.curFd < eventMaxEvents := by omega
    obtain ⟨s', accesses, hrun⟩ := ih (s := { s with
      poll := (handle callback (s.curFds s.curFd) s.poll).1
      curFd := s.curFd + 1 }) (by dsimp only; omega)
    have hnext : dispatch callback (n + 1) s = some (s', ⟨s.curFd, s.curFds s.curFd,
        (handle callback (s.curFds s.curFd) s.poll).2⟩ :: accesses) := by
      rw [dispatch, if_pos hlt]
      dsimp only
      rw [hrun]
      rfl
    exact ⟨s', _, hnext⟩

theorem eventFetchEvents_fetched (w : Wakeup F) (s : Uloop F) :
    (eventFetchEvents w.answer s).2.toNat = w.fetched ∧
      (eventFetchEvents w.answer s).1.curFd = s.curFd := by
  rw [Wakeup.fetched]
  cases w.answer with
  | none => exact ⟨rfl, rfl⟩
  | some events => exact ⟨rfl, fetchEvents_curFd 0 events s⟩

theorem step_eq (w : Wakeup F) (s : Uloop F) : s.step callback w = dispatch callback w.fetched
    (eventFetchEvents w.answer { s with poll := w.timeouts s.poll }).1 := by
  rw [Uloop.step, eventProcessEvents, (eventFetchEvents_fetched w _).1]

theorem step_read {w : Wakeup F} (h : s.step callback w = some (s', accesses)) :
    s'.curFd = s.curFd + w.fetched ∧
      accesses.map Access.index = List.range' s.curFd w.fetched ∧
      ∀ access ∈ accesses, access.entry =
        (eventFetchEvents w.answer { s with poll := w.timeouts s.poll }).1.curFds access.index := by
  have hcurFd := (eventFetchEvents_fetched w { s with poll := w.timeouts s.poll }).2
  rw [step_eq] at h
  obtain ⟨hmoved, hindex, hentry⟩ := dispatch_read h
  rw [hcurFd] at hmoved hindex
  exact ⟨hmoved, hindex, hentry⟩

/-- The index is right as long as it has not moved. -/
theorem wakeup_dispatched_iff {w : Wakeup F} (hvalid : w.Valid s) :
    w.Dispatched callback s ↔ w.fetched = 0 ∨ s.curFd = 0 := by
  have hcurFd := (eventFetchEvents_fetched w { s with poll := w.timeouts s.poll }).2
  constructor
  · rintro ⟨s', accesses, hstep, hbound, _⟩
    have hindex := (step_read hstep).2.1
    rcases Nat.eq_zero_or_pos w.fetched with hzero | hpos
    · exact .inl hzero
    · have hlast : s.curFd + (w.fetched - 1) ∈ accesses.map Access.index := by
        rw [hindex, List.mem_range'_1]
        omega
      obtain ⟨access, haccess, hlast⟩ := List.mem_map.1 hlast
      have hlt := hbound access haccess
      rw [hlast] at hlt
      exact .inr (by omega)
  · intro h
    rcases Nat.eq_zero_or_pos w.fetched with hzero | hpos
    · have hrun : s.step callback w = some
          ((eventFetchEvents w.answer { s with poll := w.timeouts s.poll }).1, []) := by
        rw [step_eq, hzero, dispatch]
      refine ⟨_, [], hrun, nofun, fun i hi => ?_⟩
      exact absurd (hzero ▸ hi) (Nat.not_lt_zero i)
    · have hstart : s.curFd = 0 := h.resolve_left (Nat.pos_iff_ne_zero.1 hpos)
      have hroom : (eventFetchEvents w.answer { s with poll := w.timeouts s.poll }).1.curFd +
          w.fetched ≤ eventMaxEvents := by
        rw [hcurFd, hstart, Nat.zero_add]
        exact hvalid.2.2
      obtain ⟨s', accesses, hrun⟩ := dispatch_some callback hroom
      rw [← step_eq] at hrun
      obtain ⟨_, hindex, hentry⟩ := step_read hrun
      rw [hstart] at hindex
      refine ⟨s', accesses, hrun, fun access haccess => ?_, fun i hi => ⟨?_, ?_⟩⟩
      · have hin := List.mem_map_of_mem (f := Access.index) haccess
        rw [hindex, List.mem_range'_1] at hin
        omega
      · rw [hindex]
        apply List.count_eq_one_of_mem List.nodup_range'
        rw [List.mem_range'_1]
        omega
      · rintro access haccess rfl
        exact hentry access haccess

/-- The wake-ups that fetch events. -/
def fetching (ws : List (Wakeup F)) : List (Wakeup F) :=
  ws.filter fun w => w.fetched ≠ 0

theorem fetching_cons_zero {w : Wakeup F} (h : w.fetched = 0) :
    fetching (w :: ws) = fetching ws :=
  List.filter_cons_of_neg (by simp [h])

theorem fetching_cons {w : Wakeup F} (h : w.fetched ≠ 0) :
    fetching (w :: ws) = w :: fetching ws :=
  List.filter_cons_of_pos (by simp [h])

theorem run_dispatched_iff (ws : List (Wakeup F))
    (hvalid : Admits (Uloop.step callback) (fun s w => w.Valid s) s ws) :
    Admits (Uloop.step callback) (fun s w => w.Dispatched callback s) s ws ↔
      fetching ws = [] ∨ s.curFd = 0 ∧ (fetching ws).length = 1 := by
  induction ws generalizing s with
  | nil => exact iff_of_true trivial (.inl rfl)
  | cons w ws ih =>
    obtain ⟨hw, hrest⟩ := hvalid
    have hiff : w.Dispatched callback s ↔ _ := wakeup_dispatched_iff hw
    have hafter : ∀ s' accesses, s.step callback w = some (s', accesses) →
        (Admits (Uloop.step callback) (fun s w => w.Dispatched callback s) s' ws ↔
          fetching ws = [] ∨ s.curFd + w.fetched = 0 ∧ (fetching ws).length = 1) := by
      intro s' accesses hstep
      rw [ih (hrest s' accesses hstep), (step_read hstep).1]
    by_cases hzero : w.fetched = 0
    · rw [hzero] at hafter
      rw [fetching_cons_zero hzero]
      constructor
      · rintro ⟨⟨s', accesses, hstep, _⟩, htail⟩
        exact (hafter s' accesses hstep).1 (htail s' accesses hstep)
      · intro h
        exact ⟨hiff.2 (.inl hzero), fun s' accesses hstep => (hafter s' accesses hstep).2 h⟩
    · have hnone : ∀ s' accesses, s.step callback w = some (s', accesses) →
          (Admits (Uloop.step callback) (fun s w => w.Dispatched callback s) s' ws ↔
            fetching ws = []) := by
        intro s' accesses hstep
        rw [hafter s' accesses hstep]
        exact or_iff_left fun h => hzero (Nat.add_eq_zero_iff.1 h.1).2
      rw [fetching_cons hzero]
      constructor
      · rintro ⟨hdispatched, htail⟩
        have hstart := (hiff.1 hdispatched).resolve_left hzero
        obtain ⟨s', accesses, hstep, _⟩ := hdispatched
        rw [(hnone s' accesses hstep).1 (htail s' accesses hstep)]
        exact .inr ⟨hstart, rfl⟩
      · intro h
        obtain ⟨hstart, hlength⟩ := h.resolve_left (List.cons_ne_nil _ _)
        have hempty := List.length_eq_zero_iff.1 (Nat.succ.inj hlength)
        exact ⟨hiff.2 (.inr hstart), fun s' accesses hstep => (hnone s' accesses hstep).2 hempty⟩

/-- In a run of the loop every event is dispatched once exactly when no more than one wake-up
fetches events. -/
theorem event_process_events_iff (callback : Callback F) (poll : Poll F)
    (curFds : Nat → EventFdEvent) (ws : List (Wakeup F))
    (hvalid : Admits (Uloop.step callback) (fun s w => w.Valid s) ⟨poll, curFds, 0⟩ ws) :
    Admits (Uloop.step callback) (fun s w => w.Dispatched callback s) ⟨poll, curFds, 0⟩ ws ↔
      (fetching ws).length ≤ 1 := by
  rw [run_dispatched_iff ws hvalid]
  cases fetching ws with
  | nil => exact iff_of_true (.inl rfl) (Nat.zero_le 1)
  | cons w ws' => simp

end Dispatch

section Witness

def readable (fd : Nat) : EventFd Unit := ⟨some (), fd, false, false, true⟩

def noPoll : Poll Unit :=
  ⟨readable, fun fd => if fd = 3 then some ⟨epollIn, some 3⟩ else none, false⟩

def noCallback : Callback Unit := fun _ _ _ p => p

def oneEvent : Wakeup Unit := ⟨id, some [⟨epollIn, some 3⟩]⟩

theorem event_process_events_iff_one :
    Admits (Uloop.step noCallback) (fun s w => w.Dispatched noCallback s)
        ⟨noPoll, fun _ => ⟨none, 0⟩, 0⟩ [oneEvent] ↔ (fetching [oneEvent]).length ≤ 1 :=
  event_process_events_iff noCallback noPoll _ [oneEvent]
    ⟨⟨rfl, rfl, by decide⟩, fun _ _ _ => trivial⟩

/-- The second wake-up reads the entry behind the one it fetched. -/
theorem not_event_process_events :
    Admits (Uloop.step noCallback) (fun s w => w.Valid s)
        ⟨noPoll, fun _ => ⟨none, 0⟩, 0⟩ [oneEvent, oneEvent] ∧
      ¬ Admits (Uloop.step noCallback) (fun s w => w.Dispatched noCallback s)
        ⟨noPoll, fun _ => ⟨none, 0⟩, 0⟩ [oneEvent, oneEvent] := by
  have hvalid : Admits (Uloop.step noCallback) (fun s w => w.Valid s)
      ⟨noPoll, fun _ => ⟨none, 0⟩, 0⟩ [oneEvent, oneEvent] := by
    refine ⟨⟨rfl, rfl, by decide⟩, fun s' accesses hstep => ?_⟩
    cases hstep
    exact ⟨⟨rfl, rfl, by decide⟩, fun _ _ _ => trivial⟩
  refine ⟨hvalid, fun h => ?_⟩
  rw [run_dispatched_iff _ hvalid] at h
  exact absurd h (by decide)

end Witness

end BigBox.Ubox
