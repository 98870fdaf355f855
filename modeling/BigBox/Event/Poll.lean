import BigBox.Event.Gevent

namespace BigBox.Backend
open Darray
set_option autoImplicit true

/-- `struct pollfd`. -/
structure Pollfd where
  fd : Nat
  events : Interest → Bool
  revents : Interest → Bool

structure PollCtx where
  nfds : Nat
  fds : Nat → Pollfd
  evNum : Nat
  evList : List Gevent

def POLL_MAX_FD : Nat := 1024

def pollInit : PollCtx := ⟨0, fun _ => ⟨0, fun _ => false, fun _ => false⟩, 0, []⟩

/-- An entry from `POLL_MAX_FD` on is outside of the array. -/
def pollAdd (c : PollCtx) (e : Gevent) : Option PollCtx :=
  if c.evNum < POLL_MAX_FD then
    let entry := c.fds c.evNum
    some {
      nfds := if c.nfds < e.evfd then e.evfd else c.nfds
      fds := Function.update c.fds c.evNum
        { entry with fd := e.evfd, events := fun i => entry.events i || e.wants i }
      evNum := c.evNum + 1
      evList := darrayPushBack c.evList e }
  else none

def pollDel (c : PollCtx) (e : Gevent) : PollCtx :=
  { c with evList := darrayEraseItem c.evList e, evNum := c.evNum - 1 }

/-- What the kernel reports of an entry. It reports errors unasked. -/
def Pollfd.report (p : Pollfd) (kernel : Kernel) (i : Interest) : Bool :=
  (p.events i || i = .except) && kernel.ready p.fd i

/-- What `poll` leaves in the array. -/
def poll (nfds : Nat) (kernel : Kernel) (fds : Nat → Pollfd) (j : Nat) : Pollfd :=
  if j < nfds then { fds j with revents := (fds j).report kernel } else fds j

/-- What `poll` counts. -/
def Pollfd.reported (p : Pollfd) : Bool :=
  p.revents .read || p.revents .write || p.revents .except

/-- The loop of `poll_dispatch`. -/
def pollLoop (fds : Nat → Pollfd) : Nat → List Gevent → (Nat → Pollfd) × List Invocation
  | _, [] => (fds, [])
  | j, e :: l =>
    let callbacks := e.served (fds j).revents
    let rest := pollLoop (Function.update fds j { fds j with revents := fun _ => false }) (j + 1) l
    (rest.1, callbacks ++ rest.2)

/-- The descriptors and interests of the first entries. -/
def handed (fds : Nat → Pollfd) (nfds : Nat) (fd : Nat) (i : Interest) : Bool :=
  (List.range nfds).any fun j => (fds j).fd = fd && ((fds j).events i || i = .except)

/-- `poll` is given `nfds` entries. -/
def pollDispatch (c : PollCtx) (kernel : Kernel) : Option (PollCtx × Seen) :=
  if POLL_MAX_FD < c.nfds then none
  else
    let asked := handed c.fds c.nfds
    if kernel.fails then some (c, ⟨asked, []⟩)
    else
      let fds := poll c.nfds kernel c.fds
      if (List.range c.nfds).countP (fun j => (fds j).reported) = 0 then
        some ({ c with fds := fds }, ⟨asked, []⟩)
      else
        let looped := pollLoop fds 0 c.evList
        some ({ c with fds := looped.1 }, ⟨asked, looped.2⟩)

def PollCtx.step (c : PollCtx) : Call → Option (PollCtx × Option Seen)
  | .add e => (pollAdd c e).map (·, none)
  | .del e => some (pollDel c e, none)
  | .dispatch kernel => (pollDispatch c kernel).map fun r => (r.1, some r.2)

/-- Errors are reported unasked. -/
def Gevent.polled (e : Gevent) (i : Interest) : Bool := e.wants i || i = .except

/-- The events added and not deleted, the greatest descriptor ever added, and the last descriptor
and all the interests of the events that were added when so many were registered. -/
structure PollHistory where
  registered : List Gevent
  top : Nat
  last : Nat → Nat
  used : Nat → Interest → Bool

def PollHistory.next (h : PollHistory) (call : Call) : PollHistory where
  registered := register h.registered call
  top :=
    match call with
    | .add e => max h.top e.evfd
    | _ => h.top
  last :=
    match call with
    | .add e => Function.update h.last h.registered.length e.evfd
    | _ => h.last
  used :=
    match call with
    | .add e => Function.update h.used h.registered.length fun i =>
        h.used h.registered.length i || e.wants i
    | _ => h.used

def pollSpec (h : PollHistory) (call : Call) : PollHistory × Option Seen :=
  (h.next call,
    match call with
    | .dispatch kernel => some (seen Gevent.polled h.registered kernel)
    | _ => none)

/-- The place of each registered event was last taken by it and has no interests of others, and the
greatest descriptor is as many as there are events. It may be more when the places that follow
have no descriptors or interests of their own. -/
structure PollHistory.InPlace (h : PollHistory) : Prop where
  top : h.registered.length ≤ h.top ∧ h.top ≤ POLL_MAX_FD
  place : ∀ j e, h.registered[j]? = some e → h.last j = e.evfd ∧ ∀ i, h.used j i = e.wants i
  beyond : ∀ j, h.registered.length ≤ j → j < h.top → ∃ e ∈ h.registered, e.evfd = h.last j ∧
    ∀ i, h.used j i = true → e.wants i = true

instance (h : PollHistory) : Decidable h.InPlace :=
  decidable_of_iff
    ((h.registered.length ≤ h.top ∧ h.top ≤ POLL_MAX_FD) ∧
      (∀ j < h.registered.length, ∀ e ∈ h.registered[j]?,
        h.last j = e.evfd ∧ ∀ i, h.used j i = e.wants i) ∧
      ∀ j < h.top, h.registered.length ≤ j → ∃ e ∈ h.registered, e.evfd = h.last j ∧
        ∀ i, h.used j i = true → e.wants i = true)
    ⟨fun ⟨htop, hplace, hbeyond⟩ =>
      ⟨htop, fun j e hj => hplace j (List.getElem?_eq_some_iff.1 hj).1 e hj,
        fun j hlen hlt => hbeyond j hlt hlen⟩,
      fun h => ⟨h.top, fun j _ e hj => h.place j e hj, fun j hlt hlen => h.beyond j hlen hlt⟩⟩

/-- Every registered event is in place at a dispatch, and no event with a timer callback is
reported. -/
def PollHistory.Ok (h : PollHistory) : Call → Prop
  | .add _ => h.registered.length < POLL_MAX_FD
  | .del _ => True
  | .dispatch kernel => h.InPlace ∧ ∀ e ∈ h.registered,
      kernel.fails = false → e.wants .read = true → kernel.ready e.evfd .read = true →
        e.evcb.evTimer = none

instance PollHistory.decidableOk (h : PollHistory) : (call : Call) → Decidable (h.Ok call)
  | .add _ => inferInstanceAs (Decidable (h.registered.length < POLL_MAX_FD))
  | .del _ => .isTrue trivial
  | .dispatch kernel => inferInstanceAs (Decidable (h.InPlace ∧ ∀ e ∈ h.registered,
      kernel.fails = false → e.wants .read = true → kernel.ready e.evfd .read = true →
        e.evcb.evTimer = none))

section Poll
variable {c : PollCtx} {h : PollHistory} {kernel : Kernel} {e : Gevent}

structure PollCtx.Holds (c : PollCtx) (h : PollHistory) : Prop where
  evList : c.evList = h.registered
  evNum : c.evNum = h.registered.length
  nfds : c.nfds = h.top
  fd : ∀ j, (c.fds j).fd = h.last j
  events : ∀ j i, (c.fds j).events i = h.used j i

theorem pollInit_holds : pollInit.Holds ⟨[], 0, fun _ => 0, fun _ _ => false⟩ :=
  ⟨rfl, rfl, rfl, fun _ => rfl, fun _ _ => rfl⟩

theorem pollAdd_holds (hc : c.Holds h) (hlen : h.registered.length < POLL_MAX_FD) :
    ∃ c', pollAdd c e = some c' ∧ c'.Holds (h.next (.add e)) := by
  have hnum : c.evNum < POLL_MAX_FD := hc.evNum ▸ hlen
  refine ⟨_, by rw [pollAdd, if_pos hnum], ?_, ?_, ?_, fun j => ?_, fun j i => ?_⟩
  · exact congrArg (· ++ [e]) hc.evList
  · have hlength : (h.next (.add e)).registered.length = h.registered.length + 1 :=
      List.length_append
    rw [hlength, hc.evNum]
  · have htop : (h.next (.add e)).top = max h.top e.evfd := rfl
    rw [htop, hc.nfds]
    dsimp only
    split <;> omega
  · have hlast : (h.next (.add e)).last = Function.update h.last h.registered.length e.evfd := rfl
    rw [hlast, hc.evNum]
    dsimp only
    by_cases hj : j = h.registered.length
    · subst hj
      rw [Function.update_self, Function.update_self]
    · rw [Function.update_of_ne hj, Function.update_of_ne hj, hc.fd]
  · have hused : (h.next (.add e)).used = Function.update h.used h.registered.length fun i =>
        h.used h.registered.length i || e.wants i := rfl
    rw [hused, hc.evNum]
    dsimp only
    by_cases hj : j = h.registered.length
    · subst hj
      rw [Function.update_self, Function.update_self, ← hc.events]
    · rw [Function.update_of_ne hj, Function.update_of_ne hj, hc.events]

theorem pollDel_holds (hc : c.Holds h) (he : e ∈ h.registered) :
    (pollDel c e).Holds (h.next (.del e)) := by
  refine ⟨?_, ?_, hc.nfds, hc.fd, hc.events⟩
  · have hlist := darrayEraseItem_eq c.evList e
    rw [hc.evList] at hlist
    rw [pollDel, hc.evList, hlist]
    rfl
  · have hlength : (h.next (.del e)).registered.length = h.registered.length - 1 :=
      List.length_erase_of_mem he
    rw [pollDel, hlength, hc.evNum]

/-- `poll` and the loop write nothing that the kernel is asked. -/
structure Kept (fds fds' : Nat → Pollfd) : Prop where
  fd : ∀ j, (fds' j).fd = (fds j).fd
  events : ∀ j, (fds' j).events = (fds j).events

theorem Kept.trans (h : Kept fds fds') (h' : Kept fds' fds'') : Kept fds fds'' :=
  ⟨fun j => (h'.fd j).trans (h.fd j), fun j => (h'.events j).trans (h.events j)⟩

theorem poll_kept (nfds : Nat) (kernel : Kernel) (fds : Nat → Pollfd) :
    Kept fds (poll nfds kernel fds) := by
  refine ⟨fun j => ?_, fun j => ?_⟩ <;> rw [poll] <;> split <;> rfl

theorem pollLoop_kept (fds : Nat → Pollfd) (j : Nat) (l : List Gevent) :
    Kept fds (pollLoop fds j l).1 := by
  induction l generalizing fds j with
  | nil => exact ⟨fun _ => rfl, fun _ => rfl⟩
  | cons e l ih =>
    refine Kept.trans ⟨fun k => ?_, fun k => ?_⟩ (ih _ (j + 1))
    · rw [Function.update_apply]
      split
      · next hk => rw [hk]
      · rfl
    · rw [Function.update_apply]
      split
      · next hk => rw [hk]
      · rfl

/-- The loop calls what is reported at the place of each event. -/
theorem pollLoop_eq {fds : Nat → Pollfd} {reported : Gevent → Interest → Bool} {l : List Gevent}
    (h : ∀ k e, l[k]? = some e → (fds (j + k)).revents = reported e) :
    (pollLoop fds j l).2 = l.flatMap fun e => e.served (reported e) := by
  induction l generalizing fds j with
  | nil => rfl
  | cons e l ih =>
    have hrest : ∀ k e', l[k]? = some e' →
        (Function.update fds j { fds j with revents := fun _ => false } (j + 1 + k)).revents =
          reported e' := by
      intro k e' hk
      rw [Function.update_of_ne (by omega), Nat.add_assoc, Nat.add_comm 1 k]
      exact h (k + 1) e' hk
    rw [List.flatMap_cons, ← h 0 e rfl, ← ih hrest]
    rfl

theorem Kept.holds (h' : Kept c.fds fds) (hc : c.Holds h) :
    PollCtx.Holds { c with fds := fds } (h.next (.dispatch kernel)) :=
  ⟨hc.evList, hc.evNum, hc.nfds, fun j => (h'.fd j).trans (hc.fd j),
    fun j i => (congrFun (h'.events j) i).trans (hc.events j i)⟩

/-- The first entries are those of the registered events. -/
theorem handed_eq (hc : c.Holds h) (hplace : h.InPlace) :
    handed c.fds c.nfds = interested Gevent.polled h.registered := by
  funext fd i
  rw [Bool.eq_iff_iff, interested_iff, handed, List.any_eq_true]
  simp only [List.mem_range, Bool.and_eq_true, decide_eq_true_eq, hc.nfds, hc.fd, hc.events]
  constructor
  · rintro ⟨j, hj, rfl, hasked⟩
    by_cases hlen : j < h.registered.length
    · obtain ⟨hfd, hused⟩ := hplace.place j _ (List.getElem?_eq_getElem hlen)
      refine ⟨_, List.getElem_mem hlen, hfd.symm, ?_⟩
      rwa [Gevent.polled, ← hused]
    · obtain ⟨e, he, hfd, hused⟩ := hplace.beyond j (Nat.le_of_not_lt hlen) hj
      refine ⟨e, he, hfd, ?_⟩
      rw [Gevent.polled, Bool.or_eq_true]
      exact (Bool.or_eq_true_iff.1 hasked).imp_left (hused i)
  · rintro ⟨e, he, rfl, hasked⟩
    obtain ⟨j, hj⟩ := List.mem_iff_getElem?.1 he
    obtain ⟨hfd, hused⟩ := hplace.place j e hj
    refine ⟨j, lt_of_lt_of_le (List.getElem?_eq_some_iff.1 hj).1 hplace.top.1, hfd, ?_⟩
    rwa [hused]

theorem poll_reported (hc : c.Holds h) (hplace : h.InPlace) {j : Nat}
    (hj : h.registered[j]? = some e) :
    (poll c.nfds kernel c.fds j).revents =
      fun i => e.polled i && kernel.ready e.evfd i := by
  have hlt : j < c.nfds :=
    hc.nfds ▸ lt_of_lt_of_le (List.getElem?_eq_some_iff.1 hj).1 hplace.top.1
  obtain ⟨hfd, hused⟩ := hplace.place j e hj
  rw [poll, if_pos hlt]
  funext i
  dsimp only
  rw [Pollfd.report, hc.fd, hc.events, hfd, hused, Gevent.polled]

theorem pollDispatch_good (hc : c.Holds h) (hok : h.Ok (.dispatch kernel)) :
    ∃ c', pollDispatch c kernel = some (c', seen Gevent.polled h.registered kernel) ∧
      c'.Holds (h.next (.dispatch kernel)) := by
  have hmax : ¬ POLL_MAX_FD < c.nfds := by
    rw [hc.nfds]
    exact Nat.not_lt_of_le hok.1.top.2
  have hserved : kernel.fails = false →
      (h.registered.flatMap fun e => e.served fun i => e.polled i && kernel.ready e.evfd i) =
        (seen Gevent.polled h.registered kernel).callbacks := by
    intro hfails
    rw [seen, hfails, if_neg Bool.false_ne_true]
    refine flatMap_served fun e he hread => ?_
    obtain ⟨hwants, hready⟩ := Bool.and_eq_true_iff.1 hread
    refine hok.2 e he hfails ?_ hready
    rwa [Gevent.polled, decide_eq_false nofun, Bool.or_false] at hwants
  rw [pollDispatch, if_neg hmax, handed_eq hc hok.1]
  cases hfails : kernel.fails with
  | true =>
    refine ⟨c, ?_, hc.evList, hc.evNum, hc.nfds, hc.fd, hc.events⟩
    rw [if_pos rfl, seen, hfails]
    rfl
  | false =>
    rw [if_neg Bool.false_ne_true]
    dsimp only
    split
    · next hn =>
      have hquiet : ∀ e ∈ h.registered,
          (e.served fun i => e.polled i && kernel.ready e.evfd i) = [] := by
        intro e he
        obtain ⟨j, hj⟩ := List.mem_iff_getElem?.1 he
        have hlt : j < c.nfds :=
          hc.nfds ▸ lt_of_lt_of_le (List.getElem?_eq_some_iff.1 hj).1 hok.1.top.1
        have hnone := List.countP_eq_zero.1 hn j (List.mem_range.2 hlt)
        rw [← poll_reported hc hok.1 hj]
        simp only [Pollfd.reported, Bool.or_eq_true, not_or, Bool.not_eq_true] at hnone
        rw [Gevent.served, hnone.1.1, hnone.1.2, hnone.2]
        rfl
      refine ⟨_, ?_, (poll_kept c.nfds kernel c.fds).holds hc⟩
      have hcallbacks := hserved hfails
      rw [List.flatMap_eq_nil_iff.2 hquiet] at hcallbacks
      rw [hcallbacks]
      rfl
    · have hloop : (pollLoop (poll c.nfds kernel c.fds) 0 c.evList).2 =
          (seen Gevent.polled h.registered kernel).callbacks := by
        rw [← hserved hfails, hc.evList]
        have hreported : ∀ k (e : Gevent), h.registered[k]? = some e →
            (poll c.nfds kernel c.fds (0 + k)).revents =
              fun i => e.polled i && kernel.ready e.evfd i := by
          intro k e hk
          rw [Nat.zero_add]
          exact poll_reported hc hok.1 hk
        exact pollLoop_eq hreported
      rw [hloop]
      exact ⟨_, rfl, ((poll_kept c.nfds kernel c.fds).trans (pollLoop_kept _ 0 _)).holds hc⟩

theorem pollStep_good (hc : c.Holds h) (hvalid : call.Valid h.registered) (hok : h.Ok call) :
    ∃ c', c.step call = some (c', (pollSpec h call).2) ∧ c'.Holds (pollSpec h call).1 := by
  cases call with
  | add e =>
    obtain ⟨c', hadd, hholds⟩ := pollAdd_holds hc hok
    exact ⟨c', by rw [PollCtx.step, hadd]; rfl, hholds⟩
  | del e => exact ⟨_, rfl, pollDel_holds hc hvalid⟩
  | dispatch kernel =>
    obtain ⟨c', hdispatch, hholds⟩ := pollDispatch_good hc hok
    exact ⟨c', by rw [PollCtx.step, hdispatch]; rfl, hholds⟩

end Poll

end BigBox.Backend
