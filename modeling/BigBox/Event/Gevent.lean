import BigBox.Lib.TryRun
import BigBox.Event.Darray

namespace BigBox.Backend
set_option autoImplicit true

/-- What a kernel may be asked about a descriptor. -/
inductive Interest where
  | read
  | write
  | except
  deriving DecidableEq, Repr

/-- `struct event_cbs`. The callbacks are known by number. -/
structure EventCbs where
  evIn : Option Nat
  evOut : Option Nat
  evErr : Option Nat
  evTimer : Option Nat
  args : Nat
  deriving DecidableEq, Repr

/-- `struct event`, by its name in the backends. -/
structure Gevent where
  evfd : Nat
  flags : Nat
  evcb : EventCbs
  deriving DecidableEq, Repr

instance {p : Interest → Prop} [DecidablePred p] : Decidable (∀ i, p i) :=
  decidable_of_iff (p .read ∧ p .write ∧ p .except)
    ⟨fun h i => by cases i <;> simp only [h], fun h => ⟨h _, h _, h _⟩⟩

def EVENT_READ : Nat := 2
def EVENT_WRITE : Nat := 4
def EVENT_EXCEPT : Nat := 512

def Gevent.wants (e : Gevent) : Interest → Bool
  | .read => e.flags &&& EVENT_READ ≠ 0
  | .write => e.flags &&& EVENT_WRITE ≠ 0
  | .except => e.flags &&& EVENT_EXCEPT ≠ 0

/-- The call of a callback. -/
structure Invocation where
  func : Nat
  fd : Nat
  arg : Nat
  deriving DecidableEq, Repr

/-- A callback is called unless it is null. -/
def Gevent.invoke (e : Gevent) : Option Nat → List Invocation
  | some func => [⟨func, e.evfd, e.evcb.args⟩]
  | none => []

/-- What the kernel answers: it fails, or has some descriptors ready. -/
structure Kernel where
  fails : Bool
  ready : Nat → Interest → Bool

inductive Call where
  | add (e : Gevent)
  | del (e : Gevent)
  | dispatch (kernel : Kernel)

/-- What is seen of a dispatch: what the kernel is handed, and the callbacks that are called. -/
structure Seen where
  handed : Nat → Interest → Bool
  callbacks : List Invocation

/-- The callbacks for what is reported of a descriptor. -/
def Gevent.callbacks (e : Gevent) (reported : Interest → Bool) : List Invocation :=
  (if reported .read then e.invoke e.evcb.evIn ++ e.invoke e.evcb.evTimer else []) ++
    (if reported .write then e.invoke e.evcb.evOut else []) ++
    (if reported .except then e.invoke e.evcb.evErr else [])

/-- The callbacks that the backends know of. -/
def Gevent.served (e : Gevent) (reported : Interest → Bool) : List Invocation :=
  (if reported .read then e.invoke e.evcb.evIn else []) ++
    (if reported .write then e.invoke e.evcb.evOut else []) ++
    (if reported .except then e.invoke e.evcb.evErr else [])

/-- Only a timer that is reported makes a difference. -/
theorem Gevent.served_eq {e : Gevent} {reported : Interest → Bool}
    (h : reported .read = true → e.evcb.evTimer = none) :
    e.served reported = e.callbacks reported := by
  rw [Gevent.served, Gevent.callbacks]
  cases hread : reported .read with
  | false => rfl
  | true =>
    rw [h hread]
    simp only [if_true, Gevent.invoke, List.append_nil]

theorem flatMap_served {l : List Gevent} {reported : Gevent → Interest → Bool}
    (h : ∀ e ∈ l, reported e .read = true → e.evcb.evTimer = none) :
    (l.flatMap fun e => e.served (reported e)) = l.flatMap fun e => e.callbacks (reported e) := by
  induction l with
  | nil => rfl
  | cons e l ih =>
    rw [List.flatMap_cons, List.flatMap_cons, Gevent.served_eq (h e List.mem_cons_self),
      ih fun e he => h e (List.mem_cons_of_mem _ he)]

/-- Different events have different descriptors. -/
def Distinct (registered : List Gevent) : Prop := (registered.map Gevent.evfd).Nodup

/-- The calls of a client: the descriptor of a new event is not registered, and what is deleted is
registered. -/
def Call.Valid (registered : List Gevent) : Call → Prop
  | .add e => ∀ e' ∈ registered, e'.evfd ≠ e.evfd
  | .del e => e ∈ registered
  | .dispatch _ => True

instance (registered : List Gevent) : (call : Call) → Decidable (call.Valid registered)
  | .add e => inferInstanceAs (Decidable (∀ e' ∈ registered, e'.evfd ≠ e.evfd))
  | .del e => inferInstanceAs (Decidable (e ∈ registered))
  | .dispatch _ => .isTrue trivial

/-- The events added and not deleted. -/
def register (registered : List Gevent) : Call → List Gevent
  | .add e => registered ++ [e]
  | .del e => registered.erase e
  | .dispatch _ => registered

theorem Distinct.register (h : Distinct registered) (hvalid : call.Valid registered) :
    Distinct (Backend.register registered call) := by
  cases call with
  | add e =>
    rw [Backend.register, Distinct, List.map_append, List.nodup_append]
    refine ⟨h, List.nodup_singleton _, fun fd hfd fd' hfd' => ?_⟩
    obtain ⟨e', he', rfl⟩ := List.mem_map.1 hfd
    rw [List.mem_singleton.1 hfd']
    exact hvalid e' he'
  | del e =>
    exact h.sublist (List.erase_sublist.map _)
  | dispatch kernel => exact h

theorem Distinct.eq (h : Distinct registered) (he : e ∈ registered) (he' : e' ∈ registered)
    (hfd : e'.evfd = e.evfd) : e' = e :=
  List.inj_on_of_nodup_map h he' he hfd

theorem Distinct.not_mem_erase (h : Distinct registered) (he : e ∈ registered)
    (he' : e' ∈ registered.erase e) : e'.evfd ≠ e.evfd := by
  intro hfd
  have hsame := h.eq he (List.mem_of_mem_erase he') hfd
  have hnd : registered.Nodup := List.Nodup.of_map _ h
  rw [hsame, hnd.mem_erase_iff] at he'
  exact he'.1 rfl

section Asked
variable {asked : Gevent → Interest → Bool}

/-- Some event asks for a descriptor. -/
def interested (asked : Gevent → Interest → Bool) (registered : List Gevent) (fd : Nat)
    (i : Interest) : Bool :=
  registered.any fun e => e.evfd = fd && asked e i

/-- What is to be seen of a dispatch. The kernel reports what it is asked for. -/
def seen (asked : Gevent → Interest → Bool) (registered : List Gevent) (kernel : Kernel) :
    Seen where
  handed := interested asked registered
  callbacks :=
    if kernel.fails then []
    else registered.flatMap fun e => e.callbacks fun i => asked e i && kernel.ready e.evfd i

theorem interested_iff : interested asked registered fd i = true ↔
    ∃ e ∈ registered, e.evfd = fd ∧ asked e i = true := by
  rw [interested, List.any_eq_true]
  simp only [Bool.and_eq_true, decide_eq_true_eq]

theorem interested_append (registered : List Gevent) (e : Gevent) (fd : Nat) (i : Interest) :
    interested asked (registered ++ [e]) fd i =
      (interested asked registered fd i || (e.evfd = fd && asked e i)) := by
  rw [interested, List.any_append, List.any_cons, List.any_nil, Bool.or_false]
  rfl

theorem Distinct.interested_eq (h : Distinct registered) (he : e ∈ registered) (i : Interest) :
    interested asked registered e.evfd i = asked e i := by
  rw [Bool.eq_iff_iff, interested_iff]
  constructor
  · rintro ⟨e', he', hfd, hasked⟩
    rwa [h.eq he he' hfd] at hasked
  · intro hasked
    exact ⟨e, he, rfl, hasked⟩

theorem interested_none (h : ∀ e ∈ registered, e.evfd ≠ fd) (i : Interest) :
    interested asked registered fd i = false := by
  rw [← Bool.not_eq_true, interested_iff]
  rintro ⟨e, he, hfd, _⟩
  exact h e he hfd

/-- An event deleted leaves the other descriptors as they are. -/
theorem Distinct.interested_erase (h : Distinct registered) (he : e ∈ registered) (fd : Nat)
    (i : Interest) : interested asked (registered.erase e) fd i =
      if fd = e.evfd then false else interested asked registered fd i := by
  split
  · next hfd =>
    exact interested_none (fun e' he' => hfd ▸ h.not_mem_erase he he') i
  · next hfd =>
    rw [Bool.eq_iff_iff, interested_iff, interested_iff]
    constructor
    · rintro ⟨e', he', hfd', hasked⟩
      exact ⟨e', List.mem_of_mem_erase he', hfd', hasked⟩
    · rintro ⟨e', he', rfl, hasked⟩
      refine ⟨e', (List.mem_erase_of_ne ?_).2 he', rfl, hasked⟩
      rintro rfl
      exact hfd rfl

end Asked

end BigBox.Backend
