import BigBox.Event.Gevent

namespace BigBox.Backend
open Darray
set_option autoImplicit true

abbrev FdSet := Nat → Bool

/-- `FD_SET`. A descriptor from `FD_SETSIZE` on is outside of the set. -/
def fdSet (fd : Nat) (s : FdSet) : Option FdSet :=
  if fd < 1024 then some (Function.update s fd true) else none

def fdClr (fd : Nat) (s : FdSet) : Option FdSet :=
  if fd < 1024 then some (Function.update s fd false) else none

def fdIsset (fd : Nat) (s : FdSet) : Option Bool := if fd < 1024 then some (s fd) else none

structure SelectCtx where
  nfds : Nat
  rfds : FdSet
  wfds : FdSet
  efds : FdSet
  evList : List Gevent

def SelectCtx.set (c : SelectCtx) : Interest → FdSet
  | .read => c.rfds
  | .write => c.wfds
  | .except => c.efds

def selectInit : SelectCtx := ⟨0, fun _ => false, fun _ => false, fun _ => false, []⟩

def selectAdd (c : SelectCtx) (e : Gevent) : Option SelectCtx := do
  let nfds := if c.nfds < e.evfd then e.evfd else c.nfds
  let rfds ← (if e.wants .read then fdSet e.evfd c.rfds else some c.rfds)
  let wfds ← (if e.wants .write then fdSet e.evfd c.wfds else some c.wfds)
  let efds ← (if e.wants .except then fdSet e.evfd c.efds else some c.efds)
  return ⟨nfds, rfds, wfds, efds, darrayPushBack c.evList e⟩

def selectDel (c : SelectCtx) (e : Gevent) : Option SelectCtx := do
  let rfds ← fdClr e.evfd c.rfds
  let wfds ← fdClr e.evfd c.wfds
  let efds ← fdClr e.evfd c.efds
  return ⟨c.nfds, rfds, wfds, efds, darrayEraseItem c.evList e⟩

/-- What `select` leaves in a set. -/
def select (nfds : Nat) (kernel : Kernel) (i : Interest) (s : FdSet) : FdSet := fun fd =>
  if fd < nfds then s fd && kernel.ready fd i else s fd

/-- The loop of `select_dispatch`. -/
def selectLoop (c : SelectCtx) : List Gevent → Option (List Invocation)
  | [] => some []
  | e :: l => do
    let r ← fdIsset e.evfd c.rfds
    let w ← fdIsset e.evfd c.wfds
    let x ← fdIsset e.evfd c.efds
    let callbacks ← selectLoop c l
    return (if r then e.invoke e.evcb.evIn else []) ++ (if w then e.invoke e.evcb.evOut else []) ++
      (if x then e.invoke e.evcb.evErr else []) ++ callbacks

def selectDispatch (c : SelectCtx) (kernel : Kernel) :
    Option (SelectCtx × Seen) :=
  let nfds := c.nfds + 1
  let handed := fun fd i => decide (fd < nfds) && c.set i fd
  if kernel.fails then some (c, ⟨handed, []⟩)
  else
    let c := { c with
      rfds := select nfds kernel .read c.rfds
      wfds := select nfds kernel .write c.wfds
      efds := select nfds kernel .except c.efds }
    let n := (List.range nfds).countP c.rfds + (List.range nfds).countP c.wfds +
      (List.range nfds).countP c.efds
    if n = 0 then some (c, ⟨handed, []⟩)
    else (selectLoop c c.evList).map fun callbacks => (c, ⟨handed, callbacks⟩)

def SelectCtx.step (c : SelectCtx) :
    Call → Option (SelectCtx × Option Seen)
  | .add e => (selectAdd c e).map (·, none)
  | .del e => (selectDel c e).map (·, none)
  | .dispatch kernel => (selectDispatch c kernel).map fun r => (r.1, some r.2)

/-- The events added and not deleted, and the interests of a descriptor that a dispatch has not
found ready since they were added. -/
structure SelectHistory where
  registered : List Gevent
  lost : Nat → Interest → Bool

def SelectHistory.lose (h : SelectHistory) : Call → Nat → Interest → Bool
  | .add e => fun fd i => if fd = e.evfd ∧ e.wants i = true then false else h.lost fd i
  | .del _ => h.lost
  | .dispatch kernel => fun fd i => h.lost fd i || !kernel.fails && !kernel.ready fd i

def SelectHistory.next (h : SelectHistory) (call : Call) : SelectHistory :=
  ⟨register h.registered call, h.lose call⟩

def selectSpec (h : SelectHistory) (call : Call) : SelectHistory × Option Seen :=
  (h.next call,
    match call with
    | .dispatch kernel => some (seen Gevent.wants h.registered kernel)
    | _ => none)

/-- No registered event has an interest that an earlier dispatch has not found ready, and no event
with a timer callback is reported. The descriptors fit in a set. -/
def SelectHistory.Ok (h : SelectHistory) : Call → Prop
  | .add e => e.evfd < 1024
  | .del _ => True
  | .dispatch kernel => ∀ e ∈ h.registered,
      (∀ i, e.wants i = true → h.lost e.evfd i = false) ∧
      (kernel.fails = false → e.wants .read = true → kernel.ready e.evfd .read = true →
        e.evcb.evTimer = none)

instance SelectHistory.decidableOk (h : SelectHistory) : (call : Call) → Decidable (h.Ok call)
  | .add e => inferInstanceAs (Decidable (e.evfd < 1024))
  | .del _ => .isTrue trivial
  | .dispatch kernel => inferInstanceAs (Decidable (∀ e ∈ h.registered,
      (∀ i, e.wants i = true → h.lost e.evfd i = false) ∧
      (kernel.fails = false → e.wants .read = true → kernel.ready e.evfd .read = true →
        e.evcb.evTimer = none)))

section Select
variable {c : SelectCtx} {h : SelectHistory} {kernel : Kernel} {e : Gevent}

/-- The sets hold the interests that are not lost. -/
structure SelectCtx.Holds (c : SelectCtx) (h : SelectHistory) : Prop where
  evList : c.evList = h.registered
  distinct : Distinct h.registered
  small : ∀ e ∈ h.registered, e.evfd < 1024 ∧ e.evfd ≤ c.nfds
  sets : ∀ i fd, c.set i fd = (interested Gevent.wants h.registered fd i && !h.lost fd i)

theorem selectInit_holds (lost : Nat → Interest → Bool) : selectInit.Holds ⟨[], lost⟩ := by
  refine ⟨rfl, List.nodup_nil, nofun, fun i fd => ?_⟩
  cases i <;> rfl

theorem fdSet_wanted (he : e.evfd < 1024) (i : Interest) (s : FdSet) :
    (if e.wants i then fdSet e.evfd s else some s) =
      some fun fd => s fd || (e.evfd = fd && e.wants i) := by
  cases e.wants i with
  | false => simp only [Bool.false_eq_true, if_false, Bool.and_false, Bool.or_false]
  | true =>
    rw [if_pos rfl, fdSet, if_pos he]
    congr 1
    funext fd
    by_cases hfd : fd = e.evfd
    · subst hfd
      simp only [Function.update_self, decide_true, Bool.and_true, Bool.or_true]
    · rw [Function.update_of_ne hfd, decide_eq_false (Ne.symm hfd), Bool.false_and, Bool.or_false]

theorem selectAdd_eq (he : e.evfd < 1024) : ∃ c', selectAdd c e = some c' ∧
    c'.evList = c.evList ++ [e] ∧ (c.nfds ≤ c'.nfds ∧ e.evfd ≤ c'.nfds) ∧
    ∀ i fd, c'.set i fd = (c.set i fd || (e.evfd = fd && e.wants i)) := by
  have hadd : selectAdd c e = some ⟨if c.nfds < e.evfd then e.evfd else c.nfds,
      fun fd => c.rfds fd || (e.evfd = fd && e.wants .read),
      fun fd => c.wfds fd || (e.evfd = fd && e.wants .write),
      fun fd => c.efds fd || (e.evfd = fd && e.wants .except), c.evList ++ [e]⟩ := by
    rw [selectAdd, fdSet_wanted he, fdSet_wanted he, fdSet_wanted he]
    rfl
  refine ⟨_, hadd, rfl, ?_, fun i fd => ?_⟩
  · dsimp only
    split <;> omega
  · cases i <;> rfl

theorem selectDel_eq (he : e.evfd < 1024) : ∃ c', selectDel c e = some c' ∧
    c'.evList = c.evList.erase e ∧ c'.nfds = c.nfds ∧
    ∀ i fd, c'.set i fd = if fd = e.evfd then false else c.set i fd := by
  refine ⟨⟨c.nfds, Function.update c.rfds e.evfd false, Function.update c.wfds e.evfd false,
    Function.update c.efds e.evfd false, c.evList.erase e⟩, ?_, rfl, rfl, fun i fd => ?_⟩
  · rw [selectDel, fdClr, fdClr, fdClr, if_pos he, if_pos he, if_pos he, darrayEraseItem_eq]
    rfl
  · cases i <;> exact Function.update_apply _ _ _ _

/-- The loop calls what is in the sets. -/
theorem selectLoop_eq {l : List Gevent} (h : ∀ e ∈ l, e.evfd < 1024) :
    selectLoop c l = some (l.flatMap fun e => e.served fun i => c.set i e.evfd) := by
  induction l with
  | nil => rfl
  | cons e l ih =>
    have he := h e List.mem_cons_self
    rw [selectLoop, fdIsset, fdIsset, fdIsset, if_pos he, if_pos he, if_pos he,
      ih fun e' he' => h e' (List.mem_cons_of_mem _ he'), List.flatMap_cons, Gevent.served]
    rfl

theorem Gevent.served_nothing {reported : Interest → Bool} (h : ∀ i, reported i = false) :
    e.served reported = [] := by
  rw [Gevent.served, h, h, h]
  rfl

/-- The sets that `select` leaves. -/
def SelectCtx.selected (c : SelectCtx) (kernel : Kernel) : SelectCtx :=
  { c with
    rfds := select (c.nfds + 1) kernel .read c.rfds
    wfds := select (c.nfds + 1) kernel .write c.wfds
    efds := select (c.nfds + 1) kernel .except c.efds }

theorem SelectCtx.selected_set (c : SelectCtx) (kernel : Kernel) (i : Interest) :
    (c.selected kernel).set i = select (c.nfds + 1) kernel i (c.set i) := by
  cases i <;> rfl

theorem selectDispatch_eq (h : ∀ e ∈ c.evList, e.evfd < 1024 ∧ e.evfd ≤ c.nfds) :
    selectDispatch c kernel =
      some (if kernel.fails then c else c.selected kernel,
        ⟨fun fd i => decide (fd < c.nfds + 1) && c.set i fd,
          if kernel.fails then []
          else c.evList.flatMap fun e => e.served fun i => (c.selected kernel).set i e.evfd⟩) := by
  rw [selectDispatch]
  cases hfails : kernel.fails with
  | true => rfl
  | false =>
    simp only [Bool.false_eq_true, if_false]
    split
    · next hn =>
      have hempty : ∀ i, ∀ fd < c.nfds + 1, (c.selected kernel).set i fd = false := by
        intro i fd hfd
        have hcount : (List.range (c.nfds + 1)).countP ((c.selected kernel).set i) = 0 := by
          cases i with
          | read => exact (Nat.add_eq_zero_iff.1 (Nat.add_eq_zero_iff.1 hn).1).1
          | write => exact (Nat.add_eq_zero_iff.1 (Nat.add_eq_zero_iff.1 hn).1).2
          | except => exact (Nat.add_eq_zero_iff.1 hn).2
        exact Bool.eq_false_of_not_eq_true (List.countP_eq_zero.1 hcount fd (List.mem_range.2 hfd))
      have hnone : (c.evList.flatMap fun e => e.served fun i => (c.selected kernel).set i e.evfd) =
          [] := by
        refine List.flatMap_eq_nil_iff.2 fun e he => Gevent.served_nothing fun i => ?_
        exact hempty i e.evfd (by have := (h e he).2; omega)
      rw [hnone]
      rfl
    · have hloop := selectLoop_eq (c := c.selected kernel) fun e he => (h e he).1
      exact congrArg (Option.map _) hloop

theorem selectAdd_holds (hc : c.Holds h) (hvalid : (Call.add e).Valid h.registered)
    (he : e.evfd < 1024) : ∃ c', selectAdd c e = some c' ∧ c'.Holds (h.next (.add e)) := by
  obtain ⟨c', hadd, hlist, hnfds, hset⟩ := selectAdd_eq he
  refine ⟨c', hadd, ?_, hc.distinct.register hvalid, ?_, fun i fd => ?_⟩
  · rw [hlist, hc.evList]
    rfl
  · intro e' he'
    obtain he' | he' := List.mem_append.1 he'
    · exact ⟨(hc.small e' he').1, le_trans (hc.small e' he').2 hnfds.1⟩
    · rw [List.mem_singleton.1 he']
      exact ⟨he, hnfds.2⟩
  · have hlost : (h.next (.add e)).lost fd i =
        if fd = e.evfd ∧ e.wants i = true then false else h.lost fd i := rfl
    have hregistered : (h.next (.add e)).registered = h.registered ++ [e] := rfl
    rw [hset, hc.sets, hlost, hregistered, interested_append]
    by_cases hfd : fd = e.evfd
    · subst hfd
      rw [interested_none hvalid]
      cases e.wants i with
      | false => simp only [Bool.and_false, Bool.false_and, Bool.or_false]
      | true =>
        simp only [and_self, if_true, decide_true, Bool.and_true, Bool.or_true, Bool.not_false]
    · rw [decide_eq_false (Ne.symm hfd), Bool.false_and, Bool.or_false, Bool.or_false,
        if_neg fun hfd' => hfd hfd'.1]

theorem selectDel_holds (hc : c.Holds h) (he : e ∈ h.registered) :
    ∃ c', selectDel c e = some c' ∧ c'.Holds (h.next (.del e)) := by
  obtain ⟨c', hdel, hlist, hnfds, hset⟩ := selectDel_eq (hc.small e he).1
  have hvalid : (Call.del e).Valid h.registered := he
  refine ⟨c', hdel, ?_, hc.distinct.register hvalid, ?_, fun i fd => ?_⟩
  · rw [hlist, hc.evList]
    rfl
  · intro e' he'
    rw [hnfds]
    exact hc.small e' (List.mem_of_mem_erase he')
  · rw [hset, hc.sets, SelectHistory.next, register, hc.distinct.interested_erase he,
      SelectHistory.lose]
    split
    · rfl
    · rfl

/-- `select` loses the interests that it does not find ready. -/
theorem selectDispatch_holds (hc : c.Holds h) :
    SelectCtx.Holds (if kernel.fails then c else c.selected kernel)
      (h.next (.dispatch kernel)) := by
  have hlost : ∀ fd i, (h.next (.dispatch kernel)).lost fd i =
      (h.lost fd i || !kernel.fails && !kernel.ready fd i) := fun fd i => rfl
  have hregistered : (h.next (.dispatch kernel)).registered = h.registered := rfl
  cases hfails : kernel.fails with
  | true =>
    refine ⟨hc.evList, hc.distinct, hc.small, fun i fd => ?_⟩
    rw [if_pos rfl, hc.sets, hlost, hfails, Bool.not_true, Bool.false_and, Bool.or_false,
      hregistered]
  | false =>
    refine ⟨hc.evList, hc.distinct, hc.small, fun i fd => ?_⟩
    rw [if_neg Bool.false_ne_true, SelectCtx.selected_set, select, hc.sets, hlost, hfails,
      hregistered, Bool.not_false, Bool.true_and, Bool.not_or, Bool.not_not]
    split
    · rw [Bool.and_assoc]
    · next hfd =>
      have hnone : interested Gevent.wants h.registered fd i = false :=
        interested_none (fun e he heq => by have := (hc.small e he).2; omega) i
      rw [hnone, Bool.false_and, Bool.false_and]

/-- What the kernel is handed, and what it reports, when no interest is lost. -/
theorem selectDispatch_seen (hc : c.Holds h) (hok : h.Ok (.dispatch kernel)) :
    selectDispatch c kernel = some (if kernel.fails then c else c.selected kernel,
      seen Gevent.wants h.registered kernel) := by
  have hset : ∀ e ∈ h.registered, ∀ i, c.set i e.evfd = e.wants i := by
    intro e he i
    rw [hc.sets, hc.distinct.interested_eq he]
    cases hwants : e.wants i with
    | false => rfl
    | true => rw [(hok e he).1 i hwants]; rfl
  rw [selectDispatch_eq (hc.evList ▸ hc.small), hc.evList, seen]
  congr 3
  · funext fd i
    by_cases hfd : ∃ e ∈ h.registered, e.evfd = fd
    · obtain ⟨e, he, rfl⟩ := hfd
      rw [hset e he, hc.distinct.interested_eq he,
        decide_eq_true (Nat.lt_succ_of_le (hc.small e he).2), Bool.true_and]
    · have hnone : interested Gevent.wants h.registered fd i = false :=
        interested_none (fun e he heq => hfd ⟨e, he, heq⟩) i
      rw [hc.sets, hnone, Bool.false_and, Bool.and_false]
  · cases hfails : kernel.fails with
    | true => rfl
    | false =>
      have hreported : ∀ e ∈ h.registered, ∀ i,
          (c.selected kernel).set i e.evfd = (e.wants i && kernel.ready e.evfd i) := by
        intro e he i
        rw [SelectCtx.selected_set, select, if_pos (Nat.lt_succ_of_le (hc.small e he).2), hset e he]
      rw [if_neg Bool.false_ne_true, if_neg Bool.false_ne_true,
        ← flatMap_served fun e he hread => ?_]
      · refine List.flatMap_congr fun e he => ?_
        congr 1
        funext i
        exact hreported e he i
      · obtain ⟨hwants, hready⟩ := Bool.and_eq_true_iff.1 hread
        exact (hok e he).2 hfails hwants hready

theorem selectStep_good (hc : c.Holds h) (hvalid : call.Valid h.registered) (hok : h.Ok call) :
    ∃ c', c.step call = some (c', (selectSpec h call).2) ∧ c'.Holds (selectSpec h call).1 := by
  cases call with
  | add e =>
    obtain ⟨c', hadd, hholds⟩ := selectAdd_holds hc hvalid hok
    exact ⟨c', by rw [SelectCtx.step, hadd]; rfl, hholds⟩
  | del e =>
    obtain ⟨c', hdel, hholds⟩ := selectDel_holds hc hvalid
    exact ⟨c', by rw [SelectCtx.step, hdel]; rfl, hholds⟩
  | dispatch kernel =>
    refine ⟨_, ?_, selectDispatch_holds hc⟩
    rw [SelectCtx.step, selectDispatch_seen hc hok]
    rfl

end Select

end BigBox.Backend
