import BigBox.Lib.Tickets
import BigBox.Lib.TryRun

namespace BigBox.Threadpool
set_option autoImplicit true

def NULL : Nat := 0

def DEFAULT_QUEUE_SIZE : Nat := 65535

/-- `queue_task_t`: the pointers to a function and to its argument. -/
structure QueueTask where
  run : Nat
  args : Nat
  deriving DecidableEq

/-- `thread_queue_t`. -/
structure ThreadQueue where
  head : Nat
  tail : Nat
  size : Nat
  capcity : Nat
  tasks : List QueueTask

def createThreadQueue (size : Int) : ThreadQueue :=
  let capcity := if 0 < size then size.toNat else DEFAULT_QUEUE_SIZE
  ⟨0, 0, 0, capcity, List.replicate capcity ⟨NULL, NULL⟩⟩

def threadQueueIsFull (q : ThreadQueue) : Bool := q.size == q.capcity

def threadQueueIsEmpty (q : ThreadQueue) : Bool := q.size == 0

def threadQueuePushTail (q : ThreadQueue) (data : QueueTask) : ThreadQueue × Nat :=
  if threadQueueIsFull q then (q, 0)
  else
    ({ q with
      tasks := q.tasks.set q.tail data
      tail := (q.tail + 1) % q.capcity
      size := q.size + 1 }, 1)

/-- The pointer to the task is the index of its slot. -/
def threadQueuePopHead (q : ThreadQueue) : ThreadQueue × Option Nat :=
  if threadQueueIsEmpty q then (q, none)
  else ({ q with head := (q.head + 1) % q.capcity, size := q.size - 1 }, some q.head)

/-- `thread_async_queue_t`, with the number of `eventfd`s that `epoll_wait` would report. -/
structure ThreadAsyncQueue where
  queue : ThreadQueue
  events : Nat

/-- `ctl` tells whether the `eventfd` was made and added to the epoll set. -/
def asyncEventfdQueuePushTail (q : ThreadAsyncQueue) (task : QueueTask) (ctl : Bool) :
    ThreadAsyncQueue × Nat :=
  if threadQueueIsFull q.queue then (q, 0)
  else
    let queue := (threadQueuePushTail q.queue task).1
    if ctl then (⟨queue, q.events + 1⟩, 1) else (⟨queue, q.events⟩, 0)

/-- `none` as long as `epoll_wait` has nothing to report. -/
def asyncEventfdQueuePopHead (q : ThreadAsyncQueue) : Option (ThreadAsyncQueue × Option Nat) :=
  if q.events = 0 then none
  else
    let r := threadQueuePopHead q.queue
    some (⟨r.1, q.events - 1⟩, r.2)

/-- `threadpool_t`. -/
structure Pool where
  queue : ThreadAsyncQueue
  tsize : Nat
  shutdown : Nat

def threadpool_invalid : Int := -1
def threadpool_shutdown : Int := -4

def threadpoolCreate (thread_count queue_size : Int) : Option Pool :=
  if thread_count ≤ 0 ∨ queue_size ≤ 0 then none
  else some ⟨⟨createThreadQueue queue_size, 0⟩, thread_count.toNat, 0⟩

/-- What `push` returns is not looked at. -/
def threadpoolAdd (pool : Pool) (routeine arg : Nat) (ctl : Bool) : Pool × Int :=
  if routeine = NULL then (pool, threadpool_invalid)
  else if pool.shutdown ≠ 0 then (pool, threadpool_shutdown)
  else ({ pool with queue := (asyncEventfdQueuePushTail pool.queue ⟨routeine, arg⟩ ctl).1 }, 0)

/-- The pool, the slot each worker has popped and not yet run, and the tasks that were added with
success and those that were run. -/
structure Machine where
  pool : Pool
  workers : List (Option Nat)
  added : List QueueTask
  ran : List QueueTask

/-- A call of `threadpool_add` with a function, or without one, or a step of a worker. -/
inductive Event where
  | add (arg : Nat) (ctl : Bool)
  | addNull (arg : Nat) (ctl : Bool)
  | pop (w : Nat)
  | run (w : Nat)

def Event.IsWork : Event → Prop
  | .add _ _ | .addNull _ _ => False
  | .pop _ | .run _ => True

/-- The function of every task, by how many were added before. -/
abbrev Routines := Nat → { routeine : Nat // routeine ≠ NULL }

def Machine.call (m : Machine) (routeine arg : Nat) (ctl : Bool) : Machine × Int :=
  let r := threadpoolAdd m.pool routeine arg ctl
  ({ m with
    pool := r.1
    added := if r.2 = 0 then m.added ++ [⟨routeine, arg⟩] else m.added }, r.2)

def Machine.pop (m : Machine) (w : Nat) : Machine :=
  if m.workers[w]? = some none then
    match asyncEventfdQueuePopHead m.pool.queue with
    | none => m
    | some r => { m with
        pool := { m.pool with queue := r.1 }
        workers := m.workers.set w r.2 }
  else m

/-- The worker reads the task in its slot. `atoi` of a null pointer has no meaning. -/
def Machine.run (m : Machine) (w : Nat) : Option Machine :=
  match m.workers[w]? with
  | some (some i) =>
    match m.pool.queue.queue.tasks[i]? with
    | some task =>
      if task.args = NULL then none
      else some { m with workers := m.workers.set w none, ran := m.ran ++ [task] }
    | none => none
  | _ => some m

/-- A step that the program cannot take changes nothing. -/
def Machine.step (routines : Routines) (m : Machine) : Event → Option (Machine × Int)
  | .add arg ctl => some (m.call (routines m.added.length).val arg ctl)
  | .addNull arg ctl => some (m.call NULL arg ctl)
  | .pop w => some (m.pop w, 0)
  | .run w => (m.run w).map fun m => (m, 0)

def Machine.start (pool : Pool) : Machine := ⟨pool, List.replicate pool.tsize none, [], []⟩

/-- No worker has anything left to do. -/
def Machine.Idle (m : Machine) : Prop := m.pool.queue.events = 0 ∧ ∀ x ∈ m.workers, x = none

/-- However the workers go on, when they have finished every task has been run once. -/
def Served (routines : Routines) (pool : Pool) (schedule : List Event) : Prop :=
  ∀ rest : List Event, (∀ e ∈ rest, e.IsWork) →
    ∃ r, tryRun (Machine.step routines) (Machine.start pool) (schedule ++ rest) = some r ∧
      (r.1.Idle → r.1.ran.Perm r.1.added)

/-- The pool as a counter of tickets: each task that is added is the next ticket. -/
def spec (t : Tickets) : Event → Tickets × Int
  | .add _ _ => (t.draw, 0)
  | .addNull _ _ => (t, threadpool_invalid)
  | .pop w => (t.take w, 0)
  | .run w => (t.finish w, 0)

/-- A task can be added when it has an argument and its `eventfd`, the queue is not full, and no
worker has yet to run what it popped from the next slot. -/
def Fits (capcity : Nat) (t : Tickets) : Event → Prop
  | .add arg ctl => arg ≠ NULL ∧ ctl = true ∧ t.drawn < t.taken + capcity ∧
      ∀ k, some k ∈ t.held → k % capcity ≠ t.drawn % capcity
  | .addNull _ _ | .pop _ | .run _ => True

/-- The slots of the tickets that were drawn and not yet taken. -/
structure ThreadQueue.Holds (q : ThreadQueue) (taken drawn : Nat) : Prop where
  pos : 0 < q.capcity
  length_tasks : q.tasks.length = q.capcity
  head : q.head = taken % q.capcity
  tail : q.tail = drawn % q.capcity
  size : taken + q.size = drawn
  size_le : q.size ≤ q.capcity

section Queue
variable {q : ThreadQueue}

theorem threadQueueIsFull_iff (q : ThreadQueue) :
    threadQueueIsFull q = true ↔ q.size = q.capcity := beq_iff_eq

theorem threadQueueIsEmpty_iff (q : ThreadQueue) :
    threadQueueIsEmpty q = true ↔ q.size = 0 := beq_iff_eq

theorem ThreadQueue.Holds.full_iff (h : q.Holds taken drawn) :
    threadQueueIsFull q = true ↔ ¬drawn < taken + q.capcity := by
  rw [threadQueueIsFull_iff, ← h.size, Nat.add_lt_add_iff_left, Nat.not_lt]
  exact ⟨fun hfull => Nat.le_of_eq hfull.symm, Nat.le_antisymm h.size_le⟩

theorem ThreadQueue.Holds.push (h : q.Holds taken drawn) (hfree : drawn < taken + q.capcity)
    (data : QueueTask) :
    ∃ q', threadQueuePushTail q data = (q', 1) ∧ q'.Holds taken (drawn + 1) ∧
      q'.capcity = q.capcity ∧ q'.tasks = q.tasks.set (drawn % q.capcity) data := by
  have hfull : ¬threadQueueIsFull q = true := fun hfull => h.full_iff.1 hfull hfree
  refine ⟨_, if_neg hfull, ⟨h.pos, ?_, h.head, ?_, ?_, ?_⟩, rfl, ?_⟩
  · exact List.length_set.trans h.length_tasks
  · exact (congrArg (fun i => (i + 1) % q.capcity) h.tail).trans (Nat.mod_add_mod _ _ _)
  · exact congrArg (· + 1) h.size
  · rw [← h.size] at hfree
    exact Nat.lt_of_add_lt_add_left hfree
  · exact congrArg (q.tasks.set · data) h.tail

theorem ThreadQueue.Holds.pop (h : q.Holds taken drawn) (hlt : taken < drawn) :
    ∃ q', threadQueuePopHead q = (q', some (taken % q.capcity)) ∧ q'.Holds (taken + 1) drawn ∧
      q'.capcity = q.capcity ∧ q'.tasks = q.tasks := by
  have hpos : 0 < q.size := by
    have hsize := h.size
    omega
  have hempty : ¬threadQueueIsEmpty q = true :=
    fun hempty => Nat.ne_of_gt hpos ((threadQueueIsEmpty_iff q).1 hempty)
  refine ⟨_, (if_neg hempty).trans (congrArg (Prod.mk _) (congrArg some h.head)),
    ⟨h.pos, h.length_tasks, ?_, h.tail, ?_, ?_⟩,
    rfl, rfl⟩
  · exact (congrArg (fun i => (i + 1) % q.capcity) h.head).trans (Nat.mod_add_mod _ _ _)
  · have hsize := h.size
    show taken + 1 + (q.size - 1) = drawn
    omega
  · exact Nat.le_trans (Nat.sub_le _ _) h.size_le

end Queue

/-- A ticket whose task is still to be run. -/
def Live (t : Tickets) (k : Nat) : Prop := (t.taken ≤ k ∧ k < t.drawn) ∨ some k ∈ t.held

structure Machine.Holds (capcity : Nat) (m : Machine) (t : Tickets) : Prop where
  tickets : t.Holds
  queue_capcity : m.pool.queue.queue.capcity = capcity
  queue : m.pool.queue.queue.Holds t.taken t.drawn
  events : m.pool.queue.events = m.pool.queue.queue.size
  shutdown : m.pool.shutdown = 0
  workers : m.workers = t.held.map (Option.map (· % capcity))
  length_added : m.added.length = t.drawn
  ran : m.ran.map some = t.done.map (m.added[·]?)
  slots : ∀ k, Live t k → m.pool.queue.queue.tasks[k % capcity]? = m.added[k]?
  args : ∀ task ∈ m.added, task.args ≠ NULL

/-- The next ticket's slot is that of no other ticket still to be run. -/
theorem slot_ne (hfits : Fits capcity t (.add arg ctl)) (hk : Live t k) :
    k % capcity ≠ t.drawn % capcity := by
  obtain ⟨_, _, hfree, hheld⟩ := hfits
  rcases hk with ⟨hle, hlt⟩ | hk
  · intro heq
    have hzero := Nat.sub_mod_eq_zero_of_mod_eq heq.symm
    rw [Nat.mod_eq_of_lt (by omega)] at hzero
    omega
  · exact hheld k hk

section Steps
variable {capcity : Nat} {m : Machine} {t : Tickets}

theorem Live.lt (ht : t.Holds) (hk : Live t k) : k < t.drawn := by
  rcases hk with ⟨_, hlt⟩ | hk
  · exact hlt
  · exact Nat.lt_of_lt_of_le (ht.lt_of_held hk) ht.le

theorem call_eq (m : Machine) (hshut : m.pool.shutdown = 0) {routeine : Nat}
    (hr : routeine ≠ NULL) (arg : Nat) (ctl : Bool) :
    m.call routeine arg ctl = ({ m with
      pool := { m.pool with
        queue := (asyncEventfdQueuePushTail m.pool.queue ⟨routeine, arg⟩ ctl).1 }
      added := m.added ++ [⟨routeine, arg⟩] }, 0) := by
  have hadd : threadpoolAdd m.pool routeine arg ctl = ({ m.pool with
      queue := (asyncEventfdQueuePushTail m.pool.queue ⟨routeine, arg⟩ ctl).1 }, 0) := by
    rw [threadpoolAdd, if_neg hr, if_neg (not_not.2 hshut)]
  rw [Machine.call, hadd]
  rfl

theorem Machine.Holds.add (h : m.Holds capcity t) (hfits : Fits capcity t (.add arg ctl))
    {routeine : Nat} (hr : routeine ≠ NULL) :
    ∃ m', m.call routeine arg ctl = (m', 0) ∧ m'.Holds capcity t.draw := by
  have hslot : ∀ k, Live t k → k % capcity ≠ t.drawn % capcity := fun _ hk => slot_ne hfits hk
  obtain ⟨harg, hctl, hfree, _⟩ := hfits
  have hfree' : t.drawn < t.taken + m.pool.queue.queue.capcity := h.queue_capcity.symm ▸ hfree
  obtain ⟨q, hpush, hq, hcap, htasks⟩ := h.queue.push hfree' ⟨routeine, arg⟩
  have hfull : ¬threadQueueIsFull m.pool.queue.queue = true :=
    fun hfull => h.queue.full_iff.1 hfull hfree'
  have hasync : asyncEventfdQueuePushTail m.pool.queue ⟨routeine, arg⟩ ctl =
      (⟨q, m.pool.queue.events + 1⟩, 1) := by
    rw [asyncEventfdQueuePushTail, if_neg hfull, hpush, hctl]
    rfl
  have hold : ∀ k, k < t.drawn → (m.added ++ [⟨routeine, arg⟩])[k]? = m.added[k]? :=
    fun k hk => List.getElem?_append_left (h.length_added.symm ▸ hk)
  refine ⟨_, call_eq m h.shutdown hr arg ctl, ?_⟩
  rw [hasync]
  constructor
  · exact h.tickets.draw
  · exact hcap.trans h.queue_capcity
  · exact hq
  · have hsize := hq.size
    have hsize' := h.queue.size
    have hevents := h.events
    show m.pool.queue.events + 1 = q.size
    omega
  · exact h.shutdown
  · exact h.workers
  · rw [List.length_append, h.length_added]
    rfl
  · rw [h.ran]
    apply List.map_congr_left
    intro k hk
    exact (hold k (Nat.lt_of_lt_of_le (h.tickets.lt_of_done hk) h.tickets.le)).symm
  · intro k hk
    change q.tasks[k % capcity]? = (m.added ++ [⟨routeine, arg⟩])[k]?
    rw [htasks, h.queue_capcity]
    by_cases hlast : k = t.drawn
    · have hlt : t.drawn % capcity < m.pool.queue.queue.tasks.length := by
        rw [h.queue.length_tasks, h.queue_capcity]
        exact Nat.mod_lt _ (h.queue_capcity ▸ h.queue.pos)
      rw [hlast, List.getElem?_set_self hlt, ← h.length_added, List.getElem?_concat_length]
    · have hlive : Live t k := by
        rcases hk with ⟨hle, hlt⟩ | hk
        · exact .inl ⟨hle, Nat.lt_of_le_of_ne (Nat.le_of_lt_succ hlt) hlast⟩
        · exact .inr hk
      rw [List.getElem?_set_ne (hslot k hlive).symm, h.slots k hlive,
        hold k (hlive.lt h.tickets)]
  · intro task htask
    rcases List.mem_append.1 htask with hmem | hmem
    · exact h.args task hmem
    · rw [List.mem_singleton.1 hmem]
      exact harg

theorem getElem?_workers (h : m.Holds capcity t) (w : Nat) :
    m.workers[w]? = (t.held[w]?).map (Option.map (· % capcity)) := by
  rw [h.workers, List.getElem?_map]

theorem Machine.Holds.pop (h : m.Holds capcity t) (w : Nat) :
    (m.pop w).Holds capcity (t.take w) := by
  by_cases hw : t.held[w]? = some none
  · have hfree : m.workers[w]? = some none := by rw [getElem?_workers h, hw]; rfl
    rw [Machine.pop, if_pos hfree]
    by_cases hlt : t.taken < t.drawn
    · obtain ⟨q, hpop, hq, hcap, htasks⟩ := h.queue.pop hlt
      have hevents : m.pool.queue.events ≠ 0 := by
        have hsize := h.queue.size
        have hevents := h.events
        omega
      have hasync : asyncEventfdQueuePopHead m.pool.queue =
          some (⟨q, m.pool.queue.events - 1⟩, some (t.taken % capcity)) := by
        rw [asyncEventfdQueuePopHead, if_neg hevents, hpop, h.queue_capcity]
      have htake : t.take w = { t with
          taken := t.taken + 1, held := t.held.set w (some t.taken) } := if_pos ⟨hlt, hw⟩
      have hticket := h.tickets.take w
      rw [hasync]
      rw [htake] at hticket ⊢
      constructor
      · exact hticket
      · exact hcap.trans h.queue_capcity
      · exact hq
      · have hsize := hq.size
        have hsize' := h.queue.size
        have hevents := h.events
        show m.pool.queue.events - 1 = q.size
        omega
      · exact h.shutdown
      · show m.workers.set w (some (t.taken % capcity)) = _
        rw [h.workers, List.map_set]
        rfl
      · exact h.length_added
      · exact h.ran
      · intro k hk
        have hlive : Live t k := by
          rcases hk with ⟨hle, hlt'⟩ | hk
          · exact .inl ⟨Nat.le_of_succ_le hle, hlt'⟩
          · rcases List.mem_or_eq_of_mem_set hk with hmem | heq
            · exact .inr hmem
            · cases heq
              exact .inl ⟨Nat.le_refl _, hlt⟩
        exact (congrArg (·[k % capcity]?) htasks).trans (h.slots k hlive)
      · exact h.args
    · have htake : t.take w = t := if_neg fun hcond => hlt hcond.1
      have hevents : m.pool.queue.events = 0 := by
        have hsize := h.queue.size
        have hevents := h.events
        have hle := h.tickets.le
        omega
      rw [htake, asyncEventfdQueuePopHead, if_pos hevents]
      exact h
  · have htake : t.take w = t := if_neg fun hcond => hw hcond.2
    have hbusy : ¬m.workers[w]? = some none := by
      rw [getElem?_workers h]
      intro hnone
      obtain ⟨x, hx, hmap⟩ := Option.map_eq_some_iff.1 hnone
      rw [Option.map_eq_none_iff.1 hmap] at hx
      exact hw hx
    rw [htake, Machine.pop, if_neg hbusy]
    exact h

theorem Machine.Holds.run (h : m.Holds capcity t) (w : Nat) :
    ∃ m', m.run w = some m' ∧ m'.Holds capcity (t.finish w) := by
  have hworker := getElem?_workers h w
  rw [Machine.run, Tickets.finish]
  cases hw : t.held[w]? with
  | none =>
    rw [hworker, hw]
    exact ⟨m, rfl, h⟩
  | some x =>
    cases x with
    | none =>
      rw [hworker, hw]
      exact ⟨m, rfl, h⟩
    | some k =>
      have hmem : some k ∈ t.held := List.mem_of_getElem? hw
      have hlt : k < m.added.length :=
        h.length_added.symm ▸ Nat.lt_of_lt_of_le (h.tickets.lt_of_held hmem) h.tickets.le
      have hadded : m.added[k]? = some m.added[k] := List.getElem?_eq_getElem hlt
      have htask := (h.slots k (.inr hmem)).trans hadded
      have harg : m.added[k].args ≠ NULL := h.args _ (List.getElem_mem hlt)
      have hticket := h.tickets.finish w
      rw [Tickets.finish, hw] at hticket
      have hrun : m.workers[w]? = some (some (k % capcity)) := by
        rw [hworker, hw]
        rfl
      rw [hrun]
      dsimp only
      rw [htask]
      dsimp only
      rw [if_neg harg]
      refine ⟨_, rfl, ?_⟩
      constructor
      · exact hticket
      · exact h.queue_capcity
      · exact h.queue
      · exact h.events
      · exact h.shutdown
      · show m.workers.set w none = _
        rw [h.workers, List.map_set]
        rfl
      · exact h.length_added
      · rw [List.map_append, List.map_append, h.ran, List.map_singleton, List.map_singleton, hadded]
      · intro k' hk'
        apply h.slots k'
        rcases hk' with hqueued | hk'
        · exact .inl hqueued
        · rcases List.mem_or_eq_of_mem_set hk' with hmem' | heq
          · exact .inr hmem'
          · cases heq
      · exact h.args

/-- A step that fits is one of the counter of tickets. -/
theorem Machine.Holds.step (routines : Routines) (h : m.Holds capcity t)
    (hfits : Fits capcity t e) :
    ∃ m', m.step routines e = some (m', (spec t e).2) ∧ m'.Holds capcity (spec t e).1 := by
  cases e with
  | add arg ctl =>
    obtain ⟨m', hcall, hm'⟩ := h.add hfits (routines m.added.length).property
    exact ⟨m', congrArg some hcall, hm'⟩
  | addNull arg ctl => exact ⟨m, rfl, h⟩
  | pop w => exact ⟨m.pop w, rfl, h.pop w⟩
  | run w =>
    obtain ⟨m', hrun, hm'⟩ := h.run w
    refine ⟨m', ?_, hm'⟩
    rw [Machine.step, hrun]
    rfl

/-- When the workers are idle, every task that was added has been run once. -/
theorem Machine.Holds.perm (h : m.Holds capcity t) (hidle : m.Idle) : m.ran.Perm m.added := by
  have htaken : t.taken = t.drawn := by
    have hsize := h.queue.size
    rw [← h.events, hidle.1] at hsize
    exact hsize
  have hheld : ∀ x ∈ t.held, x = none := by
    intro x hx
    have hmem : x.map (· % capcity) ∈ m.workers := h.workers ▸ List.mem_map_of_mem hx
    exact Option.map_eq_none_iff.1 (hidle.2 _ hmem)
  have hperm := (h.tickets.all_done htaken hheld).map (m.added[·]?)
  have hadded : (List.range t.drawn).map (m.added[·]?) = m.added.map some := by
    rw [← h.length_added]
    apply List.ext_getElem
    · rw [List.length_map, List.length_map, List.length_range]
    · intro k _ hk
      rw [List.length_map] at hk
      rw [List.getElem_map, List.getElem_map, List.getElem_range, List.getElem?_eq_getElem hk]
  rw [← h.ran, hadded] at hperm
  have hfilter := hperm.filterMap id
  rwa [List.filterMap_map, List.filterMap_map, Function.id_comp, List.filterMap_some,
    List.filterMap_some] at hfilter

end Steps

theorem create_eq (h : threadpoolCreate thread_count queue_size = some pool) :
    0 < queue_size ∧ 0 < thread_count ∧
      pool = ⟨⟨createThreadQueue queue_size, 0⟩, thread_count.toNat, 0⟩ := by
  rw [threadpoolCreate] at h
  split at h
  · cases h
  · rename_i hpos
    obtain ⟨hthreads, hsize⟩ := not_or.1 hpos
    exact ⟨Int.not_le.1 hsize, Int.not_le.1 hthreads, (Option.some.inj h).symm⟩

theorem start_holds (h : threadpoolCreate thread_count queue_size = some pool) :
    (Machine.start pool).Holds queue_size.toNat (Tickets.start thread_count.toNat) := by
  obtain ⟨hsize, _, rfl⟩ := create_eq h
  have hpos : 0 < queue_size.toNat := Int.pos_iff_toNat_pos.1 hsize
  have hcap : (createThreadQueue queue_size).capcity = queue_size.toNat := if_pos hsize
  constructor
  · exact Tickets.Holds.start _
  · exact hcap
  · constructor
    · exact hcap.symm ▸ hpos
    · exact List.length_replicate
    · exact (Nat.zero_mod _).symm
    · exact (Nat.zero_mod _).symm
    · rfl
    · exact Nat.zero_le _
  · rfl
  · rfl
  · rw [Tickets.start, List.map_replicate]
    rfl
  · rfl
  · rfl
  · intro k hk
    rcases hk with ⟨_, hlt⟩ | hk
    · cases hlt
    · cases List.eq_of_mem_replicate hk
  · intro task htask
    cases htask

theorem meets_work (t : Tickets) (h : ∀ e ∈ rest, e.IsWork) :
    Meets spec (Fits capcity) t rest := by
  induction rest generalizing t with
  | nil => trivial
  | cons e rest ih =>
    refine ⟨?_, ih _ fun e' he' => h e' (List.mem_cons_of_mem _ he')⟩
    have he := h e List.mem_cons_self
    cases e with
    | add arg ctl => cases he
    | addNull arg ctl => cases he
    | pop w => trivial
    | run w => trivial

/-- In a run whose steps all fit, every task is run once. -/
theorem served_of_meets (h : threadpoolCreate thread_count queue_size = some pool)
    (hmeets : Meets spec (Fits queue_size.toNat) (Tickets.start thread_count.toNat) schedule)
    (routines : Routines) : Served routines pool schedule := by
  intro rest hrest
  obtain ⟨m, hrun, hm⟩ := tryRun_of_meets (fun m t e hm hfits => hm.step routines hfits)
    (start_holds h) (hmeets.append (meets_work _ hrest))
  exact ⟨_, hrun, hm.perm⟩

end BigBox.Threadpool
