import BigBox.Threadpool.Threadpool

namespace BigBox.Threadpool
set_option autoImplicit true

/-- What a step does to the machine of an open pool. -/
inductive Moves (routines : Routines) (m : Machine) : Machine → Prop
  | stay : Moves routines m m
  | drop (arg : Nat) : Moves routines m
      { m with added := m.added ++ [⟨(routines m.added.length).val, arg⟩] }
  | push (arg n tail : Nat) (hn : n ≤ m.pool.queue.events + 1) : Moves routines m
      { m with
        pool := { m.pool with
          queue := ⟨{ m.pool.queue.queue with
            tasks := m.pool.queue.queue.tasks.set m.pool.queue.queue.tail
              ⟨(routines m.added.length).val, arg⟩
            tail := tail
            size := m.pool.queue.queue.size + 1 }, n⟩ }
        added := m.added ++ [⟨(routines m.added.length).val, arg⟩] }
  | wake (w : Nat) (hempty : m.pool.queue.queue.size = 0) (hw : m.workers[w]? = some none)
      (hevents : m.pool.queue.events ≠ 0) : Moves routines m
      { m with
        pool := { m.pool with queue := ⟨m.pool.queue.queue, m.pool.queue.events - 1⟩ }
        workers := m.workers.set w none }
  | pop (w i head : Nat) (hsize : m.pool.queue.queue.size ≠ 0) (hw : m.workers[w]? = some none)
      (hevents : m.pool.queue.events ≠ 0) : Moves routines m
      { m with
        pool := { m.pool with
          queue := ⟨{ m.pool.queue.queue with
            head := head, size := m.pool.queue.queue.size - 1 }, m.pool.queue.events - 1⟩ }
        workers := m.workers.set w (some i) }
  | run (w i : Nat) {task : QueueTask} (hw : m.workers[w]? = some (some i))
      (htask : m.pool.queue.queue.tasks[i]? = some task) (harg : task.args ≠ NULL) :
      Moves routines m { m with workers := m.workers.set w none, ran := m.ran ++ [task] }

section Moves
variable {routines : Routines} {m m' : Machine}

theorem call_moves (hshut : m.pool.shutdown = 0) (arg : Nat) (ctl : Bool) :
    Moves routines m (m.call (routines m.added.length).val arg ctl).1 := by
  rw [call_eq m hshut (routines m.added.length).property, asyncEventfdQueuePushTail]
  split
  · exact .drop arg
  · rename_i hfull
    rw [threadQueuePushTail, if_neg hfull]
    cases ctl with
    | false => exact .push arg _ _ (Nat.le_succ _)
    | true => exact .push arg _ _ (Nat.le_refl _)

theorem pop_moves (w : Nat) : Moves routines m (m.pop w) := by
  rw [Machine.pop]
  split
  · rename_i hw
    rw [asyncEventfdQueuePopHead]
    by_cases hevents : m.pool.queue.events = 0
    · rw [if_pos hevents]
      exact .stay
    · rw [if_neg hevents, threadQueuePopHead]
      by_cases hempty : threadQueueIsEmpty m.pool.queue.queue = true
      · rw [if_pos hempty]
        exact .wake w ((threadQueueIsEmpty_iff _).1 hempty) hw hevents
      · rw [if_neg hempty]
        exact .pop w _ _ (fun hsize => hempty ((threadQueueIsEmpty_iff _).2 hsize)) hw hevents
  · exact .stay

theorem run_moves (w : Nat) (h : m.run w = some m') : Moves routines m m' := by
  rw [Machine.run] at h
  split at h
  · rename_i i hw
    split at h
    · rename_i task htask
      split at h
      · cases h
      · rename_i harg
        cases h
        exact .run w i hw htask harg
    · cases h
  · cases h
    exact .stay

theorem step_moves (hshut : m.pool.shutdown = 0) (h : m.step routines e = some (m', r)) :
    Moves routines m m' := by
  cases e with
  | add arg ctl =>
    cases h
    exact call_moves hshut arg ctl
  | addNull arg ctl =>
    cases h
    exact .stay
  | pop w =>
    cases h
    exact pop_moves w
  | run w =>
    obtain ⟨m₁, hrun, heq⟩ := Option.map_eq_some_iff.1 h
    cases heq
    exact run_moves w hrun

end Moves

/-- Functions that tell the tasks apart. -/
def own : Routines := fun n => ⟨n + 1, Nat.succ_ne_zero n⟩

/-- What holds in every run whose tasks all have functions of their own. -/
structure Machine.Own (m : Machine) : Prop where
  shutdown : m.pool.shutdown = 0
  workers : m.workers ≠ []
  added : ∀ k task, m.added[k]? = some task → task.run = k + 1
  tasks : ∀ task ∈ m.pool.queue.queue.tasks, task.run ≤ m.added.length
  distinct : ∀ (i j : Nat) (task task' : QueueTask), m.pool.queue.queue.tasks[i]? = some task →
    m.pool.queue.queue.tasks[j]? = some task' → task.run = task'.run → task.run ≠ 0 → i = j
  ran : ∀ task ∈ m.ran, task.run ≤ m.added.length ∧ task.args ≠ NULL
  count : m.ran.length + (m.workers.reduceOption.length + m.pool.queue.queue.size) ≤
    m.added.length

/-- A task that no worker will ever run, or one that no `eventfd` is left for. -/
def Machine.Lost (m : Machine) : Prop :=
  (∃ task ∈ m.added, task ∉ m.ran ∧ task ∉ m.pool.queue.queue.tasks) ∨
    (∃ task ∈ m.added, task.args = NULL) ∨ m.pool.queue.events < m.pool.queue.queue.size

section Lost
variable {m m' : Machine}

theorem added_concat (h : m.Own) (arg : Nat) :
    ∀ k task, (m.added ++ [⟨(own m.added.length).val, arg⟩])[k]? = some task →
      task.run = k + 1 := by
  intro k task htask
  rcases Nat.lt_or_ge k m.added.length with hlt | hge
  · rw [List.getElem?_append_left hlt] at htask
    exact h.added k task htask
  · rw [List.getElem?_append_right hge] at htask
    obtain ⟨hk, heq⟩ := List.getElem?_eq_some_iff.1 htask
    have hlast : k = m.added.length := by
      rw [List.length_singleton] at hk
      omega
    subst hlast
    rw [← heq, List.getElem_singleton]
    rfl

theorem length_concat (m : Machine) (arg : Nat) :
    (m.added ++ [(⟨(own m.added.length).val, arg⟩ : QueueTask)]).length = m.added.length + 1 :=
  List.length_append

theorem length_set_none {l : List (Option Nat)} (h : l[w]? = some (some i)) :
    l.reduceOption.length = (l.set w none).reduceOption.length + 1 :=
  (reduceOption_set_none h).length_eq

theorem length_set_some {l : List (Option Nat)} (h : l[w]? = some none) (i : Nat) :
    (l.set w (some i)).reduceOption.length = l.reduceOption.length + 1 :=
  (reduceOption_set_some h i).length_eq

theorem set_none_self {l : List (Option Nat)} (h : l[w]? = some none) : l.set w none = l := by
  obtain ⟨hlt, heq⟩ := List.getElem?_eq_some_iff.1 h
  rw [← heq, List.set_getElem_self]

/-- A new task differs from the others by its function. -/
theorem distinct_set {tasks : List QueueTask} {new : QueueTask}
    (h : ∀ (i j : Nat) (task task' : QueueTask), tasks[i]? = some task →
      tasks[j]? = some task' → task.run = task'.run → task.run ≠ 0 → i = j)
    (hnew : ∀ task ∈ tasks, task.run < new.run) (i j : Nat) (task task' : QueueTask)
    (hi : (tasks.set k new)[i]? = some task) (hj : (tasks.set k new)[j]? = some task')
    (heq : task.run = task'.run) (hne : task.run ≠ 0) : i = j := by
  have hold : ∀ (l : Nat) (old : QueueTask), tasks[l]? = some old → old.run ≠ new.run :=
    fun l old hl => Nat.ne_of_lt (hnew old (List.mem_of_getElem? hl))
  rw [List.getElem?_set] at hi hj
  split at hi
  · rename_i hki
    split at hi
    · cases hi
      split at hj
      · rename_i hkj
        exact hki.symm.trans hkj
      · exact absurd heq.symm (hold j task' hj)
    · cases hi
  · split at hj
    · split at hj
      · cases hj
        exact absurd heq (hold i task hi)
      · cases hj
    · exact h i j task task' hi hj heq hne

theorem set_ne_nil {l : List α} (h : l ≠ []) : l.set i a ≠ [] :=
  fun hnil => h ((List.set_eq_nil_iff _ _).1 hnil)

theorem Machine.Own.moves (h : m.Own) (hmoves : Moves own m m') : m'.Own := by
  cases hmoves with
  | stay => exact h
  | drop arg =>
    have hlen := length_concat m arg
    constructor
    · exact h.shutdown
    · exact h.workers
    · exact added_concat h arg
    · intro task htask
      rw [hlen]
      exact Nat.le_succ_of_le (h.tasks task htask)
    · exact h.distinct
    · intro task htask
      rw [hlen]
      exact ⟨Nat.le_succ_of_le (h.ran task htask).1, (h.ran task htask).2⟩
    · rw [hlen]
      exact Nat.le_succ_of_le h.count
  | push arg n tail hn =>
    have hlen := length_concat m arg
    constructor
    · exact h.shutdown
    · exact h.workers
    · exact added_concat h arg
    · intro task htask
      rw [hlen]
      rcases List.mem_or_eq_of_mem_set htask with hmem | rfl
      · exact Nat.le_succ_of_le (h.tasks task hmem)
      · exact Nat.le_refl _
    · exact distinct_set h.distinct fun task htask => Nat.lt_succ_of_le (h.tasks task htask)
    · intro task htask
      rw [hlen]
      exact ⟨Nat.le_succ_of_le (h.ran task htask).1, (h.ran task htask).2⟩
    · rw [hlen]
      exact Nat.succ_le_succ h.count
  | wake w hempty hw hevents =>
    rw [set_none_self hw]
    exact ⟨h.shutdown, h.workers, h.added, h.tasks, h.distinct, h.ran, h.count⟩
  | pop w i head hsize hw hevents =>
    refine ⟨h.shutdown, set_ne_nil h.workers, h.added, h.tasks, h.distinct, h.ran, ?_⟩
    have hcount := h.count
    show m.ran.length + ((m.workers.set w (some i)).reduceOption.length +
      (m.pool.queue.queue.size - 1)) ≤ m.added.length
    rw [length_set_some hw]
    omega
  | @run w i task hw htask harg =>
    refine ⟨h.shutdown, set_ne_nil h.workers, h.added, h.tasks, h.distinct, ?_, ?_⟩
    · intro task' htask'
      rcases List.mem_append.1 htask' with hmem | hmem
      · exact h.ran task' hmem
      · rw [List.mem_singleton.1 hmem]
        exact ⟨h.tasks task (List.mem_of_getElem? htask), harg⟩
    · have hcount := h.count
      rw [length_set_none hw] at hcount
      show (m.ran ++ [task]).length + ((m.workers.set w none).reduceOption.length +
        m.pool.queue.queue.size) ≤ m.added.length
      rw [List.length_append, List.length_singleton]
      omega

/-- What is lost stays lost. -/
theorem Machine.Lost.moves (h : m.Lost) (hown : m.Own) (hmoves : Moves own m m') : m'.Lost := by
  have hfresh : ∀ task ∈ m.added, ∀ arg, task ≠ ⟨(own m.added.length).val, arg⟩ := by
    rintro task htask arg rfl
    obtain ⟨k, hk⟩ := List.mem_iff_getElem?.1 htask
    have hrun := hown.added k _ hk
    obtain ⟨hlt, _⟩ := List.getElem?_eq_some_iff.1 hk
    exact Nat.ne_of_gt hlt (Nat.succ.inj hrun)
  rcases h with ⟨task, htask, hran, htasks⟩ | ⟨task, htask, harg⟩ | hlt
  · left
    cases hmoves with
    | stay => exact ⟨task, htask, hran, htasks⟩
    | drop arg => exact ⟨task, List.mem_append_left _ htask, hran, htasks⟩
    | push arg n tail hn =>
      refine ⟨task, List.mem_append_left _ htask, hran, ?_⟩
      intro hmem
      rcases List.mem_or_eq_of_mem_set hmem with hold | hnew
      · exact htasks hold
      · exact hfresh task htask arg hnew
    | wake w hempty hw hevents => exact ⟨task, htask, hran, htasks⟩
    | pop w i head hsize hw hevents => exact ⟨task, htask, hran, htasks⟩
    | run w i hw hget harg =>
      refine ⟨task, htask, ?_, htasks⟩
      intro hmem
      rcases List.mem_append.1 hmem with hold | hnew
      · exact hran hold
      · rw [List.mem_singleton.1 hnew] at htasks
        exact htasks (List.mem_of_getElem? hget)
  · right
    left
    refine ⟨task, ?_, harg⟩
    cases hmoves with
    | stay => exact htask
    | drop arg => exact List.mem_append_left _ htask
    | push arg n tail hn => exact List.mem_append_left _ htask
    | wake w hempty hw hevents => exact htask
    | pop w i head hsize hw hevents => exact htask
    | run w i hw hget harg => exact htask
  · right
    right
    cases hmoves with
    | stay => exact hlt
    | drop arg => exact hlt
    | push arg n tail hn => exact Nat.lt_succ_of_le (Nat.le_trans hn hlt)
    | wake w hempty hw hevents => exact absurd hempty (Nat.ne_of_gt (Nat.zero_lt_of_lt hlt))
    | pop w i head hsize hw hevents =>
      exact Nat.sub_lt_sub_right (Nat.one_le_iff_ne_zero.2 hevents) hlt
    | run w i hw hget harg => exact hlt

theorem Machine.Lost.not_perm (h : m.Lost) (hown : m.Own) (hidle : m.Idle) :
    ¬m.ran.Perm m.added := by
  intro hperm
  rcases h with ⟨task, htask, hran, _⟩ | ⟨task, htask, harg⟩ | hlt
  · exact hran (hperm.mem_iff.2 htask)
  · exact (hown.ran task (hperm.mem_iff.2 htask)).2 harg
  · have hcount := hown.count
    have hlen := hperm.length_eq
    have hevents := hidle.1
    omega

/-- A step that does not fit loses a task. -/
theorem Machine.Holds.lost (h : m.Holds capcity t) (hown : m.Own) (hfits : ¬Fits capcity t e)
    (hstep : m.step own e = some (m', r)) : m'.Lost := by
  cases e with
  | addNull arg ctl => exact absurd trivial hfits
  | pop w => exact absurd trivial hfits
  | run w => exact absurd trivial hfits
  | add arg ctl =>
    have hcall := call_eq m h.shutdown (own m.added.length).property arg ctl
    have hm' : m' = (m.call (own m.added.length).val arg ctl).1 := by cases hstep; rfl
    have hran : ⟨(own m.added.length).val, arg⟩ ∉ m.ran := fun hmem =>
      Nat.not_succ_le_self _ (hown.ran _ hmem).1
    rw [hm', hcall]
    by_cases hfree : t.drawn < t.taken + m.pool.queue.queue.capcity
    · have hfull : ¬threadQueueIsFull m.pool.queue.queue = true :=
        fun hfull => h.queue.full_iff.1 hfull hfree
      obtain ⟨q, hpush, hq, hcap, htasks⟩ :=
        h.queue.push hfree ⟨(own m.added.length).val, arg⟩
      have hqueue : (asyncEventfdQueuePushTail m.pool.queue ⟨(own m.added.length).val, arg⟩
          ctl).1.queue = q := by
        rw [asyncEventfdQueuePushTail, if_neg hfull, hpush]
        cases ctl with
        | false => rfl
        | true => rfl
      by_cases hheld : ∀ k, some k ∈ t.held → k % capcity ≠ t.drawn % capcity
      · by_cases hctl : ctl = true
        · right
          left
          refine ⟨_, List.mem_append_right _ (List.mem_singleton_self _), ?_⟩
          by_contra harg
          exact hfits ⟨harg, hctl, h.queue_capcity ▸ hfree, hheld⟩
        · right
          right
          have hevents : (asyncEventfdQueuePushTail m.pool.queue
              ⟨(own m.added.length).val, arg⟩ ctl).1.events = m.pool.queue.events := by
            rw [asyncEventfdQueuePushTail, if_neg hfull]
            exact congrArg (fun r : ThreadAsyncQueue × Nat => r.1.events) (if_neg hctl)
          have hsize := hq.size
          have hsize' := h.queue.size
          have hevents' := h.events
          show (asyncEventfdQueuePushTail m.pool.queue _ ctl).1.events <
            (asyncEventfdQueuePushTail m.pool.queue _ ctl).1.queue.size
          rw [hevents, hqueue]
          omega
      · left
        obtain ⟨k, hk⟩ := not_forall.1 hheld
        obtain ⟨hk, hslot⟩ := Classical.not_imp.1 hk
        have hlt : k < m.added.length :=
          h.length_added.symm ▸ Nat.lt_of_lt_of_le (h.tickets.lt_of_held hk) h.tickets.le
        have hadded : m.added[k]? = some m.added[k] := List.getElem?_eq_getElem hlt
        have hget := (h.slots k (.inr hk)).trans hadded
        have hrun := hown.added k _ hadded
        refine ⟨m.added[k], List.mem_append_left _ (List.getElem_mem hlt), ?_, ?_⟩
        · intro hmem
          have hmem' : some m.added[k] ∈ t.done.map (m.added[·]?) :=
            h.ran ▸ List.mem_map_of_mem hmem
          obtain ⟨k', hk', hget'⟩ := List.mem_map.1 hmem'
          cases Nat.succ.inj (hrun.symm.trans (hown.added k' _ hget'))
          exact h.tickets.not_done hk hk'
        · intro hmem
          change _ ∈ (asyncEventfdQueuePushTail m.pool.queue _ ctl).1.queue.tasks at hmem
          rw [hqueue, htasks] at hmem
          obtain ⟨i, hi⟩ := List.mem_iff_getElem?.1 hmem
          rw [List.getElem?_set] at hi
          split at hi
          · split at hi
            · have heq := congrArg QueueTask.run (Option.some.inj hi)
              rw [hrun] at heq
              exact Nat.ne_of_gt hlt (Nat.succ.inj heq)
            · cases hi
          · rename_i hne
            have hsame := hown.distinct i _ _ _ hi hget rfl (hrun ▸ Nat.succ_ne_zero k)
            rw [hsame, h.queue_capcity] at hne
            exact hslot fun heq => hne heq.symm
    · left
      refine ⟨_, List.mem_append_right _ (List.mem_singleton_self _), hran, ?_⟩
      have hfull : threadQueueIsFull m.pool.queue.queue = true := h.queue.full_iff.2 hfree
      rw [asyncEventfdQueuePushTail, if_pos hfull]
      exact fun hmem => Nat.not_succ_le_self _ (hown.tasks _ hmem)

end Lost

theorem pop_eq {m : Machine} (hw : m.workers[w]? = some none)
    (hevents : m.pool.queue.events ≠ 0) :
    ∃ q x, m.pop w = { m with
      pool := { m.pool with queue := ⟨q, m.pool.queue.events - 1⟩ }
      workers := m.workers.set w x } := by
  rw [Machine.pop, if_pos hw, asyncEventfdQueuePopHead, if_neg hevents]
  exact ⟨_, _, rfl⟩

theorem run_eq {m m' : Machine} (hw : m.workers[w]? = some (some i)) (h : m.run w = some m') :
    m'.pool = m.pool ∧ m'.workers = m.workers.set w none := by
  rw [Machine.run, hw] at h
  dsimp only at h
  split at h
  · split at h
    · cases h
    · cases h
      exact ⟨rfl, rfl⟩
  · cases h

/-- The workers can always finish. -/
theorem exists_idle (routines : Routines) (m : Machine) (hworkers : m.workers ≠ []) :
    ∃ rest : List Event, (∀ e ∈ rest, e.IsWork) ∧
      ∀ r, tryRun (Machine.step routines) m rest = some r → r.1.Idle := by
  induction hn : 2 * m.pool.queue.events + m.workers.reduceOption.length
    using Nat.strong_induction_on generalizing m with
  | _ n ih =>
    have hstep : ∀ e : Event, e.IsWork → (∀ m' r, m.step routines e = some (m', r) →
        m'.workers ≠ [] ∧
          2 * m'.pool.queue.events + m'.workers.reduceOption.length < n) →
        ∃ rest : List Event, (∀ e ∈ rest, e.IsWork) ∧
          ∀ r, tryRun (Machine.step routines) m rest = some r → r.1.Idle := by
      intro e he hless
      cases hm : m.step routines e with
      | none =>
        refine ⟨[e], List.forall_mem_singleton.2 he, fun r hr => ?_⟩
        rw [tryRun_cons_none hm] at hr
        cases hr
      | some r =>
        obtain ⟨hw, hlt⟩ := hless r.1 r.2 hm
        obtain ⟨rest, hrest, hidle⟩ := ih _ hlt r.1 hw rfl
        refine ⟨e :: rest, List.forall_mem_cons.2 ⟨he, hrest⟩, fun r' hr' => ?_⟩
        rw [tryRun_cons hm] at hr'
        obtain ⟨r₁, hr₁, heq⟩ := Option.map_eq_some_iff.1 hr'
        cases heq
        exact hidle r₁ hr₁
    by_cases hbusy : ∀ x ∈ m.workers, x = none
    · by_cases hevents : m.pool.queue.events = 0
      · refine ⟨[], List.forall_mem_nil _, fun r hr => ?_⟩
        cases hr
        exact ⟨hevents, hbusy⟩
      · obtain ⟨x, workers, hcons⟩ := List.exists_cons_of_ne_nil hworkers
        have hw : m.workers[0]? = some none := by
          rw [hcons, hbusy x (hcons ▸ List.mem_cons_self)]
          rfl
        obtain ⟨q, y, hpop⟩ := pop_eq hw hevents
        apply hstep (.pop 0) trivial
        intro m' r hm'
        cases hm'
        rw [hpop]
        constructor
        · exact set_ne_nil hworkers
        · have hle : (m.workers.set 0 y).reduceOption.length ≤
              m.workers.reduceOption.length + 1 := by
            cases y with
            | none =>
              rw [set_none_self hw]
              exact Nat.le_succ _
            | some i => exact Nat.le_of_eq (length_set_some hw i)
          show 2 * (m.pool.queue.events - 1) + (m.workers.set 0 y).reduceOption.length < n
          omega
    · obtain ⟨x, hx⟩ := not_forall.1 hbusy
      obtain ⟨hmem, hx⟩ := Classical.not_imp.1 hx
      obtain ⟨i, rfl⟩ := Option.ne_none_iff_exists'.1 hx
      obtain ⟨w, hw⟩ := List.mem_iff_getElem?.1 hmem
      apply hstep (.run w) trivial
      intro m' r hm'
      obtain ⟨m₁, hrun, heq⟩ := Option.map_eq_some_iff.1 hm'
      cases heq
      obtain ⟨hpool, hset⟩ := run_eq hw hrun
      have hlen := length_set_none hw
      rw [hpool, hset]
      exact ⟨set_ne_nil hworkers, by omega⟩

theorem tryRun_own (h : m.Own) (hrun : tryRun (Machine.step own) m schedule = some r) :
    r.1.Own := by
  have hstep : ∀ (m : Machine) (e : Event) (m' : Machine) (r : Int), m.Own →
      m.step own e = some (m', r) → m'.Own :=
    fun _ _ _ _ hm hstep => hm.moves (step_moves hm.shutdown hstep)
  exact tryRun_invariant hstep h hrun

theorem tryRun_lost (h : m.Lost) (hown : m.Own)
    (hrun : tryRun (Machine.step own) m schedule = some r) : r.1.Lost := by
  have hstep : ∀ (m : Machine) (e : Event) (m' : Machine) (r : Int), m.Own ∧ m.Lost →
      m.step own e = some (m', r) → m'.Own ∧ m'.Lost :=
    fun _ _ _ _ hm hstep => ⟨hm.1.moves (step_moves hm.1.shutdown hstep),
      hm.2.moves hm.1 (step_moves hm.1.shutdown hstep)⟩
  exact (tryRun_invariant hstep ⟨hown, h⟩ hrun).2

theorem start_own (h : threadpoolCreate thread_count queue_size = some pool) :
    (Machine.start pool).Own := by
  obtain ⟨_, hthreads, rfl⟩ := create_eq h
  constructor
  · rfl
  · intro hnil
    have hlen := congrArg List.length hnil
    rw [Machine.start, List.length_replicate, List.length_nil] at hlen
    exact Nat.ne_of_gt (Int.pos_iff_toNat_pos.1 hthreads) hlen
  · intro k task htask
    cases htask
  · intro task htask
    cases List.eq_of_mem_replicate htask
    exact Nat.le_refl _
  · intro i j task task' hi _ _ hne
    cases List.eq_of_mem_replicate (List.mem_of_getElem? hi)
    exact absurd rfl hne
  · intro task htask
    cases htask
  · show 0 + ((List.replicate thread_count.toNat none).reduceOption.length + 0) ≤ 0
    rw [List.reduceOption_replicate_none]
    exact Nat.le_refl _

/-- Every task of a run is run once, with any functions, just when each call of `threadpool_add`
finds what it needs. -/
theorem exactly_once_iff (h : threadpoolCreate thread_count queue_size = some pool)
    (schedule : List Event) :
    (∀ routines, Served routines pool schedule) ↔
      Meets spec (Fits queue_size.toNat) (Tickets.start thread_count.toNat) schedule := by
  constructor
  · intro hserved
    by_contra hmeets
    obtain ⟨pre, e, post, rfl, hpre, hfits⟩ := exists_of_not_meets hmeets
    obtain ⟨m, hrun, hm⟩ := tryRun_of_meets
      (fun m t e hm hfits => hm.step own hfits) (start_holds h) hpre
    have hown := tryRun_own (start_own h) hrun
    have hsplit : ∀ rest : List Event, (∀ e ∈ rest, e.IsWork) →
        ∃ r₁ r₂, tryRun (Machine.step own) m (e :: post) = some r₁ ∧
          tryRun (Machine.step own) r₁.1 rest = some r₂ ∧
          (r₂.1.Idle → r₂.1.ran.Perm r₂.1.added) := by
      intro rest hrest
      obtain ⟨r, hr, hperm⟩ := hserved own rest hrest
      obtain ⟨r₁, r₂, hr₁, hr₂, heq⟩ := tryRun_append_some hr
      obtain ⟨r₀, r₁', hr₀, hr₁', heq'⟩ := tryRun_append_some hr₁
      cases hrun.symm.trans hr₀
      exact ⟨r₁', r₂, hr₁', heq' ▸ hr₂, heq ▸ hperm⟩
    obtain ⟨r₁, _, hr₁, _⟩ := hsplit [] (List.forall_mem_nil _)
    have hown₁ := tryRun_own hown hr₁
    have hlost : r₁.1.Lost := by
      obtain ⟨r, hstep, hpost⟩ := Option.bind_eq_some_iff.1 hr₁
      obtain ⟨r', hr', heq⟩ := Option.map_eq_some_iff.1 hpost
      cases heq
      have hlast := tryRun_lost (hm.lost hown hfits hstep)
        (hown.moves (step_moves hown.shutdown hstep)) hr'
      exact hlast
    obtain ⟨rest, hrest, hidle⟩ := exists_idle own r₁.1 hown₁.workers
    obtain ⟨r₁', r₂, hr₁', hr₂, hperm⟩ := hsplit rest hrest
    cases hr₁.symm.trans hr₁'
    exact (tryRun_lost hlost hown₁ hr₂).not_perm (tryRun_own hown₁ hr₂) (hidle r₂ hr₂)
      (hperm (hidle r₂ hr₂))
  · intro hmeets routines
    exact served_of_meets h hmeets routines

theorem exactly_once_single :
    Served own ⟨⟨createThreadQueue 1, 0⟩, 1, 0⟩ [.add 1 true, .pop 0, .run 0] :=
  (exactly_once_iff (rfl : threadpoolCreate 1 1 = some ⟨⟨createThreadQueue 1, 0⟩, 1, 0⟩)
    [.add 1 true, .pop 0, .run 0]).2
    ⟨⟨by decide, rfl, by decide, fun _ hk => by cases List.mem_singleton.1 hk⟩,
      trivial, trivial, trivial⟩ own

/-- A task is added after the last one was popped, and before it is run. -/
theorem not_exactly_once : ∃ pool, threadpoolCreate 1 1 = some pool ∧
    ¬Served own pool [.add 1 true, .pop 0, .add 1 true, .run 0] := by
  refine ⟨_, rfl, fun h => ?_⟩
  obtain ⟨r, hr, hperm⟩ := h [.pop 0, .run 0]
    (List.forall_mem_cons.2 ⟨trivial, List.forall_mem_singleton.2 trivial⟩)
  cases hr
  exact absurd (hperm ⟨rfl, List.forall_mem_singleton.2 rfl⟩) (by decide)

end BigBox.Threadpool
