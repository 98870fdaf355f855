import BigBox.Lib.TryRun
import Mathlib.Data.Int.DivMod
import Mathlib.Logic.Function.Basic

namespace BigBox.Lapi.Timeout
set_option autoImplicit true

abbrev Tm := Nat

structure Timeval where
  tvSec : Int
  tvUsec : Int

/-- A time in microseconds. -/
def Timeval.us (t : Timeval) : Int := 1000000 * t.tvSec + t.tvUsec

/-- The difference in milliseconds, before it becomes an `int`. -/
def msDiff (t1 t2 : Timeval) : Int :=
  (t1.tvSec - t2.tvSec) * 1000 + (t1.tvUsec - t2.tvUsec).tdiv 1000

def tvDiff (t1 t2 : Timeval) : Int := (msDiff t1 t2).bmod 4294967296

/-- The time of a monotonic clock of nanoseconds. -/
def gettime (now : Nat) : Timeval := ⟨now / 1000000000, now % 1000000000 / 1000⟩

/-- `owned` is whether `owner` is the loop. -/
structure TimeoutEvent where
  owned : Bool
  time : Timeval

/-- The time that `timeout_event_new` stores. -/
def newTime (ms : Int) : Timeval := ⟨ms.tdiv 1000, ms.tmod 1000 * 1000⟩

/-- The time that `timeout_event_settime` stores. -/
def setTime (now : Nat) (ms : Int) : Timeval :=
  let time := gettime now
  let tvSec := time.tvSec + ms.tdiv 1000
  let tvUsec := time.tvUsec + ms.tmod 1000 * 1000
  if 1000000 < tvUsec then ⟨tvSec + 1, tvUsec - 1000000⟩ else ⟨tvSec, tvUsec⟩

/-- `epoll_t` as far as timers go, with the timers, the clock and the time that the loop has read.
A timer is `pending` while it is in `timeoutHead`. `delay` and `due` are no part of the program:
the delay each timer was created with, and the nanosecond at which it is due since it was
added or armed. -/
structure Loop where
  tm : Tm → TimeoutEvent
  timeoutHead : List Tm
  tv : Timeval
  now : Nat
  delay : Tm → Int
  due : Tm → Int

def Loop.time (w : Loop) (tm : Tm) : Timeval := (w.tm tm).time

def eventLoopInit (tm : Tm → TimeoutEvent) (now : Nat) : Loop :=
  ⟨tm, [], gettime now, now, fun _ => 0, fun _ => 0⟩

/-- `dl_list_add_tail` before the first timer that is later, or at the end. -/
def place (time : Tm → Timeval) (tm : Tm) : List Tm → List Tm
  | [] => [tm]
  | item :: list =>
    if 0 < tvDiff (time item) (time tm) then tm :: item :: list else item :: place time tm list

def timeoutEventNew (w : Loop) (tm : Tm) (ms : Int) : Loop :=
  { w with
    tm := Function.update w.tm tm ⟨false, newTime ms⟩
    delay := Function.update w.delay tm ms }

def timeoutEventAdd (w : Loop) (tm : Tm) (due : Int) : Loop × Int :=
  if tm ∈ w.timeoutHead then (w, -1)
  else
    ({ w with
      tm := Function.update w.tm tm { w.tm tm with owned := true }
      timeoutHead := place w.time tm w.timeoutHead
      due := Function.update w.due tm due }, 0)

def timeoutEventCancel (w : Loop) (tm : Tm) : Loop × Int :=
  if tm ∈ w.timeoutHead then ({ w with timeoutHead := w.timeoutHead.erase tm }, 0) else (w, -1)

/-- The timer cancelled, with its new time. -/
def rearmed (w : Loop) (tm : Tm) (ms : Int) : Loop :=
  { w with
    tm := Function.update w.tm tm ⟨(w.tm tm).owned, setTime w.now ms⟩
    timeoutHead := w.timeoutHead.erase tm }

/-- Without an owner `timeout_event_add` is given a null pointer. -/
def timeoutEventSettime (w : Loop) (tm : Tm) (ms : Int) : Loop × Int :=
  if (w.tm tm).owned then timeoutEventAdd (rearmed w tm ms) tm (w.now + 1000000 * ms)
  else (rearmed w tm ms, -1)

/-- The test of the inner loop of `event_loop_run` and its body up to the callback, with the timer
whose callback is invoked. -/
def loopRound (w : Loop) : Loop × Option Tm :=
  match w.timeoutHead with
  | [] => (w, none)
  | t :: _ => if 0 < tvDiff (w.time t) w.tv then (w, none) else ((timeoutEventCancel w t).1, some t)

/-- A run of `event_loop_run` is made of its readings of the clock and the rounds of its inner
loop, of time that passes, and of what callbacks and the program do in between. -/
inductive Event where
  | tick (ns : Nat)
  | new (tm : Tm) (ms : Int)
  | add (tm : Tm)
  | settime (tm : Tm) (ms : Int)
  | cancel (tm : Tm)
  | read
  | round

/-- The memory of a new timer is not that of a pending one, and its delay is positive. -/
def Loop.step (w : Loop) : Event → Loop × Option Tm
  | .tick ns => ({ w with now := w.now + ns }, none)
  | .new tm ms => (if 0 < ms ∧ tm ∉ w.timeoutHead then timeoutEventNew w tm ms else w, none)
  | .add tm => ((timeoutEventAdd w tm (w.now + 1000000 * w.delay tm)).1, none)
  | .settime tm ms => ((timeoutEventSettime w tm ms).1, none)
  | .cancel tm => ((timeoutEventCancel w tm).1, none)
  | .read => ({ w with tv := gettime w.now }, none)
  | .round => loopRound w

/-- A timer is pending, due in a millisecond at most, and no other pending timer is due a
millisecond or more before it. -/
def Loop.Punctual (w : Loop) (tm : Tm) : Prop :=
  tm ∈ w.timeoutHead ∧ w.due tm ≤ w.now + 1000000 ∧
    ∀ other ∈ w.timeoutHead, w.due tm < w.due other + 1000000

def Loop.Serves (w : Loop) (e : Event) : Prop := ∀ tm, (w.step e).2 = some tm → w.Punctual tm

/-- The difference fits in an `int`. -/
def Close (t1 t2 : Timeval) : Prop :=
  -2147483648 ≤ msDiff t1 t2 ∧ msDiff t1 t2 < 2147483648

instance (t1 t2 : Timeval) : Decidable (Close t1 t2) :=
  inferInstanceAs (Decidable (_ ∧ _))

/-- A timer that is added holds the time of the clock and its delay, and the times compared are
less than 2^31 milliseconds apart. -/
def Loop.Ready (w : Loop) : Event → Prop
  | .add tm => tm ∉ w.timeoutHead →
    (w.time tm).us = w.now / 1000 + 1000 * w.delay tm ∧
      ∀ item ∈ w.timeoutHead, Close (w.time item) (w.time tm)
  | .settime tm ms => ∀ item ∈ w.timeoutHead.erase tm, Close (w.time item) (setTime w.now ms)
  | .round => ∀ tm ∈ w.timeoutHead.head?, Close (w.time tm) w.tv
  | _ => True

instance (w : Loop) : (e : Event) → Decidable (w.Ready e)
  | .add tm => inferInstanceAs (Decidable (tm ∉ w.timeoutHead → _ ∧ ∀ item ∈ _, Close _ _))
  | .settime _ _ => inferInstanceAs (Decidable (∀ item ∈ _, Close _ _))
  | .round => inferInstanceAs (Decidable (∀ tm ∈ w.timeoutHead.head?, Close _ _))
  | .tick _ | .new _ _ | .cancel _ | .read => inferInstanceAs (Decidable True)

/-- The pending timers are in order but for a millisecond, each with the time at which it is due,
and the loop has not read a time to come. -/
structure Loop.Keeps (w : Loop) : Prop where
  sorted : w.timeoutHead.Pairwise fun a b => (w.time a).us < (w.time b).us + 1000
  nodup : w.timeoutHead.Nodup
  due : ∀ tm ∈ w.timeoutHead,
    1000 * (w.time tm).us ≤ w.due tm ∧ w.due tm < 1000 * (w.time tm).us + 1000
  read : 1000 * w.tv.us ≤ w.now

theorem us_gettime (now : Nat) : (gettime now).us = now / 1000 := by
  rw [gettime, Timeval.us]
  dsimp only
  omega

theorem us_setTime (now : Nat) (ms : Int) : (setTime now ms).us = now / 1000 + 1000 * ms := by
  have h := Int.mul_tdiv_add_tmod ms 1000
  have hnow := us_gettime now
  rw [Timeval.us] at hnow
  rw [setTime]
  split
  case isTrue =>
    rw [Timeval.us]
    dsimp only
    omega
  case isFalse =>
    rw [Timeval.us]
    dsimp only
    omega

theorem msDiff_bounds (t1 t2 : Timeval) :
    1000 * msDiff t1 t2 - 1000 < t1.us - t2.us ∧ t1.us - t2.us < 1000 * msDiff t1 t2 + 1000 := by
  rw [msDiff, Timeval.us, Timeval.us]
  have h := Int.mul_tdiv_add_tmod (t1.tvUsec - t2.tvUsec) 1000
  have hlt := Int.tmod_lt_of_pos (t1.tvUsec - t2.tvUsec) (by decide : (0 : Int) < 1000)
  have hgt := Int.lt_tmod_of_pos (t1.tvUsec - t2.tvUsec) (by decide : (0 : Int) < 1000)
  omega

theorem tvDiff_of_close (h : Close t1 t2) : tvDiff t1 t2 = msDiff t1 t2 := by
  obtain ⟨hlow, hhigh⟩ := h
  rw [tvDiff]
  exact Int.bmod_eq_of_le (by omega) (by omega)

theorem place_perm (time : Tm → Timeval) (tm : Tm) (list : List Tm) :
    (place time tm list).Perm (tm :: list) := by
  induction list with
  | nil => exact .refl _
  | cons item list ih =>
    rw [place]
    split
    case isTrue => exact .refl _
    case isFalse => exact (ih.cons item).trans (.swap tm item list)

/-- A timer goes behind those that are less than a millisecond later, and in front of a later
one. -/
theorem place_sorted {time : Tm → Timeval} {list : List Tm}
    (hclose : ∀ item ∈ list, Close (time item) (time tm))
    (h : list.Pairwise fun a b => (time a).us < (time b).us + 1000) :
    (place time tm list).Pairwise fun a b => (time a).us < (time b).us + 1000 := by
  induction list with
  | nil => exact List.pairwise_singleton _ _
  | cons item list ih =>
    obtain ⟨hitem, hlist⟩ := List.pairwise_cons.1 h
    have hbounds := msDiff_bounds (time item) (time tm)
    rw [place, tvDiff_of_close (hclose item List.mem_cons_self)]
    split
    case isTrue hlater =>
      refine List.pairwise_cons.2 ⟨fun b hb => ?_, h⟩
      rcases List.mem_cons.1 hb with rfl | hb
      · omega
      · have hlt := hitem b hb
        omega
    case isFalse hearlier =>
      refine List.pairwise_cons.2 ⟨fun b hb => ?_, ?_⟩
      · rcases List.mem_cons.1 ((place_perm time tm list).mem_iff.1 hb) with rfl | hb
        · omega
        · exact hitem b hb
      · exact ih (fun b hb => hclose b (List.mem_cons_of_mem _ hb)) hlist

section Steps
variable {w w' : Loop}

/-- Fewer pending timers with the same times. -/
theorem Loop.Keeps.shrink (h : w.Keeps) (hsub : w'.timeoutHead.Sublist w.timeoutHead)
    (htime : ∀ t ∈ w'.timeoutHead, w'.time t = w.time t) (hdue : w'.due = w.due)
    (htv : w'.tv = w.tv) (hnow : w.now ≤ w'.now) : w'.Keeps where
  sorted := by
    apply List.Pairwise.imp_of_mem _ (h.sorted.sublist hsub)
    intro a b ha hb hab
    rwa [htime a ha, htime b hb]
  nodup := h.nodup.sublist hsub
  due t ht := by
    rw [htime t ht, hdue]
    exact h.due t (hsub.subset ht)
  read := by
    rw [htv]
    exact Int.le_trans h.read (Int.ofNat_le.2 hnow)

theorem Loop.Keeps.add {tm : Tm} {due : Int} (h : w.Keeps) (hnew : tm ∉ w.timeoutHead)
    (hclose : ∀ item ∈ w.timeoutHead, Close (w.time item) (w.time tm))
    (hdue : 1000 * (w.time tm).us ≤ due ∧ due < 1000 * (w.time tm).us + 1000) :
    (timeoutEventAdd w tm due).1.Keeps := by
  rw [timeoutEventAdd, if_neg hnew]
  have hperm := place_perm w.time tm w.timeoutHead
  have htime : Loop.time { w with
      tm := Function.update w.tm tm { w.tm tm with owned := true }
      timeoutHead := place w.time tm w.timeoutHead
      due := Function.update w.due tm due } = w.time := by
    funext t
    by_cases ht : t = tm
    · subst ht
      change (Function.update w.tm t { w.tm t with owned := true } t).time = (w.tm t).time
      rw [Function.update_self]
    · exact congrArg TimeoutEvent.time (Function.update_of_ne ht _ w.tm)
  constructor
  · rw [htime]
    exact place_sorted hclose h.sorted
  · exact hperm.nodup_iff.2 (List.nodup_cons.2 ⟨hnew, h.nodup⟩)
  · intro t ht
    rw [htime]
    dsimp only
    rcases List.mem_cons.1 (hperm.mem_iff.1 ht) with rfl | ht
    · rw [Function.update_self]
      exact hdue
    · rw [Function.update_of_ne fun (heq : t = tm) => hnew (heq ▸ ht)]
      exact h.due t ht
  · exact h.read

theorem Loop.Keeps.cancel (h : w.Keeps) (tm : Tm) : (timeoutEventCancel w tm).1.Keeps := by
  rw [timeoutEventCancel]
  split
  case isTrue => exact h.shrink List.erase_sublist (fun _ _ => rfl) rfl rfl (Nat.le_refl _)
  case isFalse => exact h

theorem Loop.Keeps.rearmed (h : w.Keeps) (tm : Tm) (ms : Int) :
    (Timeout.rearmed w tm ms).Keeps := by
  have htime : ∀ t ∈ w.timeoutHead.erase tm, (Timeout.rearmed w tm ms).time t = w.time t := by
    intro t ht
    have hne : t ≠ tm := (h.nodup.mem_erase_iff.1 ht).1
    exact congrArg TimeoutEvent.time (Function.update_of_ne hne _ w.tm)
  exact h.shrink List.erase_sublist htime rfl rfl (Nat.le_refl _)

theorem Loop.Keeps.settime (h : w.Keeps) (tm : Tm) (ms : Int)
    (hclose : ∀ item ∈ w.timeoutHead.erase tm, Close (w.time item) (setTime w.now ms)) :
    (timeoutEventSettime w tm ms).1.Keeps := by
  rw [timeoutEventSettime]
  split
  case isTrue =>
    have hself : (Timeout.rearmed w tm ms).time tm = setTime w.now ms := by
      change (Function.update w.tm tm ⟨(w.tm tm).owned, setTime w.now ms⟩ tm).time = _
      rw [Function.update_self]
    have hus := us_setTime w.now ms
    apply (h.rearmed tm ms).add
    · exact fun hmem => (h.nodup.mem_erase_iff.1 hmem).1 rfl
    · intro item hitem
      have hne : item ≠ tm := (h.nodup.mem_erase_iff.1 hitem).1
      have htime : (Timeout.rearmed w tm ms).time item = w.time item :=
        congrArg TimeoutEvent.time (Function.update_of_ne hne _ w.tm)
      rw [hself, htime]
      exact hclose item hitem
    · rw [hself]
      omega
  case isFalse => exact h.rearmed tm ms

/-- The timer a round takes is punctual. -/
theorem Loop.Keeps.round (h : w.Keeps)
    (hclose : ∀ tm ∈ w.timeoutHead.head?, Close (w.time tm) w.tv) :
    (loopRound w).1.Keeps ∧ ∀ tm, (loopRound w).2 = some tm → w.Punctual tm := by
  rw [loopRound]
  cases hhead : w.timeoutHead with
  | nil => exact ⟨h, nofun⟩
  | cons t rest =>
    dsimp only
    have hmem : t ∈ w.timeoutHead := hhead ▸ List.mem_cons_self
    rw [tvDiff_of_close (hclose t (by rw [hhead]; rfl))]
    split
    case isTrue => exact ⟨h, nofun⟩
    case isFalse hdone =>
      refine ⟨h.cancel t, ?_⟩
      rintro _ ⟨⟩
      have hbounds := msDiff_bounds (w.time t) w.tv
      have hdue := h.due t hmem
      have hread := h.read
      have hsorted := h.sorted
      rw [hhead, List.pairwise_cons] at hsorted
      refine ⟨hmem, by omega, fun other hother => ?_⟩
      have hother' := h.due other hother
      rw [hhead] at hother
      rcases List.mem_cons.1 hother with rfl | hrest
      · omega
      · have hlt := hsorted.1 other hrest
        omega

theorem Loop.Keeps.step (h : w.Keeps) (hready : w.Ready e) :
    w.Serves e ∧ (w.step e).1.Keeps := by
  cases e with
  | tick ns =>
    exact ⟨nofun, h.shrink (List.Sublist.refl _) (fun _ _ => rfl) rfl rfl (Nat.le_add_right _ _)⟩
  | new tm ms =>
    refine ⟨nofun, ?_⟩
    rw [Loop.step]
    dsimp only
    split
    case isTrue hnew =>
      have htime : ∀ t ∈ w.timeoutHead, (timeoutEventNew w tm ms).time t = w.time t := by
        intro t ht
        have hne : t ≠ tm := fun heq => hnew.2 (heq ▸ ht)
        exact congrArg TimeoutEvent.time (Function.update_of_ne hne _ w.tm)
      exact h.shrink (List.Sublist.refl _) htime rfl rfl (Nat.le_refl _)
    case isFalse => exact h
  | add tm =>
    refine ⟨nofun, ?_⟩
    rw [Loop.step]
    by_cases hmem : tm ∈ w.timeoutHead
    · rw [timeoutEventAdd, if_pos hmem]
      exact h
    · obtain ⟨htime, hclose⟩ := hready hmem
      apply h.add hmem hclose
      omega
  | settime tm ms => exact ⟨nofun, h.settime tm ms hready⟩
  | cancel tm => exact ⟨nofun, h.cancel tm⟩
  | read =>
    refine ⟨nofun, h.sorted, h.nodup, h.due, ?_⟩
    have hus := us_gettime w.now
    change 1000 * (gettime w.now).us ≤ (w.now : Int)
    omega
  | round =>
    obtain ⟨hkeeps, hpunctual⟩ := h.round hready
    exact ⟨hpunctual, hkeeps⟩

end Steps

theorem eventLoopInit_keeps (tm : Tm → TimeoutEvent) (now : Nat) :
    (eventLoopInit tm now).Keeps where
  sorted := List.Pairwise.nil
  nodup := List.nodup_nil
  due := nofun
  read := by
    have hus := us_gettime now
    change 1000 * (gettime now).us ≤ (now : Int)
    omega

/-- The callbacks of every run are punctual whose timers are added with the times they are due. -/
theorem timeouts_punctual (tm : Tm → TimeoutEvent) (now : Nat) (events : List Event)
    (h : Meets Loop.step Loop.Ready (eventLoopInit tm now) events) :
    Meets Loop.step Loop.Serves (eventLoopInit tm now) events :=
  h.of_keeps (fun _ _ hkeeps hready => hkeeps.step hready) (eventLoopInit_keeps tm now)

/-- A timer armed twenty milliseconds ahead is not taken before. -/
theorem timeouts_punctual_armed :
    Meets Loop.step Loop.Serves (eventLoopInit (fun _ => ⟨true, ⟨0, 0⟩⟩) 7000000)
      [.settime 1 20, .settime 2 10, .tick 10000000, .read, .round, .round, .tick 10000000, .read,
        .round] :=
  timeouts_punctual _ _ _ (by decide +kernel)

/-- A timer of three seconds added ten seconds after the clock's start is taken at once. -/
theorem not_timeouts_punctual :
    ¬ Meets Loop.step Loop.Serves (eventLoopInit (fun _ => ⟨false, ⟨0, 0⟩⟩) 10000000000)
      [.new 1 3000, .add 1, .read, .round] := by
  rintro ⟨_, _, _, hround, _⟩
  have hlate := (hround 1 (by decide +kernel)).2.1
  revert hlate
  decide +kernel

end BigBox.Lapi.Timeout
