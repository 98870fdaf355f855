import BigBox.Timer.Timerfd

namespace BigBox.Timer
open Buckets
set_option autoImplicit true

/-- The entries of a finite map are those registered. -/
structure HashSpec.Registers (s : HashSpec Text (Option Tm)) (r : Registered) : Prop where
  live : ∀ fd p, (p, num fd) ∈ s.live ↔ (r fd).map Prod.fst = some p
  timer : ∀ fd, s.map.lookup (num fd) = (r fd).map fun e => some e.2

/-- The look-up of the text of a descriptor finds the entry registered for it, which is no other
descriptor's. -/
structure Found (s : Timermap × Registered) : Prop where
  lookup : ∀ fd, hashLookup s.1 (num fd) = some ((s.2 fd).map Prod.fst)
  data : ∀ fd e, s.2 fd = some e → s.1.data e.1 = some e.2
  distinct : ∀ fd fd' e e', s.2 fd = some e → s.2 fd' = some e' → e.1 = e'.1 → fd = fd'

/-- A timer is registered when it is added, until it is deleted, and an event of a descriptor
executes the timer registered for it. -/
def Served (s : Timermap × Registered) (call : TimerCall) (s' : Timermap × Registered)
    (answer : TimerAnswer) : Prop :=
  match call with
  | .addTimer _ _ _ _ tm => ∃ p, s'.2 = Function.update s.2 tm.mTimerid (some (p, tm.tm))
  | .delTimer tm => s'.2 = Function.update s.2 tm.mTimerid none
  | .listenEvent events fd =>
    s'.2 = s.2 ∧ answer.exec = if events &&& epollIn ≠ 0 then (s.2 fd).map Prod.snd else none

/-- A timer with a descriptor that has no entry gets memory for the duplicate with a zero behind
it. -/
def TimerCall.Ok (r : Registered) : TimerCall → Prop
  | .addTimer _ _ held _ tm =>
    (r tm.mTimerid).isSome ∨ held.getD (num tm.mTimerid).1.length 0 = 0
  | _ => True

/-- The sizes that a table of timers has. -/
def Sized (size : Nat) : Prop := ∃ k, k ≤ 13 ∧ size = 10 * 4 ^ k

structure HashTable.Timers (t : Timermap) (s : HashSpec Text (Option Tm))
    (rows : Nat → List Iter) (r : Registered) : Prop where
  table : t.Table (tmapHashOps []) id hashOpsString id s rows
  registers : s.Registers r
  sized : Sized s.size

/-- A table whose entries are those registered, apart from the memory of the last duplicate. -/
def Holds (s : Timermap × Registered) : Prop :=
  ∃ held t spec rows, s.1 = { t with ops := tmapHashOps held } ∧
    HashTable.Timers t spec rows s.2

section Sizes

theorem Sized.le (h : Sized size) : size ≤ 671088640 := by
  obtain ⟨k, hk, rfl⟩ := h
  have hpow : 4 ^ k ≤ 4 ^ 13 := Nat.pow_le_pow_right (by decide) hk
  omega

theorem Sized.pos (h : Sized size) : 0 < size := by
  obtain ⟨k, _, rfl⟩ := h
  exact Nat.mul_pos (by decide) (Nat.pow_pos (by decide))

theorem grownSize_sized (h : Sized size) :
    grownSize size = 4 * size ∧ Sized (4 * size) ∨ grownSize size < 0 := by
  obtain ⟨k, hk, rfl⟩ := h
  rcases Nat.lt_or_ge k 13 with hlt | hge
  · have hsized : Sized (4 * (10 * 4 ^ k)) := ⟨k + 1, hlt, by rw [Nat.pow_succ]; omega⟩
    refine .inl ⟨?_, hsized⟩
    have hle := hsized.le
    exact toInt_of_lt (Nat.lt_of_le_of_lt hle (by decide))
  · obtain rfl : k = 13 := Nat.le_antisymm hk hge
    right
    rw [grownSize, toInt_of_le (by decide) (by decide)]
    decide

theorem HashSpec.grown_sized {s : HashSpec Q E} (h : Sized s.size) (grow : Bool) :
    Sized (s.grown grow) := by
  rw [HashSpec.grown]
  split
  case isTrue hg =>
    rcases grownSize_sized h with ⟨heq, hsized⟩ | hneg
    · rw [heq]
      exact hsized
    · exact absurd hg.2.2 (Int.not_lt.2 (Int.le_of_lt hneg))
  case isFalse => exact h

theorem HashSpec.indexed_sized {s : HashSpec Q E} (h : Sized s.size) (hash : Q → UInt32) (q : Q) :
    s.indexed hash q :=
  Nat.lt_of_lt_of_le (Nat.mod_lt _ h.pos) (Nat.le_trans h.le (by decide))

theorem HashSpec.grows_sized [DecidableEq Q] {s : HashSpec Q E} (h : Sized s.size) (grow : Bool)
    (q : Q) : s.grows grow q := by
  refine .inr (.inr (.inr ?_))
  rcases grownSize_sized h with ⟨heq, hsized⟩ | hneg
  · rw [heq]
    have hpos := hsized.pos
    omega
  · exact Int.ne_of_lt hneg

end Sizes

section Registers

theorem HashSpec.mem_remove [DecidableEq Q] {s : HashSpec Q E} (h : s.live.Nodup) :
    x ∈ (s.remove (some e)).live ↔ x ≠ e ∧ x ∈ s.live := h.mem_erase_iff

variable {s : HashSpec Text (Option Tm)} {r : Registered}

theorem HashSpec.Registers.assign (h : s.Registers r) (fd : Int32) (e : Iter × Tm) (fd' : Int32) :
    (s.map.insert (num fd) (some e.2)).lookup (num fd') =
      (Function.update r fd (some e) fd').map fun e => some e.2 := by
  rcases eq_or_ne fd' fd with rfl | hne
  · rw [Finmap.lookup_insert, Function.update_self, Option.map_some]
  · rw [Finmap.lookup_insert_of_ne _ fun heq => hne (num_inj heq), Function.update_of_ne hne]
    exact h.timer fd'

/-- A new entry. -/
theorem HashSpec.Registers.register (h : s.Registers r) (hno : r fd = none) (size : Nat)
    (e : Iter × Tm) :
    HashSpec.Registers ⟨size, (e.1, num fd) :: s.live,
      (s.map.insert (num fd) none).insert (num fd) (some e.2)⟩ (Function.update r fd (some e)) where
  live fd' p := by
    rw [List.mem_cons, Prod.mk.injEq]
    rcases eq_or_ne fd' fd with rfl | hne
    · rw [h.live, hno, Function.update_self]
      constructor
      · rintro (⟨rfl, _⟩ | h)
        · rfl
        · cases h
      · intro h
        exact .inl ⟨(Option.some.inj h).symm, rfl⟩
    · rw [Function.update_of_ne hne, ← h.live]
      exact or_iff_right fun heq => hne (num_inj heq.2)
  timer fd' := by
    rw [Finmap.insert_insert]
    exact h.assign fd e fd'

/-- Another timer for a descriptor. -/
theorem HashSpec.Registers.replace (h : s.Registers r) (hfd : (r fd).map Prod.fst = some p)
    (tm : Tm) :
    HashSpec.Registers ⟨s.size, s.live, s.map.insert (num fd) (some tm)⟩
      (Function.update r fd (some (p, tm))) where
  live fd' p' := by
    rw [h.live]
    rcases eq_or_ne fd' fd with rfl | hne
    · rw [hfd, Function.update_self, Option.map_some]
    · rw [Function.update_of_ne hne]
  timer fd' := h.assign fd (p, tm) fd'

theorem HashSpec.Registers.delete (h : s.Registers r) (hnodup : s.live.Nodup)
    (hfd : (r fd).map Prod.fst = some p) :
    (s.remove (some (p, num fd))).Registers (Function.update r fd none) where
  live fd' p' := by
    rw [HashSpec.mem_remove hnodup, h.live, ne_eq, Prod.mk.injEq]
    rcases eq_or_ne fd' fd with rfl | hne
    · rw [hfd, Function.update_self]
      constructor
      · rintro ⟨hno, heq⟩
        exact (hno ⟨(Option.some.inj heq).symm, rfl⟩).elim
      · nofun
    · rw [Function.update_of_ne hne]
      exact and_iff_right fun heq => hne (num_inj heq.2)
  timer fd' := by
    change (s.map.erase (num fd)).lookup (num fd') = _
    rcases eq_or_ne fd' fd with rfl | hne
    · rw [Finmap.lookup_erase, Function.update_self, Option.map_none]
    · rw [Finmap.lookup_erase_ne fun heq => hne (num_inj heq), Function.update_of_ne hne]
      exact h.timer fd'

theorem HashSpec.Registers.absent (h : s.Registers r) (hno : r fd = none) :
    num fd ∉ s.map := by
  rw [← Finmap.lookup_eq_none, h.timer, hno, Option.map_none]

theorem HashSpec.Registers.unregistered (h : s.Registers r) (hno : num fd ∉ s.map) :
    r fd = none := by
  have htimer := h.timer fd
  rw [Finmap.lookup_eq_none.2 hno] at htimer
  exact Option.map_eq_none_iff.1 htimer.symm

end Registers

section Steps
variable {t : Timermap} {spec : HashSpec Text (Option Tm)} {rows : Nat → List Iter}
  {r : Registered}

/-- The entry of a descriptor is the one registered. -/
theorem HashTable.Timers.find (h : t.Timers spec rows r) (fd : Int32) :
    t.find (num fd) = some ((r fd).map Prod.fst) := by
  rcases h.table.find tmapHashOps_faithful (num fd) (HashSpec.indexed_sized h.sized _ _) with
    ⟨e, he, hkey, hrun⟩ | ⟨hno, hrun⟩
  · have hmem : (e.1, num fd) ∈ spec.live := by
      rw [← show e.2 = num fd from hkey]
      exact he
    rw [hrun, (h.registers.live fd e.1).1 hmem]
  · rw [hrun, h.registers.unregistered hno, Option.map_none]

theorem HashTable.Timers.live_nodup (h : t.Timers spec rows r) : spec.live.Nodup :=
  List.Nodup.of_map Prod.fst (h.table.blocks ▸ h.table.nodup)

theorem HashTable.Timers.live (h : t.Timers spec rows r) (he : r fd = some e) :
    (e.1, num fd) ∈ spec.live := by
  rw [h.registers.live, he, Option.map_some]

theorem HashTable.Timers.found (h : t.Timers spec rows r) (held : List UInt8) :
    Found ({ t with ops := tmapHashOps held }, r) where
  lookup fd := (find_agrees (tmapHashOps_agrees h.table.operations held) _).trans (h.find fd)
  data fd e he := by
    have hlookup := h.table.binds.lookup (List.perm_cons_erase (h.live he))
    have htimer := h.registers.timer fd
    rw [hlookup, show r fd = some e from he] at htimer
    exact Option.some.inj htimer
  distinct fd fd' e e' he he' heq := by
    have hnodup : (spec.live.map Prod.fst).Nodup := h.table.blocks ▸ h.table.nodup
    have hsame := List.inj_on_of_nodup_map hnodup (h.live he) (h.live he') heq
    exact num_inj (Prod.mk.inj hsame).2

theorem HashTable.Timers.step (h : t.Timers spec rows r) (call : HashCall Text Tm)
    (hvalid : call.valid spec) (hok : call.ok id hashOpsString spec) :
    ∃ t' rows', t.step id call = some (t', (hashSpec id id spec call).2) ∧
      t'.Table (tmapHashOps []) id hashOpsString id (hashSpec id id spec call).1 rows' := by
  obtain ⟨t', hrun, rows', htable⟩ :=
    hashStep_good tmapHashOps_faithful ⟨rows, h.table⟩ call hvalid hok
  exact ⟨t', rows', hrun, htable⟩

/-- A timer of a descriptor is added. -/
theorem HashTable.Timers.add (h : t.Timers spec rows r) (a : Allocator) (grow : Bool) (fd : Int32)
    (tm : Tm) :
    ∃ t' p spec' rows', hashAdd t a grow (num fd) (some tm) = some (t', some p) ∧
      t'.Timers spec' rows' (Function.update r fd (some (p, tm))) := by
  obtain ⟨t', rows', hrun, htable⟩ := h.step (.add a grow (num fd) (some tm)) trivial
    ⟨HashSpec.indexed_sized h.sized _ _, HashSpec.grows_sized h.sized _ _⟩
  obtain ⟨⟨t₁, iter⟩, hadd, hboth⟩ := Option.map_eq_some_iff.1 hrun
  obtain ⟨rfl, hanswer⟩ := Prod.mk.inj hboth
  have hiter := congrArg HashAnswer.iter hanswer
  change iter = _ at hiter
  cases hfd : r fd with
  | none =>
    have hno : num fd ∉ spec.map := h.registers.absent hfd
    simp only [hashSpec, HashSpec.lookadd, id_eq, if_neg hno] at hiter htable
    have hentry : iter = some (a.pick (spec.live.map Prod.fst)) := by
      rw [hiter]
      exact congrArg (Option.map Prod.fst) (List.find?_cons_of_pos (decide_eq_true rfl))
    refine ⟨t₁, _, _, rows', hentry ▸ hadd, htable, h.registers.register hfd _ (_, tm),
      HashSpec.grown_sized h.sized grow⟩
  | some e =>
    have hin : num fd ∈ spec.map := h.table.binds.mem (List.perm_cons_erase (h.live hfd))
    simp only [hashSpec, HashSpec.lookadd, id_eq, if_pos hin] at hiter htable
    have hentry : iter = some e.1 := by
      rw [hiter]
      exact congrArg (Option.map Prod.fst) (h.table.entry_eq (h.live hfd))
    refine ⟨t₁, e.1, _, rows', hentry ▸ hadd, htable, ?_, h.sized⟩
    exact h.registers.replace (congrArg (Option.map Prod.fst) hfd) tm

/-- A timer of a descriptor is deleted. -/
theorem HashTable.Timers.del (h : t.Timers spec rows r) (fd : Int32) :
    ∃ t' spec' rows', hashDel t (num fd) = some t' ∧
      t'.Timers spec' rows' (Function.update r fd none) := by
  obtain ⟨t', rows', hrun, htable⟩ := h.step (.del (num fd)) trivial
    (HashSpec.indexed_sized h.sized _ _)
  obtain ⟨t₁, hdel, hboth⟩ := Option.map_eq_some_iff.1 hrun
  obtain ⟨rfl, _⟩ := Prod.mk.inj hboth
  simp only [hashSpec, id_eq] at htable
  cases hfd : r fd with
  | none =>
    rw [h.table.entry_absent (h.registers.absent hfd)] at htable
    rw [Function.update_eq_self_iff.2 hfd.symm]
    exact ⟨t₁, spec, rows', hdel, htable, h.registers, h.sized⟩
  | some e =>
    have hentry : spec.entry (num fd) = some (e.1, num fd) := h.table.entry_eq (h.live hfd)
    rw [hentry] at htable
    refine ⟨t₁, _, rows', hdel, htable, ?_, h.sized⟩
    exact h.registers.delete h.live_nodup (congrArg (Option.map Prod.fst) hfd)

theorem Holds.add (h : Holds s) (a : Allocator) (grow : Bool) (held : List UInt8) (ctl : Int)
    (tm : Timerfd) (hok : (TimerCall.addTimer a grow held ctl tm).Ok s.2) :
    ∃ s' answer, timerStep s (.addTimer a grow held ctl tm) = some (s', answer) ∧
      Served s (.addTimer a grow held ctl tm) s' answer ∧ Holds s' := by
  obtain ⟨g, r⟩ := s
  obtain ⟨held', t, spec, rows, rfl, (ht : t.Timers spec rows r)⟩ := h
  obtain ⟨t', p, spec', rows', hadd, ht'⟩ := ht.add a grow tm.mTimerid tm.tm
  have hdup : t.find (num tm.mTimerid) = some none →
      hashKeyDup held (some (num tm.mTimerid)) = hashKeyDup [] (some (num tm.mTimerid)) := by
    intro hfind
    rw [ht.find, Option.some.injEq, Option.map_eq_none_iff] at hfind
    have hno : ¬ (r tm.mTimerid).isSome := Option.not_isSome_iff_eq_none.2 hfind
    have hzero := hok.resolve_left hno
    rw [hashKeyDup_nil]
    exact congrArg some ((dup_eq_iff held _).2 hzero)
  have hrun := hashAdd_agrees (tmapHashOps_agrees ht.table.operations held) rfl
    (congrArg HashOps.keyDup ht.table.operations) a grow (num tm.mTimerid) (some tm.tm) hdup
  rw [hadd, Option.map_some] at hrun
  refine ⟨({ t' with ops := tmapHashOps held }, _), ⟨ctl, none⟩, ?_, ⟨p, rfl⟩, held, t', spec',
    rows', rfl, ht'⟩
  rw [timerStep, addTimer]
  dsimp only
  rw [hrun]
  rfl

theorem Holds.del (h : Holds s) (tm : Timerfd) :
    ∃ s' answer, timerStep s (.delTimer tm) = some (s', answer) ∧
      Served s (.delTimer tm) s' answer ∧ Holds s' := by
  obtain ⟨g, r⟩ := s
  obtain ⟨held, t, spec, rows, rfl, (ht : t.Timers spec rows r)⟩ := h
  obtain ⟨t', spec', rows', hdel, ht'⟩ := ht.del tm.mTimerid
  have hrun := hashDel_agrees (tmapHashOps_agrees ht.table.operations held) (num tm.mTimerid)
  rw [hdel, Option.map_some] at hrun
  refine ⟨({ t' with ops := tmapHashOps held }, _), ⟨-1, none⟩, ?_, rfl, held, t', spec', rows',
    rfl, ht'⟩
  rw [timerStep, delTimer]
  dsimp only
  rw [hrun]
  rfl

theorem Holds.found (h : Holds s) : Found s := by
  obtain ⟨g, r⟩ := s
  obtain ⟨held, t, spec, rows, rfl, (ht : t.Timers spec rows r)⟩ := h
  exact ht.found held

theorem Holds.listen (h : Holds s) (events : UInt32) (fd : Int32) :
    ∃ s' answer, timerStep s (.listenEvent events fd) = some (s', answer) ∧
      Served s (.listenEvent events fd) s' answer ∧ Holds s' := by
  have hexec : listenEvent s.1 events fd =
      some (if events &&& epollIn ≠ 0 then (s.2 fd).map Prod.snd else none) := by
    rw [listenEvent]
    split
    case isFalse => rfl
    case isTrue =>
      rw [h.found.lookup]
      cases hfd : s.2 fd with
      | none => rfl
      | some e => exact congrArg some (h.found.data fd e hfd)
  refine ⟨s, ⟨0, if events &&& epollIn ≠ 0 then (s.2 fd).map Prod.snd else none⟩, ?_, ⟨rfl, rfl⟩, h⟩
  rw [timerStep, hexec, Option.map_some]

/-- The duplicate of a new key goes on behind it: the look-up of the key does not find it. -/
theorem Holds.lost (h : Holds s) (call : TimerCall) (hbad : ¬ call.Ok s.2)
    (hstep : timerStep s call = some (s', answer)) : ¬ Found s' := by
  intro hfound
  cases call with
  | delTimer tm => exact hbad trivial
  | listenEvent events fd => exact hbad trivial
  | addTimer a grow held ctl tm =>
    obtain ⟨g, r⟩ := s
    obtain ⟨held', t, spec, rows, rfl, (ht : t.Timers spec rows r)⟩ := h
    obtain ⟨hno, hbyte⟩ := not_or.1 hbad
    have hfd : r tm.mTimerid = none := Option.not_isSome_iff_eq_none.1 hno
    have hfind : HashTable.find { t with ops := tmapHashOps held } (num tm.mTimerid) =
        some none := by
      rw [find_agrees (tmapHashOps_agrees ht.table.operations held), ht.find, hfd, Option.map_none]
    obtain ⟨⟨g', result⟩, hrun, hboth⟩ := Option.map_eq_some_iff.1 hstep
    obtain ⟨⟨g'', iter⟩, hadd, hret⟩ := Option.bind_eq_some_iff.1 hrun
    cases hret
    cases hboth
    obtain ⟨p, rfl, hkey, hops⟩ := hashAdd_absent rfl (num tm.mTimerid) hfind hadd
    have hlookup := hfound.lookup tm.mTimerid
    dsimp only at hlookup
    rw [Function.update_self] at hlookup
    have hsame := find_same hlookup
    rw [hops, hkey] at hsame
    exact hbyte ((dup_eq_iff held _).1 ((strcmp_eq_zero _ _).1 hsame).symm)

theorem timerStep_good (h : Holds s) (call : TimerCall) (hok : call.Ok s.2) :
    ∃ s' answer, timerStep s call = some (s', answer) ∧ Served s call s' answer ∧ Holds s' := by
  cases call with
  | addTimer a grow held ctl tm => exact h.add a grow held ctl tm hok
  | delTimer tm => exact h.del tm
  | listenEvent events fd => exact h.listen events fd

theorem createTimermap_holds (hnew : createTimermap memory = some g) :
    Holds (g, fun _ => none) := by
  obtain ⟨rows, htable⟩ : g.Refines (tmapHashOps []) id hashOpsString id ⟨g.size, [], ∅⟩ :=
    hashNew_refines hnew
  have hsize : g.size = 10 := by
    rw [createTimermap, hashNew] at hnew
    cases hnew
    rfl
  refine ⟨[], g, _, rows, by rw [← htable.operations], htable, ⟨fun fd p => ?_, fun fd => rfl⟩,
    0, by decide, hsize⟩
  apply iff_of_false List.not_mem_nil
  intro hnone
  cases hnone

theorem Holds.sustains_iff (h : Holds s) (calls : List TimerCall) :
    Sustains timerStep Found Served s calls ↔
      Admits timerStep (fun s call => call.Ok s.2) s calls := by
  apply sustains_iff_of_keeps (R := Holds)
  · exact fun s h => h.found
  · exact fun s call h hok => timerStep_good h call hok
  · exact fun s call s' answer h hbad hstep _ => h.lost call hbad hstep
  · exact h

/-- The text of a descriptor finds the entry registered for it, in the runs in which every new
duplicate gets memory with a zero behind its text. -/
theorem timermap_sustains_iff (memory g : Timermap) (hnew : createTimermap memory = some g)
    (calls : List TimerCall) :
    Sustains timerStep Found Served (g, fun _ => none) calls ↔
      Admits timerStep (fun s call => call.Ok s.2) (g, fun _ => none) calls :=
  (createTimermap_holds hnew).sustains_iff calls

end Steps

section Witness

/-- A new table of timers. -/
def emptyTimermap : Timermap where
  nelem := 0
  size := 10
  links := ⟨fun _ => none, fun _ => none, fun _ => none⟩
  key _ := none
  data _ := none
  hkey _ := 0
  foreach _ := 0
  blocks := []
  ops := tmapHashOps []

theorem timermap_sustains_iff_two :
    Sustains timerStep Found Served (emptyTimermap, fun _ => none)
        [.addTimer .next true [] 0 ⟨1, 5⟩, .listenEvent epollIn 5] ↔
      Admits timerStep (fun s call => call.Ok s.2) (emptyTimermap, fun _ => none)
        [.addTimer .next true [] 0 ⟨1, 5⟩, .listenEvent epollIn 5] :=
  timermap_sustains_iff emptyTimermap emptyTimermap rfl _

/-- The memory held 51 in front of its first zero: the timer of the descriptor 5 is kept under the
text 51. -/
theorem not_timermap_sustains :
    createTimermap emptyTimermap = some emptyTimermap ∧
      ¬ Sustains timerStep Found Served (emptyTimermap, fun _ => none)
        [.addTimer .next true [53, 49, 0] 0 ⟨1, 5⟩, .delTimer ⟨1, 5⟩] := by
  refine ⟨rfl, fun hsustains => ?_⟩
  have hadmits := ((createTimermap_holds (rfl : createTimermap emptyTimermap = _)).sustains_iff
    _).1 hsustains
  rcases hadmits.1 with hsome | hbyte
  · cases hsome
  · exact absurd hbyte (by decide)

end Witness

end BigBox.Timer
