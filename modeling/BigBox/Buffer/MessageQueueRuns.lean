import BigBox.Buffer.MessageQueueClean

namespace BigBox.Buffer
set_option autoImplicit true

section Steps
variable {mq : MessageQueue} {ms : List Message}

/-- No `mq_clean` that removes some messages leaves 2147483648 or more. -/
def MqCall.ok (ms : List Message) : MqCall → Prop
  | .register _ => True
  | .state _ _ => True
  | .clean => ms.dropWhile Message.isComplete = [] ∨ ms.takeWhile Message.isComplete = [] ∨
    (ms.dropWhile Message.isComplete).length < 2147483648

theorem packed_congr (h : xs.map Message.bytes = ys.map Message.bytes) : packed xs = packed ys := by
  rw [packed, packed, List.flatMap_def, List.flatMap_def, h]

theorem map_bytes_modify (ms : List Message) (index : Nat) (state : MessageItemState) :
    (ms.modify index fun m => { m with state }).map Message.bytes = ms.map Message.bytes := by
  induction ms generalizing index with
  | nil => rw [List.modify_nil]
  | cons m ms ih =>
    cases index with
    | zero => rw [List.modify_zero_cons, List.map_cons, List.map_cons]
    | succ index => rw [List.modify_succ_cons, List.map_cons, List.map_cons, ih]

/-- Another state of one item. -/
theorem MessageQueue.Holds.state (h : mq.Holds buf bufsz ms) (hindex : index < ms.length)
    (state : MessageItemState) :
    MessageQueue.Holds { mq with mem := setState (mqGet mq index) state mq.mem } buf bufsz
      (ms.modify index fun m => { m with state }) := by
  have hbytes := map_bytes_modify ms index state
  have hpacked : packed (ms.modify index fun m => { m with state }) = packed ms :=
    packed_congr hbytes
  have hlen : (ms.modify index fun m => { m with state }).length = ms.length :=
    List.length_modify _ ms index
  have hget := h.get_eq hindex
  have htail := h.tail
  have hcurr := h.curr
  have hapart := h.apart
  refine ⟨h.memStart, h.memEnd, ?_, ?_, hapart, h.currSz, ?_, fun i m hi => ?_⟩
  · rw [hpacked]
    exact hcurr
  · rw [hlen]
    exact htail
  · rw [hpacked, ← h.data, length_readBytes]
    apply readBytes_congr
    intro j hj
    apply setState_apart
    unfold sizeofItem at *
    omega
  · have htake : packed ((ms.modify index fun m => { m with state }).take i) =
        packed (ms.take i) := by
      apply packed_congr
      rw [List.map_take, hbytes, List.map_take]
    rw [htake]
    rw [List.getElem?_modify] at hi
    obtain ⟨m₀, hm₀, hm⟩ := Option.map_eq_some_iff.1 hi
    have hold := h.item i m₀ hm₀
    have hi' : i < ms.length := (List.getElem?_eq_some_iff.1 hm₀).1
    have hget' := h.get_eq hi'
    have hsame :
        mqGet { mq with mem := setState (mqGet mq index) state mq.mem } i = mqGet mq i := rfl
    rw [hsame]
    by_cases he : index = i
    · subst he
      rw [if_pos rfl] at hm
      rw [readItem_setState, hold, ← hm]
    · rw [if_neg he] at hm
      rw [← hm, ← hold]
      apply readItem_congr
      intro j _
      apply setState_apart
      unfold sizeofItem at *
      omega

theorem mqStep_good (hbuf : 0 < buf) (hmax : buf + bufsz < 2 ^ 64) (h : mq.Holds buf bufsz ms)
    (call : MqCall) (hvalid : call.valid mq) (hok : call.ok ms) :
    ∃ mq', mq.step call = some (mq', (mqSpec (buf + bufsz) ms call).2) ∧
      mq'.Holds buf bufsz (mqSpec (buf + bufsz) ms call).1 := by
  cases call with
  | register bytes => exact h.register hmax bytes hvalid.1 hvalid.2
  | state index state => exact ⟨_, rfl, h.state (h.length_eq ▸ hvalid) state⟩
  | clean =>
    obtain ⟨mq', hrun, hholds⟩ := h.clean hbuf hok
    exact ⟨mq', by rw [MessageQueue.step, hrun]; rfl, hholds⟩

theorem mqStep_bad (hbuf : 0 < buf) (h : mq.Holds buf bufsz ms) (call : MqCall)
    (hno : ¬ call.ok ms) (mq' : MessageQueue) (hstep : mq.step call = some (mq', out)) :
    ¬ mq'.Holds buf bufsz (mqSpec (buf + bufsz) ms call).1 := by
  cases call with
  | register bytes => exact (hno trivial).elim
  | state index state => exact (hno trivial).elim
  | clean =>
    obtain ⟨hys, hrest⟩ := not_or.1 hno
    obtain ⟨hxs, hlen⟩ := not_or.1 hrest
    rw [MessageQueue.step] at hstep
    obtain ⟨mq₁, hclean, he⟩ := Option.map_eq_some_iff.1 hstep
    cases he
    rw [h.clean_some hbuf hxs hys] at hclean
    obtain ⟨hend, htail⟩ := moveQueue_tail hclean
    intro hholds
    have htail' : mq'.queueTail + sizeofItem * (ms.dropWhile Message.isComplete).length =
        mq'.memEnd := hholds.tail
    unfold sizeofItem at *
    dsimp only at hend htail
    omega

/-- In every state of a run the data and the items are those of the messages registered and not
removed, exactly when no `mq_clean` that removes some messages leaves 2147483648 or more. -/
theorem message_queue_iff (hbuf : 0 < buf) (hmax : buf + bufsz < 2 ^ 64) (mem : Nat → UInt8)
    (calls : List MqCall)
    (hadmits : Admits MessageQueue.step (fun mq call => call.valid mq) (mqInit mem buf bufsz)
      calls) :
    Follows MessageQueue.step (mqSpec (buf + bufsz)) (fun mq ms => mq.Holds buf bufsz ms)
        (mqInit mem buf bufsz) [] calls ↔
      Meets (mqSpec (buf + bufsz)) (fun ms call => call.ok ms) [] calls :=
  follows_iff_meets (fun _ _ call h hvalid hok => mqStep_good hbuf hmax h call hvalid hok)
    (fun _ _ call h _ hno mq' hstep => mqStep_bad hbuf h call hno mq' hstep)
    (mqInit_holds mem buf bufsz) hadmits

/-- What fits into a buffer of that size. -/
def MqCall.fits (bufsz : Nat) (ms : List Message) : MqCall → Prop
  | .register bytes => 1 ≤ bytes.length ∧
    (packed ms).length + bytes.length + sizeofItem * (ms.length + 1) ≤ bufsz
  | .state index _ => index < ms.length
  | .clean => True

theorem MessageQueue.Holds.valid (h : mq.Holds buf bufsz ms) (call : MqCall)
    (hfits : call.fits bufsz ms) : call.valid mq := by
  cases call with
  | register bytes =>
    obtain ⟨hn, hroom⟩ := hfits
    have hcurr := h.curr
    have htail := h.tail
    have hmemEnd := h.memEnd
    refine ⟨hn, ?_⟩
    rw [h.currSz]
    unfold mqCurrsz sizeofItem at *
    split <;> omega
  | state index state =>
    have hlt : index < mqLength mq := Nat.lt_of_lt_of_eq hfits h.length_eq.symm
    exact hlt
  | clean => trivial

/-- The calls that fit and go well are those of a run. -/
theorem mqInit_admits (hbuf : 0 < buf) (hmax : buf + bufsz < 2 ^ 64) (mem : Nat → UInt8)
    (hmeets : Meets (mqSpec (buf + bufsz)) (fun ms call => call.fits bufsz ms ∧ call.ok ms) []
      calls) :
    Admits MessageQueue.step (fun mq call => call.valid mq) (mqInit mem buf bufsz) calls := by
  apply admits_of_meets (R := fun mq ms => MessageQueue.Holds mq buf bufsz ms) _
    (mqInit_holds mem buf bufsz) hmeets
  intro mq ms call h hcall
  have hvalid := h.valid call hcall.1
  exact ⟨hvalid, mqStep_good hbuf hmax h call hvalid hcall.2⟩

end Steps

section Witness

theorem message_queue_iff_clean :
    Follows MessageQueue.step (mqSpec (1000 + 200)) (fun mq ms => mq.Holds 1000 200 ms)
        (mqInit (fun _ => 0) 1000 200) [] [.register [1, 2], .state 0 .complete, .clean] ↔
      Meets (mqSpec (1000 + 200)) (fun ms call => call.ok ms) []
        [.register [1, 2], .state 0 .complete, .clean] :=
  message_queue_iff (by decide) (by decide) _ _ (mqInit_admits (by decide) (by decide) _
    ⟨⟨⟨by decide, by decide⟩, trivial⟩, ⟨Nat.zero_lt_one, trivial⟩, ⟨trivial, .inl rfl⟩, trivial⟩)

/-- So many messages of one byte, the first of which is completed. -/
def manyCalls (n : Nat) : List MqCall :=
  List.replicate (n + 1) (.register [0]) ++ [.state 0 .complete]

theorem replicate_meets (memEnd : Nat) (hroom : 25 * (j + n) ≤ bufsz) :
    Meets (mqSpec memEnd) (fun ms call => call.fits bufsz ms ∧ call.ok ms)
        (List.replicate j ⟨[0], .unsent⟩) (List.replicate n (.register [0])) ∧
      (run (mqSpec memEnd) (List.replicate j ⟨[0], .unsent⟩)
        (List.replicate n (.register [0]))).1 = List.replicate (j + n) ⟨[0], .unsent⟩ := by
  induction n generalizing j with
  | zero => exact ⟨trivial, rfl⟩
  | succ n ih =>
    have hroom' : 25 * (j + 1 + n) ≤ bufsz := by omega
    have hspec : (mqSpec memEnd (List.replicate j ⟨[0], .unsent⟩) (.register [0])).1 =
        List.replicate (j + 1) ⟨[0], .unsent⟩ := List.replicate_succ'.symm
    obtain ⟨hmeets, hrun⟩ := ih hroom'
    have hlen : (packed (List.replicate j ⟨[0], .unsent⟩)).length = j := by
      rw [packed, List.length_flatMap, List.map_replicate, List.sum_replicate_nat]
      exact Nat.mul_one j
    rw [List.replicate_succ]
    refine ⟨⟨⟨⟨Nat.le_refl 1, ?_⟩, trivial⟩, ?_⟩, ?_⟩
    · rw [hlen, List.length_replicate]
      unfold sizeofItem
      simp only [List.length_singleton]
      omega
    · rw [hspec]
      exact hmeets
    · rw [run_cons_fst, hspec, hrun, Nat.add_right_comm, Nat.add_assoc]

theorem manyCalls_meet (hroom : 25 * (n + 1) ≤ bufsz) (memEnd : Nat) :
    Meets (mqSpec memEnd) (fun ms call => call.fits bufsz ms ∧ call.ok ms) [] (manyCalls n) ∧
      (run (mqSpec memEnd) [] (manyCalls n)).1 =
        ⟨[0], .complete⟩ :: List.replicate n ⟨[0], .unsent⟩ := by
  have hroom' : 25 * (0 + (n + 1)) ≤ bufsz := by rwa [Nat.zero_add]
  obtain ⟨hmeets, hrun⟩ := replicate_meets memEnd hroom'
  rw [Nat.zero_add, List.replicate_succ] at hrun
  constructor
  · apply hmeets.append
    have hrun' : (run (mqSpec memEnd) [] (List.replicate (n + 1) (.register [0]))).1 =
        ⟨[0], .unsent⟩ :: List.replicate n ⟨[0], .unsent⟩ := hrun
    rw [List.replicate_zero, hrun']
    exact ⟨⟨Nat.zero_lt_succ _, trivial⟩, trivial⟩
  · rw [manyCalls, run_append_fst]
    exact congrArg (fun ms => (mqSpec memEnd ms (.state 0 .complete)).1) hrun

theorem manyCalls_clean (hbuf : 0 < buf) (hmax : buf + bufsz < 2 ^ 64)
    (hroom : 25 * (n + 1) ≤ bufsz) (hn : 2147483648 ≤ n) :
    Admits MessageQueue.step (fun mq call => call.valid mq) (mqInit (fun _ => 0) buf bufsz)
        (manyCalls n ++ [.clean]) ∧
      ¬ Follows MessageQueue.step (mqSpec (buf + bufsz)) (fun mq ms => mq.Holds buf bufsz ms)
        (mqInit (fun _ => 0) buf bufsz) [] (manyCalls n ++ [.clean]) := by
  obtain ⟨hmeets, hrun⟩ := manyCalls_meet hroom (buf + bufsz)
  have hadmits : Admits MessageQueue.step (fun mq call => call.valid mq)
      (mqInit (fun _ => 0) buf bufsz) (manyCalls n ++ [.clean]) :=
    (mqInit_admits hbuf hmax _ hmeets).append fun _ => trivial
  refine ⟨hadmits, fun hfollows => ?_⟩
  have hok : Meets (mqSpec (buf + bufsz)) (fun ms call => call.ok ms) []
      (manyCalls n ++ [.clean]) := by
    apply (follows_iff_meets (R := fun mq ms => MessageQueue.Holds mq buf bufsz ms) _ _
      (mqInit_holds _ buf bufsz) hadmits).1 hfollows
    · exact fun _ _ call h hvalid hok => mqStep_good hbuf hmax h call hvalid hok
    · exact fun _ _ call h _ hno mq' hstep => mqStep_bad hbuf h call hno mq' hstep
  have hlast : MqCall.ok (⟨[0], .complete⟩ :: List.replicate n ⟨[0], .unsent⟩) .clean :=
    hrun ▸ hok.last
  have hys : (List.replicate n (⟨[0], .unsent⟩ : Message)).dropWhile Message.isComplete =
      List.replicate n ⟨[0], .unsent⟩ := by
    rw [List.dropWhile_replicate]
    rfl
  have hdrop : (⟨[0], .complete⟩ :: List.replicate n (⟨[0], .unsent⟩ : Message)).dropWhile
      Message.isComplete = List.replicate n ⟨[0], .unsent⟩ :=
    (List.dropWhile_cons_of_pos rfl).trans hys
  rcases hlast with hnil | hnil | hlt
  · have hlen := congrArg List.length (hdrop.symm.trans hnil)
    rw [List.length_replicate, List.length_nil] at hlen
    omega
  · rw [List.takeWhile_cons_of_pos rfl] at hnil
    cases hnil
  · rw [hdrop, List.length_replicate] at hlt
    omega

/-- A message goes and 2147483648 stay. -/
theorem not_message_queue :
    Admits MessageQueue.step (fun mq call => call.valid mq)
        (mqInit (fun _ => 0) 24 53687091225) (manyCalls 2147483648 ++ [.clean]) ∧
      ¬ Follows MessageQueue.step (mqSpec (24 + 53687091225))
        (fun mq ms => mq.Holds 24 53687091225 ms) (mqInit (fun _ => 0) 24 53687091225) []
        (manyCalls 2147483648 ++ [.clean]) :=
  manyCalls_clean (by decide) (by decide) (by decide) (by decide)

end Witness

end BigBox.Buffer
