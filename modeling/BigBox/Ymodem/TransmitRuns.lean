import BigBox.Ymodem.Transmit

namespace BigBox.Ymodem
set_option autoImplicit true

/-- The loop of `Ymodem_Transmit` that is running, or what was returned. -/
inductive Phase where
  | header
  | data
  | eot
  | closing
  | last
  | done (value : Nat)
  deriving DecidableEq, Repr

/-- The variables of `Ymodem_Transmit` in front of a round of a loop. `sends` says how often the
packet of the loop is sent with this round. -/
structure Sender where
  phase : Phase
  errors : Nat
  sends : Nat
  packetData : List UInt8
  file : DataState
  deriving DecidableEq, Repr

def Sender.frame (s : Sender) : List UInt8 :=
  match s.phase with
  | .data => withCRC s.packetData s.file.pktSize
  | .eot | .last => [EOT]
  | _ => withCRC s.packetData PACKET_128B_SIZE

/-- The head of the loop over the data packets. -/
def Sender.nextPacket (s : Sender) : Sender :=
  if s.file.size = 0 then { s with phase := .eot, errors := 0, sends := 1 }
  else
    let packetData :=
      ymodemPreparePacket s.file.bufPtr s.packetData s.file.blkNumber.toUInt8 s.file.size
    { s with phase := .data, errors := 0, sends := 1, packetData }

/-- The end of a round: the packet is sent again, given up, or acknowledged. -/
def Sender.retry (s : Sender) (strict : Bool) (r : Reply) (next : Sender → Sender) : Sender :=
  let errors := countError strict s.errors r
  if r ≠ some ACK ∧ errors < 0x0A then { s with errors, sends := s.sends + 1 }
  else if errors ≥ 0x0A then { s with phase := .done errors }
  else next { s with errors }

/-- A round of the loop that is running. -/
def Sender.step (s : Sender) (r : Reply) : Sender :=
  match s.phase with
  | .header => s.retry false r Sender.nextPacket
  | .data => s.retry true r fun s => { s with file := s.file.advance }.nextPacket
  | .eot => s.retry true r fun s =>
    { s with phase := .closing, errors := 0, sends := 1, packetData := closingPacket s.packetData }
  | .closing => s.retry false r fun s => { s with phase := .last, sends := 1 }
  | .last =>
    let errors := countError true s.errors r
    { s with phase := .done (if errors ≥ 0x0A then errors else 0) }
  | .done _ => s

def Sender.start (stack : Stack) (buf sendFileName : List UInt8) (sizeFile : UInt32) : Sender :=
  ⟨.header, 0, 1, initialPacket stack sendFileName sizeFile,
    ⟨buf.take sizeFile.toNat, sizeFile.toNat, 1⟩⟩

/-- The variables after some rounds. -/
def Sender.after (s : Sender) (replies : Nat → Reply) : Nat → Sender
  | 0 => s
  | t + 1 => (s.after replies t).step (replies t)

/-- No packet is sent more than ten times, and the call returns. -/
def Sender.GivesUp (s : Sender) (replies : Nat → Reply) : Prop :=
  (∀ t, (s.after replies t).sends ≤ 10) ∧ ∃ t value, (s.after replies t).phase = .done value

/-- The loops that do not count a byte other than an acknowledgement. -/
def Phase.Lenient (phase : Phase) : Prop := phase = .header ∨ phase = .closing

/-- The first ten replies hold an acknowledgement, or they are timeouts. -/
def Settles (replies : Nat → Reply) : Prop :=
  (∃ i < 10, replies i = some ACK) ∨ ∀ i < 10, replies i = none

section Sender
variable {s : Sender} {replies : Nat → Reply}

/-- What the packets that are left are counted by. -/
def Sender.rank (s : Sender) : Nat :=
  match s.phase with
  | .header => s.file.size + 4
  | .data => s.file.size + 3
  | .eot => 3
  | .closing => 2
  | .last => 1
  | .done _ => 0

/-- What the loops keep of their counters. -/
structure Sender.Good (s : Sender) : Prop where
  errors_lt : s.errors < 10
  size_pos : s.phase = .data → 0 < s.file.size
  strict : s.phase = .data ∨ s.phase = .eot → s.sends = s.errors + 1
  last : s.phase = .last → s.sends = 1
  fresh : s.phase.Lenient → s.sends = 1 → s.errors = 0
  sends_pos : 1 ≤ s.sends

theorem Sender.nextPacket_spec (s : Sender) : s.nextPacket.sends = 1 ∧ s.nextPacket.errors = 0 ∧
    (s.nextPacket.phase = .eot ∧ s.nextPacket.rank = 3 ∨
      s.nextPacket.phase = .data ∧ 0 < s.nextPacket.file.size ∧
        s.nextPacket.rank = s.file.size + 3) := by
  rw [Sender.nextPacket]
  split
  · exact ⟨rfl, rfl, .inl ⟨rfl, rfl⟩⟩
  · next h => exact ⟨rfl, rfl, .inr ⟨rfl, Nat.pos_of_ne_zero h, rfl⟩⟩

def Phase.strict : Phase → Bool
  | .header | .closing => false
  | _ => true

/-- A round sends the packet again, goes on to one behind it, or ends the call. -/
inductive Sender.Moves (s : Sender) (r : Reply) : Sender → Prop where
  | again (hloop : s.phase ≠ .last ∧ ∀ value, s.phase ≠ .done value) (hnot : r ≠ some ACK)
      (hlt : countError s.phase.strict s.errors r < 10) :
      Moves s r { s with errors := countError s.phase.strict s.errors r, sends := s.sends + 1 }
  | on (hrank : s'.rank < s.rank) (hsends : s'.sends = 1) (hgood : s'.Good) : Moves s r s'
  | done (value : Nat) : Moves s r { s with phase := .done value }

theorem Sender.moves_nextPacket (h : s.file.size + 3 < t.rank) : Sender.Moves t r s.nextPacket := by
  obtain ⟨hsends, herrors, hphase⟩ := s.nextPacket_spec
  have hgood : s.nextPacket.Good := by
    refine ⟨herrors ▸ by decide, ?_, fun _ => by rw [hsends, herrors], fun _ => hsends,
      fun _ _ => herrors, Nat.le_of_eq hsends.symm⟩
    obtain ⟨heot, _⟩ | ⟨_, hpos, _⟩ := hphase
    · intro hdata
      rw [heot] at hdata
      cases hdata
    · exact fun _ => hpos
  refine .on ?_ hsends hgood
  obtain ⟨_, hrank⟩ | ⟨_, _, hrank⟩ := hphase
  · omega
  · omega

theorem Sender.retry_moves {next : Sender → Sender} (hstrict : strict = s.phase.strict)
    (hloop : s.phase ≠ .last ∧ ∀ value, s.phase ≠ .done value) (hnext : s.Moves r (next s)) :
    s.Moves r (s.retry strict r next) := by
  subst hstrict
  rw [Sender.retry]
  split
  · next h => exact .again hloop h.1 h.2
  · next h =>
    split
    · exact .done _
    · next hlt =>
      have hack : r = some ACK := by
        by_contra hne
        exact h ⟨hne, Nat.not_le.1 hlt⟩
      subst hack
      exact hnext

theorem size_advance_lt (file : DataState) (h : 0 < file.size) : file.advance.size < file.size := by
  rw [DataState.advance]
  split
  · next hmore =>
    have hpkt : 0 < file.pktSize := by
      rw [DataState.pktSize]
      split
      · decide
      · decide
    exact Nat.sub_lt h hpkt
  · exact h

theorem Sender.step_moves (h : s.Good) (r : Reply) : s.Moves r (s.step r) ∨
    ∃ value, s.phase = .done value ∧ s.step r = s := by
  cases hphase : s.phase with
  | header =>
    left
    rw [Sender.step, hphase]
    refine Sender.retry_moves (by rw [hphase]; rfl) (by rw [hphase]; exact ⟨nofun, nofun⟩)
      (Sender.moves_nextPacket ?_)
    rw [Sender.rank, hphase]
    exact Nat.lt_succ_self _
  | data =>
    left
    rw [Sender.step, hphase]
    refine Sender.retry_moves (by rw [hphase]; rfl) (by rw [hphase]; exact ⟨nofun, nofun⟩)
      (Sender.moves_nextPacket ?_)
    rw [Sender.rank, hphase]
    exact Nat.add_lt_add_right (size_advance_lt s.file (h.size_pos hphase)) 3
  | eot =>
    left
    rw [Sender.step, hphase]
    refine Sender.retry_moves (by rw [hphase]; rfl) (by rw [hphase]; exact ⟨nofun, nofun⟩)
      (.on ?_ rfl ?_)
    · rw [Sender.rank, Sender.rank, hphase]
      exact Nat.lt_succ_self 2
    · exact ⟨Nat.zero_lt_succ 9, nofun, nofun, nofun, fun _ _ => rfl, Nat.le_refl 1⟩
  | closing =>
    left
    rw [Sender.step, hphase]
    refine Sender.retry_moves (by rw [hphase]; rfl) (by rw [hphase]; exact ⟨nofun, nofun⟩)
      (.on ?_ rfl ?_)
    · rw [Sender.rank, Sender.rank, hphase]
      exact Nat.lt_succ_self 1
    · exact ⟨h.errors_lt, nofun, nofun, fun _ => rfl, nofun, Nat.le_refl 1⟩
  | last =>
    left
    rw [Sender.step, hphase]
    exact .done _
  | done value => exact .inr ⟨value, rfl, by rw [Sender.step, hphase]⟩

theorem Sender.Moves.good (h : s.Moves r s') (hs : s.Good) : s'.Good := by
  cases h with
  | again hloop hnot hlt =>
    refine ⟨hlt, hs.size_pos, fun hphase => ?_, fun hphase => absurd hphase hloop.1,
      fun _ hsends => ?_, Nat.le_add_left 1 _⟩
    · have hstrict : s.phase.strict = true := by
        rcases hphase with hphase | hphase
        · rw [show s.phase = .data from hphase]; rfl
        · rw [show s.phase = .eot from hphase]; rfl
      have hsends := hs.strict hphase
      change s.sends + 1 = countError s.phase.strict s.errors r + 1
      rw [hsends, hstrict, countError, if_neg hnot, if_pos (.inl rfl)]
    · have hpos := hs.sends_pos
      change s.sends + 1 = 1 at hsends
      omega
  | on hrank hsends hgood => exact hgood
  | done value => exact ⟨hs.errors_lt, nofun, nofun, nofun, nofun, hs.sends_pos⟩

theorem Sender.start_good (stack : Stack) (buf sendFileName : List UInt8) (sizeFile : UInt32) :
    (Sender.start stack buf sendFileName sizeFile).Good :=
  ⟨Nat.zero_lt_succ 9, nofun, nofun, nofun, fun _ _ => rfl, Nat.le_refl 1⟩

theorem Sender.after_good (hs : s.Good) (replies : Nat → Reply) (t : Nat) :
    (s.after replies t).Good := by
  induction t with
  | zero => exact hs
  | succ t ih =>
    obtain hmoves | ⟨value, _, hsame⟩ := Sender.step_moves ih (replies t)
    · exact hmoves.good ih
    · rw [Sender.after, hsame]
      exact ih

/-- The timeouts among some replies. -/
def timeouts (replies : Nat → Reply) (n : Nat) : Nat :=
  (List.range n).countP fun i => decide (replies i = none)

theorem timeouts_succ (replies : Nat → Reply) (n : Nat) :
    timeouts replies (n + 1) = timeouts replies n + if replies n = none then 1 else 0 := by
  rw [timeouts, List.range_succ, List.countP_append, List.countP_singleton, timeouts]
  by_cases h : replies n = none
  · rw [decide_eq_true h, if_pos h]
    rfl
  · rw [decide_eq_false h, if_neg h]
    rfl

theorem timeouts_le (replies : Nat → Reply) (n : Nat) : timeouts replies n ≤ n := by
  calc
    timeouts replies n ≤ (List.range n).length := List.countP_le_length
    _ = n := List.length_range

theorem timeouts_mono (replies : Nat → Reply) (h : m ≤ n) :
    timeouts replies m ≤ timeouts replies n := by
  induction n with
  | zero => rw [Nat.le_zero.1 h]
  | succ n ih =>
    obtain rfl | hlt := Nat.eq_or_lt_of_le h
    · exact Nat.le_refl _
    · exact Nat.le_trans (ih (Nat.le_of_lt_succ hlt)) (by rw [timeouts_succ]; omega)

theorem timeouts_all (h : ∀ i < n, replies i = none) : timeouts replies n = n := by
  induction n with
  | zero => rfl
  | succ n ih =>
    rw [timeouts_succ, if_pos (h n (Nat.lt_succ_self n)),
      ih fun i hi => h i (Nat.lt_succ_of_lt hi)]

/-- One reply that is no timeout is missing in the count. -/
theorem timeouts_lt (hj : j < n) (h : replies j ≠ none) : timeouts replies n < n := by
  induction n with
  | zero => exact absurd hj (Nat.not_lt_zero j)
  | succ n ih =>
    rw [timeouts_succ]
    obtain rfl | hlt := Nat.eq_or_lt_of_le (Nat.le_of_lt_succ hj)
    · rw [if_neg h]
      exact Nat.lt_succ_of_le (timeouts_le replies j)
    · have hrest := ih hlt
      split <;> omega

theorem countError_lenient (hnot : r ≠ some ACK) (errors : Nat) :
    countError false errors r = errors + if r = none then 1 else 0 := by
  rw [countError, if_neg hnot]
  by_cases h : r = none
  · rw [if_pos (.inr h), if_pos h]
  · rw [if_neg (by rintro (hf | hn); exact absurd hf (by decide); exact h hn), if_neg h,
      Nat.add_zero]

theorem Phase.Lenient.strict_eq {phase : Phase} (h : phase.Lenient) : phase.strict = false := by
  rcases h with rfl | rfl
  · rfl
  · rfl

/-- What a lenient loop has seen since its packet was first sent. -/
structure Sender.Since (s : Sender) (replies : Nat → Reply) (T i : Nat) : Prop where
  first : (s.after replies T).phase.Lenient ∧ (s.after replies T).sends = 1
  sends : (s.after replies (T + i)).sends = i + 1
  unacknowledged : ∀ j < i, replies (T + j) ≠ some ACK
  errors : (s.after replies (T + i)).errors = timeouts (fun j => replies (T + j)) i

theorem Phase.not_lenient_done (value : Nat) : ¬ (Phase.done value).Lenient := by
  rintro (h | h)
  · cases h
  · cases h

/-- A packet that is sent for the first time starts a history of its own. -/
theorem Sender.since_first (hgood : (s.after replies T).Good)
    (h : (s.after replies T).phase.Lenient) (hsends : (s.after replies T).sends = 1) :
    s.Since replies T 0 :=
  ⟨⟨h, hsends⟩, hsends, fun j hj => absurd hj (Nat.not_lt_zero j), hgood.fresh h hsends⟩

theorem Sender.Since.again (h : s.Since replies T i)
    (hlenient : (s.after replies (T + i)).phase.Lenient) (hnot : replies (T + i) ≠ some ACK)
    (heq : s.after replies (T + i + 1) =
      { s.after replies (T + i) with
        errors := countError (s.after replies (T + i)).phase.strict
          (s.after replies (T + i)).errors (replies (T + i)),
        sends := (s.after replies (T + i)).sends + 1 }) : s.Since replies T (i + 1) := by
  refine ⟨h.first, ?_, fun j hj => ?_, ?_⟩
  · rw [← Nat.add_assoc, heq]
    exact congrArg Nat.succ h.sends
  · obtain rfl | hlt := Nat.eq_or_lt_of_le (Nat.le_of_lt_succ hj)
    · exact hnot
    · exact h.unacknowledged j hlt
  · rw [← Nat.add_assoc, heq]
    change countError _ _ _ = _
    rw [hlenient.strict_eq, countError_lenient hnot, h.errors, timeouts_succ]

theorem Sender.since (hs : s.Good) (hfirst : s.sends = 1) (t : Nat)
    (h : (s.after replies t).phase.Lenient) : ∃ T i, t = T + i ∧ s.Since replies T i := by
  induction t with
  | zero => exact ⟨0, 0, rfl, Sender.since_first hs h hfirst⟩
  | succ t ih =>
    have hgood := Sender.after_good hs replies (t + 1)
    obtain hmoves | ⟨value, hdone, hsame⟩ := Sender.step_moves (Sender.after_good hs replies t)
      (replies t)
    · change Sender.Moves _ _ (s.after replies (t + 1)) at hmoves
      generalize hnext : s.after replies (t + 1) = next at hmoves h hgood
      cases hmoves with
      | again hloop hnot hlt =>
        obtain ⟨T, i, rfl, hsince⟩ := ih h
        exact ⟨T, i + 1, rfl, hsince.again h hnot hnext⟩
      | on hrank hsends _ =>
        subst hnext
        exact ⟨t + 1, 0, rfl, Sender.since_first hgood h hsends⟩
      | done value => exact absurd h (Phase.not_lenient_done value)
    · change ((s.after replies t).step (replies t)).phase.Lenient at h
      rw [hsame, hdone] at h
      exact absurd h (Phase.not_lenient_done value)

/-- A lenient loop whose replies settle it sends its packet at most ten times. -/
theorem Sender.Since.le_ten (h : s.Since replies T i) (hgood : (s.after replies (T + i)).Good)
    (hsettles : Settles fun j => replies (T + j)) : i < 10 := by
  by_contra hge
  have hten : 10 ≤ i := Nat.not_lt.1 hge
  obtain ⟨j, hj, hack⟩ | hnone := hsettles
  · exact h.unacknowledged j (Nat.lt_of_lt_of_le hj hten) hack
  · have hcount := timeouts_mono (fun j => replies (T + j)) hten
    rw [timeouts_all hnone, ← h.errors] at hcount
    exact Nat.not_le.2 hgood.errors_lt hcount

theorem Sender.step_again (h : s.phase.Lenient) (hnot : r ≠ some ACK)
    (hlt : countError false s.errors r < 10) :
    s.step r = { s with errors := countError false s.errors r, sends := s.sends + 1 } := by
  rw [Sender.step]
  rcases h with hphase | hphase
  · rw [hphase]
    change s.retry false r _ = _
    rw [Sender.retry, if_pos ⟨hnot, hlt⟩, hphase]
  · rw [hphase]
    change s.retry false r _ = _
    rw [Sender.retry, if_pos ⟨hnot, hlt⟩, hphase]

/-- Otherwise the packet is sent for an eleventh time. -/
theorem Sender.Since.eleven (h : s.Since replies T 0)
    (hnot : ¬ Settles fun j => replies (T + j)) (hi : i ≤ 10) :
    s.Since replies T i ∧ (s.after replies (T + i)).phase.Lenient := by
  induction i with
  | zero => exact ⟨h, h.first.1⟩
  | succ i ih =>
    obtain ⟨hsince, hlenient⟩ := ih (Nat.le_of_succ_le hi)
    have hack : replies (T + i) ≠ some ACK := fun hack => hnot (.inl ⟨i, hi, hack⟩)
    have hfew : timeouts (fun j => replies (T + j)) (i + 1) < 10 := by
      obtain hlt | rfl : i + 1 < 10 ∨ i = 9 := by omega
      · exact Nat.lt_of_le_of_lt (timeouts_le _ _) hlt
      · by_contra hall
        refine hnot (.inr fun j hj => ?_)
        by_contra hne
        exact hall (timeouts_lt hj hne)
    have hlt : countError false (s.after replies (T + i)).errors (replies (T + i)) < 10 := by
      rw [countError_lenient hack, hsince.errors, ← timeouts_succ]
      exact hfew
    have hstep := Sender.step_again hlenient hack hlt
    have hphase : (s.after replies (T + (i + 1))).phase = (s.after replies (T + i)).phase := by
      change ((s.after replies (T + i)).step (replies (T + i))).phase = _
      rw [hstep]
    refine ⟨hsince.again hlenient hack ?_, hphase ▸ hlenient⟩
    rw [hlenient.strict_eq]
    exact hstep

theorem Sender.eleven_sends (hs : s.Good) (hlenient : (s.after replies T).phase.Lenient)
    (hsends : (s.after replies T).sends = 1) (hnot : ¬ Settles fun i => replies (T + i)) :
    (s.after replies (T + 10)).sends = 11 := by
  have hsince := Sender.since_first (Sender.after_good hs replies T) hlenient hsends
  exact (hsince.eleven hnot (Nat.le_refl 10)).1.sends

theorem Sender.sends_le_ten (hs : s.Good) (hfirst : s.sends = 1)
    (hsettles : ∀ T, (s.after replies T).phase.Lenient → (s.after replies T).sends = 1 →
      Settles fun i => replies (T + i)) (t : Nat) : (s.after replies t).sends ≤ 10 := by
  have hlenient : ∀ t, (s.after replies t).phase.Lenient → (s.after replies t).sends ≤ 10 := by
    intro t h
    obtain ⟨T, i, rfl, hsince⟩ := Sender.since hs hfirst t h
    have hlt := hsince.le_ten (Sender.after_good hs replies _)
      (hsettles T hsince.first.1 hsince.first.2)
    rw [hsince.sends]
    exact hlt
  have hstrict : ∀ t, (s.after replies t).phase = .data ∨ (s.after replies t).phase = .eot →
      (s.after replies t).sends ≤ 10 := by
    intro t h
    have hgood := Sender.after_good hs replies t
    rw [hgood.strict h]
    exact hgood.errors_lt
  induction t with
  | zero => exact Nat.le_trans (Nat.le_of_eq hfirst) (by decide)
  | succ t ih =>
    obtain hmoves | ⟨value, _, hsame⟩ := Sender.step_moves (Sender.after_good hs replies t)
      (replies t)
    · change Sender.Moves _ _ (s.after replies (t + 1)) at hmoves
      cases hphase : (s.after replies (t + 1)).phase with
      | header => exact hlenient _ (.inl hphase)
      | data => exact hstrict _ (.inl hphase)
      | eot => exact hstrict _ (.inr hphase)
      | closing => exact hlenient _ (.inr hphase)
      | last =>
        rw [(Sender.after_good hs replies (t + 1)).last hphase]
        decide
      | done value =>
        generalize s.after replies (t + 1) = next at hmoves hphase
        cases hmoves with
        | again hloop _ _ => exact absurd hphase (hloop.2 value)
        | on _ hsends _ => exact Nat.le_trans (Nat.le_of_eq hsends) (by decide)
        | done _ => exact ih
    · rw [Sender.after, hsame]
      exact ih

/-- Each round uses up a try of its packet or a packet. -/
theorem Sender.returns (hs : s.Good) (hten : ∀ t, (s.after replies t).sends ≤ 10) (t : Nat) :
    ∃ t value, (s.after replies t).phase = .done value := by
  induction hk : (s.after replies t).rank * 11 + (10 - (s.after replies t).sends)
      using Nat.strong_induction_on generalizing t with
  | _ k ih =>
    have hle := hten (t + 1)
    obtain hmoves | ⟨value, hdone, _⟩ := Sender.step_moves (Sender.after_good hs replies t)
      (replies t)
    · change Sender.Moves _ _ (s.after replies (t + 1)) at hmoves
      have hnext :=
        ih ((s.after replies (t + 1)).rank * 11 + (10 - (s.after replies (t + 1)).sends))
      generalize hafter : s.after replies (t + 1) = next at hmoves hnext hle
      cases hmoves with
      | again _ _ _ =>
        refine hnext ?_ (t + 1) (by rw [hafter])
        change (s.after replies t).rank * 11 + (10 - ((s.after replies t).sends + 1)) < k
        change (s.after replies t).sends + 1 ≤ 10 at hle
        omega
      | on hrank hsends _ =>
        refine hnext ?_ (t + 1) (by rw [hafter])
        omega
      | done value => exact ⟨t + 1, value, by rw [hafter]⟩
    · exact ⟨t, value, hdone⟩

/-- The packets are sent at most ten times and the call returns if and only if the replies settle
the loop of every header and closing packet. -/
theorem Sender.givesUp_iff (hs : s.Good) (hfirst : s.sends = 1) (replies : Nat → Reply) :
    s.GivesUp replies ↔ ∀ T, (s.after replies T).phase.Lenient → (s.after replies T).sends = 1 →
      Settles fun i => replies (T + i) := by
  constructor
  · rintro ⟨hten, _⟩ T hlenient hsends
    by_contra hnot
    have hle := hten (T + 10)
    rw [Sender.eleven_sends hs hlenient hsends hnot] at hle
    exact absurd hle (by decide)
  · intro hsettles
    have hten := Sender.sends_le_ten hs hfirst hsettles
    exact ⟨hten, Sender.returns hs hten 0⟩

end Sender

/-- For every file and every run of the replies: what it takes to send each packet at most ten
times and to return. -/
theorem transmit_givesUp_iff (stack : Stack) (buf sendFileName : List UInt8) (sizeFile : UInt32)
    (replies : Nat → Reply) : (Sender.start stack buf sendFileName sizeFile).GivesUp replies ↔
      ∀ T, ((Sender.start stack buf sendFileName sizeFile).after replies T).phase.Lenient →
        ((Sender.start stack buf sendFileName sizeFile).after replies T).sends = 1 →
          Settles fun i => replies (T + i) :=
  Sender.givesUp_iff (Sender.start_good stack buf sendFileName sizeFile) rfl replies

/-- A peer that always answers and never acknowledges. -/
theorem not_transmit_givesUp :
    ¬ (Sender.start ⟨[], 0, []⟩ [] [] 0).GivesUp fun _ => some NAK := by
  rintro ⟨hten, _⟩
  have hnot : ¬ Settles fun i => (fun _ => some NAK : Nat → Reply) (0 + i) := by
    rintro (⟨i, _, hack⟩ | hnone)
    · exact absurd (Option.some.inj hack) (by decide)
    · cases hnone 0 (by decide)
  have heleven :
      ((Sender.start ⟨[], 0, []⟩ [] [] 0).after (fun _ => some NAK) (0 + 10)).sends = 11 :=
    Sender.eleven_sends (Sender.start_good ⟨[], 0, []⟩ [] [] 0) (.inl rfl) rfl hnot
  have hle := hten (0 + 10)
  rw [heleven] at hle
  exact absurd hle (by decide)

/-- What a list of replies makes of the call: the value and what passed, if it returns. -/
def Sender.result (s : Sender) : List Reply → Option (Nat × List Event)
  | [] =>
    match s.phase with
    | .done value => some (value, [])
    | _ => none
  | r :: rs =>
    match s.phase with
    | .done value => some (value, [])
    | _ => ((s.step r).result rs).map fun (value, trace) =>
      (value, .sent s.frame :: .received r :: trace)

section result

/-- More of a trace in front. -/
def behind (trace : List Event) (out : Option (Nat × List Event)) : Option (Nat × List Event) :=
  out.map fun (value, rest) => (value, trace ++ rest)

theorem behind_behind (trace trace' : List Event) (out : Option (Nat × List Event)) :
    behind trace (behind trace' out) = behind (trace ++ trace') out := by
  cases out with
  | none => rfl
  | some out =>
    rw [behind, behind, behind, Option.map_some, Option.map_some, Option.map_some]
    exact congrArg some (Prod.ext rfl (List.append_assoc _ _ _).symm)

theorem behind_value (trace : List Event) (value : Nat) :
    behind trace (some (value, [])) = some (value, trace) := by
  rw [behind, Option.map_some]
  exact congrArg some (Prod.ext rfl (List.append_nil trace))

theorem Sender.result_done (s : Sender) (h : s.phase = .done value) (rs : List Reply) :
    s.result rs = some (value, []) := by
  cases rs with
  | nil => rw [Sender.result, h]
  | cons r rs => rw [Sender.result, h]

theorem Sender.result_cons (s : Sender) (h : ∀ value, s.phase ≠ .done value) (r : Reply)
    (rs : List Reply) : s.result (r :: rs) =
      behind [.sent s.frame, .received r] ((s.step r).result rs) := by
  rw [Sender.result]
  split
  · next value hdone => exact absurd hdone (h value)
  · rfl

theorem Sender.result_nil (s : Sender) (h : ∀ value, s.phase ≠ .done value) :
    s.result [] = none := by
  rw [Sender.result]
  split
  · next value hdone => exact absurd hdone (h value)
  · rfl

/-- A loop over one frame, and what follows an acknowledgement. -/
theorem Sender.result_sendLoop (phase : Phase) (strict : Bool) (next : Sender → Sender)
    (hphase : ∀ value, phase ≠ .done value)
    (hstep : ∀ (s : Sender) r, s.phase = phase → s.step r = s.retry strict r next)
    (hnext : ∀ (s : Sender) k, next { s with sends := k } = next s)
    (s : Sender) (h : s.phase = phase) (rs : List Reply) :
    s.result rs = (sendLoop strict s.frame s.errors rs).bind fun e =>
      behind e.trace (if e.errors ≥ 0x0A then some (e.errors, [])
        else (next { s with errors := e.errors }).result e.rest) := by
  induction rs generalizing s with
  | nil => rw [s.result_nil (h ▸ hphase)]; rfl
  | cons r rs ih =>
    rw [s.result_cons (h ▸ hphase), hstep s r h, Sender.retry, sendLoop]
    split
    · next hagain =>
      have hrest := ih { s with errors := countError strict s.errors r, sends := s.sends + 1 } h
      have hframe : Sender.frame
          { s with errors := countError strict s.errors r, sends := s.sends + 1 } = s.frame := rfl
      rw [hrest, hframe]
      dsimp only
      cases sendLoop strict s.frame (countError strict s.errors r) rs with
      | none => rfl
      | some e =>
        have hlater := hnext { s with errors := e.errors } (s.sends + 1)
        dsimp only at hlater
        rw [Option.bind_some, Option.map_some, Option.bind_some, behind_behind, hlater]
        rfl
    · split
      · next hbad =>
        rw [Sender.result_done _ rfl, Option.bind_some, if_pos hbad]
      · next hgood =>
        rw [Option.bind_some, if_neg hgood]

/-- The end of a line on which `EOT` is sent once more. -/
def finishLast (errors : Nat) : List Reply → Option (Nat × List Event)
  | [] => none
  | r :: _ =>
    let errors := countError true errors r
    some (if errors ≥ 0x0A then errors else 0, [.sent [EOT], .received r])

def finishClosing (packetData : List UInt8) (rs : List Reply) : Option (Nat × List Event) :=
  (sendLoop false (withCRC packetData PACKET_128B_SIZE) 0 rs).bind fun closing =>
    behind closing.trace (if closing.errors ≥ 0x0A then some (closing.errors, [])
      else finishLast closing.errors closing.rest)

/-- What is left of the call behind the data packets. -/
def finish (packetData : List UInt8) (rs : List Reply) : Option (Nat × List Event) :=
  (sendLoop true [EOT] 0 rs).bind fun eot =>
    behind eot.trace (if eot.errors ≥ 0x0A then some (eot.errors, [])
      else finishClosing (closingPacket packetData) eot.rest)

theorem Sender.result_last (s : Sender) (h : s.phase = .last) (rs : List Reply) :
    s.result rs = finishLast s.errors rs := by
  cases rs with
  | nil => exact s.result_nil (by rw [h]; exact nofun)
  | cons r rs =>
    rw [s.result_cons (by rw [h]; exact nofun), Sender.frame, Sender.step, h,
      Sender.result_done _ rfl]
    rfl

theorem Sender.result_closing (s : Sender) (h : s.phase = .closing) (herrors : s.errors = 0)
    (rs : List Reply) : s.result rs = finishClosing s.packetData rs := by
  have hloop := Sender.result_sendLoop .closing false
    (fun s => { s with phase := .last, sends := 1 }) nofun
    (fun s r h => by rw [Sender.step, h]) (fun _ _ => rfl) s h rs
  rw [hloop, Sender.frame, h, herrors, finishClosing]
  congr 1
  funext e
  rw [Sender.result_last _ rfl]

theorem Sender.result_eot (s : Sender) (h : s.phase = .eot) (herrors : s.errors = 0)
    (rs : List Reply) : s.result rs = finish s.packetData rs := by
  have hloop := Sender.result_sendLoop .eot true
    (fun s =>
      { s with phase := .closing, errors := 0, sends := 1, packetData := closingPacket s.packetData
        })
    nofun (fun s r h => by rw [Sender.step, h]) (fun _ _ => rfl) s h rs
  rw [hloop, Sender.frame, h, herrors, finish]
  congr 1
  funext e
  rw [Sender.result_closing _ rfl rfl]

theorem Sender.result_data (s : Sender) (h : s.phase = .data) (rs : List Reply) :
    s.result rs = (dataAttempts s.packetData s.errors s.file rs).bind fun (e, file) =>
      behind e.trace (if e.errors ≥ 0x0A then some (e.errors, [])
        else ({ s with file } : Sender).nextPacket.result e.rest) := by
  induction rs generalizing s with
  | nil => exact s.result_nil (by rw [h]; exact nofun)
  | cons r rs ih =>
    have hframe : s.frame = withCRC s.packetData s.file.pktSize := by rw [Sender.frame, h]
    rw [s.result_cons (by rw [h]; exact nofun), Sender.step, h, dataAttempts, hframe]
    dsimp only
    by_cases hack : r = some ACK
    · have herrors : countError true s.errors r = s.errors := if_pos hack
      rw [if_pos hack, Option.bind_some, Sender.retry, herrors, if_neg (fun h => h.1 hack)]
      dsimp only
      split
      · exact congrArg (behind _) (Sender.result_done _ rfl rs)
      · rfl
    · have herrors : countError true s.errors r = s.errors + 1 := by
        rw [countError, if_neg hack, if_pos (.inl rfl)]
      rw [if_neg hack, Sender.retry, herrors]
      by_cases hlt : s.errors + 1 < 0x0A
      · have hrest := ih { s with errors := s.errors + 1, sends := s.sends + 1 } h
        rw [if_pos ⟨hack, hlt⟩, if_pos hlt, hrest]
        dsimp only
        cases dataAttempts s.packetData (s.errors + 1) s.file rs with
        | none => rfl
        | some out =>
          rw [Option.bind_some, Option.map_some, Option.bind_some, behind_behind]
          rfl
      · rw [if_neg (fun h => hlt h.2), if_pos (Nat.not_lt.1 hlt), if_neg hlt, Option.bind_some,
          Sender.result_done _ rfl, if_pos (Nat.not_lt.1 hlt)]

theorem Sender.result_noPacket (s : Sender) (h : s.file.size = 0) (n : Nat) (rs : List Reply) :
    s.nextPacket.result rs = (dataLoop n s.packetData s.file rs).bind fun (e, packetData) =>
      behind e.trace
        (if e.errors ≥ 0x0A then some (e.errors, []) else finish packetData e.rest) := by
  have hnext : s.nextPacket = { s with phase := .eot, errors := 0, sends := 1 } := if_pos h
  rw [hnext, Sender.result_eot _ rfl rfl, dataLoop_done n s.packetData h, Option.bind_some]
  change _ = behind [] (finish s.packetData rs)
  cases finish s.packetData rs with
  | none => rfl
  | some out => rfl

theorem Sender.result_nextPacket (n : Nat) (s : Sender) (hn : s.file.size ≤ n) (rs : List Reply) :
    s.nextPacket.result rs = (dataLoop n s.packetData s.file rs).bind fun (e, packetData) =>
      behind e.trace
        (if e.errors ≥ 0x0A then some (e.errors, []) else finish packetData e.rest) := by
  induction n generalizing s rs with
  | zero => exact s.result_noPacket (Nat.le_zero.1 hn) 0 rs
  | succ n ih =>
    by_cases hzero : s.file.size = 0
    · exact s.result_noPacket hzero (n + 1) rs
    · have hnext : s.nextPacket = { s with
          phase := .data
          errors := 0
          sends := 1
          packetData := ymodemPreparePacket s.file.bufPtr s.packetData s.file.blkNumber.toUInt8
            s.file.size } := if_neg hzero
      rw [hnext, Sender.result_data _ rfl, dataLoop, if_neg hzero]
      dsimp only
      cases hdata : dataAttempts (ymodemPreparePacket s.file.bufPtr s.packetData
          s.file.blkNumber.toUInt8 s.file.size) 0 s.file rs with
      | none => rfl
      | some out =>
        obtain ⟨e, file⟩ := out
        rw [Option.bind_some, Option.bind_some]
        dsimp only
        by_cases hbad : e.errors ≥ 0x0A
        · rw [if_pos hbad, if_pos hbad, Option.bind_some, if_pos hbad]
        · obtain hten | ⟨_, _, _, _, rfl⟩ := dataAttempts_exit hdata (by decide)
          · exact absurd hten hbad
          · have hlt := size_advance_lt s.file (Nat.pos_of_ne_zero hzero)
            rw [if_neg hbad, if_neg hbad, ih _ (by change s.file.advance.size ≤ n; omega)]
            dsimp only
            cases dataLoop n (ymodemPreparePacket s.file.bufPtr s.packetData
                s.file.blkNumber.toUInt8 s.file.size) s.file.advance e.rest with
            | none => rfl
            | some out =>
              rw [Option.bind_some, Option.map_some, Option.bind_some, behind_behind]

/-- The rounds put together are the call. -/
theorem ymodemTransmit_eq (stack : Stack) (buf sendFileName : List UInt8) (sizeFile : UInt32)
    (replies : List Reply) : ymodemTransmit stack buf sendFileName sizeFile replies =
      (Sender.start stack buf sendFileName sizeFile).result replies := by
  have hheader := Sender.result_sendLoop .header false Sender.nextPacket nofun
    (fun s r h => by rw [Sender.step, h]) (fun _ _ => rfl)
    (Sender.start stack buf sendFileName sizeFile) rfl replies
  have hframe : (Sender.start stack buf sendFileName sizeFile).frame =
      withCRC (initialPacket stack sendFileName sizeFile) PACKET_128B_SIZE := rfl
  have herrors : (Sender.start stack buf sendFileName sizeFile).errors = 0 := rfl
  rw [hheader, hframe, herrors, ymodemTransmit]
  dsimp only
  rw [Option.bind_eq_bind]
  congr 1
  funext header
  by_cases hbad : header.errors ≥ 0x0A
  · rw [if_pos hbad, if_pos hbad, behind_value]
    rfl
  have hnext : ({ Sender.start stack buf sendFileName sizeFile with
      errors := header.errors } : Sender).nextPacket.result header.rest =
      (dataLoop sizeFile.toNat (initialPacket stack sendFileName sizeFile)
        ⟨buf.take sizeFile.toNat, sizeFile.toNat, 1⟩ header.rest).bind fun (e, packetData) =>
          behind e.trace
            (if e.errors ≥ 0x0A then some (e.errors, []) else finish packetData e.rest) :=
    Sender.result_nextPacket sizeFile.toNat _ (Nat.le_refl _) header.rest
  rw [if_neg hbad, if_neg hbad, hnext]
  cases dataLoop sizeFile.toNat (initialPacket stack sendFileName sizeFile)
      ⟨buf.take sizeFile.toNat, sizeFile.toNat, 1⟩ header.rest with
  | none => rfl
  | some out =>
    obtain ⟨data, packetData⟩ := out
    rw [Option.bind_eq_bind, Option.bind_some, Option.bind_some]
    dsimp only
    by_cases hdata : data.errors ≥ 0x0A
    · rw [if_pos hdata, if_pos hdata, behind_value, behind]
      rfl
    rw [if_neg hdata, if_neg hdata, finish, behind_behind]
    cases sendLoop true [EOT] 0 data.rest with
    | none => rfl
    | some eot =>
      rw [Option.bind_some, Option.bind_some]
      by_cases heot : eot.errors ≥ 0x0A
      · rw [if_pos heot, if_pos heot, behind_value, behind]
        rfl
      rw [if_neg heot, if_neg heot, finishClosing, behind_behind]
      cases sendLoop false (withCRC (closingPacket packetData) PACKET_128B_SIZE) 0 eot.rest with
      | none => rfl
      | some closing =>
        rw [Option.bind_some, Option.bind_some]
        by_cases hclosing : closing.errors ≥ 0x0A
        · rw [if_pos hclosing, if_pos hclosing, behind_value, behind]
          rfl
        rw [if_neg hclosing, if_neg hclosing, behind_behind]
        cases closing.rest with
        | nil => rfl
        | cons r rest =>
          rw [finishLast, behind, Option.map_some]
          dsimp only
          split
          · rfl
          · rfl

end result

end BigBox.Ymodem
