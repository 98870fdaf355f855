import BigBox.Event.Select
import BigBox.Event.Poll

namespace BigBox.Backend
set_option autoImplicit true

def selectStart : SelectHistory := ⟨[], fun _ _ => false⟩

def pollStart : PollHistory := ⟨[], 0, fun _ => 0, fun _ _ => false⟩

def SelectHistory.Clean (h : SelectHistory) (call : Call) : Prop :=
  call.Valid h.registered ∧ h.Ok call

def PollHistory.Clean (h : PollHistory) (call : Call) : Prop :=
  call.Valid h.registered ∧ h.Ok call

instance SelectHistory.decidableClean (h : SelectHistory) (call : Call) :
    Decidable (h.Clean call) :=
  inferInstanceAs (Decidable (_ ∧ _))

instance PollHistory.decidableClean (h : PollHistory) (call : Call) : Decidable (h.Clean call) :=
  inferInstanceAs (Decidable (_ ∧ _))

/-- Both backends hand over what the registered events ask for and call back what is reported, in
runs that lose no interest for `select` and keep every event in place for `poll`. -/
theorem backends_dispatch (calls : List Call) :
    (Meets selectSpec SelectHistory.Clean selectStart calls →
      ∃ c, tryRun SelectCtx.step selectInit calls =
        some (c, (run selectSpec selectStart calls).2)) ∧
    (Meets pollSpec PollHistory.Clean pollStart calls →
      ∃ c, tryRun PollCtx.step pollInit calls = some (c, (run pollSpec pollStart calls).2)) := by
  constructor
  · intro hmeets
    have hgood : ∀ (c : SelectCtx) h call, c.Holds h → h.Clean call →
        ∃ c', c.step call = some (c', (selectSpec h call).2) ∧ c'.Holds (selectSpec h call).1 :=
      fun c h call hc hclean => selectStep_good hc hclean.1 hclean.2
    obtain ⟨c, hrun, _⟩ := tryRun_of_meets hgood (selectInit_holds _) hmeets
    exact ⟨c, hrun⟩
  · intro hmeets
    have hgood : ∀ (c : PollCtx) h call, c.Holds h → h.Clean call →
        ∃ c', c.step call = some (c', (pollSpec h call).2) ∧ c'.Holds (pollSpec h call).1 :=
      fun c h call hc hclean => pollStep_good hc hclean.1 hclean.2
    obtain ⟨c, hrun, _⟩ := tryRun_of_meets hgood pollInit_holds hmeets
    exact ⟨c, hrun⟩

def reader (fd : Nat) : Gevent := ⟨fd, EVENT_READ, ⟨some 0, none, none, none, 0⟩⟩

def readable (fds : List Nat) : Kernel := ⟨false, fun fd i => fd ∈ fds && i = .read⟩

def inOrder : List Call :=
  [.add (reader 1), .add (reader 2), .dispatch (readable [1, 2]), .del (reader 2),
    .add (reader 2), .dispatch (readable [1, 2])]

theorem backends_dispatch_inOrder :
    (∃ c, tryRun SelectCtx.step selectInit inOrder =
      some (c, (run selectSpec selectStart inOrder).2)) ∧
    (∃ c, tryRun PollCtx.step pollInit inOrder =
      some (c, (run pollSpec pollStart inOrder).2)) := by
  refine ⟨(backends_dispatch inOrder).1 ?_, (backends_dispatch inOrder).2 ?_⟩
  · exact ⟨by decide, by decide, by decide, by decide, by decide, by decide, trivial⟩
  · exact ⟨by decide, by decide, by decide, by decide, by decide, by decide, trivial⟩

/-- A descriptor that is not ready once is forgotten. -/
def forgotten : List Call :=
  [.add (reader 1), .add (reader 2), .dispatch (readable [1]), .dispatch (readable [1, 2])]

/-- There are more entries than the greatest descriptor. -/
def uncounted : List Call := [.add (reader 1), .add (reader 0), .dispatch (readable [0, 1])]

theorem not_backends_dispatch :
    ¬ (∀ calls, Meets selectSpec (fun h call => call.Valid h.registered) selectStart calls →
      ∃ c, tryRun SelectCtx.step selectInit calls =
        some (c, (run selectSpec selectStart calls).2)) ∧
    ¬ (∀ calls, Meets pollSpec (fun h call => call.Valid h.registered) pollStart calls →
      ∃ c, tryRun PollCtx.step pollInit calls =
        some (c, (run pollSpec pollStart calls).2)) := by
  constructor
  · intro h
    obtain ⟨c, hrun⟩ := h forgotten ⟨by decide, by decide, by decide, by decide, trivial⟩
    have hhanded : ((tryRun SelectCtx.step selectInit forgotten).map fun r =>
        r.2.map (Option.map (Seen.handed · 2 .read))) =
        some ((run selectSpec selectStart forgotten).2.map
          (Option.map (Seen.handed · 2 .read))) := by
      rw [hrun]
      rfl
    exact absurd hhanded (by decide)
  · intro h
    obtain ⟨c, hrun⟩ := h uncounted ⟨by decide, by decide, by decide, trivial⟩
    have hhanded : ((tryRun PollCtx.step pollInit uncounted).map fun r =>
        r.2.map (Option.map (Seen.handed · 0 .read))) =
        some ((run pollSpec pollStart uncounted).2.map
          (Option.map (Seen.handed · 0 .read))) := by
      rw [hrun]
      rfl
    exact absurd hhanded (by decide)

end BigBox.Backend
