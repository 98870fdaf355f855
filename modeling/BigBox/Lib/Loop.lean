import Mathlib.Algebra.Order.Ring.Int

namespace BigBox.Loop
set_option autoImplicit true

/-- What a round of a loop does: another one follows, or the loop is over. -/
inductive Round (σ β : Type) where
  | next (s : σ)
  | done (out : β)

/-- At most so many rounds of a loop. A round without a result ends the program. -/
def iterate (round : σ → Option (Round σ β)) : Nat → σ → Option β
  | 0, _ => none
  | fuel + 1, s => (round s).bind fun
    | .next s' => iterate round fuel s'
    | .done out => some out

/-- The loop is over after some number of rounds. -/
def Returns (round : σ → Option (Round σ β)) (s : σ) (out : β) : Prop :=
  ∃ fuel, iterate round fuel s = some out

variable {round : σ → Option (Round σ β)} {s s' : σ} {out out' : β}

theorem iterate_next (h : round s = some (.next s')) (fuel : Nat) :
    iterate round (fuel + 1) s = iterate round fuel s' := by
  rw [iterate, h, Option.bind_some]

theorem iterate_done (h : round s = some (.done out)) (fuel : Nat) :
    iterate round (fuel + 1) s = some out := by
  rw [iterate, h, Option.bind_some]

theorem returns_next (h : round s = some (.next s')) :
    Returns round s out ↔ Returns round s' out := by
  constructor
  · rintro ⟨fuel, hrun⟩
    cases fuel with
    | zero => cases hrun
    | succ fuel =>
      rw [iterate_next h] at hrun
      exact ⟨fuel, hrun⟩
  · rintro ⟨fuel, hrun⟩
    exact ⟨fuel + 1, (iterate_next h fuel).trans hrun⟩

theorem returns_done (h : round s = some (.done out')) : Returns round s out ↔ out' = out := by
  constructor
  · rintro ⟨fuel, hrun⟩
    cases fuel with
    | zero => cases hrun
    | succ fuel =>
      rw [iterate_done h] at hrun
      exact Option.some.inj hrun
  · rintro rfl
    exact ⟨1, iterate_done h 0⟩

theorem not_returns_of_none (h : round s = none) : ¬ Returns round s out := by
  rintro ⟨fuel, hrun⟩
  cases fuel with
  | zero => cases hrun
  | succ fuel =>
    rw [iterate, h] at hrun
    cases hrun

/-- A loop that stays where it is has no result. -/
theorem not_returns_of_same (h : round s = some (.next s)) : ¬ Returns round s out := by
  rintro ⟨fuel, hrun⟩
  induction fuel with
  | zero => cases hrun
  | succ fuel ih =>
    rw [iterate_next h] at hrun
    exact ih hrun

theorem Returns.unique (h : Returns round s out) (h' : Returns round s out') : out = out' := by
  obtain ⟨fuel, hrun⟩ := h
  induction fuel generalizing s with
  | zero => cases hrun
  | succ fuel ih =>
    cases hr : round s with
    | none => exact absurd h' (not_returns_of_none hr)
    | some r =>
      cases r with
      | next s' =>
        rw [iterate_next hr] at hrun
        exact ih ((returns_next hr).1 h') hrun
      | done out₁ =>
        rw [iterate_done hr] at hrun
        exact (Option.some.inj hrun).symm.trans ((returns_done hr).1 h')

/-- What every round keeps holds in the round that ends the loop. -/
theorem Returns.last {P : σ → Prop} (h : Returns round s out) (hs : P s)
    (hround : ∀ s s', P s → round s = some (.next s') → P s') :
    ∃ s', P s' ∧ round s' = some (.done out) := by
  obtain ⟨fuel, hrun⟩ := h
  induction fuel generalizing s with
  | zero => cases hrun
  | succ fuel ih =>
    cases hr : round s with
    | none =>
      rw [iterate, hr] at hrun
      cases hrun
    | some r =>
      cases r with
      | next s' =>
        rw [iterate_next hr] at hrun
        exact ih (hround s s' hs hr) hrun
      | done out' =>
        rw [iterate_done hr] at hrun
        cases hrun
        exact ⟨s, hs, hr⟩

end BigBox.Loop
