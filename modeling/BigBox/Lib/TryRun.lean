import Mathlib.Algebra.Order.Ring.Int
import Mathlib.Data.List.Basic
import Mathlib.Data.Option.Basic

namespace BigBox
set_option autoImplicit true

/-- The states a transition function passes through, with the output of every step. -/
def run (step : σ → ι → σ × ο) (s : σ) : List ι → σ × List ο
  | [] => (s, [])
  | i :: is => ((run step (step s i).1 is).1, (step s i).2 :: (run step (step s i).1 is).2)

@[simp] theorem run_nil (step : σ → ι → σ × ο) (s : σ) : run step s [] = (s, []) := rfl

@[simp] theorem run_cons_fst (step : σ → ι → σ × ο) (s : σ) (i : ι) (is : List ι) :
    (run step s (i :: is)).1 = (run step (step s i).1 is).1 := rfl

@[simp] theorem run_cons_snd (step : σ → ι → σ × ο) (s : σ) (i : ι) (is : List ι) :
    (run step s (i :: is)).2 = (step s i).2 :: (run step (step s i).1 is).2 := rfl

theorem run_append_fst (step : σ → ι → σ × ο) (s : σ) (is js : List ι) :
    (run step s (is ++ js)).1 = (run step (run step s is).1 js).1 := by
  induction is generalizing s with
  | nil => rfl
  | cons i is ih => exact ih _

theorem run_map (step : σ → κ → σ × ο) (f : ι → κ) (s : σ) (is : List ι) :
    run step s (is.map f) = run (fun s i => step s (f i)) s is := by
  induction is generalizing s with
  | nil => rfl
  | cons i is ih => simp only [List.map_cons, run, ih]

/-- A relation between two machines that every step keeps, with equal outputs, makes their
runs indistinguishable. -/
theorem run_simulation {step : σ → ι → σ × ο} {step' : τ → ι → τ × ο} {R : σ → τ → Prop}
    (hstep : ∀ s t i, R s t → R (step s i).1 (step' t i).1 ∧ (step s i).2 = (step' t i).2)
    (h : R s t) (is : List ι) :
    R (run step s is).1 (run step' t is).1 ∧ (run step s is).2 = (run step' t is).2 := by
  induction is generalizing s t with
  | nil => exact ⟨h, rfl⟩
  | cons i is ih =>
    obtain ⟨hR, ho⟩ := hstep s t i h
    obtain ⟨hR', ho'⟩ := ih hR
    exact ⟨hR', by simp only [run_cons_snd, ho, ho']⟩

/-- The states that steps reach from an initial state. -/
inductive Reachable (init : σ → Prop) (step : σ → σ → Prop) : σ → Prop
  | init (h : init s) : Reachable init step s
  | step (h : Reachable init step s) (h' : step s t) : Reachable init step t

theorem Reachable.invariant {init : σ → Prop} {step : σ → σ → Prop} {Inv : σ → Prop}
    (h : Reachable init step s) (hinit : ∀ s, init s → Inv s)
    (hstep : ∀ s t, Inv s → step s t → Inv t) : Inv s := by
  induction h with
  | init h => exact hinit _ h
  | step _ h' ih => exact hstep _ _ ih h'

/-- A run of a machine whose steps may have no result. -/
def tryRun (step : σ → ι → Option (σ × ο)) (s : σ) : List ι → Option (σ × List ο)
  | [] => some (s, [])
  | i :: is => (step s i).bind fun r => (tryRun step r.1 is).map fun r' => (r'.1, r.2 :: r'.2)

theorem tryRun_cons {step : σ → ι → Option (σ × ο)} (h : step s i = some (s', o)) (is : List ι) :
    tryRun step s (i :: is) = (tryRun step s' is).map fun r => (r.1, o :: r.2) := by
  rw [tryRun, h, Option.bind_some]

theorem tryRun_cons_none {step : σ → ι → Option (σ × ο)} (h : step s i = none) (is : List ι) :
    tryRun step s (i :: is) = none := by
  rw [tryRun, h, Option.bind_none]

theorem tryRun_concat {step : σ → ι → Option (σ × ο)} (hrun : tryRun step s is = some (s', os))
    (hstep : step s' i = some (s'', o)) :
    tryRun step s (is ++ [i]) = some (s'', os ++ [o]) := by
  induction is generalizing s os with
  | nil =>
    cases hrun
    rw [List.nil_append, tryRun_cons hstep]
    rfl
  | cons j is ih =>
    obtain ⟨r, hj, hrest⟩ := Option.bind_eq_some_iff.1 hrun
    obtain ⟨r', hr', he⟩ := Option.map_eq_some_iff.1 hrest
    cases he
    rw [List.cons_append, tryRun_cons hj, ih hr']
    rfl

theorem tryRun_append {step : σ → ι → Option (σ × ο)} (s : σ) (is js : List ι) :
    tryRun step s (is ++ js) = (tryRun step s is).bind fun r =>
      (tryRun step r.1 js).map fun r' => (r'.1, r.2 ++ r'.2) := by
  induction is generalizing s with
  | nil =>
    rw [List.nil_append, tryRun, Option.bind_some]
    exact (Option.map_id_apply ..).symm
  | cons i is ih =>
    cases hi : step s i with
    | none => rw [List.cons_append, tryRun_cons_none hi, tryRun_cons_none hi, Option.bind_none]
    | some r =>
      rw [List.cons_append, tryRun_cons hi, tryRun_cons hi, ih]
      cases tryRun step r.1 is with
      | none => rfl
      | some r' =>
        rw [Option.bind_some, Option.map_some, Option.bind_some, Option.map_map]
        rfl

theorem tryRun_append_some {step : σ → ι → Option (σ × ο)}
    (h : tryRun step s (is ++ js) = some r) :
    ∃ r₁ r₂, tryRun step s is = some r₁ ∧ tryRun step r₁.1 js = some r₂ ∧ r.1 = r₂.1 := by
  rw [tryRun_append] at h
  obtain ⟨r₁, hr₁, hrest⟩ := Option.bind_eq_some_iff.1 h
  obtain ⟨r₂, hr₂, rfl⟩ := Option.map_eq_some_iff.1 hrest
  exact ⟨r₁, r₂, hr₁, hr₂, rfl⟩

/-- What one step preserves holds at the end of every run that has a result. -/
theorem tryRun_invariant {step : σ → ι → Option (σ × ο)} {Inv : σ → Prop}
    (hstep : ∀ s i s' o, Inv s → step s i = some (s', o) → Inv s') (hs : Inv s)
    (hrun : tryRun step s is = some (s', os)) : Inv s' := by
  induction is generalizing s os with
  | nil =>
    cases hrun
    exact hs
  | cons i is ih =>
    cases hi : step s i with
    | none =>
      rw [tryRun_cons_none hi] at hrun
      cases hrun
    | some r =>
      rw [tryRun_cons hi] at hrun
      obtain ⟨r', hr', he⟩ := Option.map_eq_some_iff.1 hrun
      cases he
      exact ih (hstep s i r.1 r.2 hs hi) hr'

/-- Two machines whose steps have equal outputs, or both no result, have such runs. -/
theorem tryRun_simulation {step : σ → ι → Option (σ × ο)} {step' : τ → ι → Option (τ × ο)}
    {R : σ → τ → Prop} {ok : ι → Prop}
    (hstep : ∀ s t i, R s t → ok i →
      Option.Rel (fun r r' => R r.1 r'.1 ∧ r.2 = r'.2) (step s i) (step' t i))
    (h : R s t) (hok : ∀ i ∈ is, ok i) :
    Option.Rel (fun r r' => R r.1 r'.1 ∧ r.2 = r'.2) (tryRun step s is) (tryRun step' t is) := by
  induction is generalizing s t with
  | nil => exact .some ⟨h, rfl⟩
  | cons i is ih =>
    have hi := hstep s t i h (hok i List.mem_cons_self)
    rw [tryRun, tryRun]
    generalize step s i = x at hi
    generalize step' t i = y at hi
    cases hi with
    | none => exact .none
    | @some r r' hr =>
      have hrest := ih hr.1 fun j hj => hok j (List.mem_cons_of_mem _ hj)
      rw [Option.bind_some, Option.bind_some]
      generalize tryRun step r.1 is = x at hrest
      generalize tryRun step' r'.1 is = y at hrest
      cases hrest with
      | none => exact .none
      | some hr' => exact .some ⟨hr'.1, congrArg₂ List.cons hr.2 hr'.2⟩

/-- A condition on the inputs of a run, each with the state of the specification before it. -/
def Meets (spec : τ → ι → τ × ο) (ok : τ → ι → Prop) (t : τ) : List ι → Prop
  | [] => True
  | i :: is => ok t i ∧ Meets spec ok (spec t i).1 is

/-- A machine that follows its specification at the inputs that meet a condition has its outputs
in every run that meets it throughout. -/
theorem tryRun_of_meets {step : σ → ι → Option (σ × ο)} {spec : τ → ι → τ × ο}
    {ok : τ → ι → Prop} {R : σ → τ → Prop}
    (hgood : ∀ s t i, R s t → ok t i →
      ∃ s', step s i = some (s', (spec t i).2) ∧ R s' (spec t i).1)
    (h : R s t) (hmeets : Meets spec ok t is) :
    ∃ s', tryRun step s is = some (s', (run spec t is).2) ∧ R s' (run spec t is).1 := by
  induction is generalizing s t with
  | nil => exact ⟨s, rfl, h⟩
  | cons i is ih =>
    obtain ⟨s₁, hs₁, hR⟩ := hgood s t i h hmeets.1
    obtain ⟨s', hrun, hs'⟩ := ih hR hmeets.2
    exact ⟨s', by rw [tryRun_cons hs₁, hrun]; rfl, hs'⟩

instance decidableMeets {spec : τ → ι → τ × ο} {ok : τ → ι → Prop} [∀ t i, Decidable (ok t i)] :
    ∀ (t : τ) (is : List ι), Decidable (Meets spec ok t is)
  | _, [] => isTrue trivial
  | t, i :: is => @instDecidableAnd _ _ _ (decidableMeets (spec t i).1 is)

theorem Meets.and {spec : τ → ι → τ × ο} {ok ok' : τ → ι → Prop} (h : Meets spec ok t is)
    (h' : Meets spec ok' t is) : Meets spec (fun t i => ok t i ∧ ok' t i) t is := by
  induction is generalizing t with
  | nil => trivial
  | cons i is ih => exact ⟨⟨h.1, h'.1⟩, ih h.2 h'.2⟩

/-- An invariant that the steps that meet a condition keep. -/
theorem Meets.of_keeps {spec : τ → ι → τ × ο} {ok ok' : τ → ι → Prop} {R : τ → Prop}
    (h : Meets spec ok t is) (hstep : ∀ t i, R t → ok t i → ok' t i ∧ R (spec t i).1) (ht : R t) :
    Meets spec ok' t is := by
  induction is generalizing t with
  | nil => trivial
  | cons i is ih =>
    obtain ⟨hok, hR⟩ := hstep t i ht h.1
    exact ⟨hok, ih h.2 hR⟩

theorem Meets.append {spec : τ → ι → τ × ο} {ok : τ → ι → Prop} (h : Meets spec ok t is)
    (h' : Meets spec ok (run spec t is).1 js) : Meets spec ok t (is ++ js) := by
  induction is generalizing t with
  | nil => exact h'
  | cons i is ih => exact ⟨h.1, ih h.2 h'⟩

/-- A run that does not meet a condition throughout has a first step that does not. -/
theorem exists_of_not_meets {spec : τ → ι → τ × ο} {ok : τ → ι → Prop}
    (h : ¬ Meets spec ok t is) :
    ∃ js i ks, is = js ++ i :: ks ∧ Meets spec ok t js ∧ ¬ ok (run spec t js).1 i := by
  induction is generalizing t with
  | nil => exact absurd trivial h
  | cons i is ih =>
    by_cases hi : ok t i
    · obtain ⟨js, j, ks, rfl, hjs, hj⟩ := ih fun hrest => h ⟨hi, hrest⟩
      exact ⟨i :: js, j, ks, rfl, ⟨hi, hjs⟩, hj⟩
    · exact ⟨[], i, is, rfl, trivial, hi⟩

theorem meets_true {spec : τ → ι → τ × ο} (t : τ) (is : List ι) :
    Meets spec (fun _ _ => True) t is := by
  induction is generalizing t with
  | nil => trivial
  | cons i is ih => exact ⟨trivial, ih _⟩

theorem meets_iff_forall {spec : τ → ι → τ × ο} {p : ι → Prop} (t : τ) (is : List ι) :
    Meets spec (fun _ i => p i) t is ↔ ∀ i ∈ is, p i := by
  induction is generalizing t with
  | nil => exact iff_of_true trivial fun i hi => nomatch hi
  | cons i is ih => rw [Meets, ih, List.forall_mem_cons]

/-- It has the outputs of the specification in no other run when it goes wrong at every other
valid input. -/
theorem meets_of_tryRun {step : σ → ι → Option (σ × ο)} {spec : τ → ι → τ × ο}
    {valid ok : τ → ι → Prop} {R : σ → τ → Prop}
    (hgood : ∀ s t i, R s t → valid t i ∧ ok t i →
      ∃ s', step s i = some (s', (spec t i).2) ∧ R s' (spec t i).1)
    (hbad : ∀ s t i, R s t → valid t i → ¬ ok t i → ∀ s', step s i ≠ some (s', (spec t i).2))
    (h : R s t) (hvalid : Meets spec valid t is)
    (hrun : tryRun step s is = some (s', (run spec t is).2)) : Meets spec ok t is := by
  induction is generalizing s t s' with
  | nil => trivial
  | cons i is ih =>
    cases hi : step s i with
    | none =>
      rw [tryRun_cons_none hi] at hrun
      cases hrun
    | some r =>
      rw [tryRun_cons hi, run_cons_snd] at hrun
      obtain ⟨r', hr', he⟩ := Option.map_eq_some_iff.1 hrun
      obtain ⟨ho, htail⟩ := List.cons.inj (Prod.mk.inj he).2
      have hok : ok t i :=
        Classical.not_not.1 fun hno => hbad s t i h hvalid.1 hno r.1 (ho ▸ hi)
      obtain ⟨s₁, hs₁, hR⟩ := hgood s t i h ⟨hvalid.1, hok⟩
      cases hi.symm.trans hs₁
      have hrest : tryRun step s₁ is = some (r'.1, (run spec (spec t i).1 is).2) := by
        rw [hr', ← htail]
      exact ⟨hok, ih hR hvalid.2 hrest⟩

theorem tryRun_iff_meets {step : σ → ι → Option (σ × ο)} {spec : τ → ι → τ × ο}
    {ok : τ → ι → Prop} {R : σ → τ → Prop}
    (hgood : ∀ s t i, R s t → ok t i →
      ∃ s', step s i = some (s', (spec t i).2) ∧ R s' (spec t i).1)
    (hbad : ∀ s t i, R s t → ¬ ok t i → ∀ s', step s i ≠ some (s', (spec t i).2))
    (h : R s t) (is : List ι) :
    (∃ s', tryRun step s is = some (s', (run spec t is).2)) ↔ Meets spec ok t is := by
  constructor
  · rintro ⟨s', hrun⟩
    exact meets_of_tryRun (fun s t i hR hok => hgood s t i hR hok.2)
      (fun s t i hR _ hno => hbad s t i hR hno) h (meets_true t is) hrun
  · intro hmeets
    obtain ⟨s', hrun, _⟩ := tryRun_of_meets hgood h hmeets
    exact ⟨s', hrun⟩

/-- A run whose states are related to those of a specification, with the same outputs. -/
def Follows (step : σ → ι → Option (σ × ο)) (spec : τ → ι → τ × ο) (R : σ → τ → Prop) (s : σ)
    (t : τ) : List ι → Prop
  | [] => R s t
  | i :: is => R s t ∧ ∃ s', step s i = some (s', (spec t i).2) ∧
      Follows step spec R s' (spec t i).1 is

theorem Follows.head {step : σ → ι → Option (σ × ο)} {spec : τ → ι → τ × ο} {R : σ → τ → Prop}
    (h : Follows step spec R s t is) : R s t := by
  cases is with
  | nil => exact h
  | cons i is => exact h.1

/-- The inputs of a run are valid in the states they come in. -/
def Admits (step : σ → ι → Option (σ × ο)) (valid : σ → ι → Prop) (s : σ) : List ι → Prop
  | [] => True
  | i :: is => valid s i ∧ ∀ s' o, step s i = some (s', o) → Admits step valid s' is

/-- What is the same of every valid step is the same of every run of them. -/
theorem admits_iff {step : σ → ι → Option (σ × ο)} {valid P Q : σ → ι → Prop} {I : σ → Prop}
    (hstep : ∀ s i s' o, I s → step s i = some (s', o) → I s')
    (h : ∀ s i, I s → valid s i → (P s i ↔ Q s i)) (hs : I s)
    (hvalid : Admits step valid s is) : Admits step P s is ↔ Admits step Q s is := by
  induction is generalizing s with
  | nil => exact Iff.rfl
  | cons i is ih =>
    have hrest : (∀ s' o, step s i = some (s', o) → Admits step P s' is) ↔
        ∀ s' o, step s i = some (s', o) → Admits step Q s' is :=
      forall_congr' fun s' => forall_congr' fun o => forall_congr' fun hi =>
        ih (hstep s i s' o hs hi) (hvalid.2 s' o hi)
    exact and_congr (h s i hs hvalid.1) hrest

/-- What the specification allows is valid for a machine that follows it. -/
theorem admits_of_meets {step : σ → ι → Option (σ × ο)} {spec : τ → ι → τ × ο}
    {valid : σ → ι → Prop} {ok : τ → ι → Prop} {R : σ → τ → Prop}
    (hgood : ∀ s t i, R s t → ok t i → valid s i ∧
      ∃ s', step s i = some (s', (spec t i).2) ∧ R s' (spec t i).1)
    (h : R s t) (hmeets : Meets spec ok t is) : Admits step valid s is := by
  induction is generalizing s t with
  | nil => trivial
  | cons i is ih =>
    obtain ⟨hvalid, s₁, hs₁, hR⟩ := hgood s t i h hmeets.1
    refine ⟨hvalid, fun s' o hstep => ?_⟩
    cases hs₁.symm.trans hstep
    exact ih hR hmeets.2

theorem admits_of_forall {step : σ → ι → Option (σ × ο)} {p : ι → Prop} (s : σ)
    (hp : ∀ i ∈ is, p i) : Admits step (fun _ i => p i) s is := by
  induction is generalizing s with
  | nil => trivial
  | cons i is ih =>
    exact ⟨hp i List.mem_cons_self,
      fun s' _ _ => ih s' fun j hj => hp j (List.mem_cons_of_mem _ hj)⟩

theorem Admits.of_forall {step : σ → ι → Option (σ × ο)} {valid : σ → ι → Prop} {p : ι → Prop}
    (hp : ∀ i ∈ is, p i) (h : Admits step valid s is) :
    Admits step (fun s i => p i ∧ valid s i) s is := by
  induction is generalizing s with
  | nil => trivial
  | cons i is ih =>
    refine ⟨⟨hp i List.mem_cons_self, h.1⟩, fun s' o hstep => ?_⟩
    exact ih (fun j hj => hp j (List.mem_cons_of_mem _ hj)) (h.2 s' o hstep)

/-- A machine that follows its specification at its valid inputs does so in every valid run. -/
theorem tryRun_of_admits {step : σ → ι → Option (σ × ο)} {spec : τ → ι → τ × ο}
    {valid P : σ → ι → Prop} {R : σ → τ → Prop}
    (hgood : ∀ s t i, R s t → valid s i → P s i ∧
      ∃ s', step s i = some (s', (spec t i).2) ∧ R s' (spec t i).1)
    (h : R s t) (hadmits : Admits step valid s is) :
    (∃ s', tryRun step s is = some (s', (run spec t is).2) ∧ R s' (run spec t is).1) ∧
      Admits step P s is := by
  induction is generalizing s t with
  | nil => exact ⟨⟨s, rfl, h⟩, trivial⟩
  | cons i is ih =>
    obtain ⟨hP, s₁, hs₁, hR⟩ := hgood s t i h hadmits.1
    obtain ⟨⟨s', hrun, hs'⟩, hrest⟩ := ih hR (hadmits.2 s₁ _ hs₁)
    refine ⟨⟨s', by rw [tryRun_cons hs₁, hrun]; rfl, hs'⟩, hP, fun s₂ o hstep => ?_⟩
    cases hs₁.symm.trans hstep
    exact hrest

theorem Admits.append {step : σ → ι → Option (σ × ο)} {valid : σ → ι → Prop}
    (h : Admits step valid s is) (hi : ∀ s, valid s i) : Admits step valid s (is ++ [i]) := by
  induction is generalizing s with
  | nil => exact ⟨hi s, fun _ _ _ => trivial⟩
  | cons j is ih => exact ⟨h.1, fun s' o hstep => ih (h.2 s' o hstep)⟩

theorem Admits.last {step : σ → ι → Option (σ × ο)} {valid : σ → ι → Prop}
    (h : Admits step valid s (is ++ [i])) (hrun : tryRun step s is = some (s', os)) :
    valid s' i := by
  induction is generalizing s os with
  | nil =>
    cases hrun
    exact h.1
  | cons j is ih =>
    obtain ⟨r, hstep, hrest⟩ := Option.bind_eq_some_iff.1 hrun
    obtain ⟨r', hr', he⟩ := Option.map_eq_some_iff.1 hrest
    cases he
    exact ih (h.2 r.1 r.2 hstep) hr'

theorem Meets.last {spec : τ → ι → τ × ο} {ok : τ → ι → Prop}
    (h : Meets spec ok t (is ++ [i])) : ok (run spec t is).1 i := by
  induction is generalizing t with
  | nil => exact h.1
  | cons j is ih => exact ih h.2

/-- A machine that keeps an invariant at the valid inputs that meet a condition, and goes wrong at
the others, follows its specification in the runs that meet it throughout. -/
theorem follows_iff_of_keeps {step : σ → ι → Option (σ × ο)} {spec : τ → ι → τ × ο}
    {valid : σ → ι → Prop} {ok : τ → ι → Prop} {R P : σ → τ → Prop} (hP : ∀ s t, R s t → P s t)
    (hgood : ∀ s t i, R s t → valid s i → ok t i →
      ∃ s', step s i = some (s', (spec t i).2) ∧ R s' (spec t i).1)
    (hbad : ∀ s t i, R s t → valid s i → ¬ ok t i →
      ∀ s', step s i = some (s', (spec t i).2) → ¬ P s' (spec t i).1)
    (h : R s t) (hadmits : Admits step valid s is) :
    Follows step spec P s t is ↔ Meets spec ok t is := by
  induction is generalizing s t with
  | nil => exact iff_of_true (hP s t h) trivial
  | cons i is ih =>
    obtain ⟨hvalid, hrest⟩ := hadmits
    constructor
    · rintro ⟨_, s', hstep, hfollows⟩
      have hok : ok t i :=
        Classical.not_not.1 fun hno => hbad s t i h hvalid hno s' hstep hfollows.head
      obtain ⟨s₁, hs₁, hR⟩ := hgood s t i h hvalid hok
      cases hs₁.symm.trans hstep
      exact ⟨hok, (ih hR (hrest _ _ hstep)).1 hfollows⟩
    · rintro ⟨hok, hmeets⟩
      obtain ⟨s', hstep, hR⟩ := hgood s t i h hvalid hok
      exact ⟨hP s t h, s', hstep, (ih hR (hrest s' _ hstep)).2 hmeets⟩

/-- A machine that follows its specification at the valid inputs that meet a condition, and goes
wrong at the others, does so in the runs that meet it throughout. -/
theorem follows_iff_meets {step : σ → ι → Option (σ × ο)} {spec : τ → ι → τ × ο}
    {valid : σ → ι → Prop} {ok : τ → ι → Prop} {R : σ → τ → Prop}
    (hgood : ∀ s t i, R s t → valid s i → ok t i →
      ∃ s', step s i = some (s', (spec t i).2) ∧ R s' (spec t i).1)
    (hbad : ∀ s t i, R s t → valid s i → ¬ ok t i →
      ∀ s', step s i = some (s', (spec t i).2) → ¬ R s' (spec t i).1)
    (h : R s t) (hadmits : Admits step valid s is) :
    Follows step spec R s t is ↔ Meets spec ok t is :=
  follows_iff_of_keeps (fun _ _ h => h) hgood hbad h hadmits

/-- The same with a condition on the states of the machine. -/
theorem follows_iff_admits {step : σ → ι → Option (σ × ο)} {spec : τ → ι → τ × ο}
    {valid ok : σ → ι → Prop} {R P : σ → τ → Prop} (hP : ∀ s t, R s t → P s t)
    (hgood : ∀ s t i, R s t → valid s i → ok s i →
      ∃ s', step s i = some (s', (spec t i).2) ∧ R s' (spec t i).1)
    (hbad : ∀ s t i, R s t → valid s i → ¬ ok s i →
      ∀ s', step s i = some (s', (spec t i).2) → ¬ P s' (spec t i).1)
    (h : R s t) (hadmits : Admits step valid s is) :
    Follows step spec P s t is ↔ Admits step ok s is := by
  induction is generalizing s t with
  | nil => exact iff_of_true (hP s t h) trivial
  | cons i is ih =>
    obtain ⟨hvalid, hrest⟩ := hadmits
    constructor
    · rintro ⟨_, s', hstep, hfollows⟩
      have hok : ok s i :=
        Classical.not_not.1 fun hno => hbad s t i h hvalid hno s' hstep hfollows.head
      obtain ⟨s₁, hs₁, hR⟩ := hgood s t i h hvalid hok
      cases hs₁.symm.trans hstep
      refine ⟨hok, fun s₂ o hs₂ => ?_⟩
      cases hs₂.symm.trans hstep
      exact (ih hR (hrest _ _ hstep)).1 hfollows
    · rintro ⟨hok, hadmits⟩
      obtain ⟨s', hstep, hR⟩ := hgood s t i h hvalid hok
      exact ⟨hP s t h, s', hstep, (ih hR (hrest s' _ hstep)).2 (hadmits s' _ hstep)⟩

/-- A run whose steps all have a result: its states have one property, and its steps another. -/
def Sustains (step : σ → ι → Option (σ × ο)) (P : σ → Prop) (Q : σ → ι → σ → ο → Prop) (s : σ) :
    List ι → Prop
  | [] => P s
  | i :: is => P s ∧ ∃ s' o, step s i = some (s', o) ∧ Q s i s' o ∧ Sustains step P Q s' is

/-- An invariant that may depend on how many inputs are left. -/
theorem sustains_of_step {step : σ → ι → Option (σ × ο)} {P : σ → Prop}
    {Q : σ → ι → σ → ο → Prop} {R : Nat → σ → Prop} {valid : ι → Prop} (hP : ∀ n s, R n s → P s)
    (hstep : ∀ n s i, R (n + 1) s → valid i →
      ∃ s' o, step s i = some (s', o) ∧ Q s i s' o ∧ R n s')
    (h : R is.length s) (hvalid : ∀ i ∈ is, valid i) : Sustains step P Q s is := by
  induction is generalizing s with
  | nil => exact hP _ s h
  | cons i is ih =>
    obtain ⟨s', o, hs', hq, hrest⟩ := hstep _ s i h (hvalid i List.mem_cons_self)
    exact ⟨hP _ s h, s', o, hs', hq, ih hrest fun j hj => hvalid j (List.mem_cons_of_mem _ hj)⟩

theorem Sustains.head {step : σ → ι → Option (σ × ο)} {P : σ → Prop} {Q : σ → ι → σ → ο → Prop}
    (h : Sustains step P Q s is) : P s := by
  cases is with
  | nil => exact h
  | cons i is => exact h.1

/-- A machine that keeps an invariant at the inputs that meet a condition, and goes wrong at the
others. -/
theorem sustains_iff_of_keeps {step : σ → ι → Option (σ × ο)} {P : σ → Prop}
    {Q : σ → ι → σ → ο → Prop} {R : σ → Prop} {ok : σ → ι → Prop} (hP : ∀ s, R s → P s)
    (hgood : ∀ s i, R s → ok s i → ∃ s' o, step s i = some (s', o) ∧ Q s i s' o ∧ R s')
    (hbad : ∀ s i s' o, R s → ¬ ok s i → step s i = some (s', o) → Q s i s' o → ¬ P s') (h : R s)
    (is : List ι) : Sustains step P Q s is ↔ Admits step ok s is := by
  induction is generalizing s with
  | nil => exact iff_of_true (hP s h) trivial
  | cons i is ih =>
    constructor
    · rintro ⟨_, s', o, hstep, hq, hrest⟩
      have hok : ok s i := by
        by_contra hno
        exact hbad s i s' o h hno hstep hq hrest.head
      obtain ⟨s₁, o₁, hs₁, _, hR⟩ := hgood s i h hok
      refine ⟨hok, fun s₂ o₂ hs₂ => ?_⟩
      cases hs₁.symm.trans hstep
      cases hs₁.symm.trans hs₂
      exact (ih hR).1 hrest
    · rintro ⟨hok, hadmits⟩
      obtain ⟨s', o, hstep, hq, hR⟩ := hgood s i h hok
      exact ⟨hP s h, s', o, hstep, hq, (ih hR).2 (hadmits s' o hstep)⟩

/-- The same for a machine that has no result at the others. -/
theorem sustains_iff_admits {step : σ → ι → Option (σ × ο)} {P : σ → Prop}
    {Q : σ → ι → σ → ο → Prop} {R : σ → Prop} {ok : σ → ι → Prop} (hP : ∀ s, R s → P s)
    (hgood : ∀ s i, R s → ok s i → ∃ s' o, step s i = some (s', o) ∧ Q s i s' o ∧ R s')
    (hbad : ∀ s i, R s → ¬ ok s i → step s i = none) (h : R s) (is : List ι) :
    Sustains step P Q s is ↔ Admits step ok s is := by
  apply sustains_iff_of_keeps hP hgood _ h is
  intro s i s' o hR hno hstep
  rw [hbad s i hR hno] at hstep
  cases hstep

/-- The same with a condition on the inputs alone. -/
theorem sustains_iff_forall {step : σ → ι → Option (σ × ο)} {P : σ → Prop}
    {Q : σ → ι → σ → ο → Prop} {R : σ → Prop} {ok : ι → Prop} (hP : ∀ s, R s → P s)
    (hgood : ∀ s i, R s → ok i → ∃ s' o, step s i = some (s', o) ∧ Q s i s' o ∧ R s')
    (hbad : ∀ s i s' o, R s → ¬ ok i → step s i = some (s', o) → Q s i s' o → ¬ P s') (h : R s)
    (is : List ι) : Sustains step P Q s is ↔ ∀ i ∈ is, ok i := by
  rw [sustains_iff_of_keeps hP hgood hbad h]
  constructor
  · intro hadmits
    induction is generalizing s with
    | nil => exact fun i hi => nomatch hi
    | cons i is ih =>
      obtain ⟨s', o, hstep, _, hR⟩ := hgood s i h hadmits.1
      exact List.forall_mem_cons.2 ⟨hadmits.1, ih hR (hadmits.2 s' o hstep)⟩
  · exact admits_of_forall s

end BigBox
