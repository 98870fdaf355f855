import Mathlib.Data.List.TakeWhile

namespace BigBox.Fields
set_option autoImplicit true

/-- The pieces of a list between separators, each with the separator behind it. -/
def fields (p : α → Bool) : List α → List (List α × Option α)
  | [] => [([], none)]
  | c :: s =>
    if p c then ([], some c) :: fields p s else (fields p s).modifyHead fun f => (c :: f.1, f.2)

section fields
variable {p : α → Bool} {a s : List α}

theorem fields_piece (h : ∀ c ∈ a, p c = false) : fields p a = [(a, none)] := by
  induction a with
  | nil => rfl
  | cons c a ih =>
    obtain ⟨hc, ha⟩ := List.forall_mem_cons.1 h
    rw [fields, hc, if_neg Bool.false_ne_true, ih ha]
    rfl

theorem fields_cut (h : ∀ c ∈ a, p c = false) (hc : p c = true) (s : List α) :
    fields p (a ++ c :: s) = (a, some c) :: fields p s := by
  induction a with
  | nil => exact if_pos hc
  | cons d a ih =>
    obtain ⟨hd, ha⟩ := List.forall_mem_cons.1 h
    rw [List.cons_append, fields, hd, if_neg Bool.false_ne_true, ih ha]
    rfl

/-- A list has no separator, or one stands behind a piece without any. -/
theorem piece_or_cut (p : α → Bool) (s : List α) :
    (∀ c ∈ s, p c = false) ∨
      ∃ a c r, (∀ c ∈ a, p c = false) ∧ p c = true ∧ s = a ++ c :: r := by
  induction s with
  | nil => exact .inl nofun
  | cons d s ih =>
    cases hd : p d with
    | true => exact .inr ⟨[], d, s, nofun, hd, rfl⟩
    | false =>
      rcases ih with hs | ⟨a, c, r, ha, hc, rfl⟩
      · exact .inl (List.forall_mem_cons.2 ⟨hd, hs⟩)
      · exact .inr ⟨d :: a, c, r, List.forall_mem_cons.2 ⟨hd, ha⟩, hc, rfl⟩

/-- The induction over the separators of a list. -/
theorem fields_induction {motive : List α → Prop} (piece : ∀ a, (∀ c ∈ a, p c = false) → motive a)
    (cut : ∀ a c s, (∀ c ∈ a, p c = false) → p c = true → motive s → motive (a ++ c :: s))
    (s : List α) : motive s := by
  rcases piece_or_cut p s with hs | ⟨a, c, r, ha, hc, rfl⟩
  · exact piece s hs
  · exact cut a c r ha hc (fields_induction piece cut r)
termination_by s.length
decreasing_by
  subst_vars
  rw [List.length_append, List.length_cons]
  omega

theorem countP_piece (h : ∀ c ∈ a, p c = false) : a.countP p = 0 :=
  List.countP_eq_zero.2 fun c hc => Bool.not_eq_true _ ▸ h c hc

theorem countP_cut (h : ∀ c ∈ a, p c = false) (hc : p c = true) (s : List α) :
    (a ++ c :: s).countP p = s.countP p + 1 := by
  rw [List.countP_append, countP_piece h, List.countP_cons_of_pos hc, Nat.zero_add]

theorem length_fields (p : α → Bool) (s : List α) : (fields p s).length = s.countP p + 1 := by
  induction s using fields_induction (p := p) with
  | piece a ha =>
    rw [fields_piece ha, countP_piece ha]
    rfl
  | cut a c s ha hc ih => rw [fields_cut ha hc, countP_cut ha hc, List.length_cons, ih]

theorem not_of_mem_fields (h : f ∈ fields p s) : ∀ c ∈ f.1, p c = false := by
  induction s using fields_induction (p := p) with
  | piece a ha =>
    rw [fields_piece ha] at h
    rw [List.mem_singleton.1 h]
    exact ha
  | cut a c s ha hc ih =>
    rw [fields_cut ha hc] at h
    rcases List.mem_cons.1 h with rfl | h
    · exact ha
    · exact ih h

/-- The pieces and the separators make up the list. -/
theorem flatMap_fields (p : α → Bool) (s : List α) :
    (fields p s).flatMap (fun f => f.1 ++ f.2.toList) = s := by
  induction s using fields_induction (p := p) with
  | piece a ha =>
    rw [fields_piece ha, List.flatMap_singleton]
    exact List.append_nil a
  | cut a c s ha hc ih =>
    rw [fields_cut ha hc, List.flatMap_cons, ih, List.append_assoc]
    rfl

end fields

/-- The longest pieces of a list without a separator, in order. -/
def words (p : α → Bool) (s : List α) : List (List α) := (s.splitOnP p).filter (! ·.isEmpty)

section words
variable {p : α → Bool} {a b s : List α}

theorem words_cons (hc : p c = true) (s : List α) : words p (c :: s) = words p s := by
  rw [words, List.splitOnP_cons_eq_if_modifyHead, if_pos hc]
  rfl

theorem words_append (hb : ∀ c ∈ b, p c = true) (s : List α) : words p (b ++ s) = words p s := by
  induction b with
  | nil => rfl
  | cons c b ih =>
    obtain ⟨hc, hb⟩ := List.forall_mem_cons.1 hb
    rw [List.cons_append, words_cons hc, ih hb]

theorem words_blank (hb : ∀ c ∈ b, p c = true) : words p b = [] := by
  have happend := words_append hb []
  rw [List.append_nil] at happend
  exact happend

theorem words_last (hne : a ≠ []) (ha : ∀ c ∈ a, p c = false) : words p a = [a] := by
  rw [words, List.splitOnP_eq_singleton ha, List.filter_cons_of_pos]
  · rfl
  · rwa [Bool.not_eq_true', List.isEmpty_eq_false_iff]

theorem words_cut (hne : a ≠ []) (ha : ∀ c ∈ a, p c = false) (hc : p c = true) (s : List α) :
    words p (a ++ c :: s) = a :: words p s := by
  rw [words, List.splitOnP_append_cons_of_forall_mem ha c hc, List.filter_cons_of_pos]
  · rfl
  · rwa [Bool.not_eq_true', List.isEmpty_eq_false_iff]

/-- The separators that start a list. -/
theorem exists_blank_append (p : α → Bool) (s : List α) :
    ∃ b r, s = b ++ r ∧ (∀ c ∈ b, p c = true) ∧ ∀ c, r.head? = some c → p c = false := by
  refine ⟨s.takeWhile p, s.dropWhile p, List.takeWhile_append_dropWhile.symm, ?_, ?_⟩
  · exact fun c hc => List.mem_takeWhile_imp hc
  · intro c hc
    have hhead := List.head?_dropWhile_not p s
    rw [hc] at hhead
    exact hhead

/-- The induction over the words of a list. -/
theorem words_induction {motive : List α → Prop}
    (blank : ∀ b, (∀ c ∈ b, p c = true) → motive b)
    (last : ∀ b a, (∀ c ∈ b, p c = true) → a ≠ [] → (∀ c ∈ a, p c = false) → motive (b ++ a))
    (cut : ∀ b a c s, (∀ c ∈ b, p c = true) → a ≠ [] → (∀ c ∈ a, p c = false) → p c = true →
      motive s → motive (b ++ (a ++ c :: s))) (s : List α) : motive s := by
  obtain ⟨b, r, rfl, hb, hhead⟩ := exists_blank_append p s
  rcases piece_or_cut p r with hr | ⟨a, c, t, ha, hc, rfl⟩
  · by_cases hne : r = []
    · rw [hne, List.append_nil]
      exact blank b hb
    · exact last b r hb hne hr
  · have hne : a ≠ [] := by
      rintro rfl
      rw [hhead c rfl] at hc
      cases hc
    exact cut b a c t hb hne ha hc (words_induction blank last cut t)
termination_by s.length
decreasing_by
  subst_vars
  simp only [List.length_append, List.length_cons]
  omega

theorem subset_of_mem_words (h : w ∈ words p s) : w ⊆ s := by
  induction s using words_induction (p := p) with
  | blank b hb =>
    rw [words_blank hb] at h
    cases h
  | last b a hb hne ha =>
    rw [words_append hb, words_last hne ha] at h
    rw [List.mem_singleton.1 h]
    exact List.subset_append_right b a
  | cut b a c s hb hne ha hc ih =>
    rw [words_append hb, words_cut hne ha hc] at h
    rcases List.mem_cons.1 h with rfl | h
    · exact fun x hx => List.mem_append_right _ (List.mem_append_left _ hx)
    · exact fun x hx => List.mem_append_right _ (List.mem_append_right _
        (List.mem_cons_of_mem _ (ih h hx)))

end words

end BigBox.Fields
