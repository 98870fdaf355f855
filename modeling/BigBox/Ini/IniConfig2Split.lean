import BigBox.Ini.IniConfig2Line

namespace BigBox.IniConfig2
open Loop
set_option autoImplicit true

theorem round_window (done : Str) (c : UInt8) (rest : Str) :
    splitRound (window done (c :: rest), done.length) =
      some (.next ((window done (c :: rest)).splitStep done.length)) :=
  if_pos (Nat.lt_add_of_pos_right (Nat.succ_pos rest.length))

/-- A round over white space, or over a zero that stands for a character already split. -/
theorem returns_skip (hc : c = CR ∨ c = LF ∨ c = TAB ∨ c = SPACE ∨ c = 0) (done rest : Str) :
    Returns splitRound (window done (c :: rest), done.length) out ↔
      Returns splitRound (window (done ++ [0]) rest, (done ++ [0]).length) out := by
  have hstep : (window done (c :: rest)).splitStep done.length =
      (window (done ++ [0]) rest, (done ++ [0]).length) := by
    rw [Ini.splitStep, window_get, List.headD_cons, length_concat]
    by_cases hzero : c = 0
    · subst hzero
      rw [if_neg (by decide), if_pos rfl, window_cons]
    · have hspace : c = CR ∨ c = LF ∨ c = TAB ∨ c = SPACE := by
        rcases hc with h | h | h | h | h
        · exact .inl h
        · exact .inr (.inl h)
        · exact .inr (.inr (.inl h))
        · exact .inr (.inr (.inr h))
        · exact absurd h hzero
      rw [if_pos hspace, window_set, window_cons]
  have hround := round_window done c rest
  rw [hstep] at hround
  exact returns_next hround

/-- The rounds over a line put its items behind those in front of it. -/
def Walks (done line tail : Str) : Prop :=
  ∃ done', tokens done' = tokens done ++ (lineItems line).flatMap Item.tokens ∧
    ∀ out, Returns splitRound (window done' tail, done'.length) out →
      Returns splitRound (window done (line ++ tail), done.length) out

theorem walks_step (chunk : Str) (hdone : Ended done)
    (htokens : tokens chunk = (lineItems (c :: line)).flatMap Item.tokens)
    (hstep : (window done (c :: line ++ tail)).splitStep done.length =
      (window (done ++ chunk) tail, (done ++ chunk).length)) : Walks done (c :: line) tail := by
  refine ⟨done ++ chunk, ?_, fun out hout => ?_⟩
  · rw [hdone.tokens_append, htokens]
  · have hround := round_window done c (line ++ tail)
    rw [← List.cons_append, hstep] at hround
    exact (returns_next hround).2 hout

/-- The name of a section up to the bracket or the end of the line. -/
theorem splitStep_header (hlf : LF ∉ name) (hzero : 0 ∉ name) (hclose : CLOSE ∉ name)
    (hrest : ∀ c ∈ rest.head?, c = 0 ∨ c ∈ [CLOSE, LF]) (done : Str) :
    (window done (OPEN :: name ++ rest)).splitStep done.length =
      ((window (done ++ OPEN :: name) rest).set (done ++ OPEN :: name).length 0,
        (done ++ OPEN :: name).length) := by
  have hcspn : (window done (OPEN :: name ++ rest)).strcspn done.length [CLOSE, LF] =
      (OPEN :: name).length := by
    apply window_strcspn _ _ hrest
    intro c hc
    rcases List.mem_cons.1 hc with rfl | hc
    · decide
    · refine ⟨fun h => hzero (h ▸ hc), fun h => ?_⟩
      rcases List.mem_pair.1 h with rfl | rfl
      · exact hclose hc
      · exact hlf hc
  rw [Ini.splitStep, hcspn, List.cons_append, window_get, List.headD_cons, if_neg (by decide),
    if_neg (by decide), if_pos rfl, List.length_append, ← List.cons_append, window_append]

theorem window_set_end (done : Str) : (window done []).set done.length 0 = window done [] := by
  rw [Ini.set, window, List.nil_append, List.set_append_right _ _ (Nat.le_refl _), Nat.sub_self]
  rfl

theorem walks_header (hdone : Ended done) (hlf : LF ∉ name) (hzero : 0 ∉ name)
    (hclose : CLOSE ∉ name) (h : Walks (done ++ OPEN :: name ++ [0]) line tail) :
    Walks done (OPEN :: (name ++ CLOSE :: line)) tail := by
  have hitems : lineItems (OPEN :: (name ++ CLOSE :: line)) = .header name :: lineItems line := by
    rw [lineItems, if_neg (by decide), if_pos rfl, takeWhile_at hclose, dropWhile_at hclose]
    rfl
  have hname : 0 ∉ OPEN :: name := fun hmem => (List.mem_cons.1 hmem).elim (by decide) hzero
  obtain ⟨done', htokens, hwalk⟩ := h
  refine ⟨done', ?_, fun out hout => ?_⟩
  · rw [htokens, hitems, tokens_concat, hdone.tokens_append, tokens_text hname,
      List.flatMap_cons, List.append_assoc]
    rfl
  · have hhead : ∀ c ∈ (CLOSE :: (line ++ tail)).head?, c = 0 ∨ c ∈ [CLOSE, LF] := by
      rintro c ⟨⟩
      exact .inr List.mem_cons_self
    have hstep := splitStep_header hlf hzero hclose hhead done
    rw [window_set] at hstep
    have hskip := (returns_skip (.inr (.inr (.inr (.inr rfl)))) _ _).2 (hwalk out hout)
    have hround := round_window done OPEN (name ++ CLOSE :: (line ++ tail))
    rw [← List.cons_append, hstep] at hround
    have hstart := (returns_next hround).2 hskip
    rw [List.cons_append, List.append_assoc, List.cons_append]
    exact hstart

theorem walks_header_end (hdone : Ended done) (hlf : LF ∉ name) (hzero : 0 ∉ name)
    (hclose : CLOSE ∉ name) (htail : LineEnd tail) : Walks done (OPEN :: name) tail := by
  have hall : ∀ c ∈ name, decide (c ≠ CLOSE) = true := decide_ne_of_not_mem hclose
  have hitems : lineItems (OPEN :: name) = [.header name] := by
    rw [lineItems, if_neg (by decide), if_pos rfl, List.takeWhile_eq_self_iff.2 hall,
      List.dropWhile_eq_nil_iff.2 hall, List.tail_nil, lineItems]
  have hname : 0 ∉ OPEN :: name := fun hmem => (List.mem_cons.1 hmem).elim (by decide) hzero
  refine ⟨done ++ OPEN :: name, ?_, fun out hout => ?_⟩
  · rw [hitems, hdone.tokens_append, tokens_text hname]
    rfl
  · have hstep := splitStep_header hlf hzero hclose
      (fun c hc => .inr (List.mem_pair.2 (.inr (htail c hc)))) done
    have hround := round_window done OPEN (name ++ tail)
    rw [← List.cons_append, hstep] at hround
    refine (returns_next hround).2 ?_
    cases tail with
    | nil =>
      rw [window_set_end]
      exact hout
    | cons c tail =>
      obtain rfl := htail c rfl
      rw [window_set]
      exact (returns_skip (.inr (.inr (.inr (.inr rfl)))) _ _).2
        ((returns_skip (.inr (.inl rfl)) _ _).1 hout)

theorem walks_line (hdone : Ended done) (hzero : 0 ∉ line) (hlf : LF ∉ line)
    (htail : LineEnd tail) : Walks done line tail := by
  fun_induction lineItems line generalizing done with
  | case1 =>
    refine ⟨done, ?_, fun out h => h⟩
    rw [lineItems]
    exact (List.append_nil _).symm
  | case2 c line hblank ih =>
    obtain ⟨done', hdone', hwalk⟩ := ih (ended_concat done)
      (fun h => hzero (List.mem_cons_of_mem c h)) (fun h => hlf (List.mem_cons_of_mem c h))
    rw [tokens_concat] at hdone'
    refine ⟨done', ?_, fun out h => ?_⟩
    · rw [hdone', lineItems, if_pos hblank]
    · have hspace : c = SPACE ∨ c = TAB ∨ c = CR := of_decide_eq_true hblank
      refine (returns_skip ?_ done (line ++ tail)).2 (hwalk out h)
      rcases hspace with h | h | h
      · exact .inr (.inr (.inr (.inl h)))
      · exact .inr (.inr (.inl h))
      · exact .inl h
  | case3 line _ ih =>
    have hzero' : 0 ∉ line := fun h => hzero (List.mem_cons_of_mem OPEN h)
    have hlf' : LF ∉ line := fun h => hlf (List.mem_cons_of_mem OPEN h)
    by_cases hclose : CLOSE ∈ line
    · obtain ⟨name, line, rfl, hname⟩ := List.eq_append_cons_of_mem hclose
      rw [dropWhile_at hname, List.tail_cons] at ih
      apply walks_header hdone (fun h => hlf' (List.mem_append_left _ h))
        (fun h => hzero' (List.mem_append_left _ h)) hname
      exact ih (ended_concat _)
        (fun h => hzero' (List.mem_append_right name (List.mem_cons_of_mem _ h)))
        (fun h => hlf' (List.mem_append_right name (List.mem_cons_of_mem _ h)))
    · exact walks_header_end hdone hlf' hzero' hclose htail
  | case4 line =>
    have hitems : lineItems (SEMICOLON :: line) = [] := by
      rw [lineItems, if_neg (by decide), if_neg (by decide), if_pos rfl]
    apply walks_step (List.replicate (SEMICOLON :: line).length 0) hdone
    · rw [hitems]
      exact tokens_trailing [] _
    · rw [List.length_append, List.length_replicate, ← discard_window hlf htail done,
        List.cons_append, Ini.splitStep, window_get, List.headD_cons, if_neg (by decide),
        if_neg (by decide), if_neg (by decide), if_pos rfl]
  | case5 c line hblank hopen hsemi =>
    obtain ⟨chunk, hchunk, hsplit⟩ := splitLine_window hdone hzero hlf htail
    apply walks_step chunk hdone
    · rw [hchunk.tokens, lineItems, if_neg hblank, if_neg hopen, if_neg hsemi]
    · rw [List.length_append, hchunk.length, ← hsplit, List.cons_append, Ini.splitStep, window_get,
        List.headD_cons]
      have hc : ¬ (c = CR ∨ c = LF ∨ c = TAB ∨ c = SPACE) := by
        rintro (rfl | rfl | rfl | rfl)
        · exact hblank rfl
        · exact hlf List.mem_cons_self
        · exact hblank rfl
        · exact hblank rfl
      have hzero' : c ≠ 0 := fun h => hzero (h ▸ List.mem_cons_self)
      rw [if_neg hc, if_neg hzero', if_neg hopen, if_neg hsemi]

theorem beq_false_of_not_mem {s : Str} (h : a ∉ s) : ∀ c ∈ s, (c == a) = false := by
  intro c hc
  apply beq_eq_false_iff_ne.2
  rintro rfl
  exact h hc

theorem items_line (h : LF ∉ line) (rest : Str) :
    items (line ++ LF :: rest) = lineItems line ++ items rest := by
  rw [items, List.splitOn_eq_splitOnP,
    List.splitOnP_append_cons_of_forall_mem (beq_false_of_not_mem h) LF rfl, List.flatMap_cons]
  rfl

theorem items_last (h : LF ∉ line) : items line = lineItems line := by
  rw [items, List.splitOn_eq_splitOnP, List.splitOnP_eq_singleton (beq_false_of_not_mem h)]
  exact List.flatMap_singleton lineItems line

/-- `split_data` leaves the strings of the items of the file, and nothing else. -/
theorem splits_window (hdone : Ended done) (hzero : 0 ∉ rest) :
    ∃ d, tokens d = tokens done ++ (items rest).flatMap Item.tokens ∧
      Returns splitRound (window done rest, done.length) (window d []) := by
  induction hn : rest.length using Nat.strong_induction_on generalizing done rest with
  | _ n ih =>
    by_cases hmem : LF ∈ rest
    · obtain ⟨line, rest, rfl, hlf⟩ := List.eq_append_cons_of_mem hmem
      have hrest : 0 ∉ rest :=
        fun h => hzero (List.mem_append_right line (List.mem_cons_of_mem _ h))
      have htail : LineEnd (LF :: rest) := by
        rintro c ⟨⟩
        rfl
      obtain ⟨done', hdone', hwalk⟩ := walks_line hdone
        (fun h => hzero (List.mem_append_left _ h)) hlf htail
      have hlt : rest.length < n := by
        rw [← hn, List.length_append, List.length_cons]
        omega
      obtain ⟨d, hd, hreturns⟩ := ih rest.length hlt (ended_concat done') hrest rfl
      refine ⟨d, ?_, hwalk _ ((returns_skip (.inr (.inl rfl)) done' rest).2 hreturns)⟩
      rw [hd, tokens_concat, hdone', items_line hlf, List.flatMap_append, List.append_assoc]
    · have htail : LineEnd [] := nofun
      obtain ⟨done', hdone', hwalk⟩ := walks_line hdone hzero hmem htail
      rw [List.append_nil] at hwalk
      have hround : splitRound (window done' [], done'.length) = some (.done (window done' [])) :=
        if_neg (Nat.lt_irrefl _)
      refine ⟨done', ?_, hwalk _ ((returns_done hround).2 rfl)⟩
      rw [hdone', items_last hmem]

theorem splits_load (hzero : 0 ∉ content) :
    ∃ d, tokens d = (items content).flatMap Item.tokens ∧ Splits content (window d []) := by
  have hstart : Ended [] := .inl rfl
  obtain ⟨d, hd, hreturns⟩ := splits_window hstart hzero
  rw [window, List.length_nil, Nat.zero_add] at hreturns
  exact ⟨d, hd, hreturns⟩

end BigBox.IniConfig2
