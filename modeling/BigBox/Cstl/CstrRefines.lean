import BigBox.Cstl.Cstr

namespace BigBox.Cstl.Cstr
set_option autoImplicit true

section Holds
variable {s : Cstring} {t : List UInt8}

section Trim

theorem ne_zero_of_isspace (h : isspace c = true) : c ≠ 0 := by
  rintro rfl
  cases h

theorem trimLeftLoop_eq (ht : 0 ∉ t) (rest : List UInt8) (data : Nat) :
    trimLeftLoop (t ++ 0 :: rest) data = some (data + (t.takeWhile isspace).length) := by
  induction t generalizing data with
  | nil => rfl
  | cons c t ih =>
    obtain ⟨hc, ht⟩ := not_or.1 (List.mem_cons.not.1 ht)
    rw [List.cons_append, trimLeftLoop, List.takeWhile_cons]
    by_cases hblank : isspace c = true
    · rw [if_pos ⟨ne_zero_of_isspace hblank, hblank⟩, if_pos hblank, ih ht, List.length_cons,
        Nat.add_assoc, Nat.add_comm 1]
    · rw [if_neg fun h => hblank h.2, if_neg hblank]
      rfl

theorem Holds.trimLeft (h : Holds s t) :
    ∃ s', cstrTrimLeft s = some s' ∧ Holds s' (t.dropWhile isspace) := by
  obtain ⟨w, rest, halloc, hw, hblank⟩ := h.split
  have hloop : trimLeftLoop (s.alloc.drop s.data) s.data =
      some (s.data + (t.takeWhile isspace).length) := by
    rw [halloc, ← hw, List.drop_left]
    exact trimLeftLoop_eq h.nozero rest w.length
  have hsplit : s.alloc = (w ++ t.takeWhile isspace) ++ (t.dropWhile isspace ++ 0 :: rest) := by
    rw [halloc, List.append_assoc, ← List.append_assoc (t.takeWhile isspace),
      List.takeWhile_append_dropWhile]
  have hlength := h.length
  rw [hsplit] at hlength
  have hholds := Holds.mk_split (t := t.dropWhile isspace) hlength
    (fun c hc => (List.mem_append.1 hc).elim (hblank c) List.mem_takeWhile_imp)
    fun hz => h.nozero ((List.dropWhile_suffix isspace).subset hz)
  rw [← hsplit, List.length_append, hw] at hholds
  refine ⟨_, ?_, hholds⟩
  rw [cstrTrimLeft, hloop, Option.map_some]

/-- The loop overwrites the blanks in front of an index. -/
theorem trimRightLoop_blanks (front blanks rest : List UInt8)
    (hblanks : ∀ c ∈ blanks, isspace c = true) :
    trimRightLoop (front ++ blanks ++ rest) (front.length + blanks.length) =
      trimRightLoop (front ++ (List.replicate blanks.length 0 ++ rest)) front.length := by
  induction blanks using List.reverseRecOn generalizing rest with
  | nil =>
    rw [List.append_nil]
    rfl
  | append_singleton blanks c ih =>
    have hc := hblanks c (List.mem_append_right blanks List.mem_cons_self)
    have hblock : front ++ (blanks ++ [c]) ++ rest = (front ++ blanks) ++ c :: rest := by
      simp only [List.append_assoc, List.cons_append, List.nil_append]
    have hindex : front.length + (blanks ++ [c]).length = (front ++ blanks).length + 1 := by
      rw [List.length_append, List.length_append, List.length_singleton, Nat.add_assoc]
    have hset : ((front ++ blanks) ++ c :: rest).set (front ++ blanks).length 0 =
        (front ++ blanks) ++ 0 :: rest := by
      rw [List.set_append_right _ _ (Nat.le_refl _), Nat.sub_self, List.set_cons_zero]
    have hzeros : List.replicate blanks.length 0 ++ 0 :: rest =
        List.replicate (blanks ++ [c]).length 0 ++ rest := by
      rw [List.length_append, List.length_singleton, List.replicate_succ', List.append_assoc]
      rfl
    rw [hblock, hindex, trimRightLoop, List.getElem?_append_right (Nat.le_refl _), Nat.sub_self,
      List.getElem?_cons_zero, Option.bind_some, if_pos ⟨ne_zero_of_isspace hc, hc⟩, hset,
      List.length_append, ih (0 :: rest) fun c hc => hblanks c (List.mem_append_left _ hc), hzeros]

theorem trimRightLoop_stop (front rest : List UInt8) (hc : isspace c = false) :
    trimRightLoop ((front ++ [c]) ++ rest) (front ++ [c]).length =
      some ((front ++ [c]) ++ rest) := by
  have hget : ((front ++ [c]) ++ rest)[front.length]? = some c := by
    rw [List.append_assoc, List.getElem?_append_right (Nat.le_refl _), Nat.sub_self]
    rfl
  rw [List.length_append, List.length_singleton, trimRightLoop, hget, Option.bind_some,
    if_neg fun h => Bool.false_ne_true (hc.symm.trans h.2)]

/-- The last byte of a text that is not blank. -/
theorem last_nonblank (hok : ∃ c ∈ t, isspace c = false) :
    ∃ front c blanks, t = (front ++ [c]) ++ blanks ∧ t.rdropWhile isspace = front ++ [c] ∧
      isspace c = false ∧ ∀ b ∈ blanks, isspace b = true := by
  have hne : t.rdropWhile isspace ≠ [] := by
    intro hnil
    obtain ⟨c, hc, hno⟩ := hok
    rw [List.rdropWhile_eq_nil_iff.1 hnil c hc] at hno
    cases hno
  obtain ⟨front, c, hfront⟩ := (List.eq_nil_or_concat' (t.rdropWhile isspace)).resolve_left hne
  have hlast := List.rdropWhile_last_not isspace t hne
  simp only [hfront, List.getLast_append_singleton, Bool.not_eq_true] at hlast
  refine ⟨front, c, t.rtakeWhile isspace, ?_, hfront, hlast, fun b hb => List.mem_rtakeWhile_imp hb⟩
  rw [← hfront, List.rdropWhile_append_rtakeWhile]

/-- Zeros, if any, and the one behind the text. -/
theorem zeros_cons (n : Nat) (rest : List UInt8) :
    ∃ rest', List.replicate n 0 ++ 0 :: rest = 0 :: rest' := by
  cases n with
  | zero => exact ⟨rest, rfl⟩
  | succ n => exact ⟨List.replicate n 0 ++ 0 :: rest, rfl⟩

theorem Holds.trimRight (h : Holds s t) (hok : ∃ c ∈ t, isspace c = false) :
    ∃ s', cstrTrimRight s = some s' ∧ Holds s' (t.rdropWhile isspace) := by
  obtain ⟨w, rest, halloc, hw, hblank⟩ := h.split
  obtain ⟨front, c, blanks, ht, htrim, hc, hblanks⟩ := last_nonblank hok
  obtain ⟨rest', hrest⟩ := zeros_cons blanks.length rest
  have hblock : s.alloc = (w ++ (front ++ [c])) ++ blanks ++ 0 :: rest := by
    rw [halloc, ht]
    simp only [List.append_assoc]
  have hindex : s.data + t.length = (w ++ (front ++ [c])).length + blanks.length := by
    simp only [ht, List.length_append, hw, Nat.add_assoc]
  have hloop : trimRightLoop s.alloc (s.data + t.length) =
      some (w ++ (front ++ [c] ++ 0 :: rest')) := by
    have hstop := trimRightLoop_stop (w ++ front) (0 :: rest') hc
    rw [List.append_assoc w front] at hstop
    rw [hindex, hblock, trimRightLoop_blanks _ _ _ hblanks, hrest, hstop, List.append_assoc]
  have hlength : (w ++ (front ++ [c] ++ 0 :: rest')).length = s.len + 1 := by
    rw [← h.length, hblock, ← hrest]
    simp only [List.length_append, List.length_replicate]
    omega
  have hholds := Holds.mk_split hlength hblank
    fun hz => h.nozero (ht ▸ List.mem_append_left blanks hz)
  rw [hw] at hholds
  rw [htrim]
  refine ⟨_, ?_, hholds⟩
  rw [cstrTrimRight, h.cstrLength]
  simp only [Option.bind_eq_bind, Option.bind_some, hloop]
  rfl

/-- The loop goes on in front of the allocation. -/
theorem Holds.trimRight_none (h : Holds s t) (hno : ¬ ∃ c ∈ t, isspace c = false) :
    cstrTrimRight s = none := by
  obtain ⟨w, rest, halloc, hw, hblank⟩ := h.split
  have hall : ∀ c ∈ w ++ t, isspace c = true := by
    intro c hc
    rcases List.mem_append.1 hc with hc | hc
    · exact hblank c hc
    · by_contra hne
      exact hno ⟨c, hc, Bool.not_eq_true _ ▸ hne⟩
  have hloop : trimRightLoop s.alloc (s.data + t.length) = none := by
    have hrun := trimRightLoop_blanks [] (w ++ t) (0 :: rest) hall
    rw [List.nil_append, List.length_append, List.length_nil, Nat.zero_add, hw, List.append_assoc,
      ← halloc] at hrun
    rw [hrun]
    rfl
  rw [cstrTrimRight, h.cstrLength]
  simp only [Option.bind_eq_bind, Option.bind_some, hloop, Option.bind_none]

theorem nonblank_dropWhile :
    (∃ c ∈ t.dropWhile isspace, isspace c = false) ↔ ∃ c ∈ t, isspace c = false := by
  constructor
  · rintro ⟨c, hc, hno⟩
    exact ⟨c, (List.dropWhile_suffix isspace).subset hc, hno⟩
  · rintro ⟨c, hc, hno⟩
    obtain ⟨a, b, rfl⟩ := List.append_of_mem hc
    refine ⟨c, ?_, hno⟩
    rw [dropWhile_middle hno]
    exact List.mem_append_right _ List.mem_cons_self

theorem trim_of_nonblank (hok : ∃ c ∈ t, isspace c = false) :
    (t.dropWhile isspace).rdropWhile isspace = BigBox.trim t := by
  obtain ⟨c, hc, hno⟩ := hok
  obtain ⟨a, b, rfl⟩ := List.append_of_mem hc
  rw [dropWhile_middle hno, rdropWhile_middle hno, trim_middle hno]

theorem Holds.trim (h : Holds s t) (hok : ∃ c ∈ t, isspace c = false) :
    ∃ s', cstrTrim s = some s' ∧ Holds s' (BigBox.trim t) := by
  obtain ⟨s₁, hleft, h₁⟩ := h.trimLeft
  obtain ⟨s', hright, h'⟩ := h₁.trimRight (nonblank_dropWhile.2 hok)
  rw [trim_of_nonblank hok] at h'
  exact ⟨s', by rw [cstrTrim, hleft, Option.bind_some, hright], h'⟩

theorem Holds.trim_none (h : Holds s t) (hno : ¬ ∃ c ∈ t, isspace c = false) :
    cstrTrim s = none := by
  obtain ⟨s₁, hleft, h₁⟩ := h.trimLeft
  rw [cstrTrim, hleft, Option.bind_some]
  exact h₁.trimRight_none fun hok => hno (nonblank_dropWhile.1 hok)

end Trim

theorem Holds.clear (h : Holds s t) (hok : s.data ≤ 1) :
    ∃ s', cstrClear s = some s' ∧ Holds s' [] := by
  obtain ⟨w, rest, halloc, hw, hblank⟩ := h.split
  have hlength := h.length
  rw [halloc, List.length_append, List.length_append, List.length_cons, hw] at hlength
  have hroom : s.len ≤ (t ++ 0 :: rest).length := by
    rw [List.length_append, List.length_cons]
    omega
  have hwrite : Block.write s.alloc s.data (List.replicate s.len 0) =
      some (w ++ List.replicate s.len 0 ++ (t ++ 0 :: rest).drop s.len) := by
    have hsplit : s.alloc = w ++ (t ++ 0 :: rest).take s.len ++ (t ++ 0 :: rest).drop s.len := by
      rw [List.append_assoc, List.take_append_drop, halloc]
    rw [hsplit]
    apply Block.write_middle _ _ _ _ hw.symm
    rw [List.length_replicate, List.length_take_of_le hroom]
  obtain ⟨rest', hrest⟩ : ∃ rest', List.replicate s.len 0 ++ (t ++ 0 :: rest).drop s.len =
      0 :: rest' := by
    cases hlen : s.len with
    | zero =>
      have ht : t = [] := List.eq_nil_of_length_eq_zero (by omega)
      rw [ht]
      exact ⟨rest, rfl⟩
    | succ n => exact ⟨_, rfl⟩
  rw [List.append_assoc, hrest] at hwrite
  have hholds := Holds.mk_split (t := []) ((Block.length_write hwrite).trans h.length) hblank
    List.not_mem_nil
  rw [hw] at hholds
  refine ⟨_, ?_, hholds⟩
  rw [cstrClear, cstrFill, hwrite, Option.map_some]
  rfl

theorem Holds.clear_none (h : Holds s t) (hno : ¬ s.data ≤ 1) : cstrClear s = none := by
  have hfull : s.alloc.length < s.data + (List.replicate s.len (0 : UInt8)).length := by
    rw [List.length_replicate, h.length]
    omega
  rw [cstrClear, cstrFill, Block.write_none hfull, Option.map_none]

theorem Holds.compact (h : Holds s t) :
    ∃ s' r, cstrCompact s = some (s', r) ∧ Holds s' t := by
  obtain ⟨w, rest, halloc, hw, _⟩ := h.split
  have hread : Block.read s.alloc s.data t.length = some t := by
    rw [halloc, ← List.append_assoc]
    exact Block.read_middle w t _ hw.symm rfl
  have hholds : Holds ⟨t.length, [] ++ (t ++ [0]), 0⟩ t :=
    Holds.mk_split (by rw [List.nil_append, List.length_append]; rfl)
      (fun c hc => (List.not_mem_nil hc).elim) h.nozero
  refine ⟨_, s.len - t.length, ?_, hholds⟩
  simp only [cstrCompact, h.cstrLength, Option.bind_eq_bind, Option.bind_some, hread, write_zeros]
  rfl

theorem cstrStep_good (h : Holds s t) (c : Call) (hvalid : c.Valid) (hok : c.Ok s) :
    ∃ s', cstrStep s c = some (s', (specStep t c).2) ∧ Holds s' (specStep t c).1 := by
  cases c with
  | append str fresh =>
    have happend : s.AppendOk str.length (str.take str.length).length := by
      rw [List.take_length]
      exact hok
    obtain ⟨s', hrun, h'⟩ := h.appendN hvalid happend fresh
    rw [List.take_length] at h'
    exact ⟨s', by rw [cstrStep, cstrAppend, hrun]; rfl, h'⟩
  | appendN str n fresh =>
    obtain ⟨s', hrun, h'⟩ := h.appendN hvalid hok fresh
    exact ⟨s', by rw [cstrStep, hrun]; rfl, h'⟩
  | prepend str fresh =>
    obtain ⟨s', hrun, h'⟩ := h.prepend hvalid hok
    exact ⟨s', by rw [cstrStep, hrun]; rfl, h'⟩
  | trimLeft =>
    obtain ⟨s', hrun, h'⟩ := h.trimLeft
    exact ⟨s', by rw [cstrStep, hrun]; rfl, h'⟩
  | trimRight =>
    rw [Call.Ok, h.text] at hok
    obtain ⟨s', hrun, h'⟩ := h.trimRight hok
    exact ⟨s', by rw [cstrStep, hrun]; rfl, h'⟩
  | trim =>
    rw [Call.Ok, h.text] at hok
    obtain ⟨s', hrun, h'⟩ := h.trim hok
    exact ⟨s', by rw [cstrStep, hrun]; rfl, h'⟩
  | clear =>
    obtain ⟨s', hrun, h'⟩ := h.clear hok
    exact ⟨s', by rw [cstrStep, hrun]; rfl, h'⟩
  | compact =>
    obtain ⟨s', r, hrun, h'⟩ := h.compact
    exact ⟨s', by rw [cstrStep, hrun]; rfl, h'⟩

theorem cstrStep_bad (h : Holds s t) (c : Call) (hvalid : c.Valid) (hbad : ¬ c.Ok s)
    (hstep : cstrStep s c = some (s', o)) : ¬ s'.Shows (specStep t c).1 := by
  obtain ⟨s₁, hrun, hret⟩ := Option.map_eq_some_iff.1 hstep
  cases hret
  cases c with
  | append str fresh =>
    obtain ⟨⟨s₂, r⟩, happend, hfst⟩ := Option.map_eq_some_iff.1 hrun
    cases hfst
    have hno : ¬ s.AppendOk str.length (str.take str.length).length := by
      rw [List.take_length]
      exact hbad
    have hshows := h.appendN_bad hvalid hno happend
    rwa [List.take_length] at hshows
  | appendN str n fresh =>
    obtain ⟨⟨s₂, r⟩, happend, hfst⟩ := Option.map_eq_some_iff.1 hrun
    cases hfst
    exact h.appendN_bad hvalid hbad happend
  | prepend str fresh =>
    obtain ⟨⟨s₂, r⟩, hprepend, hfst⟩ := Option.map_eq_some_iff.1 hrun
    cases hfst
    exact h.prepend_bad hvalid hbad hprepend
  | trimLeft => exact (hbad trivial).elim
  | trimRight =>
    rw [Call.Ok, h.text] at hbad
    cases (h.trimRight_none hbad).symm.trans hrun
  | trim =>
    rw [Call.Ok, h.text] at hbad
    cases (h.trim_none hbad).symm.trans hrun
  | clear => cases (h.clear_none hbad).symm.trans hrun
  | compact => exact (hbad trivial).elim

end Holds

theorem cstrNewWithCopy_holds (hstr : 0 ∉ str) (h : cstrNewWithCopy str = some s) :
    Holds s str := by
  rw [cstrNewWithCopy, cstrNewWithSize, write_zeros] at h
  cases h
  exact Holds.mk_split (w := []) (by rw [List.nil_append, List.length_append]; rfl)
    (fun c hc => (List.not_mem_nil hc).elim) hstr

theorem Made.holds (h : Made s t) : Holds s t := by
  cases h with
  | new =>
    have hholds : Holds ⟨64, [] ++ ([] ++ 0 :: List.replicate 64 0), 0⟩ [] :=
      Holds.mk_split (by rw [List.nil_append, List.nil_append, List.length_cons,
        List.length_replicate]) (fun c hc => (List.not_mem_nil hc).elim) List.not_mem_nil
    exact hholds
  | copy hstr h => exact cstrNewWithCopy_holds hstr h

/-- A string shows the text that the calls make of an ordinary one, and stays inside its allocation,
in the runs whose calls it serves. -/
theorem cstr_refines_iff (s : Cstring) (t : List UInt8) (hmade : Made s t) (calls : List Call)
    (hvalid : ∀ c ∈ calls, c.Valid) :
    Follows cstrStep specStep Cstring.Shows s t calls ↔
      Admits cstrStep (fun s c => c.Ok s) s calls := by
  refine follows_iff_admits (R := Holds) ?_ ?_ ?_ hmade.holds (admits_of_forall s hvalid)
  · exact fun _ _ h => h.shows
  · exact fun _ _ c h hvalid hok => cstrStep_good h c hvalid hok
  · exact fun _ _ c h hvalid hbad _ hstep => cstrStep_bad h c hvalid hbad hstep

section Witness

theorem cstr_refines_iff_two :
    Follows cstrStep specStep Cstring.Shows cstrNew [] [.append [97] fun _ => 0, .trim] ↔
      Admits cstrStep (fun s c => c.Ok s) cstrNew [.append [97] fun _ => 0, .trim] :=
  cstr_refines_iff cstrNew [] .new _ (by
    intro c hc
    rcases List.mem_cons.1 hc with rfl | hc
    · exact (by decide : (0 : UInt8) ∉ [97])
    · rw [List.mem_singleton.1 hc]
      trivial)

/-- The last byte of a longer text is not moved: `abc` behind `!` is `ab`. -/
theorem not_cstr_refines :
    Made cstrNew [] ∧ ¬ Follows cstrStep specStep Cstring.Shows cstrNew []
      [.append [97, 98, 99] fun _ => 0, .prepend [33] fun _ => 0] := by
  refine ⟨.new, ?_⟩
  rintro ⟨_, s₁, hstep₁, _, s₂, hstep₂, hshows⟩
  have hrun : tryRun cstrStep cstrNew
      [.append [97, 98, 99] fun _ => 0, .prepend [33] fun _ => 0] = some (s₂, [(), ()]) := by
    rw [tryRun_cons hstep₁, tryRun_cons hstep₂]
    rfl
  have hstring : ((tryRun cstrStep cstrNew
      [.append [97, 98, 99] fun _ => 0, .prepend [33] fun _ => 0]).bind fun r =>
        stringAt r.1.alloc r.1.data) = some [33, 97, 98] := by decide +kernel
  rw [hrun] at hstring
  exact absurd (hstring.symm.trans hshows) (by decide)

end Witness

end BigBox.Cstl.Cstr
