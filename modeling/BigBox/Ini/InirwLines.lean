import BigBox.Ini.Inirw

namespace BigBox.Inirw
open Function
set_option autoImplicit true

/-- A character that neither ends a line nor the text. -/
def Plain (c : UInt8) : Prop := c ≠ 0 ∧ c ≠ CR ∧ c ≠ LF

instance (c : UInt8) : Decidable (Plain c) := inferInstanceAs (Decidable (_ ∧ _))

namespace Scan

@[simp] theorem char_pos (s : Scan) (c : UInt8) : (s.char c).pos = s.pos + 1 := by
  unfold char
  repeat' split
  all_goals rfl

theorem char_breaks (s : Scan) (c : UInt8) :
    (s.char c).cntCR + (s.char c).cntLF ≤ s.cntCR + s.cntLF + 1 := by
  unfold char
  repeat' split
  all_goals simp only
  all_goals omega

theorem char_plain (s : Scan) (h : Plain c) :
    (s.char c).cntCR = s.cntCR ∧ (s.char c).cntLF = s.cntLF := by
  unfold char
  rw [if_neg h.2.1, if_neg h.2.2]
  repeat' split
  all_goals exact ⟨rfl, rfl⟩

theorem stop_pos {s s' : Scan} (h : s.stop c = some s') :
    s.pos ≤ s'.pos + (s.cntCR + s.cntLF - 1) ∧ s.pos ≤ s'.pos + 1 := by
  unfold stop at h
  split at h
  · cases h
    dsimp only
    omega
  · split at h
    · cases h
      dsimp only
      omega
    · split at h
      · cases h
        omega
      · split at h
        · cases h
          omega
        · cases h

theorem stop_marks {s s' : Scan} (h : s.stop c = some s') :
    s'.rem1 = s.rem1 ∧ s'.cont1 = s.cont1 := by
  unfold stop at h
  split at h
  · cases h
    exact ⟨rfl, rfl⟩
  · split at h
    · cases h
      exact ⟨rfl, rfl⟩
    · split at h
      · cases h
        exact ⟨rfl, rfl⟩
      · split at h
        · cases h
          exact ⟨rfl, rfl⟩
        · cases h

theorem stop_none {s : Scan} (h : s.stop c = none) :
    c ≠ 0 ∧ s.cntCR + s.cntLF ≤ 1 ∧ (c ≠ CR → c ≠ LF → s.cntCR + s.cntLF = 0) := by
  unfold stop at h
  split at h
  case isTrue => cases h
  case isFalse hzero =>
    split at h
    case isTrue => cases h
    case isFalse =>
      split at h
      case isTrue => cases h
      case isFalse hone =>
        split at h
        case isTrue => cases h
        case isFalse hbreak =>
          refine ⟨hzero, Nat.le_of_lt_succ (Nat.not_le.1 hone), ?_⟩
          intro hcr hlf
          have hnone : ¬(s.cntCR ≠ 0 ∨ s.cntLF ≠ 0) := fun hsome => hbreak ⟨hsome, hcr, hlf⟩
          omega

/-- All plain characters end a line in the same way. -/
theorem stop_plain (s : Scan) (hc : Plain c) (hd : Plain d) : s.stop c = s.stop d := by
  simp only [stop, hc.1, hc.2.1, hc.2.2, hd.1, hd.2.1, hd.2.2, if_false, ne_eq,
    not_false_eq_true]

theorem run_stop {s s' : Scan} (h : s.stop c = some s') (cs : List UInt8) :
    s.run (c :: cs) = s' := by
  rw [run, h]

theorem run_next {s : Scan} (h : s.stop c = none) (cs : List UInt8) :
    s.run (c :: cs) = (s.char c).run cs := by
  rw [run, h]

theorem char_lineEnd (s : Scan) (h : c = CR ∨ c = LF) :
    (s.char c).cont1 = s.cont1 ∧ 0 < (s.char c).cntCR + (s.char c).cntLF := by
  rcases h with rfl | rfl
  · exact ⟨rfl, Nat.lt_of_lt_of_le (Nat.succ_pos s.cntCR) (Nat.le_add_right ..)⟩
  · exact ⟨rfl, Nat.lt_of_lt_of_le (Nat.succ_pos s.cntLF) (Nat.le_add_left ..)⟩

/-- The loop goes back by one character at most, and only behind two line ends. -/
theorem le_run_pos (s : Scan) (cs : List UInt8) :
    s.pos ≤ (s.run cs).pos + (s.cntCR + s.cntLF - 1) := by
  induction cs generalizing s with
  | nil => exact Nat.le_add_right ..
  | cons c cs ih =>
    cases hstop : s.stop c with
    | some s' =>
      rw [run_stop hstop]
      exact (stop_pos hstop).1
    | none =>
      rw [run_next hstop]
      have hpos := ih (s.char c)
      have hbreaks := s.char_breaks c
      rw [char_pos] at hpos
      omega

/-- A line that ends before the text does is read from the text alone. -/
theorem run_append (s : Scan) (h : (s.run cs).pos < s.pos + cs.length) (ds : List UInt8) :
    s.run (cs ++ ds) = s.run cs := by
  induction cs generalizing s with
  | nil => exact absurd h (Nat.lt_irrefl _)
  | cons c cs ih =>
    rw [List.cons_append]
    cases hstop : s.stop c with
    | some s' => rw [run_stop hstop, run_stop hstop]
    | none =>
      rw [run_next hstop] at h ⊢
      rw [run_next hstop]
      apply ih
      rw [char_pos]
      rw [List.length_cons] at h
      omega

/-- A line that ends before a plain character is read the same before another one. -/
theorem run_splice (s : Scan) (hc : Plain c) (hd : Plain d)
    (h : (s.run (pre ++ c :: cs)).pos ≤ s.pos + pre.length) (ds : List UInt8) :
    s.run (pre ++ d :: ds) = s.run (pre ++ c :: cs) := by
  induction pre generalizing s with
  | nil =>
    rw [List.nil_append] at h ⊢
    rw [List.nil_append]
    have hsame := s.stop_plain hd hc
    cases hstop : s.stop c with
    | some s' => rw [run_stop hstop, run_stop (hsame.trans hstop)]
    | none =>
      rw [run_next hstop] at h
      have hpos := le_run_pos (s.char c) cs
      have hplain := s.char_plain hc
      have hzero := (stop_none hstop).2.2 hc.2.1 hc.2.2
      rw [char_pos, hplain.1, hplain.2] at hpos
      rw [List.length_nil] at h
      omega
  | cons a pre ih =>
    rw [List.cons_append] at h ⊢
    rw [List.cons_append]
    cases hstop : s.stop a with
    | some s' => rw [run_stop hstop, run_stop hstop]
    | none =>
      rw [run_next hstop] at h ⊢
      rw [run_next hstop]
      apply ih
      rw [char_pos]
      rw [List.length_cons] at h
      omega

theorem char_rem1 {s : Scan} (h : ∀ r, s.rem1 = some r → r < s.pos) (c : UInt8) :
    ∀ r, (s.char c).rem1 = some r → r < (s.char c).pos := by
  intro r hr
  rw [char_pos]
  unfold char at hr
  repeat' split at hr
  all_goals simp only [Option.some.injEq] at hr
  all_goals first | omega | exact Int.lt_add_one_of_le (Int.le_of_lt (h r hr))

/-- A comment starts no later than the line ends. -/
theorem run_rem1 (s : Scan) (cs : List UInt8) (h : ∀ r, s.rem1 = some r → r < s.pos) :
    ∀ r, (s.run cs).rem1 = some r → r ≤ (s.run cs).pos := by
  induction cs generalizing s with
  | nil => exact fun r hr => Int.le_of_lt (h r hr)
  | cons c cs ih =>
    cases hstop : s.stop c with
    | some s' =>
      rw [run_stop hstop]
      have hpos := (stop_pos hstop).2
      intro r hr
      have hlt := h r ((stop_marks hstop).1 ▸ hr)
      omega
    | none =>
      rw [run_next hstop]
      exact ih _ (char_rem1 h c)

/-- Text without content stays so until its line ends. -/
theorem run_cont1 (s : Scan) (cs : List UInt8) (h : s.cont1 = none) (h' : 0 < s.cntCR + s.cntLF) :
    (s.run cs).cont1 = none := by
  induction cs generalizing s with
  | nil => exact h
  | cons c cs ih =>
    cases hstop : s.stop c with
    | some s' =>
      rw [run_stop hstop]
      exact (stop_marks hstop).2.trans h
    | none =>
      rw [run_next hstop]
      have hend : c = CR ∨ c = LF := by
        by_contra hplain
        rw [not_or] at hplain
        have hzero := (stop_none hstop).2.2 hplain.1 hplain.2
        omega
      obtain ⟨hcont, hpos⟩ := s.char_lineEnd hend
      exact ih _ (hcont.trans h) hpos

theorem line_nextline {s : Scan} (h : s.line buf = some l) : l.nextline = s.pos := by
  unfold line at h
  dsimp only at h
  cases hcont : s.cont1 with
  | none =>
    rw [hcont] at h
    cases h
    rfl
  | some cont1 =>
    rw [hcont] at h
    dsimp only at h
    repeat' split at h
    all_goals cases h
    all_goals rfl

theorem line_empty {s : Scan} (h : s.line buf = some l) (hcont : s.cont1 = none) :
    l.type = .empty := by
  unfold line at h
  rw [hcont] at h
  cases h
  rfl

/-- A line is made of the characters the loop has passed. -/
theorem line_congr {s : Scan} (h : ∀ r, s.rem1 = some r → r ≤ s.pos)
    (hsame : buf.take s.pos = buf'.take s.pos) : s.line buf = s.line buf' := by
  have hle : s.rem1.getD (s.pos - s.cntCR - s.cntLF) ≤ s.pos := by
    cases hrem : s.rem1 with
    | none =>
      rw [Option.getD_none]
      omega
    | some r => exact h r hrem
  have hcontent : ∀ cont1 : Nat,
      (buf.drop cont1).take
          (s.rem1.getD (s.pos - s.cntCR - s.cntLF) - s.cntblank - cont1).toNat =
        (buf'.drop cont1).take
          (s.rem1.getD (s.pos - s.cntCR - s.cntLF) - s.cntblank - cont1).toNat := by
    intro cont1
    generalize s.rem1.getD (s.pos - s.cntCR - s.cntLF) = rem1 at hle
    have hmin : min (rem1 - s.cntblank - cont1).toNat (s.pos - cont1) =
        (rem1 - s.cntblank - cont1).toNat := by omega
    have htake : ∀ b : List UInt8, (b.drop cont1).take (rem1 - s.cntblank - cont1).toNat =
        ((b.take s.pos).drop cont1).take (rem1 - s.cntblank - cont1).toNat := by
      intro b
      rw [List.drop_take, List.take_take, hmin]
    rw [htake buf, htake buf', hsame]
  unfold line
  dsimp only
  cases s.cont1 with
  | none => rfl
  | some cont1 =>
    dsimp only
    rw [hcontent cont1]

end Scan

theorem getLine_nextline (h : getLine buf = some line) :
    line.nextline = (Scan.start.run buf).pos := Scan.line_nextline h

theorem getLine_congr (h : Scan.start.run buf' = Scan.start.run buf)
    (hsame : buf'.take (Scan.start.run buf).pos = buf.take (Scan.start.run buf).pos) :
    getLine buf' = getLine buf := by
  rw [getLine, getLine, h]
  exact Scan.line_congr (Scan.start.run_rem1 buf nofun) hsame

/-- `GetLine` takes at least one character. -/
theorem nextline_pos (h : getLine buf = some line) (hne : buf ≠ []) : 0 < line.nextline := by
  rw [getLine_nextline h]
  cases buf with
  | nil => exact absurd rfl hne
  | cons c cs =>
    cases hstop : Scan.start.stop c with
    | some s' =>
      rw [Scan.run_stop hstop]
      by_cases hzero : c = 0
      · rw [Scan.stop, if_pos hzero, Option.some.injEq] at hstop
        rw [← hstop]
        exact Nat.succ_pos _
      · rw [Scan.stop, if_neg hzero] at hstop
        cases hstop
    | none =>
      rw [Scan.run_next hstop]
      have hpos := Scan.le_run_pos (Scan.start.char c) cs
      have hbreaks := Scan.start.char_breaks c
      rw [Scan.char_pos] at hpos
      have : Scan.start.pos = 0 ∧ Scan.start.cntCR = 0 ∧ Scan.start.cntLF = 0 := ⟨rfl, rfl, rfl⟩
      omega

/-- A line with a value starts with a plain character. -/
theorem exists_plain (h : getLine buf = some line) (hvalue : line.type = .value) :
    ∃ c cs, buf = c :: cs ∧ Plain c := by
  have hcont : (Scan.start.run buf).cont1 ≠ none := by
    intro hnone
    rw [Scan.line_empty h hnone] at hvalue
    cases hvalue
  cases buf with
  | nil => exact absurd rfl hcont
  | cons c cs =>
    refine ⟨c, cs, rfl, ?_⟩
    cases hstop : Scan.start.stop c with
    | some s' =>
      rw [Scan.run_stop hstop] at hcont
      exact absurd (Scan.stop_marks hstop).2 hcont
    | none =>
      rw [Scan.run_next hstop] at hcont
      have hlineEnd : ¬(c = CR ∨ c = LF) := by
        intro hend
        obtain ⟨hnone, hpos⟩ := Scan.start.char_lineEnd hend
        exact hcont (Scan.run_cont1 _ cs hnone hpos)
      exact ⟨(Scan.stop_none hstop).1, not_or.1 hlineEnd⟩

theorem getLine_append (h : getLine buf = some line) (hlt : line.nextline < buf.length)
    (rest : List UInt8) : getLine (buf ++ rest) = some line := by
  rw [getLine_nextline h] at hlt
  have hrun := Scan.start.run_append (Nat.lt_of_lt_of_eq hlt (Nat.zero_add _).symm) rest
  rw [← h]
  apply getLine_congr hrun
  exact List.take_append_of_le_length (Nat.le_of_lt hlt)

theorem getLine_splice (hc : Plain c) (hd : Plain d) (h : getLine (pre ++ c :: cs) = some line)
    (hle : line.nextline ≤ pre.length) (ds : List UInt8) :
    getLine (pre ++ d :: ds) = some line := by
  rw [getLine_nextline h] at hle
  have hrun := Scan.start.run_splice hc hd (Nat.le_trans hle (Nat.le_add_left ..)) ds
  rw [← h]
  apply getLine_congr hrun
  rw [List.take_append_of_le_length hle, List.take_append_of_le_length hle]

theorem getLines_fuel (hn : buf.length ≤ n) (hm : buf.length ≤ m) :
    getLines n buf = getLines m buf := by
  induction n generalizing m buf with
  | zero =>
    obtain rfl := List.length_eq_zero_iff.1 (Nat.le_zero.1 hn)
    cases m <;> rfl
  | succ n ih =>
    by_cases hne : buf = []
    · subst hne
      cases m <;> rfl
    · have hpos := List.length_pos_iff.2 hne
      cases m with
      | zero => exact absurd (Nat.lt_of_lt_of_le hpos hm) (Nat.lt_irrefl 0)
      | succ m =>
        rw [getLines, getLines, if_neg hne, if_neg hne]
        cases hline : getLine buf with
        | none => rfl
        | some l =>
          have hnext := nextline_pos hline hne
          have hdrop : (buf.drop l.nextline).length ≤ buf.length - 1 := by
            rw [List.length_drop]
            omega
          dsimp only
          rw [ih (m := m) (by omega) (by omega)]

@[simp] theorem linesOf_nil : linesOf [] = [] := rfl

theorem linesOf_cons (h : getLine buf = some l) (hne : buf ≠ []) :
    linesOf buf = some l :: linesOf (buf.drop l.nextline) := by
  have hnext := nextline_pos h hne
  have hpos := List.length_pos_iff.2 hne
  have hdrop : (buf.drop l.nextline).length ≤ buf.length - 1 := by
    rw [List.length_drop]
    omega
  obtain ⟨n, hn⟩ := Nat.exists_eq_succ_of_ne_zero (Nat.ne_of_gt hpos)
  rw [linesOf, hn, getLines, if_neg hne, h]
  dsimp only
  rw [linesOf, getLines_fuel (n := n) (by omega) (Nat.le_refl _)]

/-- The first entry is what `GetLine` returns, and the others come from what is behind it. -/
theorem linesOf_eq_cons (h : linesOf buf = some l :: ls) :
    getLine buf = some l ∧ buf ≠ [] ∧ ls = linesOf (buf.drop l.nextline) := by
  have hne : buf ≠ [] := by
    rintro rfl
    cases h
  cases hline : getLine buf with
  | none =>
    obtain ⟨n, hn⟩ := Nat.exists_eq_succ_of_ne_zero (Nat.ne_of_gt (List.length_pos_iff.2 hne))
    rw [linesOf, hn, getLines, if_neg hne, hline] at h
    cases h
  | some l' =>
    rw [linesOf_cons hline hne] at h
    obtain ⟨hl, rfl⟩ := List.cons.inj h
    obtain rfl := Option.some.inj hl
    exact ⟨rfl, hne, rfl⟩

/-- The text is read through the lines `ls` up to the offset `p`. -/
inductive Reaches : List UInt8 → Nat → List Line → Prop
  | nil : Reaches buf 0 []
  | cons (h : getLine buf = some l) (hne : buf ≠ []) (h' : Reaches (buf.drop l.nextline) p ls) :
    Reaches buf (l.nextline + p) (l :: ls)

namespace Reaches

theorem linesOf (h : Reaches buf p ls) : linesOf buf = ls.map some ++ linesOf (buf.drop p) := by
  induction h with
  | nil => rfl
  | cons h hne _ ih =>
    rw [linesOf_cons h hne, ih, List.drop_drop]
    rfl

theorem trans (h : Reaches buf p ls) (h' : Reaches (buf.drop p) q ls') :
    Reaches buf (p + q) (ls ++ ls') := by
  induction h with
  | nil =>
    rw [Nat.zero_add]
    exact h'
  | cons h hne _ ih =>
    rw [Nat.add_assoc]
    apply cons h hne
    apply ih
    rw [List.drop_drop]
    exact h'

theorem snoc (h : Reaches buf p ls) (hl : getLine (buf.drop p) = some l) (hne : buf.drop p ≠ []) :
    Reaches buf (p + l.nextline) (ls ++ [l]) := h.trans (.cons hl hne .nil)

/-- The lines of a text that is cut off are lines of the whole, but for the last one. -/
theorem of_take (h : Reaches (buf.take m) p ls) (hlt : p < (buf.take m).length) :
    Reaches buf p ls := by
  generalize hcut : buf.take m = cut at h
  induction h generalizing buf m with
  | nil => exact .nil
  | @cons b l p ls h hne _ ih =>
    subst hcut
    have hline : getLine buf = some l := by
      rw [← List.take_append_drop m buf]
      exact getLine_append h (Nat.lt_of_le_of_lt (Nat.le_add_right ..) hlt) _
    have hne' : buf ≠ [] := by
      rintro rfl
      exact hne List.take_nil
    apply cons hline hne'
    apply ih (m := m - l.nextline)
    · rw [← List.drop_take, List.length_drop]
      omega
    · exact List.drop_take.symm

/-- The lines before a plain character do not change when other text takes its place. -/
theorem splice (h : Reaches (pre ++ c :: cs) pre.length ls) (hc : Plain c) (hd : Plain d)
    (ds : List UInt8) : Reaches (pre ++ d :: ds) pre.length ls := by
  generalize hbuf : pre ++ c :: cs = buf at h
  generalize hp : pre.length = p at h
  induction h generalizing pre with
  | nil =>
    rw [List.length_eq_zero_iff.1 hp]
    exact .nil
  | @cons b l p ls h hne _ ih =>
    subst hbuf
    have hle : l.nextline ≤ pre.length := by omega
    have hdrop : ∀ rest, (pre ++ rest).drop l.nextline = pre.drop l.nextline ++ rest := fun rest =>
      List.drop_append_of_le_length hle
    apply cons (getLine_splice hc hd h hle ds) (List.append_ne_nil_of_right_ne_nil _ (by simp))
    rw [hdrop]
    apply ih
    · rw [hdrop]
    · rw [List.length_drop]
      omega

end Reaches

end BigBox.Inirw
