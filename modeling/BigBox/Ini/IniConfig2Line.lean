import BigBox.Ini.IniConfig2

namespace BigBox.IniConfig2
set_option autoImplicit true

theorem tokens_append_zero (a b : Str) : tokens (a ++ 0 :: b) = tokens a ++ tokens b := by
  rw [tokens, List.splitOn_eq_splitOnP, List.splitOnP_append_cons a b (by rfl), List.filter_append]
  rfl

theorem tokens_text (h : 0 ∉ a) : tokens a = if a = [] then [] else [a] := by
  rw [tokens, List.splitOn_eq_splitOnP, List.splitOnP_eq_singleton]
  · split
    case isTrue ha => rw [ha]; rfl
    case isFalse ha => simp [ha]
  · intro c hc
    exact beq_eq_false_iff_ne.2 fun heq => h (heq ▸ hc)

theorem tokens_concat (a : Str) : tokens (a ++ [0]) = tokens a :=
  (tokens_append_zero a []).trans (List.append_nil _)

theorem tokens_trailing (a : Str) (n : Nat) : tokens (a ++ List.replicate n 0) = tokens a := by
  induction n with
  | zero => rw [List.replicate_zero, List.append_nil]
  | succ n ih => rw [List.replicate_succ', ← List.append_assoc, tokens_concat, ih]

theorem tokens_zeros (a : Str) (n : Nat) (b : Str) :
    tokens (a ++ (List.replicate (n + 1) 0 ++ b)) = tokens a ++ tokens b := by
  rw [List.replicate_succ', List.append_assoc, List.singleton_append, ← List.append_assoc,
    tokens_append_zero, tokens_trailing]

/-- What has been split off ends with a zero. -/
def Ended (done : Str) : Prop := done = [] ∨ ∃ d, done = d ++ [0]

theorem Ended.last (h : Ended done) : ∀ c ∈ done.getLast?, blank c = false := by
  rcases h with rfl | ⟨d, rfl⟩
  · exact nofun
  · intro c hc
    rw [List.getLast?_concat] at hc
    cases hc
    rfl

theorem Ended.tokens_append (h : Ended done) (a : Str) :
    tokens (done ++ a) = tokens done ++ tokens a := by
  rcases h with rfl | ⟨d, rfl⟩
  · rfl
  · rw [List.append_assoc, List.singleton_append, tokens_append_zero, tokens_append_zero]
    have hnil : tokens [] = [] := rfl
    rw [hnil, List.append_nil]

theorem ended_concat (d : Str) : Ended (d ++ [0]) := .inr ⟨d, rfl⟩

/-- The data of a line is split in place. -/
structure SplitsLine (line chunk : Str) : Prop where
  length : chunk.length = line.length
  tokens : tokens chunk = (readLine line).flatMap Item.tokens

theorem discarded (h : readLine line = []) : SplitsLine line (List.replicate line.length 0) where
  length := List.length_replicate
  tokens := by
    rw [h]
    exact tokens_trailing [] line.length

theorem rdropWhile_blanks (s : Str) : ∃ w, s = s.rdropWhile blank ++ w ∧
    (∀ c ∈ w, blank c = true) ∧ ∀ c ∈ (s.rdropWhile blank).getLast?, blank c = false := by
  refine ⟨s.rtakeWhile blank, (List.rdropWhile_append_rtakeWhile ..).symm,
    fun c hc => List.mem_rtakeWhile_imp hc, ?_⟩
  intro c hc
  have hne : s.rdropWhile blank ≠ [] := by
    intro hnil
    rw [hnil] at hc
    cases hc
  rw [List.getLast?_eq_some_getLast hne] at hc
  cases hc
  exact Bool.not_eq_true _ ▸ List.rdropWhile_last_not _ _ hne

theorem blanks_split (t : Str) : ∃ b v, t = b ++ v ∧ (∀ c ∈ b, blank c = true) ∧
    (∀ c ∈ v.head?, blank c = false) ∧ readValue v = readValue t := by
  refine ⟨t.takeWhile blank, t.dropWhile blank, List.takeWhile_append_dropWhile.symm,
    fun c hc => List.mem_takeWhile_imp hc, ?_, ?_⟩
  · intro c hc
    have hnot := List.head?_dropWhile_not blank t
    rw [hc] at hnot
    exact hnot
  · rw [readValue, List.dropWhile_idempotent]
    rfl

theorem readValue_quote (s : Str) : readValue (QUOTE :: s) = readQuoted s := rfl

theorem readValue_plain (hb : blank c = false) (hq : c ≠ QUOTE) (s : Str) :
    readValue (c :: s) = (c :: s).rdropWhile blank := by
  rw [readValue, List.dropWhile_cons_of_neg (by rw [hb]; exact Bool.false_ne_true)]
  exact if_neg hq

/-- The data of a value behind what has been split of its line. -/
def SplitsValue (front v chunk : Str) : Prop :=
  (readValue v = [] → chunk = List.replicate (front.length + v.length) 0) ∧
    (readValue v ≠ [] → ∃ j, (readValue v).length + j = v.length ∧
      chunk = front ++ (readValue v ++ List.replicate j 0))

theorem splitValue_window (hfront : LF ∉ front) (hlf : LF ∉ v) (hzero : 0 ∉ v)
    (hhead : ∀ c ∈ v.head?, blank c = false) (htail : LineEnd tail) (done : Str) :
    ∃ chunk, SplitsValue front v chunk ∧
      (window (done ++ front) (v ++ tail)).splitValue done.length (done ++ front).length =
        (window (done ++ chunk) tail, (done ++ front).length + v.length) := by
  have hdiscard (line : Str) (hline : LF ∉ line) (hlen : line.length = front.length + v.length) :
      (window (done ++ line) tail).discardLine done.length =
        (window (done ++ List.replicate (front.length + v.length) 0) tail,
          (done ++ front).length + v.length) := by
    rw [← window_append, discard_window hline htail, hlen, List.length_append, Nat.add_assoc]
  rw [Ini.splitValue, window_get]
  cases v with
  | nil =>
    refine ⟨_, ⟨fun _ => rfl, fun hne => absurd rfl hne⟩, ?_⟩
    rw [List.nil_append, if_pos htail.head]
    exact hdiscard front hfront rfl
  | cons c v =>
    have hc : ¬ (c = LF ∨ c = 0) := by
      rintro (rfl | rfl)
      · exact hlf List.mem_cons_self
      · exact hzero List.mem_cons_self
    have hvlf : LF ∉ v := fun hmem => hlf (List.mem_cons_of_mem c hmem)
    rw [List.cons_append, List.headD_cons, if_neg hc]
    split
    case isTrue hquote =>
      subst hquote
      have hn : v.length + tail.length ≤ (window (done ++ front) (QUOTE :: (v ++ tail))).stop -
          (done ++ front).length := by
        rw [window_stop, Nat.add_sub_cancel_left, List.length_cons, List.length_append]
        exact Nat.le_succ _
      obtain ⟨junk, hjunk, hsum, hr⟩ := unescape_window (List.cons_ne_nil QUOTE [])
        (by decide) hvlf htail (done ++ front) hn
      rw [List.length_singleton] at hsum
      rw [Ini.unescapeQuotedValue]
      rw [List.singleton_append, List.length_singleton] at hr
      rw [hr]
      dsimp only
      by_cases hnil : readQuoted v = []
      · refine ⟨_, ⟨fun _ => rfl, fun hne => absurd hnil hne⟩, ?_⟩
        rw [hnil, List.append_nil, List.length_nil, Nat.add_zero, if_pos rfl, window_append,
          List.append_assoc]
        apply hdiscard
        · exact fun hmem => (List.mem_append.1 hmem).elim hfront hjunk
        · rw [hnil, List.length_nil] at hsum
          rw [List.length_append, List.length_cons]
          omega
      · have hpos := List.length_pos_iff.2 hnil
        refine ⟨front ++ (readQuoted v ++ List.replicate junk.length 0),
          ⟨fun h => absurd h hnil, fun _ => ⟨junk.length, ?_, rfl⟩⟩, ?_⟩
        · rw [readValue_quote, List.length_cons]
          omega
        · rw [if_neg (by omega), ← List.length_append, discard_window hjunk htail]
          rw [List.append_assoc, List.append_assoc, @List.length_append _ (done ++ front),
            List.length_cons]
          congr 1
          omega
    case isFalse hquote =>
      have hb : blank c = false := hhead c rfl
      have hcspn : (window (done ++ front) (c :: v ++ tail)).strcspn (done ++ front).length [LF] =
          (c :: v).length := by
        apply window_strcspn
        · intro d hd
          refine ⟨fun h => hzero (h ▸ hd), fun h => hlf ?_⟩
          rwa [← List.mem_singleton.1 h]
        · exact fun d hd => .inr (List.mem_singleton.2 (htail d hd))
      rw [List.cons_append] at hcspn
      rw [hcspn]
      obtain ⟨w, hw, hblank, hlast⟩ := rdropWhile_blanks (c :: v)
      have hread := readValue_plain hb hquote v
      have hne : readValue (c :: v) ≠ [] := by
        rw [hread]
        intro hnil
        have hall := List.rdropWhile_eq_nil_iff.1 hnil c List.mem_cons_self
        rw [hb] at hall
        cases hall
      rw [← hread] at hw hlast
      have hlast' : ∀ d ∈ (done ++ front ++ readValue (c :: v)).getLast?, blank d = false := by
        rw [List.getLast?_append_of_ne_nil _ hne]
        exact hlast
      have hlen : (c :: v).length = (readValue (c :: v)).length + w.length := by
        rw [← List.length_append, ← hw]
      refine ⟨front ++ (readValue (c :: v) ++ List.replicate w.length 0),
        ⟨fun h => absurd h hne, fun _ => ⟨w.length, hlen.symm, rfl⟩⟩, ?_⟩
      have htrim := trimBack_window hlast' hblank tail
      rw [List.append_assoc (done ++ front), ← hw, ← window_append, List.length_append] at htrim
      rw [List.cons_append] at htrim
      dsimp only
      rw [htrim]
      simp only [List.append_assoc]

theorem escaped_ne_zero (h : escaped d = some e) (hd : d ≠ 0) : e ≠ 0 := by
  rw [escaped] at h
  split at h
  · cases h
    decide
  · split at h
    · cases h
      decide
    · split at h
      · cases h
        decide
      · split at h
        · cases h
        · cases h
          exact hd

theorem zero_not_mem_readQuoted (h : 0 ∉ s) : 0 ∉ readQuoted s := by
  fun_induction readQuoted s with
  | case1 => exact h
  | case2 => exact List.not_mem_nil
  | case3 => exact List.not_mem_nil
  | case4 d text e hesc _ ih =>
    obtain ⟨hd, htext⟩ := not_or.1 fun hmem => h (List.mem_cons_of_mem _ (List.mem_cons.2 hmem))
    intro hmem
    rcases List.mem_cons.1 hmem with heq | hmem
    · exact escaped_ne_zero hesc (Ne.symm hd) heq.symm
    · exact ih htext hmem
  | case5 => exact List.not_mem_nil
  | case6 c text _ _ ih =>
    obtain ⟨hc, htext⟩ := not_or.1 fun hmem => h (List.mem_cons.2 hmem)
    intro hmem
    rcases List.mem_cons.1 hmem with heq | hmem
    · exact hc heq
    · exact ih htext hmem

theorem zero_not_mem_readValue (h : 0 ∉ v) : 0 ∉ readValue v := by
  have hdrop : 0 ∉ v.dropWhile blank := fun hmem => h ((List.dropWhile_sublist blank).subset hmem)
  rw [readValue]
  split
  case h_1 => exact List.not_mem_nil
  case h_2 c text hv =>
    rw [hv] at hdrop
    split
    case isTrue =>
      exact zero_not_mem_readQuoted fun hmem => hdrop (List.mem_cons_of_mem c hmem)
    case isFalse => exact fun hmem => hdrop ((List.rdropWhile_prefix _ _).subset hmem)

theorem readLine_eq (hk : EQUALS ∉ k) (t : Str) :
    readLine (k ++ EQUALS :: t) = if readValue t = [] then []
      else if k.rdropWhile blank = [] then [.stray (readValue t)]
      else [.entry (k.rdropWhile blank) (readValue t)] := by
  rw [readLine, if_pos (List.mem_append_right k List.mem_cons_self), takeWhile_at hk,
    dropWhile_at hk]
  rfl

/-- A key, the zeros over the equals sign and around it, a value and the zeros behind it. -/
theorem splitsLine_of_value (hk : EQUALS ∉ k) (hkzero : 0 ∉ k) (hzero : 0 ∉ t)
    (hvalue : readValue v = readValue t)
    (hlen : (k.rdropWhile blank).length + (n + 1) + v.length = k.length + (t.length + 1))
    (h : SplitsValue (k.rdropWhile blank ++ List.replicate (n + 1) 0) v chunk) :
    SplitsLine (k ++ EQUALS :: t) chunk := by
  have hline : (k ++ EQUALS :: t).length = k.length + (t.length + 1) := List.length_append
  have hfront : (k.rdropWhile blank ++ List.replicate (n + 1) (0 : UInt8)).length =
      (k.rdropWhile blank).length + (n + 1) := by
    rw [List.length_append, List.length_replicate]
  by_cases hnil : readValue v = []
  · have hchunk := h.1 hnil
    rw [hfront, hlen, ← hline] at hchunk
    rw [hchunk]
    apply discarded
    rw [readLine_eq hk, ← hvalue, if_pos hnil]
  · obtain ⟨j, hj, rfl⟩ := h.2 hnil
    constructor
    · rw [hline, ← hlen]
      simp only [List.length_append, List.length_replicate]
      omega
    · have hkey : 0 ∉ k.rdropWhile blank :=
        fun hmem => hkzero ((List.rdropWhile_prefix _ _).subset hmem)
      have hval : 0 ∉ readValue v := hvalue ▸ zero_not_mem_readValue hzero
      rw [readLine_eq hk, ← hvalue, if_neg hnil, List.append_assoc, tokens_zeros, tokens_text hkey]
      rw [tokens_trailing, tokens_text hval, if_neg hnil]
      split <;> rfl

theorem splitLine_window (hdone : Ended done) (hzero : 0 ∉ line) (hlf : LF ∉ line)
    (htail : LineEnd tail) :
    ∃ chunk, SplitsLine line chunk ∧ (window done (line ++ tail)).splitLine done.length =
      (window (done ++ chunk) tail, done.length + line.length) := by
  rw [Ini.splitLine]
  by_cases heq : EQUALS ∈ line
  · obtain ⟨k, t, rfl, hk⟩ := List.eq_append_cons_of_mem heq
    have hkzero : 0 ∉ k := fun hmem => hzero (List.mem_append_left _ hmem)
    have htzero : 0 ∉ t := fun hmem => hzero (List.mem_append_right k (List.mem_cons_of_mem _ hmem))
    have hklf : LF ∉ k := fun hmem => hlf (List.mem_append_left _ hmem)
    have htlf : LF ∉ t := fun hmem => hlf (List.mem_append_right k (List.mem_cons_of_mem _ hmem))
    have hcspn : (window done (k ++ EQUALS :: t ++ tail)).strcspn done.length [EQUALS, LF] =
        k.length := by
      rw [List.append_assoc]
      apply window_strcspn
      · intro d hd
        refine ⟨fun h => hkzero (h ▸ hd), fun h => ?_⟩
        rcases List.mem_pair.1 h with rfl | rfl
        · exact hk hd
        · exact hklf hd
      · rintro d ⟨⟩
        exact .inr List.mem_cons_self
    have hget : (window done (k ++ EQUALS :: t ++ tail)).get (done.length + k.length) = EQUALS := by
      rw [List.append_assoc, window_get_behind]
      rfl
    rw [hcspn]
    dsimp only
    rw [if_neg (not_not.2 hget)]
    obtain ⟨w, hw, hwblank, hlast⟩ := rdropWhile_blanks k
    have hlast' : ∀ d ∈ (done ++ k.rdropWhile blank).getLast?, blank d = false := by
      intro d hd
      cases hnil : k.rdropWhile blank with
      | nil =>
        rw [hnil, List.append_nil] at hd
        exact hdone.last d hd
      | cons x y =>
        rw [List.getLast?_append_of_ne_nil _ (by rw [hnil]; exact List.cons_ne_nil x y)] at hd
        exact hlast d hd
    have htrim := trimBack_window hlast' hwblank (EQUALS :: (t ++ tail))
    have hlen : (done ++ k.rdropWhile blank ++ List.replicate w.length 0).length =
        done.length + k.length := by
      rw [List.append_assoc, List.length_append, List.length_append, List.length_replicate,
        ← @List.length_append _ (k.rdropWhile blank), ← hw]
    rw [List.append_assoc done, ← hw, ← window_append, List.length_append] at htrim
    rw [List.append_assoc k, List.cons_append, htrim, ← hlen, window_set, window_cons,
      ← length_concat (done ++ k.rdropWhile blank ++ List.replicate w.length 0) 0]
    obtain ⟨b, v, rfl, hb, hvhead, hvalue⟩ := blanks_split t
    have hhead : ∀ c ∈ (v ++ tail).head?, blank c = false := by
      cases v with
      | nil =>
        intro c hc
        rw [htail c hc]
        rfl
      | cons c v => exact hvhead
    have hskip := skipBlanks_window hb hhead
      (done ++ k.rdropWhile blank ++ List.replicate w.length 0 ++ [0])
    rw [← List.append_assoc b] at hskip
    have hcount : (window done (k ++ EQUALS :: (b ++ v ++ tail))).stop -
        (done ++ k.rdropWhile blank ++ List.replicate w.length 0 ++ [0]).length =
          (b ++ v ++ tail).length := by
      rw [window_stop, length_concat, hlen, List.length_append, List.length_cons]
      omega
    rw [hcount, hskip]
    have hfront : done ++ k.rdropWhile blank ++ List.replicate w.length 0 ++ [0] ++
        List.replicate b.length 0 =
          done ++ (k.rdropWhile blank ++ List.replicate (w.length + b.length + 1) 0) := by
      simp only [List.append_assoc, List.singleton_append, ← List.replicate_succ,
        List.replicate_append_replicate]
      rfl
    have hp : (done ++ k.rdropWhile blank ++ List.replicate w.length 0 ++ [0]).length + b.length =
        (done ++ (k.rdropWhile blank ++ List.replicate (w.length + b.length + 1) 0)).length := by
      rw [← hfront, @List.length_append _ _ (List.replicate b.length 0), List.length_replicate]
    dsimp only
    rw [hfront, hp]
    have hnolf : LF ∉ k.rdropWhile blank ++ List.replicate (w.length + b.length + 1) 0 := by
      intro hmem
      rcases List.mem_append.1 hmem with hmem | hmem
      · exact hklf ((List.rdropWhile_prefix _ _).subset hmem)
      · cases List.eq_of_mem_replicate hmem
    obtain ⟨chunk, hchunk, hsplit⟩ := splitValue_window hnolf
      (fun hmem => htlf (List.mem_append_right b hmem))
      (fun hmem => htzero (List.mem_append_right b hmem)) hvhead htail done
    refine ⟨chunk, splitsLine_of_value hk hkzero htzero hvalue ?_ hchunk, ?_⟩
    · rw [List.length_append]
      have hk' := congrArg List.length hw
      rw [List.length_append] at hk'
      omega
    · rw [hsplit]
      congr 1
      rw [← hp, length_concat, hlen]
      simp only [List.length_append, List.length_cons]
      omega
  · have hcspn : (window done (line ++ tail)).strcspn done.length [EQUALS, LF] = line.length := by
      apply window_strcspn
      · intro d hd
        refine ⟨fun h => hzero (h ▸ hd), fun h => ?_⟩
        rcases List.mem_pair.1 h with rfl | rfl
        · exact heq hd
        · exact hlf hd
      · exact fun d hd => .inr (List.mem_pair.2 (.inr (htail d hd)))
    rw [hcspn]
    dsimp only
    have hget : (window done (line ++ tail)).get (done.length + line.length) ≠ EQUALS := by
      rw [window_get_behind]
      obtain h | h := htail.head <;> rw [h] <;> decide
    rw [if_pos hget, discard_window hlf htail]
    exact ⟨_, discarded (if_neg heq), rfl⟩

end BigBox.IniConfig2
