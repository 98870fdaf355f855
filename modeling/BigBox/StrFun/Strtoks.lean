import BigBox.Lib.CString
import BigBox.Lib.Fields
import Mathlib.Data.List.GetD

namespace BigBox.Strtoks
open Fields
set_option autoImplicit true

def strspn (s accept : List UInt8) : Nat := (s.takeWhile (· ∈ accept)).length
def strcspn (s reject : List UInt8) : Nat := (s.takeWhile (· ∉ reject)).length

/-- The memory afterwards, what `*src` points to and the token. -/
def strStrtok (buf : List UInt8) (src : Nat) (sep : List UInt8) :
    Option (List UInt8 × Nat × Option Nat) :=
  (stringAt buf src).map fun text =>
    let skip := strspn text sep
    let start := src + skip
    if buf.getD start 0 = 0 then (buf, start, none)
    else
      let stop := start + strcspn (text.drop skip) sep
      if buf.getD stop 0 ≠ 0 then (buf.set stop 0, stop + 1, some start)
      else (buf, stop, some start)

/-- The variables of the loop and the caller's array. -/
structure State (β : Type) where
  buf : List UInt8
  start : Nat
  i : Nat
  argv : List β

/-- The loop of both splitters, which differ in what they do to an entry of the array. -/
def strtoksLoop (store : List UInt8 → Nat → β → Option β) (delim : List UInt8) (size : Int) :
    Nat → State β → Option (State β)
  | 0, _ => none
  | fuel + 1, t =>
    (strStrtok t.buf t.start delim).bind fun (buf, start, arg) =>
      match arg with
      | none => some { t with buf, start }
      | some arg =>
        (t.argv[t.i]?).bind fun entry =>
          (store buf arg entry).bind fun entry =>
            if size ≤ (t.i + 1 : Nat) then some ⟨buf, start, t.i + 1, t.argv.set t.i entry⟩
            else strtoksLoop store delim size fuel ⟨buf, start, t.i + 1, t.argv.set t.i entry⟩

/-- The pointer to the token replaces the entry. -/
def storePointer (_ : List UInt8) (arg _ : Nat) : Option Nat := some arg

def strncpy (dst src : List UInt8) (n : Nat) : Option (List UInt8) :=
  if n ≤ dst.length then some (src.take n ++ List.replicate (n - src.length) 0 ++ dst.drop n)
  else none

/-- `sizeof(argv[i])-1`. -/
def COPIED : Nat := 7

/-- The token is copied to where the entry points. -/
def storeCopy (buf : List UInt8) (arg : Nat) (entry : List UInt8) : Option (List UInt8) :=
  (stringAt buf arg).bind fun arg => strncpy entry arg (min COPIED arg.length)

def strStrtoks (src delim : List UInt8) (argv : List Nat) (size : Int) :
    Option (Nat × List Nat × List UInt8) :=
  (strtoksLoop storePointer delim size (src.length + 1) ⟨src, 0, 0, argv⟩).map fun t =>
    (t.i, t.argv, t.buf)

/-- `str_strtoks2` up to its `free`. -/
def copyLoop (src delim : List UInt8) (argv : List (List UInt8)) (size : Int) :
    Option (State (List UInt8)) :=
  (stringAt src 0).bind fun text =>
    strtoksLoop storeCopy delim size (src.length + 1) ⟨text ++ [0], 0, 0, argv⟩

/-- Only what `strdup` returned can be freed. -/
def strStrtoks2 (src delim : List UInt8) (argv : List (List UInt8)) (size : Int) :
    Option (Nat × List (List UInt8)) :=
  (copyLoop src delim argv size).bind fun t =>
    if t.start = 0 then some (t.i, t.argv) else none

section strStrtok
variable {before after a b s sep : List UInt8}

theorem takeWhile_append_of_head {p : α → Bool} {b r : List α} (hb : ∀ c ∈ b, p c = true)
    (hr : ∀ c, r.head? = some c → p c = false) : (b ++ r).takeWhile p = b := by
  rw [List.takeWhile_append_of_pos hb]
  cases r with
  | nil => exact List.append_nil b
  | cons c r =>
    rw [List.takeWhile_cons_of_neg, List.append_nil]
    rw [hr c rfl]
    exact Bool.false_ne_true

theorem getD_middle (w : List UInt8) (c : UInt8) (r : List UInt8) :
    (w ++ c :: r).getD w.length 0 = c := by
  rw [List.getD_append_right _ _ _ _ (Nat.le_refl _), Nat.sub_self]
  rfl

/-- Only delimiters are left. -/
theorem strStrtok_blank (hzero : 0 ∉ b) (hb : ∀ c ∈ b, decide (c ∈ sep) = true)
    (before after : List UInt8) :
    strStrtok (before ++ (b ++ 0 :: after)) before.length sep =
      some (before ++ (b ++ 0 :: after), (before ++ b).length, none) := by
  have hskip : strspn b sep = b.length := by
    rw [strspn, List.takeWhile_eq_self_iff.2 hb]
  unfold strStrtok
  rw [stringAt_middle _ _ hzero, Option.map_some]
  dsimp only
  rw [hskip, ← List.length_append, ← List.append_assoc, getD_middle, if_pos rfl]

/-- A word behind delimiters. -/
theorem strStrtok_word {r : List UInt8} (hzero : 0 ∉ b ++ (a ++ r))
    (hb : ∀ c ∈ b, decide (c ∈ sep) = true) (hne : a ≠ [])
    (ha : ∀ c ∈ a, decide (c ∈ sep) = false) (hr : ∀ c, r.head? = some c → c ∈ sep)
    (before after : List UInt8) :
    strStrtok (before ++ (b ++ (a ++ r) ++ 0 :: after)) before.length sep = some
      (let stop := (before ++ b ++ a).length
      let buf := before ++ b ++ a ++ (r ++ 0 :: after)
      if (r ++ 0 :: after).getD 0 0 ≠ 0 then (buf.set stop 0, stop + 1, some (before ++ b).length)
      else (buf, stop, some (before ++ b).length)) := by
  have hnot : ∀ c ∈ a, decide (c ∉ sep) = true := by
    intro c hc
    exact decide_eq_true (of_decide_eq_false (ha c hc))
  have hskip : strspn (b ++ (a ++ r)) sep = b.length := by
    rw [strspn, takeWhile_append_of_head hb]
    intro c hc
    apply ha
    rw [List.head?_append_of_ne_nil _ hne] at hc
    exact List.mem_of_mem_head? hc
  have hstop : strcspn (a ++ r) sep = a.length := by
    rw [strcspn, takeWhile_append_of_head hnot]
    intro c hc
    exact decide_eq_false (not_not_intro (hr c hc))
  have hbuf : before ++ (b ++ (a ++ r) ++ 0 :: after) = before ++ b ++ a ++ (r ++ 0 :: after) := by
    simp only [List.append_assoc]
  have hfirst : (before ++ b ++ a ++ (r ++ 0 :: after)).getD (before ++ b).length 0 ≠ 0 := by
    obtain ⟨d, t, rfl⟩ := List.exists_cons_of_ne_nil hne
    rw [List.append_assoc (before ++ b), List.cons_append, getD_middle]
    rintro rfl
    exact hzero (List.mem_append_right _ List.mem_cons_self)
  have hbehind : (before ++ b ++ a ++ (r ++ 0 :: after)).getD (before ++ b ++ a).length 0 =
      (r ++ 0 :: after).getD 0 0 := by
    rw [List.getD_append_right _ _ _ _ (Nat.le_refl _), Nat.sub_self]
  unfold strStrtok
  rw [stringAt_middle _ _ hzero, Option.map_some]
  dsimp only
  rw [hskip, List.drop_left, hstop, ← List.length_append, ← List.length_append, hbuf,
    if_neg hfirst, hbehind]

/-- The last word of a string. -/
theorem strStrtok_last (hzero : 0 ∉ b ++ a) (hb : ∀ c ∈ b, decide (c ∈ sep) = true) (hne : a ≠ [])
    (ha : ∀ c ∈ a, decide (c ∈ sep) = false) (before after : List UInt8) :
    strStrtok (before ++ (b ++ a ++ 0 :: after)) before.length sep =
      some (before ++ b ++ a ++ 0 :: after, (before ++ b ++ a).length,
        some (before ++ b).length) := by
  have hword := strStrtok_word (r := []) (by rwa [List.append_nil]) hb hne ha nofun before after
  rw [List.append_nil] at hword
  exact hword

/-- The delimiter behind a word is replaced by a zero. -/
theorem strStrtok_cut (hzero : 0 ∉ b ++ (a ++ c :: s)) (hb : ∀ c ∈ b, decide (c ∈ sep) = true)
    (hne : a ≠ []) (ha : ∀ c ∈ a, decide (c ∈ sep) = false) (hc : decide (c ∈ sep) = true)
    (before after : List UInt8) :
    strStrtok (before ++ (b ++ (a ++ c :: s) ++ 0 :: after)) before.length sep =
      some (before ++ b ++ a ++ [0] ++ (s ++ 0 :: after), (before ++ b ++ a ++ [0]).length,
        some (before ++ b).length) := by
  have hhead : ∀ d, (c :: s).head? = some d → d ∈ sep := by
    intro d hd
    cases hd
    exact of_decide_eq_true hc
  have hcne : c ≠ 0 := by
    rintro rfl
    exact hzero (List.mem_append_right _ (List.mem_append_right _ List.mem_cons_self))
  rw [strStrtok_word hzero hb hne ha hhead, List.cons_append]
  dsimp only
  rw [List.getD_cons_zero, if_pos hcne, List.set_append_right _ _ (Nat.le_refl _), Nat.sub_self,
    List.set_cons_zero, List.append_cons, @List.length_append _ _ [0]]
  rfl

end strStrtok

section strtoksLoop
variable {β : Type} {store : List UInt8 → Nat → β → Option β} {put : Nat → List UInt8 → β → β}
variable {before after rest delim : List UInt8} {done todo : List β}

/-- The entries after the loop, for the words it has stored and their places. -/
def stored (put : Nat → List UInt8 → β → β) (args : List Nat) (kept : List (List UInt8))
    (todo : List β) : List β :=
  List.zipWith (fun x entry => put x.1 x.2 entry) (args.zip kept) todo ++ todo.drop kept.length

theorem stored_cons (arg : Nat) (text : List UInt8) (args : List Nat) (kept : List (List UInt8))
    (entry : β) (todo : List β) :
    stored put (arg :: args) (text :: kept) (entry :: todo) =
      put arg text entry :: stored put args kept todo := rfl

/-- A round that finds a token. -/
theorem strtoksLoop_round {entry : β}
    (htok : strStrtok buf p delim = some (buf', q, some arg))
    (hput : store buf' arg entry = some x) (done todo : List β) (n fuel : Nat) :
    strtoksLoop store delim (done.length + (n + 1) : Nat) (fuel + 1)
        ⟨buf, p, done.length, done ++ entry :: todo⟩ =
      if n = 0 then some ⟨buf', q, done.length + 1, done ++ [x] ++ todo⟩
      else strtoksLoop store delim ((done ++ [x]).length + n : Nat) fuel
        ⟨buf', q, (done ++ [x]).length, done ++ [x] ++ todo⟩ := by
  have hget : (done ++ entry :: todo)[done.length]? = some entry := by
    rw [List.getElem?_append_right (Nat.le_refl _), Nat.sub_self]
    rfl
  have hset : (done ++ entry :: todo).set done.length x = done ++ [x] ++ todo := by
    rw [List.set_append_right _ _ (Nat.le_refl _), Nat.sub_self, List.set_cons_zero,
      List.append_cons]
  have hlen : (done ++ [x]).length = done.length + 1 := List.length_append
  have hsize : done.length + (n + 1) = done.length + 1 + n := by omega
  rw [strtoksLoop, htok, Option.bind_some]
  dsimp only
  rw [hget, Option.bind_some, hput, Option.bind_some, hset, hlen, hsize]
  have hdone : ((done.length + 1 + n : Nat) : Int) ≤ (done.length + 1 : Nat) ↔ n = 0 := by omega
  exact if_congr hdone rfl rfl

/-- The loop stores the first words and leaves the memory in front of what is left. -/
theorem strtoksLoop_eq (hstore : ∀ buf arg text entry, entry ∈ todo → stringAt buf arg = some text →
      text.length ≤ bound → store buf arg entry = some (put arg text entry))
    (hzero : 0 ∉ rest) (hbound : rest.length ≤ bound) (hroom : n + 1 ≤ todo.length)
    (hfuel : rest.length < fuel) (after : List UInt8) :
    ∃ args cells start, args.length = ((words (· ∈ delim) rest).take (n + 1)).length ∧
      (∀ x ∈ args.zip ((words (· ∈ delim) rest).take (n + 1)),
        stringAt (before ++ cells) x.1 = some x.2) ∧
      before.length ≤ start ∧ (start = before.length ↔ rest = []) ∧
      strtoksLoop store delim (done.length + (n + 1) : Nat) fuel
          ⟨before ++ (rest ++ 0 :: after), before.length, done.length, done ++ todo⟩ =
        some ⟨before ++ cells, start,
          done.length + ((words (· ∈ delim) rest).take (n + 1)).length,
          done ++ stored put args ((words (· ∈ delim) rest).take (n + 1)) todo⟩ := by
  induction rest using words_induction (p := (· ∈ delim)) generalizing before done todo n fuel with
  | blank b hb =>
    obtain ⟨fuel, rfl⟩ := Nat.exists_eq_succ_of_ne_zero (Nat.ne_zero_of_lt hfuel)
    rw [words_blank hb, List.take_nil]
    refine ⟨[], b ++ 0 :: after, (before ++ b).length, rfl, nofun, ?_, ?_, ?_⟩
    · rw [List.length_append]
      exact Nat.le_add_right _ _
    · rw [List.length_append, Nat.add_eq_left, List.length_eq_zero_iff]
    · rw [strtoksLoop, strStrtok_blank hzero hb, Option.bind_some]
      rfl
  | last b a hb hne ha =>
    obtain ⟨fuel, rfl⟩ := Nat.exists_eq_succ_of_ne_zero (Nat.ne_zero_of_lt hfuel)
    obtain ⟨entry, todo, rfl⟩ :=
      List.exists_cons_of_length_pos (Nat.lt_of_lt_of_le n.succ_pos hroom)
    have hazero : (0 : UInt8) ∉ a := fun h => hzero (List.mem_append_right _ h)
    have hlen : a.length ≤ (b ++ a).length := (List.suffix_append b a).length_le
    have hpos : 0 < a.length := List.length_pos_of_ne_nil hne
    have htext := stringAt_middle (before ++ b) after hazero
    rw [← List.append_assoc] at htext
    have hput := hstore _ _ a entry List.mem_cons_self htext (Nat.le_trans hlen hbound)
    have hcells : before ++ (b ++ a ++ 0 :: after) = before ++ b ++ a ++ 0 :: after := by
      simp only [List.append_assoc]
    rw [words_append hb, words_last hne ha, List.take_succ_cons, List.take_nil]
    have hstart : before.length < (before ++ b ++ a).length := by
      rw [List.length_append, List.length_append]
      omega
    refine ⟨[(before ++ b).length], b ++ a ++ 0 :: after, (before ++ b ++ a).length, rfl, ?_,
      Nat.le_of_lt hstart, ?_, ?_⟩
    · intro x hx
      rw [List.mem_singleton.1 hx, hcells]
      exact htext
    · exact iff_of_false (Nat.ne_of_gt hstart) (List.append_ne_nil_of_right_ne_nil _ hne)
    · rw [strtoksLoop_round (strStrtok_last hzero hb hne ha before after) hput, stored_cons,
        List.append_cons done _ (stored put _ _ _), hcells]
      split
      · rfl
      · have hmore : 0 < fuel :=
          Nat.lt_of_lt_of_le hpos (Nat.le_trans hlen (Nat.le_of_lt_succ hfuel))
        obtain ⟨fuel, rfl⟩ := Nat.exists_eq_succ_of_ne_zero (Nat.ne_zero_of_lt hmore)
        have hblank := @strStrtok_blank [] delim List.not_mem_nil nofun
          (before ++ b ++ a) after
        rw [List.nil_append, List.append_nil] at hblank
        rw [strtoksLoop]
        dsimp only
        rw [hblank, Option.bind_some, @List.length_append _ done]
        rfl
  | cut b a c s hb hne ha hc ih =>
    obtain ⟨fuel, rfl⟩ := Nat.exists_eq_succ_of_ne_zero (Nat.ne_zero_of_lt hfuel)
    obtain ⟨entry, todo, rfl⟩ :=
      List.exists_cons_of_length_pos (Nat.lt_of_lt_of_le n.succ_pos hroom)
    have hazero : (0 : UInt8) ∉ a := fun h =>
      hzero (List.mem_append_right _ (List.mem_append_left _ h))
    have hszero : (0 : UInt8) ∉ s := fun h =>
      hzero (List.mem_append_right _ (List.mem_append_right _ (List.mem_cons_of_mem _ h)))
    have hlen : (b ++ (a ++ c :: s)).length = b.length + (a.length + (s.length + 1)) := by
      rw [List.length_append, List.length_append, List.length_cons]
    have htext : ∀ t, stringAt (before ++ b ++ a ++ [0] ++ t) (before ++ b).length = some a := by
      intro t
      rw [← List.append_cons, List.append_assoc (before ++ b)]
      exact stringAt_middle _ _ hazero
    have hput := hstore _ _ a entry List.mem_cons_self (htext (s ++ 0 :: after)) (by omega)
    have hword : words (· ∈ delim) (b ++ (a ++ c :: s)) = a :: words (· ∈ delim) s := by
      rw [words_append hb, words_cut hne ha hc]
    rw [hword, List.take_succ_cons]
    have hcells : ∀ t, before ++ (b ++ a ++ [0] ++ t) = before ++ b ++ a ++ [0] ++ t := by
      intro t
      simp only [List.append_assoc]
    have hbefore : before.length < (before ++ b ++ a ++ [0]).length := by
      simp only [List.length_append, List.length_singleton]
      omega
    have hrest : b ++ (a ++ c :: s) ≠ [] :=
      List.append_ne_nil_of_right_ne_nil _ (List.append_ne_nil_of_left_ne_nil hne _)
    cases n with
    | zero =>
      refine ⟨[(before ++ b).length], b ++ a ++ [0] ++ (s ++ 0 :: after), _, rfl, ?_,
        Nat.le_of_lt hbefore, iff_of_false (Nat.ne_of_gt hbefore) hrest, ?_⟩
      · intro x hx
        rw [List.mem_singleton.1 hx, hcells]
        exact htext _
      · rw [strtoksLoop_round (strStrtok_cut hzero hb hne ha hc before after) hput, if_pos rfl,
          List.take_zero, stored_cons, List.append_cons done _ (stored put _ _ _), hcells]
        rfl
    | succ n =>
      obtain ⟨args, cells, start, hargs, htexts, hle, _, hrun⟩ :=
        @ih (before ++ b ++ a ++ [0]) (done ++ [put (before ++ b).length a entry]) todo n fuel
          (fun buf arg text entry hmem => hstore buf arg text entry (List.mem_cons_of_mem _ hmem))
          hszero (by omega) (Nat.le_of_succ_le_succ hroom) (by omega)
      have hstart := Nat.lt_of_lt_of_le hbefore hle
      refine ⟨(before ++ b).length :: args, b ++ a ++ [0] ++ cells, start, ?_, ?_,
        Nat.le_of_lt hstart, iff_of_false (Nat.ne_of_gt hstart) hrest, ?_⟩
      · rw [List.length_cons, List.length_cons, hargs]
      · intro x hx
        rw [hcells]
        rcases List.mem_cons.1 hx with rfl | hx
        · exact htext cells
        · exact htexts x hx
      · rw [strtoksLoop_round (strStrtok_cut hzero hb hne ha hc before after) hput,
          if_neg n.succ_ne_zero, hrun, stored_cons, List.append_cons done _ (stored put _ _ _),
          hcells, @List.length_append _ done, List.length_cons, Nat.add_right_comm]
        rfl

end strtoksLoop

/-- The pieces that there is room for. -/
def kept (s delim : List UInt8) (size : Int) : List (List UInt8) :=
  (words (· ∈ delim) s).take size.toNat

/-- A run of the second splitter has the count and the texts of the first, and these are right. -/
def SameTokens (s after delim : List UInt8) (ptrs : List Nat) (size : Int)
    (run : Option (Nat × List (List UInt8))) : Prop :=
  ∃ n args buf entries, strStrtoks (s ++ 0 :: after) delim ptrs size = some (n, args, buf) ∧
    run = some (n, entries) ∧ n = (kept s delim size).length ∧
    (args.take n).map (stringAt buf) = (kept s delim size).map some ∧
    (entries.take n).map (stringAt · 0) = (kept s delim size).map some

section SameTokens
variable {s after delim : List UInt8} {ptrs : List Nat} {bufs : List (List UInt8)} {size : Int}

/-- An entry after the copy. -/
def copied (text entry : List UInt8) : List UInt8 :=
  text.take COPIED ++ entry.drop (min COPIED text.length)

theorem strncpy_copied (h : text.length ≤ entry.length) :
    strncpy entry text (min COPIED text.length) = some (copied text entry) := by
  rw [strncpy, if_pos (Nat.le_trans (Nat.min_le_right _ _) h),
    Nat.sub_eq_zero_of_le (Nat.min_le_right _ _), List.replicate_zero, List.append_nil, copied,
    ← List.take_eq_take_min]

theorem storeCopy_eq (htext : stringAt buf arg = some text) (h : text.length ≤ entry.length) :
    storeCopy buf arg entry = some (copied text entry) := by
  rw [storeCopy, htext, Option.bind_some, strncpy_copied h]

/-- A copy reads as the token if the rest of it stood in the entry before. -/
theorem stringAt_copied (hzero : 0 ∉ text) (entry : List UInt8) :
    stringAt (copied text entry) 0 = some text ↔
      text.drop COPIED ++ [0] <+: entry.drop (min COPIED text.length) := by
  have hsplit : text ++ [0] = text.take COPIED ++ (text.drop COPIED ++ [0]) := by
    rw [← List.append_assoc, List.take_append_drop]
  rw [stringAt_iff hzero, List.drop_zero, hsplit, copied, List.prefix_append_right_inj]

/-- The loop over a whole string. -/
theorem strtoksLoop_whole {β : Type} {store : List UInt8 → Nat → β → Option β}
    {put : Nat → List UInt8 → β → β} {argv : List β}
    (hstore : ∀ buf arg text entry, entry ∈ argv → stringAt buf arg = some text →
      text.length ≤ s.length → store buf arg entry = some (put arg text entry))
    (hzero : 0 ∉ s) (hsize : 1 ≤ size) (hargv : size ≤ argv.length) (hfuel : s.length < fuel)
    (after delim : List UInt8) :
    ∃ args buf start, args.length = (kept s delim size).length ∧
      (∀ x ∈ args.zip (kept s delim size), stringAt buf x.1 = some x.2) ∧ (start = 0 ↔ s = []) ∧
      strtoksLoop store delim size fuel ⟨s ++ 0 :: after, 0, 0, argv⟩ =
        some ⟨buf, start, (kept s delim size).length,
          stored put args (kept s delim size) argv⟩ := by
  obtain ⟨n, rfl⟩ : ∃ n : Nat, size = (n + 1 : Nat) := ⟨size.toNat - 1, by omega⟩
  obtain ⟨args, cells, start, hargs, htexts, _, hstart, hrun⟩ :=
    @strtoksLoop_eq β store put [] s delim [] argv s.length n fuel hstore hzero (Nat.le_refl _)
      (Int.ofNat_le.1 hargv) hfuel after
  rw [List.length_nil, Nat.zero_add, Nat.zero_add, List.nil_append, List.nil_append,
    List.nil_append, List.nil_append] at hrun
  exact ⟨args, cells, start, hargs, htexts, hstart, hrun⟩

theorem kept_le {n : Nat} (hsize : size ≤ n) : (kept s delim size).length ≤ n :=
  Nat.le_trans (List.length_take_le _ _) (Int.toNat_le.2 hsize)

theorem nozero_of_kept (hzero : 0 ∉ s) (h : text ∈ kept s delim size) : 0 ∉ text :=
  fun hmem => hzero (subset_of_mem_words (List.mem_of_mem_take h) hmem)

theorem stored_pointers {args : List Nat} {texts : List (List UInt8)}
    (hargs : args.length = texts.length) (hle : texts.length ≤ ptrs.length) :
    stored (fun arg _ _ => arg) args texts ptrs = args ++ ptrs.drop texts.length := by
  have hfst : (args.zip texts).map Prod.fst = args := List.map_fst_zip (Nat.le_of_eq hargs)
  have hptrs : List.zipWith (fun arg _ => arg) args ptrs = args := by
    rw [← List.map_uncurry_zip_eq_zipWith]
    exact List.map_fst_zip (hargs ▸ hle)
  have hall : List.zipWith (fun arg _ => arg) ((args.zip texts).map Prod.fst) ptrs =
      List.zipWith (fun x _ => x.1) (args.zip texts) ptrs := List.zipWith_map_left
  rw [stored, ← hall, hfst, hptrs]

theorem stored_copies {args : List Nat} {texts : List (List UInt8)}
    (hargs : args.length = texts.length) :
    stored (fun _ text entry => copied text entry) args texts bufs =
      List.zipWith copied texts bufs ++ bufs.drop texts.length := by
  have hsnd : (args.zip texts).map Prod.snd = texts := List.map_snd_zip (Nat.le_of_eq hargs.symm)
  have hall : List.zipWith copied ((args.zip texts).map Prod.snd) bufs =
      List.zipWith (fun x entry => copied x.2 entry) (args.zip texts) bufs := List.zipWith_map_left
  rw [stored, ← hall, hsnd]

theorem strStrtoks_eq (hzero : 0 ∉ s) (hsize : 1 ≤ size) (hptrs : size ≤ ptrs.length)
    (after delim : List UInt8) :
    ∃ args buf, strStrtoks (s ++ 0 :: after) delim ptrs size =
        some ((kept s delim size).length, args, buf) ∧
      (args.take (kept s delim size).length).map (stringAt buf) = (kept s delim size).map some := by
  have hfuel : s.length < (s ++ 0 :: after).length + 1 := by
    rw [List.length_append]
    omega
  obtain ⟨args, buf, start, hargs, htexts, _, hrun⟩ :=
    @strtoksLoop_whole s size _ Nat storePointer (fun arg _ _ => arg) ptrs
      (fun _ _ _ _ _ _ _ => rfl) hzero hsize hptrs hfuel after delim
  rw [stored_pointers hargs (kept_le hptrs)] at hrun
  refine ⟨_, buf, by rw [strStrtoks, hrun]; rfl, ?_⟩
  rw [List.take_left' hargs]
  have hfst := List.map_fst_zip (Nat.le_of_eq hargs)
  have hsnd := List.map_snd_zip (Nat.le_of_eq hargs.symm)
  calc
    args.map (stringAt buf) = (args.zip (kept s delim size)).map (stringAt buf ∘ Prod.fst) := by
      rw [← List.map_map, hfst]
    _ = (args.zip (kept s delim size)).map (some ∘ Prod.snd) := List.map_congr_left htexts
    _ = (kept s delim size).map some := by rw [← List.map_map, hsnd]

theorem copyLoop_eq (hzero : 0 ∉ s) (hsize : 1 ≤ size) (hbufs : size ≤ bufs.length)
    (hroom : ∀ b ∈ bufs, s.length + 1 ≤ b.length) (after delim : List UInt8) :
    ∃ buf start, (start = 0 ↔ s = []) ∧ copyLoop (s ++ 0 :: after) delim bufs size =
      some ⟨buf, start, (kept s delim size).length,
        List.zipWith copied (kept s delim size) bufs ++ bufs.drop (kept s delim size).length⟩ := by
  have hfuel : s.length < (s ++ 0 :: after).length + 1 := by
    rw [List.length_append]
    omega
  have hstore : ∀ buf arg text entry, entry ∈ bufs → stringAt buf arg = some text →
      text.length ≤ s.length → storeCopy buf arg entry = some (copied text entry) := by
    intro buf arg text entry hmem htext hle
    exact storeCopy_eq htext (Nat.le_trans hle (Nat.le_of_succ_le (hroom entry hmem)))
  obtain ⟨args, buf, start, hargs, _, hstart, hrun⟩ :=
    @strtoksLoop_whole s size _ _ storeCopy (fun _ text entry => copied text entry) bufs hstore
      hzero hsize hbufs hfuel [] delim
  rw [stored_copies hargs] at hrun
  have htext : stringAt (s ++ 0 :: after) 0 = some s := stringAt_middle [] after hzero
  refine ⟨buf, start, hstart, ?_⟩
  rw [copyLoop, htext]
  exact hrun

/-- The copies are right where the rest of each token stood in its entry before. -/
theorem copies_iff (hzero : 0 ∉ s) (hbufs : size ≤ bufs.length) :
    ((List.zipWith copied (kept s delim size) bufs).map (stringAt · 0) =
      (kept s delim size).map some) ↔
    ∀ x ∈ (kept s delim size).zip bufs,
      x.1.drop COPIED ++ [0] <+: x.2.drop (min COPIED x.1.length) := by
  have hfst : ((kept s delim size).zip bufs).map Prod.fst = kept s delim size :=
    List.map_fst_zip (kept_le hbufs)
  have hcopies : (List.zipWith copied (kept s delim size) bufs).map (stringAt · 0) =
      ((kept s delim size).zip bufs).map fun x => stringAt (copied x.1 x.2) 0 := by
    rw [← List.map_uncurry_zip_eq_zipWith, List.map_map]
    rfl
  have htexts : (kept s delim size).map some =
      ((kept s delim size).zip bufs).map (some ∘ Prod.fst) := by
    rw [← List.map_map, hfst]
  rw [hcopies, htexts, List.map_inj_left]
  apply forall₂_congr
  intro x hx
  exact stringAt_copied (nozero_of_kept hzero (List.of_mem_zip hx).1) x.2

theorem sameTokens_copies (hzero : 0 ∉ s) (hsize : 1 ≤ size) (hptrs : size ≤ ptrs.length)
    (hbufs : size ≤ bufs.length) (after : List UInt8) :
    SameTokens s after delim ptrs size (some ((kept s delim size).length,
        List.zipWith copied (kept s delim size) bufs ++ bufs.drop (kept s delim size).length)) ↔
      ∀ x ∈ (kept s delim size).zip bufs,
        x.1.drop COPIED ++ [0] <+: x.2.drop (min COPIED x.1.length) := by
  have hlen : (List.zipWith copied (kept s delim size) bufs).length =
      (kept s delim size).length := by
    rw [List.length_zipWith, Nat.min_eq_left (kept_le hbufs)]
  obtain ⟨args, buf, hrun, htexts⟩ := strStrtoks_eq hzero hsize hptrs after delim
  rw [← copies_iff hzero hbufs]
  constructor
  · rintro ⟨n, args, buf, entries, _, hcopy, hn, _, hentries⟩
    cases hcopy
    rwa [List.take_left' hlen] at hentries
  · intro h
    refine ⟨_, args, buf, _, hrun, rfl, rfl, htexts, ?_⟩
    rwa [List.take_left' hlen]

/-- The second splitter frees the end of its copy, and only the start of it can be freed. Up to
there it has the tokens of at most seven characters, if a zero stands behind them already. -/
theorem sameTokens_iff (hzero : 0 ∉ s) (hsize : 1 ≤ size) (hptrs : size ≤ ptrs.length)
    (hbufs : size ≤ bufs.length) (hroom : ∀ b ∈ bufs, s.length + 1 ≤ b.length)
    (after delim : List UInt8) :
    (SameTokens s after delim ptrs size (strStrtoks2 (s ++ 0 :: after) delim bufs size) ↔ s = []) ∧
    (SameTokens s after delim ptrs size
        ((copyLoop (s ++ 0 :: after) delim bufs size).map fun t => (t.i, t.argv)) ↔
      ∀ x ∈ (kept s delim size).zip bufs,
        x.1.drop COPIED ++ [0] <+: x.2.drop (min COPIED x.1.length)) := by
  obtain ⟨buf, start, hstart, hcopy⟩ := copyLoop_eq hzero hsize hbufs hroom after delim
  refine ⟨?_, ?_⟩
  · rw [strStrtoks2, hcopy, Option.bind_some]
    dsimp only
    by_cases hs : s = []
    · rw [if_pos (hstart.2 hs)]
      refine iff_of_true ?_ hs
      rw [sameTokens_copies hzero hsize hptrs hbufs]
      intro x hx
      have hkept : kept s delim size = [] := by
        rw [kept, hs, words_blank nofun, List.take_nil]
      rw [hkept] at hx
      cases hx
    · rw [if_neg fun h => hs (hstart.1 h)]
      refine iff_of_false ?_ hs
      rintro ⟨n, args, buf, entries, _, hnone, _⟩
      cases hnone
  · rw [hcopy, Option.map_some]
    exact sameTokens_copies hzero hsize hptrs hbufs after

theorem sameTokens_iff_letter :
    (SameTokens [97] [] [44] [0] 1 (strStrtoks2 ([97] ++ 0 :: []) [44] [[0, 0]] 1) ↔
      [(97 : UInt8)] = []) ∧
    (SameTokens [97] [] [44] [0] 1
        ((copyLoop ([97] ++ 0 :: []) [44] [[0, 0]] 1).map fun t => (t.i, t.argv)) ↔
      ∀ x ∈ (kept [97] [44] 1).zip [[0, 0]],
        x.1.drop COPIED ++ [0] <+: x.2.drop (min COPIED x.1.length)) :=
  sameTokens_iff (by decide) (by decide) (by decide) (by decide)
    (List.forall_mem_singleton.2 (by decide)) [] [44]

/-- A token of eight letters in a buffer of ones is cut, and the end of the copy is freed. -/
theorem not_sameTokens :
    (¬ SameTokens [97, 98, 99, 100, 101, 102, 103, 104] [] [44] [0] 1
      (strStrtoks2 [97, 98, 99, 100, 101, 102, 103, 104, 0] [44] [List.replicate 9 1] 1)) ∧
    (copyLoop [97, 98, 99, 100, 101, 102, 103, 104, 0] [44] [List.replicate 9 1] 1).map
      (fun t => (t.start, t.argv)) = some (8, [[97, 98, 99, 100, 101, 102, 103, 1, 1]]) := by
  have hnone : strStrtoks2 [97, 98, 99, 100, 101, 102, 103, 104, 0] [44] [List.replicate 9 1] 1 =
      none := by decide +kernel
  refine ⟨?_, by decide +kernel⟩
  rw [hnone]
  rintro ⟨n, args, buf, entries, _, hrun, _⟩
  cases hrun

end SameTokens

end BigBox.Strtoks
