import BigBox.Lib.CInt
import BigBox.Lib.CString
import BigBox.Lib.Fields

namespace BigBox.PathSep
open Fields
set_option autoImplicit true

/-- An `int` as an `unsigned int`. -/
def ofInt (n : Int) : Nat := (n % 4294967296).toNat

/-- The length and the place pass through an `int`. The zero behind the string can be found. -/
def findBychar (str : List UInt8) (seq : UInt8) (start : Nat) : Int :=
  if unsigned str.length ≤ start then -1
  else
    match (str.drop start ++ [0]).findIdx? (· == seq) with
    | none => -1
    | some i => toInt (start + i)

def memcpy (dst src : List UInt8) (n : Nat) : Option (List UInt8) :=
  if n ≤ src.length ∧ n ≤ dst.length then some (src.take n ++ dst.drop n) else none

def strSubstr (str output : List UInt8) (position : Nat) (n : Int) : Option (List UInt8) :=
  let strLen := unsigned str.length
  if strLen ≤ position then some output
  else
    let n := if 0 < n ∧ strLen < ofInt (position + n) then -1 else n
    memcpy output (str.drop position) (if n < 0 then strLen - position else n.toNat)

/-- The loop, with `an_dir` and `t_lev`. The result is `NULL` or the output. -/
def pathSepLoop (path : List UInt8) (output : Option (List UInt8)) (level : Int) (sep : UInt8) :
    Nat → Int → Int → Option (Option (List UInt8))
  | 0, _, _ => none
  | fuel + 1, anDir, tLev =>
    let tDir := findBychar path sep (ofInt anDir)
    if tDir = -1 then
      if tLev ≠ level then some none
      else
        match output with
        | none => some none
        | some output => (checkedInt (toInt path.length - anDir)).bind fun n =>
          (strSubstr path output (ofInt anDir) n).map some
    else if tLev = level then
      match output with
      | none => some none
      | some output => (checkedInt (tDir - anDir)).bind fun n =>
        (strSubstr path output (ofInt anDir) n).map some
    else
      (checkedInt (tDir + 1)).bind fun anDir =>
        (checkedInt (tLev + 1)).bind fun tLev => pathSepLoop path output level sep fuel anDir tLev

/-- `str_strPathSep`, up to so many rounds of its loop. -/
def strStrPathSep (fuel : Nat) (path output : Option (List UInt8)) (level : Int) (sep : UInt8) :
    Option (Option (List UInt8)) :=
  match path with
  | none => some none
  | some path => pathSepLoop path output level sep fuel 0 0

/-- The output is the field of a level, and `NULL` stands for a level with too few separators. -/
def IsField (path : List UInt8) (level : Nat) (sep : UInt8)
    (result : Option (Option (List UInt8))) : Prop :=
  if level ≤ path.count sep then
    ∃ out, result = some (some out) ∧ stringAt out 0 = (path.splitOn sep)[level]?
  else result = some none

/-- No separator in front of the field stands at the largest `int`, and the end of the field is
an `int` where its start is one, or so far behind it that the difference is one again. -/
def Counted (length : Nat) : Nat → Nat → List (List UInt8) → Prop
  | _, _, [] => True
  | 0, start, [_] => start < 2147483648 → length < 2147483648 ∨ start + 2147483648 ≤ length
  | 0, start, x :: _ :: _ => start < 2147483648 → start + x.length < 2147483648
  | _ + 1, _, [_] => True
  | level + 1, start, x :: y :: fs =>
    start + x.length ≠ 2147483647 ∧ Counted length level (start + x.length + 1) (y :: fs)

section Numbers

theorem ofInt_toInt (h : n < 4294967296) : ofInt (toInt n) = n := by
  unfold ofInt
  by_cases hlow : n < 2147483648
  · rw [toInt_of_lt hlow]
    omega
  · rw [toInt_of_le (Nat.le_of_not_lt hlow) h]
    omega

theorem toInt_ne (h : n < 4294967295) : toInt n ≠ -1 := by
  by_cases hlow : n < 2147483648
  · rw [toInt_of_lt hlow]
    omega
  · rw [toInt_of_le (Nat.le_of_not_lt hlow) (by omega)]
    omega

theorem checkedInt_none {n : Int} (h : n < -2147483648 ∨ 2147483648 ≤ n) : checkedInt n = none :=
  if_neg (by omega)

/-- A difference of two places that both are or both are not an `int`. -/
theorem checkedInt_sub (hle : a ≤ e) (he : e < 4294967296)
    (h : a < 2147483648 → e < 2147483648) :
    checkedInt (toInt e - toInt a) = some ((e : Int) - a) := by
  by_cases ha : a < 2147483648
  · rw [toInt_of_lt ha, toInt_of_lt (h ha)]
    apply checkedInt_of_lt <;> omega
  · rw [toInt_of_le (Nat.le_of_not_lt ha) (Nat.lt_of_le_of_lt hle he),
      toInt_of_le (Nat.le_trans (Nat.le_of_not_lt ha) hle) he]
    have hsub : (e : Int) - 4294967296 - (a - 4294967296) = e - a := by omega
    rw [hsub]
    apply checkedInt_of_lt <;> omega

/-- A difference over the largest `int` is negative or overflows. -/
theorem checkedInt_over (ha : a < 2147483648) (he : 2147483648 ≤ e) (hlt : e < 4294967296) :
    checkedInt (toInt e - toInt a) =
      if a + 2147483648 ≤ e then some ((e : Int) - 4294967296 - a) else none := by
  rw [toInt_of_lt ha, toInt_of_le he hlt]
  split
  · apply checkedInt_of_lt <;> omega
  · apply checkedInt_none
    omega

/-- The place behind a place, unless it is the first that is no `int`. -/
theorem checkedInt_succ (h : n < 4294967295) (hne : n ≠ 2147483647) :
    checkedInt (toInt n + 1) = some (toInt (n + 1)) := by
  by_cases hlow : n < 2147483647
  · rw [toInt_of_lt (by omega), toInt_of_lt (by omega)]
    exact checkedInt_of_lt (by omega) (by omega)
  · rw [toInt_of_le (by omega) (by omega), toInt_of_le (by omega) (by omega)]
    have hsum : (n : Int) - 4294967296 + 1 = (n + 1 : Nat) - 4294967296 := by omega
    rw [hsum]
    exact checkedInt_of_lt (by omega) (by omega)

end Numbers

section strSubstr
variable {path : List UInt8} {size a e : Nat} {n : Int}

/-- What is copied into a cleared output. -/
theorem memcpy_zeros {n : Nat} (hzero : 0 ∉ path) (hn : n ≤ path.length - a)
    (hsize : path.length < size) :
    ∃ out, memcpy (List.replicate size 0) (path.drop a) n = some out ∧
      stringAt out 0 = some ((path.drop a).take n) := by
  have hlen : n ≤ (path.drop a).length := by rwa [List.length_drop]
  have hout : n < size := by omega
  refine ⟨_, if_pos ⟨hlen, by rw [List.length_replicate]; exact Nat.le_of_lt hout⟩, ?_⟩
  obtain ⟨m, hm⟩ : ∃ m, size - n = m + 1 := ⟨size - n - 1, by omega⟩
  rw [List.drop_replicate, hm, List.replicate_succ]
  apply stringAt_middle []
  exact fun h => hzero (List.mem_of_mem_drop (List.mem_of_mem_take h))

theorem strSubstr_eq (hzero : 0 ∉ path) (hpath : path.length < 4294967296) (ha : a ≤ path.length)
    (hn : a + n ≤ path.length) (hsize : path.length < size) :
    ∃ out, strSubstr path (List.replicate size 0) a n = some out ∧
      stringAt out 0 = some ((path.drop a).take (if n < 0 then path.length else n.toNat)) := by
  unfold strSubstr
  rw [unsigned_of_lt hpath]
  dsimp only
  by_cases hlast : path.length ≤ a
  · rw [if_pos hlast, List.drop_eq_nil_of_le hlast, List.take_nil]
    obtain ⟨m, rfl⟩ : ∃ m, size = m + 1 := ⟨size - 1, by omega⟩
    exact ⟨_, rfl, stringAt_middle [] (List.replicate m 0) List.not_mem_nil⟩
  · have hkeep : ¬ (0 < n ∧ path.length < ofInt (a + n)) := by
      rintro ⟨hpos, hover⟩
      unfold ofInt at hover
      omega
    rw [if_neg hlast, if_neg hkeep]
    by_cases hneg : n < 0
    · rw [if_pos hneg, if_pos hneg]
      obtain ⟨out, hout, htext⟩ := memcpy_zeros hzero (Nat.le_refl (path.length - a)) hsize
      refine ⟨out, hout, htext.trans ?_⟩
      rw [List.take_of_length_le (by rw [List.length_drop]),
        List.take_of_length_le (by rw [List.length_drop]; exact Nat.sub_le _ _)]
    · rw [if_neg hneg, if_neg hneg]
      exact memcpy_zeros hzero (by omega) hsize

/-- What `str_strPathSep` does with a field that starts and ends somewhere. -/
def copyField (path output : List UInt8) (start stop : Int) : Option (Option (List UInt8)) :=
  (checkedInt (stop - start)).bind fun n => (strSubstr path output (ofInt start) n).map some

theorem copyField_near (hzero : 0 ∉ path) (hpath : path.length < 4294967296) (ha : a ≤ e)
    (he : e ≤ path.length) (hsize : path.length < size) (h : a < 2147483648 → e < 2147483648) :
    ∃ out, copyField path (List.replicate size 0) (toInt a) (toInt e) = some (some out) ∧
      stringAt out 0 = some ((path.drop a).take (e - a)) := by
  have helt := Nat.lt_of_le_of_lt he hpath
  obtain ⟨out, hout, htext⟩ := @strSubstr_eq path size a ((e : Int) - a) hzero hpath
    (Nat.le_trans ha he) (by omega) hsize
  refine ⟨out, ?_, ?_⟩
  · rw [copyField, checkedInt_sub ha helt h, Option.bind_some,
      ofInt_toInt (Nat.lt_of_le_of_lt ha helt), hout, Option.map_some]
  · have hnat : ((e : Int) - a).toNat = e - a := by omega
    rw [htext, if_neg (by omega), hnat]

/-- Where the difference is negative the rest of the path is copied. -/
theorem copyField_far (hzero : 0 ∉ path) (hpath : path.length < 4294967296)
    (he : e ≤ path.length) (hsize : path.length < size) (ha : a < 2147483648)
    (hover : 2147483648 ≤ e) :
    if a + 2147483648 ≤ e then
      ∃ out, copyField path (List.replicate size 0) (toInt a) (toInt e) = some (some out) ∧
        stringAt out 0 = some (path.drop a)
    else copyField path (List.replicate size 0) (toInt a) (toInt e) = none := by
  have helt := Nat.lt_of_le_of_lt he hpath
  rw [copyField, checkedInt_over ha hover helt]
  by_cases hfar : a + 2147483648 ≤ e
  · rw [if_pos hfar, if_pos hfar, Option.bind_some, ofInt_toInt (by omega)]
    obtain ⟨out, hout, htext⟩ := @strSubstr_eq path size a ((e : Int) - 4294967296 - a) hzero hpath
      (by omega) (by omega) hsize
    refine ⟨out, by rw [hout, Option.map_some], ?_⟩
    rw [htext, if_pos (by omega), List.take_of_length_le]
    rw [List.length_drop]
    exact Nat.sub_le _ _
  · rw [if_neg hfar, if_neg hfar, Option.bind_none]

end strSubstr

section findBychar
variable {before x r : List UInt8} {sep : UInt8}

theorem findBychar_none (hsep : sep ≠ 0) (before : List UInt8)
    (hx : ∀ c ∈ x, (c == sep) = false) : findBychar (before ++ x) sep before.length = -1 := by
  have hnone : (x ++ [0]).findIdx? (· == sep) = none := by
    rw [List.findIdx?_eq_none_iff, List.forall_mem_append, List.forall_mem_singleton]
    exact ⟨hx, beq_false_of_ne hsep.symm⟩
  rw [findBychar, List.drop_left, hnone]
  split
  · rfl
  · rfl

theorem findBychar_some (hpath : (before ++ (x ++ c :: r)).length < 4294967296)
    (hx : ∀ c ∈ x, (c == sep) = false) (hc : (c == sep) = true) :
    findBychar (before ++ (x ++ c :: r)) sep before.length = toInt (before.length + x.length) := by
  have hidx : (x ++ c :: r ++ [0]).findIdx? (· == sep) = some x.length := by
    rw [List.append_assoc, List.cons_append, List.findIdx?_append, List.findIdx?_eq_none_iff.2 hx,
      List.findIdx?_cons, hc]
    exact congrArg some (Nat.zero_add _)
  rw [findBychar, unsigned_of_lt hpath, List.drop_left, hidx, if_neg]
  simp only [List.length_append, List.length_cons]
  omega

end findBychar

section pathSepLoop
variable {before rest x r : List UInt8} {sep : UInt8} {size tLev level fuel : Nat}

/-- The last field is copied unless the length of it overflows. -/
theorem copyField_last (hzero : 0 ∉ before ++ rest) (hpath : (before ++ rest).length < 4294967296)
    (hsize : (before ++ rest).length < size) :
    (∃ out, copyField (before ++ rest) (List.replicate size 0) (toInt before.length)
        (toInt (before ++ rest).length) = some (some out) ∧ stringAt out 0 = some rest) ↔
      (before.length < 2147483648 → (before ++ rest).length < 2147483648 ∨
        before.length + 2147483648 ≤ (before ++ rest).length) := by
  have hle : before.length ≤ (before ++ rest).length := (List.prefix_append before rest).length_le
  by_cases hnear : before.length < 2147483648 → (before ++ rest).length < 2147483648
  · obtain ⟨out, hout, htext⟩ := copyField_near hzero hpath hle (Nat.le_refl _) hsize hnear
    refine iff_of_true ⟨out, hout, ?_⟩ fun ha => .inl (hnear ha)
    rw [htext, List.drop_left, List.length_append, Nat.add_sub_cancel_left, List.take_length]
  · obtain ⟨ha, hover⟩ := Classical.not_imp.1 hnear
    have hfar := copyField_far hzero hpath (Nat.le_refl _) hsize ha (Nat.le_of_not_lt hover)
    split at hfar
    · next hle' =>
      rw [List.drop_left] at hfar
      exact iff_of_true hfar fun _ => .inr hle'
    · next hle' =>
      rw [hfar]
      refine iff_of_false ?_ fun h => (h ha).elim hover hle'
      rintro ⟨out, hout, _⟩
      cases hout

/-- A field in front of a separator is copied unless the separator is behind the largest `int`
and its start is not. -/
theorem copyField_inner (hzero : 0 ∉ before ++ (x ++ c :: r))
    (hpath : (before ++ (x ++ c :: r)).length < 4294967296)
    (hsize : (before ++ (x ++ c :: r)).length < size) :
    (∃ out, copyField (before ++ (x ++ c :: r)) (List.replicate size 0) (toInt before.length)
        (toInt (before.length + x.length)) = some (some out) ∧ stringAt out 0 = some x) ↔
      (before.length < 2147483648 → before.length + x.length < 2147483648) := by
  have hle : before.length + x.length ≤ (before ++ (x ++ c :: r)).length := by
    simp only [List.length_append]
    omega
  by_cases hnear : before.length < 2147483648 → before.length + x.length < 2147483648
  · obtain ⟨out, hout, htext⟩ := copyField_near hzero hpath (Nat.le_add_right _ _) hle hsize hnear
    refine iff_of_true ⟨out, hout, ?_⟩ hnear
    rw [htext, List.drop_left, Nat.add_sub_cancel_left, List.take_left]
  · obtain ⟨ha, hover⟩ := Classical.not_imp.1 hnear
    have hfar := copyField_far hzero hpath hle hsize ha (Nat.le_of_not_lt hover)
    refine iff_of_false ?_ hnear
    rintro ⟨out, hout, htext⟩
    split at hfar
    · next hle' =>
      obtain ⟨out', hout', htext'⟩ := hfar
      rw [hout] at hout'
      cases hout'
      rw [List.drop_left, htext] at htext'
      have hlen := congrArg List.length (Option.some.inj htext')
      rw [List.length_append, List.length_cons] at hlen
      omega
    · next hle' =>
      rw [hfar] at hout
      cases hout

/-- The loop from the start of a field on. -/
theorem loop_iff (hsep : sep ≠ 0) (hzero : 0 ∉ before ++ rest)
    (hpath : (before ++ rest).length < 4294967296)
    (hsize : (before ++ rest).length < size) (hlevel : tLev + level < 2147483648)
    (hfuel : level < fuel) :
    IsField rest level sep (pathSepLoop (before ++ rest) (some (List.replicate size 0))
      (tLev + level : Nat) sep fuel (toInt before.length) tLev) ↔
      Counted (before ++ rest).length level before.length (rest.splitOnP (· == sep)) := by
  induction rest using fields_induction (p := (· == sep))
    generalizing before tLev level fuel with
  | piece x hx =>
    obtain ⟨fuel, rfl⟩ := Nat.exists_eq_succ_of_ne_zero (Nat.ne_zero_of_lt hfuel)
    have hbefore : before.length < 4294967296 :=
      Nat.lt_of_le_of_lt (List.prefix_append before x).length_le hpath
    have hcount : x.count sep = 0 := countP_piece hx
    rw [IsField, List.splitOn_eq_splitOnP, List.splitOnP_eq_singleton hx, hcount, pathSepLoop,
      ofInt_toInt hbefore, findBychar_none hsep before hx, if_pos rfl]
    cases level with
    | zero =>
      have hsame := copyField_last hzero hpath hsize
      rw [copyField, ofInt_toInt hbefore] at hsame
      have hlast : ¬ (tLev : Int) ≠ (tLev + 0 : Nat) := not_not_intro rfl
      rw [if_pos (Nat.le_refl 0), if_neg hlast]
      exact hsame
    | succ level =>
      have hmore : (tLev : Int) ≠ (tLev + (level + 1) : Nat) := by omega
      rw [if_neg (Nat.not_succ_le_zero level), if_pos hmore]
      exact iff_of_true rfl trivial
  | cut x c r hx hc ih =>
    obtain ⟨fuel, rfl⟩ := Nat.exists_eq_succ_of_ne_zero (Nat.ne_zero_of_lt hfuel)
    have hbefore : before.length < 4294967296 :=
      Nat.lt_of_le_of_lt (List.prefix_append before _).length_le hpath
    have hplace : before.length + x.length < 4294967295 := by
      simp only [List.length_append, List.length_cons] at hpath
      omega
    have hcount : (x ++ c :: r).count sep = r.count sep + 1 := countP_cut hx hc r
    obtain ⟨y, fs, hfs⟩ := List.exists_cons_of_ne_nil (List.splitOnP_ne_nil (· == sep) r)
    rw [IsField, List.splitOn_eq_splitOnP, List.splitOnP_append_cons_of_forall_mem hx c hc, hcount,
      pathSepLoop, ofInt_toInt hbefore, findBychar_some hpath hx hc, if_neg (toInt_ne hplace)]
    cases level with
    | zero =>
      have hsame := copyField_inner hzero hpath hsize
      rw [copyField, ofInt_toInt hbefore] at hsame
      have hlast : (tLev : Int) = (tLev + 0 : Nat) := rfl
      rw [if_pos (Nat.zero_le _), if_pos hlast, hfs]
      exact hsame
    | succ level =>
      have hmore : ¬ (tLev : Int) = (tLev + (level + 1) : Nat) := by omega
      rw [if_neg hmore]
      by_cases hedge : before.length + x.length = 2147483647
      · have hnone : checkedInt (toInt (before.length + x.length) + 1) = none := by
          rw [hedge, toInt_of_lt (by decide)]
          rfl
        rw [hnone, hfs]
        refine iff_of_false ?_ fun h => h.1 hedge
        split
        · rintro ⟨out, hout, _⟩
          cases hout
        · exact nofun
      · have hlen : before.length + x.length + 1 = (before ++ x ++ [c]).length := by
          simp only [List.length_append, List.length_singleton]
        have hsplit : before ++ (x ++ c :: r) = before ++ x ++ [c] ++ r := by
          simp only [List.append_assoc, List.singleton_append]
        have hlev : ((tLev : Int) + 1) = (tLev + 1 : Nat) := rfl
        have hsum : tLev + (level + 1) = tLev + 1 + level := by omega
        rw [checkedInt_succ hplace hedge, Option.bind_some, hlev,
          checkedInt_of_lt (by omega) (by omega), Option.bind_some, hsum, hlen, hsplit]
        rw [hsplit] at hzero hpath hsize
        have hrest := ih hzero hpath hsize (hsum ▸ hlevel) (Nat.lt_of_succ_lt_succ hfuel)
        rw [IsField, List.splitOn_eq_splitOnP] at hrest
        have hdef : ∀ n, Counted n (level + 1) before.length (x :: y :: fs) ↔
            before.length + x.length ≠ 2147483647 ∧
              Counted n level (before.length + x.length + 1) (y :: fs) := fun _ => Iff.rfl
        rw [List.getElem?_cons_succ, if_congr Nat.succ_le_succ_iff rfl rfl, hrest, hfs, hdef, hlen]
        exact (and_iff_right hedge).symm

/-- In a path whose length is an `int` all places are. -/
theorem counted_of_lt {length start : Nat} {fs : List (List UInt8)} (hlt : length < 2147483648)
    (hfits : start + (fs.map fun f => f.length + 1).sum ≤ length + 1) :
    Counted length level start fs := by
  induction fs generalizing level start with
  | nil =>
    cases level with
    | zero => trivial
    | succ level => trivial
  | cons x fs ih =>
    rw [List.map_cons, List.sum_cons] at hfits
    cases fs with
    | nil =>
      cases level with
      | zero => exact fun _ => .inl hlt
      | succ level => trivial
    | cons y fs =>
      rw [List.map_cons, List.sum_cons] at hfits
      cases level with
      | zero =>
        intro _
        omega
      | succ level =>
        refine ⟨by omega, ih ?_⟩
        rw [List.map_cons, List.sum_cons]
        omega

theorem sum_splitOnP (p : UInt8 → Bool) (s : List UInt8) :
    ((s.splitOnP p).map fun f => f.length + 1).sum = s.length + 1 := by
  induction s using fields_induction (p := p) with
  | piece a ha =>
    rw [List.splitOnP_eq_singleton ha]
    rfl
  | cut a c s ha hc ih =>
    rw [List.splitOnP_append_cons_of_forall_mem ha c hc, List.map_cons, List.sum_cons, ih,
      List.length_append, List.length_cons]
    omega

end pathSepLoop

section strStrPathSep
variable {path : List UInt8} {sep : UInt8} {level size fuel : Nat}

/-- A condition on a path, a separator and a level: the places are counted without a loss. -/
def FitsInt (path : List UInt8) (sep : UInt8) (level : Nat) : Prop :=
  path.length < 4294967296 ∧ Counted path.length level 0 (path.splitOn sep)

theorem fitsInt_of_lt (h : path.length < 2147483648) : FitsInt path sep level := by
  refine ⟨Nat.lt_trans h (by decide), counted_of_lt h ?_⟩
  rw [List.splitOn_eq_splitOnP, sum_splitOnP, Nat.zero_add]

/-- The field of a level is found where the places are counted without a loss, and below `2 ^ 32`
characters only there. -/
theorem isField_iff (hsep : sep ≠ 0) (hzero : 0 ∉ path) (hlevel : level < 2147483648)
    (hsize : path.length < size) (hfuel : level < fuel) :
    (FitsInt path sep level → IsField path level sep
      (strStrPathSep fuel (some path) (some (List.replicate size 0)) level sep)) ∧
    (path.length < 4294967296 → IsField path level sep
      (strStrPathSep fuel (some path) (some (List.replicate size 0)) level sep) →
      FitsInt path sep level) ∧
    (path.length < 2147483648 → FitsInt path sep level) := by
  have hloop : path.length < 4294967296 → (IsField path level sep
      (strStrPathSep fuel (some path) (some (List.replicate size 0)) level sep) ↔
      Counted path.length level 0 (path.splitOn sep)) := by
    intro hpath
    have hiff := @loop_iff [] path sep size 0 level fuel hsep hzero hpath hsize
      (by rwa [Nat.zero_add]) hfuel
    rw [Nat.zero_add, List.nil_append, List.length_nil, toInt_of_lt (by decide)] at hiff
    rw [List.splitOn_eq_splitOnP]
    exact hiff
  exact ⟨fun h => (hloop h.1).2 h.2, fun hpath h => ⟨hpath, (hloop hpath).1 h⟩, fitsInt_of_lt⟩

/-- The path `,` has an empty field behind its separator. -/
theorem isField_iff_empty :
    (FitsInt [44] 44 1 → IsField [44] 1 44
      (strStrPathSep 2 (some [44]) (some (List.replicate 2 0)) (1 : Nat) 44)) ∧
    ([(44 : UInt8)].length < 4294967296 → IsField [44] 1 44
      (strStrPathSep 2 (some [44]) (some (List.replicate 2 0)) (1 : Nat) 44) → FitsInt [44] 44 1) ∧
    ([(44 : UInt8)].length < 2147483648 → FitsInt [44] 44 1) :=
  isField_iff (by decide) (by decide) (by decide) (by decide) (by decide)

theorem not_isField_long {n : Nat} (hn : 2147483648 ≤ n) (hlt : n + 1 < 4294967296) :
    ¬ IsField (List.replicate n 97 ++ [44]) 0 44
      (strStrPathSep 1 (some (List.replicate n 97 ++ [44])) (some (List.replicate (n + 2) 0))
        (0 : Nat) 44) := by
  have hletter : ∀ c ∈ List.replicate n (97 : UInt8), c = 97 :=
    fun c hc => List.eq_of_mem_replicate hc
  have hlen : (List.replicate n (97 : UInt8) ++ [44]).length = n + 1 := by
    rw [List.length_append, List.length_replicate, List.length_singleton]
  have hzero : (0 : UInt8) ∉ [] ++ (List.replicate n 97 ++ [44]) := by
    intro hmem
    rw [List.nil_append] at hmem
    rcases List.mem_append.1 hmem with hmem | hmem
    · exact absurd (hletter 0 hmem) (by decide)
    · exact absurd (List.mem_singleton.1 hmem) (by decide)
  have hsplit : (List.replicate n (97 : UInt8) ++ [44]).splitOnP (· == 44) =
      [List.replicate n 97, []] := by
    rw [List.splitOnP_append_cons_of_forall_mem]
    · rfl
    · intro c hc
      rw [hletter c hc]
      rfl
    · rfl
  have hiff := @loop_iff [] (List.replicate n 97 ++ [44]) 44 (n + 2) 0 0 1 (by decide) hzero
    (by rw [List.nil_append, hlen]; exact hlt)
    (by rw [List.nil_append, hlen]; exact Nat.lt_succ_self _) (by decide) (by decide)
  rw [List.nil_append, List.length_nil, toInt_of_lt (by decide), hsplit] at hiff
  intro hfield
  have hnear := hiff.1 hfield (by decide)
  rw [List.length_replicate, Nat.zero_add] at hnear
  omega

/-- The separator behind `2 ^ 31` letters is copied with them. -/
theorem not_isField : ¬ IsField (List.replicate 2147483648 97 ++ [44]) 0 44
    (strStrPathSep 1 (some (List.replicate 2147483648 97 ++ [44]))
      (some (List.replicate 2147483650 0)) (0 : Nat) 44) :=
  not_isField_long (Nat.le_refl _) (by decide)

end strStrPathSep

end BigBox.PathSep
