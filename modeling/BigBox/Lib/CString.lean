import Mathlib.Data.List.Lex
import Mathlib.Data.List.DropRight
import Mathlib.Data.List.TakeWhile

namespace BigBox
set_option autoImplicit true

/-- The string that starts a piece of memory. -/
def cString (memory : List UInt8) : List UInt8 := memory.takeWhile (· ≠ 0)

/-- The white space of the C locale. -/
def isspace (c : UInt8) : Bool := c = 32 ∨ 9 ≤ c ∧ c ≤ 13

/-- A string without white space at both ends. -/
def trim (s : List UInt8) : List UInt8 := (s.rdropWhile isspace).dropWhile isspace

theorem cString_cons (c : UInt8) (s : List UInt8) :
    cString (c :: s) = if c = 0 then [] else c :: cString s := by
  by_cases h : c = 0
  · subst h
    rfl
  · rw [if_neg h]
    simp only [cString, List.takeWhile_cons, ne_eq, h, not_false_eq_true, decide_true, if_true]

theorem cString_append (h : (0 : UInt8) ∉ s) (s' : List UInt8) :
    cString (s ++ s') = s ++ cString s' := by
  apply List.takeWhile_append_of_pos
  intro c hc
  rw [decide_eq_true_eq]
  rintro rfl
  exact h hc

theorem cString_eq_nil (s : List UInt8) : cString s = [] ↔ s.getD 0 0 = 0 := by
  cases s with
  | nil => exact iff_of_true rfl rfl
  | cons c s =>
    rw [cString_cons]
    split
    case isTrue hc => exact iff_of_true rfl hc
    case isFalse hc => exact iff_of_false (List.cons_ne_nil _ _) hc

theorem length_trim_le (s : List UInt8) : (trim s).length ≤ s.length :=
  Nat.le_trans (List.dropWhile_sublist _).length_le (List.rdropWhile_prefix _ _).length_le

theorem decide_ne_of_not_mem {s : List UInt8} (h : a ∉ s) : ∀ c ∈ s, decide (c ≠ a) = true := by
  intro c hc
  rw [decide_eq_true_eq]
  rintro rfl
  exact h hc

/-- The text in front of the first of a character. -/
theorem takeWhile_at {a : List UInt8} (h : c ∉ a) (t : List UInt8) :
    (a ++ c :: t).takeWhile (· ≠ c) = a := by
  rw [List.takeWhile_append_of_pos (decide_ne_of_not_mem h), List.takeWhile_cons_of_neg]
  · exact List.append_nil a
  · rw [decide_eq_true_iff]
    exact not_not.2 rfl

theorem dropWhile_at {a : List UInt8} (h : c ∉ a) (t : List UInt8) :
    (a ++ c :: t).dropWhile (· ≠ c) = c :: t := by
  rw [List.dropWhile_append_of_pos (decide_ne_of_not_mem h), List.dropWhile_cons_of_neg]
  rw [decide_eq_true_iff]
  exact not_not.2 rfl

theorem cString_clean {s : List UInt8} (h : 0 ∉ s) : cString s = s := by
  rw [cString, List.takeWhile_eq_self_iff]
  exact decide_ne_of_not_mem h

/-- The string at an index of a block, if it ends inside it. -/
def stringAt (block : List UInt8) (off : Nat) : Option (List UInt8) :=
  if 0 ∈ block.drop off then some (cString (block.drop off)) else none

theorem zero_not_mem_cString (s : List UInt8) : 0 ∉ cString s := by
  intro h
  have hne := List.mem_takeWhile_imp h
  rw [decide_eq_true_iff] at hne
  exact hne rfl

theorem cString_append_zero (s rest : List UInt8) : cString (s ++ 0 :: rest) = cString s := by
  induction s with
  | nil => rfl
  | cons c s ih => rw [List.cons_append, cString_cons, cString_cons, ih]

theorem cString_append_of_mem (h : 0 ∈ s) (rest : List UInt8) :
    cString (s ++ rest) = cString s := by
  obtain ⟨a, b, rfl⟩ := List.append_of_mem h
  rw [List.append_assoc, List.cons_append, cString_append_zero, cString_append_zero]

/-- A piece of memory with a zero is a string, the zero and a rest. -/
theorem cString_prefix (h : 0 ∈ s) : cString s ++ [0] <+: s := by
  induction s with
  | nil => cases h
  | cons c s ih =>
    rw [cString_cons]
    split
    case isTrue hc =>
      subst hc
      exact ⟨s, rfl⟩
    case isFalse hc =>
      obtain ⟨rest, hrest⟩ := ih ((List.mem_cons.1 h).resolve_left fun h0 => hc h0.symm)
      exact ⟨rest, congrArg (c :: ·) hrest⟩

theorem cString_of_prefix (ht : 0 ∉ t) (h : t ++ [0] <+: s) : cString s = t := by
  obtain ⟨rest, rfl⟩ := h
  rw [List.append_assoc, cString_append ht]
  exact List.append_nil t

theorem stringAt_iff (ht : 0 ∉ t) :
    stringAt block off = some t ↔ t ++ [0] <+: block.drop off := by
  rw [stringAt]
  constructor
  · intro h
    split at h
    case isTrue hin =>
      cases h
      exact cString_prefix hin
    case isFalse => cases h
  · intro h
    have hin : 0 ∈ block.drop off := h.subset (List.mem_append_right t List.mem_cons_self)
    rw [if_pos hin, cString_of_prefix ht h]

theorem not_mem_of_stringAt (h : stringAt block off = some t) : 0 ∉ t := by
  rw [stringAt] at h
  split at h
  case isTrue =>
    cases h
    exact zero_not_mem_cString _
  case isFalse => cases h

/-- The block around a string in it. -/
theorem stringAt_split (h : stringAt block off = some t) :
    ∃ w rest, block = w ++ (t ++ 0 :: rest) ∧ w.length = off ∧ w = block.take off := by
  obtain ⟨rest, hrest⟩ := (stringAt_iff (not_mem_of_stringAt h)).1 h
  have hoff : off ≤ block.length := by
    by_contra hlt
    rw [List.drop_eq_nil_of_le (Nat.le_of_not_le hlt), List.append_assoc] at hrest
    exact List.cons_ne_nil 0 rest (List.append_eq_nil_iff.1 hrest).2
  refine ⟨block.take off, rest, ?_, List.length_take_of_le hoff, rfl⟩
  rw [List.append_assoc] at hrest
  exact (List.take_append_drop off block).symm.trans (congrArg (block.take off ++ ·) hrest.symm)

theorem stringAt_middle (w rest : List UInt8) (ht : 0 ∉ t) :
    stringAt (w ++ (t ++ 0 :: rest)) w.length = some t := by
  apply (stringAt_iff ht).2
  rw [List.drop_left]
  exact ⟨rest, by rw [List.append_assoc]; rfl⟩

theorem rdropWhile_eq_self {s : List α} {p : α → Bool}
    (h : ∀ c, s.getLast? = some c → p c = false) :
    s.rdropWhile p = s := by
  rw [List.rdropWhile_eq_self_iff]
  intro hne
  rw [h _ (List.getLast?_eq_some_getLast hne)]
  exact Bool.false_ne_true

theorem rdropWhile_append_of_all {p : α → Bool} {b : List α} (h : ∀ x ∈ b, p x = true)
    (a : List α) : (a ++ b).rdropWhile p = a.rdropWhile p := by
  rw [List.rdropWhile, List.reverse_append, List.dropWhile_append_of_pos]
  · rfl
  · intro x hx
    exact h x (List.mem_reverse.1 hx)

section trim
variable {s : List UInt8}

theorem rdropWhile_middle {p : α → Bool} {a b : List α} (hc : p c = false) :
    (a ++ c :: b).rdropWhile p = a ++ c :: b.rdropWhile p := by
  induction b using List.reverseRecOn with
  | nil => exact List.rdropWhile_concat_neg _ _ _ (Bool.not_eq_true _ ▸ hc)
  | append_singleton b x ih =>
    rw [← List.cons_append, ← List.append_assoc, List.rdropWhile_concat, List.rdropWhile_concat, ih]
    split
    · rfl
    · rw [List.append_assoc, List.cons_append]

theorem dropWhile_middle {p : α → Bool} {a b : List α} (hc : p c = false) :
    (a ++ c :: b).dropWhile p = a.dropWhile p ++ c :: b := by
  rw [List.dropWhile_append]
  split
  case isTrue h =>
    rw [List.isEmpty_iff.1 h, List.dropWhile_cons_of_neg (Bool.not_eq_true _ ▸ hc)]
    rfl
  case isFalse => rfl

/-- Only the white space outside of another character is lost. -/
theorem trim_middle (hc : isspace c = false) :
    trim (a ++ c :: b) = a.dropWhile isspace ++ c :: b.rdropWhile isspace := by
  rw [trim, rdropWhile_middle hc, dropWhile_middle hc]

theorem trim_cons (hc : isspace c = false) : trim (c :: b) = c :: b.rdropWhile isspace :=
  trim_middle (a := []) hc

theorem trim_eq_nil_iff : trim s = [] ↔ ∀ c ∈ s, isspace c = true := by
  rw [trim, List.dropWhile_eq_nil_iff]
  constructor
  · intro h
    by_contra hne
    have hne' : s.rdropWhile isspace ≠ [] := fun h' => hne (List.rdropWhile_eq_nil_iff.1 h')
    exact List.rdropWhile_last_not _ _ hne' (h _ (List.getLast_mem hne'))
  · intro h c hc
    exact h c ((List.rdropWhile_prefix _ _).subset hc)

theorem trim_isInfix (s : List UInt8) : trim s <:+: s :=
  (List.dropWhile_suffix _).isInfix.trans (List.rdropWhile_prefix _ _).isInfix

theorem mem_of_mem_trim (h : c ∈ trim s) : c ∈ s := (trim_isInfix s).subset h

/-- A text is white space, or another character stands somewhere in it. -/
theorem blank_or_middle (s : List UInt8) :
    (∀ c ∈ s, isspace c = true) ∨ ∃ a c b, isspace c = false ∧ s = a ++ c :: b := by
  by_cases h : ∀ c ∈ s, isspace c = true
  · exact .inl h
  · rw [not_forall] at h
    obtain ⟨c, h⟩ := h
    rw [Classical.not_imp, Bool.not_eq_true] at h
    obtain ⟨a, b, rfl⟩ := List.append_of_mem h.1
    exact .inr ⟨a, c, b, h.2, rfl⟩

@[simp] theorem trim_trim (s : List UInt8) : trim (trim s) = trim s := by
  rcases blank_or_middle s with h | ⟨a, c, b, hc, rfl⟩
  · rw [trim_eq_nil_iff.2 h]
    rfl
  · rw [trim_middle hc, trim_middle hc, List.dropWhile_idempotent, List.rdropWhile_idempotent]

theorem trim_append_blank (h : ∀ c ∈ w, isspace c = true) : trim (s ++ w) = trim s := by
  rw [trim, trim]
  congr 1
  induction w using List.reverseRecOn with
  | nil => rw [List.append_nil]
  | append_singleton w x ih =>
    rw [← List.append_assoc, List.rdropWhile_concat_pos _ _ _ (h x (by simp))]
    exact ih fun c hc => h c (List.mem_append_left _ hc)

@[simp] theorem trim_rdropWhile (s : List UInt8) : trim (s.rdropWhile isspace) = trim s := by
  rw [trim, List.rdropWhile_idempotent, trim]

theorem exists_rdropWhile_append (s : List UInt8) :
    ∃ b, s = s.rdropWhile isspace ++ b ∧ ∀ c ∈ b, isspace c = true := by
  refine ⟨(s.reverse.takeWhile isspace).reverse, ?_, fun c hc => ?_⟩
  · rw [List.rdropWhile, ← List.reverse_append, List.takeWhile_append_dropWhile,
      List.reverse_reverse]
  · exact List.mem_takeWhile_imp (List.mem_reverse.1 hc)

theorem exists_trim_append (s : List UInt8) :
    ∃ a b, s = a ++ trim s ++ b ∧ (∀ c ∈ a, isspace c = true) ∧ ∀ c ∈ b, isspace c = true := by
  obtain ⟨b, hb, hblank⟩ := exists_rdropWhile_append s
  refine ⟨(s.rdropWhile isspace).takeWhile isspace, b, ?_, fun c hc => ?_, hblank⟩
  · rw [trim, List.takeWhile_append_dropWhile, ← hb]
  · exact List.mem_takeWhile_imp hc

theorem head_trim (h : trim s = c :: b) : isspace c = false := by
  rcases blank_or_middle s with hs | ⟨a, d, e, hd, rfl⟩
  · rw [trim_eq_nil_iff.2 hs] at h
    cases h
  · have hhead := List.head?_dropWhile_not isspace (List.rdropWhile isspace (a ++ d :: e))
    rw [trim] at h
    rw [h] at hhead
    exact hhead

theorem getLast_trim (h : (trim s).getLast? = some c) : isspace c = false := by
  rcases blank_or_middle s with hs | ⟨a, d, e, hd, rfl⟩
  · rw [trim_eq_nil_iff.2 hs] at h
    cases h
  · rw [trim_middle hd, List.getLast?_append, List.getLast?_cons] at h
    by_cases he : e.rdropWhile isspace = []
    · rw [he] at h
      cases h
      exact hd
    · rw [List.getLast?_eq_some_getLast he] at h
      cases h
      exact Bool.not_eq_true _ ▸ List.rdropWhile_last_not _ _ he

end trim

/-- A string of C: its bytes without the zero behind them. -/
abbrev Text := { s : List UInt8 // 0 ∉ s }

/-- The string that starts a piece of memory. -/
def textOf (memory : List UInt8) : Text :=
  ⟨cString memory, fun h => absurd (List.mem_takeWhile_imp h) (by decide)⟩

def strcmpBytes : List UInt8 → List UInt8 → Int
  | [], [] => 0
  | [], b :: _ => -b.toNat
  | a :: _, [] => a.toNat
  | a :: as, b :: bs => if a = b then strcmpBytes as bs else a.toNat - b.toNat

def strcmp (a b : Text) : Int := strcmpBytes a b

theorem strcmpBytes_eq_zero (ha : (0 : UInt8) ∉ a) (hb : (0 : UInt8) ∉ b) :
    strcmpBytes a b = 0 ↔ a = b := by
  induction a, b using strcmpBytes.induct with
  | case1 => exact iff_of_true rfl rfl
  | case2 b bs =>
    have hne : (b.toNat : Int) ≠ 0 := by
      intro h
      have hb0 : b = 0 := UInt8.toNat_inj.1 (Int.ofNat_eq_zero.1 h)
      exact hb (hb0 ▸ List.mem_cons_self)
    exact iff_of_false (Int.neg_ne_zero.2 hne) (List.cons_ne_nil b bs).symm
  | case3 a as =>
    have hne : (a.toNat : Int) ≠ 0 := by
      intro h
      have ha0 : a = 0 := UInt8.toNat_inj.1 (Int.ofNat_eq_zero.1 h)
      exact ha (ha0 ▸ List.mem_cons_self)
    exact iff_of_false hne (List.cons_ne_nil a as)
  | case4 a as bs ih =>
    rw [strcmpBytes, if_pos rfl, ih (fun h => ha (List.mem_cons_of_mem _ h))
      fun h => hb (List.mem_cons_of_mem _ h), List.cons.injEq]
    exact (and_iff_right rfl).symm
  | case5 a as b bs hne =>
    rw [strcmpBytes, if_neg hne, Int.sub_eq_zero, Int.natCast_inj, UInt8.toNat_inj]
    exact iff_of_false hne fun h => hne (List.cons.inj h).1

theorem strcmpBytes_symm (a b : List UInt8) : strcmpBytes a b = -strcmpBytes b a := by
  induction a, b using strcmpBytes.induct with
  | case1 => rfl
  | case2 b bs => rfl
  | case3 a as => exact (Int.neg_neg _).symm
  | case4 a as bs ih => rw [strcmpBytes, strcmpBytes, if_pos rfl, if_pos rfl, ih]
  | case5 a as b bs hne =>
    rw [strcmpBytes, strcmpBytes, if_neg hne, if_neg (Ne.symm hne), Int.neg_sub]

/-- Strings are compared like the lists of their bytes. -/
theorem strcmpBytes_lt (ha : (0 : UInt8) ∉ a) (hb : (0 : UInt8) ∉ b) :
    strcmpBytes a b < 0 ↔ a.map UInt8.toNat < b.map UInt8.toNat := by
  induction a, b using strcmpBytes.induct with
  | case1 => exact iff_of_false (Int.lt_irrefl 0) (List.not_lt_nil _)
  | case2 b bs =>
    have hpos : 0 < b.toNat := by
      apply Nat.pos_of_ne_zero
      intro h
      have hb0 : b = 0 := UInt8.toNat_inj.1 h
      exact hb (hb0 ▸ List.mem_cons_self)
    refine iff_of_true ?_ (List.nil_lt_cons _ _)
    rw [strcmpBytes]
    exact Int.neg_neg_of_pos (Int.natCast_pos.2 hpos)
  | case3 a as =>
    exact iff_of_false (Int.not_lt.2 (Int.natCast_nonneg _)) (List.not_lt_nil _)
  | case4 a as bs ih =>
    rw [strcmpBytes, if_pos rfl, List.map_cons, List.map_cons, List.cons_lt_cons_iff,
      ih (fun h => ha (List.mem_cons_of_mem _ h)) fun h => hb (List.mem_cons_of_mem _ h)]
    exact (or_iff_right (Nat.lt_irrefl _)).trans (and_iff_right rfl) |>.symm
  | case5 a as b bs hne =>
    have hno : a.toNat ≠ b.toNat := fun h => hne (UInt8.toNat_inj.1 h)
    rw [strcmpBytes, if_neg hne, List.map_cons, List.map_cons, List.cons_lt_cons_iff,
      or_iff_left fun h => hno h.1]
    omega

/-- The loop of `strncmp`. A byte read behind the end of a block has no result. -/
def strncmp : List UInt8 → List UInt8 → Nat → Option Int
  | _, _, 0 => some 0
  | a :: as, b :: bs, n + 1 =>
    if a ≠ b then some (a.toNat - b.toNat) else if a = 0 then some 0 else strncmp as bs n
  | _, _, _ + 1 => none

theorem strcmp_eq_zero (a b : Text) : strcmp a b = 0 ↔ a = b :=
  (strcmpBytes_eq_zero a.2 b.2).trans Subtype.ext_iff.symm

end BigBox
