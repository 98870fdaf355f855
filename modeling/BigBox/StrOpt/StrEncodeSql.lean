import BigBox.StrOpt.Custom
import Mathlib.Data.List.Nodup
import Mathlib.Data.List.Perm.Subperm

namespace BigBox.StrOpt
open Loop
set_option autoImplicit true

/-- The cases of `StrOpt::SQL`. -/
def sqlCase (c : UInt8) : Option (List UInt8) :=
  if c = 39 then some [92, 39]
  else if c = 34 then some [92, 34]
  else if c = 96 then some [92, 96]
  else if c = 92 then some [92, 92]
  else none

/-- A round over the text whose quotes and backslashes are escaped. -/
def sqlRound (input : List UInt8) :
    Nat × List UInt8 → Option (Round (Nat × List UInt8) (List UInt8))
  | (iSz, sout) =>
    if (iSz : Int) < toInt input.length then do
      let sout := sout ++ (sqlCase (input.getD iSz 0)).getD [input.getD iSz 0]
      let iSz ← addInt iSz 1
      return .next (iSz, sout)
    else some (.done sout)

/-- A round of the loop over the text, or of the loop over the symbols for one place of it. -/
def doubleRound (opt1 : List UInt8) :
    Nat × Option Nat × List UInt8 → Option (Round (Nat × Option Nat × List UInt8) (List UInt8))
  | (iSz, none, sout) =>
    if iSz < sout.length then some (.next (iSz, some 0, sout)) else some (.done sout)
  | (iSz, some iSmb, sout) =>
    if iSmb < opt1.length then do
      let c ← charAt sout iSz
      let smb := opt1.getD iSmb 0
      if c = smb then
        return .next (unsigned (iSz + 1), some (unsigned (iSmb + 1)),
          sout.take iSz ++ [smb, smb] ++ sout.drop (iSz + 1))
      else return .next (iSz, some (unsigned (iSmb + 1)), sout)
    else some (.next (unsigned (iSz + 1), none, sout))

/-- `StrOpt::strEncode` for `StrOpt::SQL`, up to so many rounds of its loops. -/
def strEncodeSQL (fuel : Nat) (input opt1 : List UInt8) : Option (List UInt8) :=
  if opt1.length = 0 then iterate (sqlRound input) fuel (0, [])
  else iterate (doubleRound opt1) fuel (0, none, input)

/-- What a literal with backslashes stands for, unless one of its quotes ends it. -/
def readLiteral : List UInt8 → Option (List UInt8)
  | [] => some []
  | 92 :: c :: text => (readLiteral text).map (c :: ·)
  | c :: text => if sqlCase c = none then (readLiteral text).map (c :: ·) else none

/-- A text with every symbol of a list doubled. -/
def doubled (opt1 s : List UInt8) : List UInt8 :=
  s.flatMap fun c => if c ∈ opt1 then [c, c] else [c]

/-- The text is escaped as a literal, and its symbols are doubled. -/
def SqlEncodes (opt1 s : List UInt8) : Prop :=
  (∃ fuel out, strEncodeSQL fuel s [] = some out ∧ readLiteral out = some s) ∧
    ∃ fuel, strEncodeSQL fuel s opt1 = some (doubled opt1 s)

section Escape
variable {input s pre rest sout out : List UInt8}

theorem sqlCase_some (h : sqlCase c = some text) : text = [92, c] := by
  unfold sqlCase at h
  split at h
  case isTrue hc => exact (Option.some.inj h).symm.trans (congrArg ([92, ·]) hc.symm)
  case isFalse =>
    split at h
    case isTrue hc => exact (Option.some.inj h).symm.trans (congrArg ([92, ·]) hc.symm)
    case isFalse =>
      split at h
      case isTrue hc => exact (Option.some.inj h).symm.trans (congrArg ([92, ·]) hc.symm)
      case isFalse =>
        split at h
        case isTrue hc => exact (Option.some.inj h).symm.trans (congrArg ([92, ·]) hc.symm)
        case isFalse => cases h

theorem ne_of_sqlCase (h : sqlCase c = none) : c ≠ 92 := by
  rintro rfl
  cases h

theorem readLiteral_plain (h : sqlCase c = none) (text : List UInt8) :
    readLiteral (c :: text) = (readLiteral text).map (c :: ·) := by
  rw [readLiteral, if_pos h]
  intro d text' hc
  exact absurd hc (ne_of_sqlCase h)

/-- Reading undoes the escapes. -/
theorem readLiteral_escaped (s : List UInt8) : readLiteral (escaped sqlCase s) = some s := by
  induction s with
  | nil => rfl
  | cons c s ih =>
    rw [escaped_cons]
    cases hc : sqlCase c with
    | some text =>
      rw [sqlCase_some hc, Option.getD_some, List.cons_append, List.cons_append, List.nil_append,
        readLiteral, ih, Option.map_some]
    | none =>
      rw [Option.getD_none, List.singleton_append, readLiteral_plain hc, ih, Option.map_some]

/-- The loop escapes what the index reaches. -/
theorem returns_sql (hsplit : reached input = pre ++ rest) :
    Returns (sqlRound input) (pre.length, sout) out ↔ sout ++ escaped sqlCase rest = out := by
  have hle := toInt_le input.length
  induction rest generalizing pre sout with
  | nil =>
    have hlen := congrArg List.length hsplit
    rw [reached, List.length_take, List.append_nil] at hlen
    have hend : sqlRound input (pre.length, sout) = some (.done sout) := by
      rw [sqlRound, if_neg (by omega)]
    rw [returns_done hend, escaped, List.flatMap_nil, List.append_nil]
  | cons c rest ih =>
    obtain ⟨_, hget, hi⟩ := take_split hsplit
    have hi : (pre.length : Int) < toInt input.length := by omega
    have hsplit' : reached input = pre ++ [c] ++ rest := by
      rw [hsplit, List.append_assoc]
      rfl
    have hround : sqlRound input (pre.length, sout) =
        some (.next ((pre ++ [c]).length, sout ++ (sqlCase c).getD [c])) := by
      rw [sqlRound, if_pos hi, hget, addInt_one hi, List.length_append, List.length_singleton]
      rfl
    refine (returns_next hround).trans ((ih hsplit').trans ?_)
    rw [escaped_cons, List.append_assoc]

theorem strEncodeSQL_nil (fuel : Nat) (s : List UInt8) :
    strEncodeSQL fuel s [] = iterate (sqlRound s) fuel (0, []) := by
  rw [strEncodeSQL, if_pos List.length_nil]

theorem encodes_sql (s : List UInt8) :
    (∃ fuel, strEncodeSQL fuel s [] = some out) ↔ escaped sqlCase (reached s) = out := by
  have hrun : Returns (sqlRound s) (([] : List UInt8).length, []) out ↔
      [] ++ escaped sqlCase (reached s) = out :=
    returns_sql (List.nil_append (reached s)).symm
  rw [List.length_nil, List.nil_append, Returns] at hrun
  simp only [strEncodeSQL_nil]
  exact hrun

/-- The literal is the text again where the index reaches its end. -/
theorem sqlEscapes_iff (s : List UInt8) :
    (∃ fuel out, strEncodeSQL fuel s [] = some out ∧ readLiteral out = some s) ↔
      s.length < 2147483648 := by
  refine Iff.trans ?_ reached_eq_self_iff
  constructor
  · rintro ⟨fuel, out, hout, hread⟩
    have hescaped := (encodes_sql s).1 ⟨fuel, hout⟩
    rw [← hescaped, readLiteral_escaped] at hread
    exact Option.some.inj hread
  · intro hreached
    obtain ⟨fuel, hout⟩ := (encodes_sql s).2 rfl
    rw [hreached] at hout
    exact ⟨fuel, _, hout, readLiteral_escaped s⟩

theorem length_le_escaped (s : List UInt8) : s.length ≤ (escaped sqlCase s).length := by
  induction s with
  | nil => exact Nat.le_refl 0
  | cons c s ih =>
    rw [escaped_cons, List.length_append, List.length_cons, Nat.add_comm]
    apply Nat.add_le_add _ ih
    cases hc : sqlCase c with
    | some text =>
      rw [sqlCase_some hc]
      exact Nat.le_succ 1
    | none => exact Nat.le_refl 1

/-- A text without quotes and backslashes stays as it is. -/
theorem escaped_eq_self_iff (s : List UInt8) :
    escaped sqlCase s = s ↔ ∀ c ∈ s, sqlCase c = none := by
  induction s with
  | nil => exact iff_of_true rfl (List.forall_mem_nil _)
  | cons c s ih =>
    rw [escaped_cons, List.forall_mem_cons, ← ih]
    cases hc : sqlCase c with
    | some text =>
      apply iff_of_false
      · intro h
        have hlen := congrArg List.length h
        have hle := length_le_escaped s
        rw [sqlCase_some hc, Option.getD_some, List.length_append, List.length_cons,
          List.length_singleton, List.length_cons] at hlen
        omega
      · exact fun h => absurd h.1 (Option.some_ne_none text)
    | none =>
      rw [Option.getD_none, List.singleton_append, List.cons_inj_right]
      exact (and_iff_right rfl).symm

end Escape

section Double
variable {opt1 a b pre rest s out : List UInt8}

theorem charAt_behind (pre : List UInt8) (c : UInt8) (rest : List UInt8) :
    charAt (pre ++ c :: rest) pre.length = some c := by
  rw [charAt, if_pos, getD_behind]
  rw [List.length_append, List.length_cons]
  omega

theorem doubleRound_other (hsplit : opt1 = a ++ d :: b) (hopt1 : opt1.length < 4294967296)
    (hne : c ≠ d) : doubleRound opt1 (pre.length, some a.length, pre ++ c :: rest) =
      some (.next (pre.length, some (a ++ [d]).length, pre ++ c :: rest)) := by
  rw [hsplit] at hopt1 ⊢
  rw [List.length_append, List.length_cons] at hopt1
  rw [doubleRound, if_pos (by rw [List.length_append, List.length_cons]; omega), charAt_behind]
  simp only [Option.bind_eq_bind, Option.bind_some]
  rw [getD_behind, if_neg hne, unsigned_of_lt (by omega), List.length_append]
  rfl

theorem doubleRound_found (hsplit : opt1 = a ++ c :: b) (hopt1 : opt1.length < 4294967296)
    (hlen : pre.length + 1 < 4294967296) :
    doubleRound opt1 (pre.length, some a.length, pre ++ c :: rest) =
      some (.next ((pre ++ [c]).length, some (a ++ [c]).length, pre ++ [c] ++ c :: rest)) := by
  have hdrop : (pre ++ c :: rest).drop (pre.length + 1) = rest := by
    rw [List.drop_append, List.drop_of_length_le (by omega), Nat.add_sub_cancel_left]
    rfl
  rw [hsplit] at hopt1 ⊢
  rw [List.length_append, List.length_cons] at hopt1
  rw [doubleRound, if_pos (by rw [List.length_append, List.length_cons]; omega), charAt_behind]
  simp only [Option.bind_eq_bind, Option.bind_some]
  rw [getD_behind, if_pos rfl, unsigned_of_lt hlen, unsigned_of_lt (by omega),
    List.take_left' rfl, hdrop, List.length_append, List.length_append, List.append_assoc,
    List.append_assoc]
  rfl

theorem doubleRound_end (hlen : pre.length + 1 < 4294967296) :
    doubleRound opt1 (pre.length, some opt1.length, pre ++ c :: rest) =
      some (.next ((pre ++ [c]).length, none, pre ++ [c] ++ rest)) := by
  rw [doubleRound, if_neg (Nat.lt_irrefl _), unsigned_of_lt hlen, List.length_append,
    List.append_assoc]
  rfl

/-- A character that is none of the symbols that are left stays as it is. -/
theorem returns_absent (hsplit : opt1 = a ++ b) (hopt1 : opt1.length < 4294967296)
    (hlen : pre.length + 1 < 4294967296) (hc : c ∉ b) :
    Returns (doubleRound opt1) (pre.length, some a.length, pre ++ c :: rest) out ↔
      Returns (doubleRound opt1) ((pre ++ [c]).length, none, pre ++ [c] ++ rest) out := by
  induction b generalizing a with
  | nil =>
    rw [List.append_nil] at hsplit
    rw [← hsplit]
    exact returns_next (doubleRound_end hlen)
  | cons d b ih =>
    obtain ⟨hne, hc⟩ := not_or.1 (mt List.mem_cons.2 hc)
    have hsplit' : opt1 = a ++ [d] ++ b := by
      rw [hsplit, List.append_assoc]
      rfl
    exact (returns_next (doubleRound_other hsplit hopt1 hne)).trans (ih hsplit' hc)

/-- A character that is one of the symbols that are left is doubled once. -/
theorem returns_present (hsplit : opt1 = a ++ b) (hopt1 : opt1.length < 4294967296)
    (hlen : pre.length + 2 < 4294967296) (hnodup : b.Nodup) (hc : c ∈ b) :
    Returns (doubleRound opt1) (pre.length, some a.length, pre ++ c :: rest) out ↔
      Returns (doubleRound opt1) ((pre ++ [c, c]).length, none, pre ++ [c, c] ++ rest) out := by
  induction b generalizing a with
  | nil => cases hc
  | cons d b ih =>
    obtain ⟨hd, hb⟩ := List.nodup_cons.1 hnodup
    have hsplit' : opt1 = a ++ [d] ++ b := by
      rw [hsplit, List.append_assoc]
      rfl
    by_cases hne : c = d
    · subst hne
      refine (returns_next (doubleRound_found hsplit hopt1 (by omega))).trans ?_
      have hlen' : (pre ++ [c]).length + 1 < 4294967296 := by
        rw [List.length_append, List.length_singleton]
        omega
      have htwo : pre ++ [c, c] = pre ++ [c] ++ [c] := (List.append_assoc pre [c] [c]).symm
      rw [htwo]
      exact returns_absent hsplit' hopt1 hlen' hd
    · have hmem : c ∈ b := (List.mem_cons.1 hc).resolve_left hne
      exact (returns_next (doubleRound_other hsplit hopt1 hne)).trans (ih hsplit' hb hmem)

theorem doubled_cons (opt1 : List UInt8) (c : UInt8) (s : List UInt8) :
    doubled opt1 (c :: s) = (if c ∈ opt1 then [c, c] else [c]) ++ doubled opt1 s :=
  List.flatMap_cons

theorem doubled_nil (s : List UInt8) : doubled [] s = s := by
  induction s with
  | nil => rfl
  | cons c s ih =>
    rw [doubled_cons, if_neg List.not_mem_nil, ih]
    rfl

/-- The loop doubles the symbols of what is left of a text. -/
theorem returns_double (hnodup : opt1.Nodup) (hopt1 : opt1.length < 4294967296)
    (hlen : pre.length + 2 * rest.length < 4294967296) :
    Returns (doubleRound opt1) (pre.length, none, pre ++ rest) out ↔
      pre ++ doubled opt1 rest = out := by
  induction rest generalizing pre with
  | nil =>
    have hend : doubleRound opt1 (pre.length, none, pre ++ []) = some (.done (pre ++ [])) := by
      rw [List.append_nil, doubleRound, if_neg (Nat.lt_irrefl _)]
    rw [returns_done hend, doubled, List.flatMap_nil]
  | cons c rest ih =>
    rw [List.length_cons] at hlen
    have hstart : doubleRound opt1 (pre.length, none, pre ++ c :: rest) =
        some (.next (pre.length, some ([] : List UInt8).length, pre ++ c :: rest)) := by
      rw [doubleRound, if_pos]
      · rfl
      · rw [List.length_append, List.length_cons]
        omega
    rw [returns_next hstart, doubled_cons, ← List.append_assoc]
    split
    case isTrue hc =>
      have hnil := (List.nil_append opt1).symm
      refine (returns_present hnil hopt1 (by omega) hnodup hc).trans (ih ?_)
      rw [List.length_append, List.length_cons, List.length_singleton]
      omega
    case isFalse hc =>
      have hnil := (List.nil_append opt1).symm
      refine (returns_absent hnil hopt1 (by omega) hc).trans (ih ?_)
      rw [List.length_append, List.length_singleton]
      omega

/-- Distinct bytes are at most 256. -/
theorem length_le_of_nodup (h : opt1.Nodup) : opt1.length ≤ 256 := by
  have hnodup : (opt1.map UInt8.toNat).Nodup := List.Nodup.map (fun _ _ => UInt8.toNat.inj) h
  have hsub : opt1.map UInt8.toNat ⊆ List.range 256 := by
    intro n hn
    obtain ⟨c, _, rfl⟩ := List.mem_map.1 hn
    exact List.mem_range.2 c.toNat_lt
  have hle := (hnodup.subperm hsub).length_le
  rw [List.length_map, List.length_range] at hle
  exact hle

theorem doubles (hnodup : opt1.Nodup) (hne : opt1 ≠ []) (hlen : s.length < 2147483648) :
    ∃ fuel, strEncodeSQL fuel s opt1 = some (doubled opt1 s) := by
  have hle := length_le_of_nodup hnodup
  have hroom : ([] : List UInt8).length + 2 * s.length < 4294967296 := by
    rw [List.length_nil]
    omega
  obtain ⟨fuel, hrun⟩ := (returns_double hnodup (by omega) hroom).2 rfl
  refine ⟨fuel, ?_⟩
  rw [strEncodeSQL, if_neg (mt List.length_eq_zero_iff.1 hne)]
  exact hrun

end Double

/-- The escapes and the doubling are right for texts that an `int` can index; without symbols to
double the text is escaped. -/
theorem sqlEncodes_iff (opt1 s : List UInt8) (hnodup : opt1.Nodup) :
    SqlEncodes opt1 s ↔
      s.length < 2147483648 ∧ (opt1 = [] → ∀ c ∈ s, sqlCase c = none) := by
  rw [SqlEncodes, sqlEscapes_iff]
  apply and_congr_right
  intro hlen
  constructor
  · rintro hdouble rfl
    have hescaped := (encodes_sql s).1 hdouble
    rw [reached_eq_self_iff.2 hlen, doubled_nil] at hescaped
    exact (escaped_eq_self_iff s).1 hescaped
  · intro hnone
    by_cases hopt1 : opt1 = []
    · subst hopt1
      apply (encodes_sql s).2
      rw [reached_eq_self_iff.2 hlen, doubled_nil]
      exact (escaped_eq_self_iff s).2 (hnone rfl)
    · exact doubles hnodup hopt1 hlen

theorem sqlEncodes_iff_injection :
    SqlEncodes [39, 34] [39, 59, 45, 45, 92] ↔ [39, 59, 45, 45, 92].length < 2147483648 ∧
      (([39, 34] : List UInt8) = [] →
        ∀ c ∈ ([39, 59, 45, 45, 92] : List UInt8), sqlCase c = none) :=
  sqlEncodes_iff [39, 34] [39, 59, 45, 45, 92] (by decide)

/-- Of a text of 2 ^ 31 characters nothing is encoded. -/
theorem not_sqlEncodes : ¬SqlEncodes [39] (List.replicate 2147483648 39) := by
  rintro ⟨hescape, _⟩
  have hlen := (sqlEscapes_iff _).1 hescape
  rw [List.length_replicate] at hlen
  exact absurd hlen (Nat.lt_irrefl _)

end BigBox.StrOpt
