import BigBox.Ini.IniConfig1

namespace BigBox.IniConfig1
open StringDic
set_option autoImplicit true

def quotedText (quote : UInt8) (rest : Str) : Option Str :=
  (scanChar quote rest).bind fun rest => (scanSet (· ≠ quote) rest).map Prod.fst

def plainText (rest : Str) : Option Str := (scanSet (fun c => !isComment c) rest).map Prod.fst

def rawValue (rest : Str) : Option Str :=
  (quotedText QUOTE2 rest).or ((quotedText QUOTE1 rest).or (plainText rest))

/-- What is read as the value from the text behind the equals sign. -/
def readValue (rest : Str) : Str :=
  match rawValue rest with
  | some value =>
    let value := trim value
    if value = [QUOTE2, QUOTE2] ∨ value = [QUOTE1, QUOTE1] then [] else value
  | none => []

/-- A line that is neither empty nor a comment nor a section. -/
def readAssignment (line : Str) : LineStatus :=
  match scanKey line with
  | some (key, rest) => .value (trim key) (readValue rest)
  | none => .error

theorem scanSet_some (h : scanSet p s = some (a, b)) :
    a = s.takeWhile p ∧ b = s.dropWhile p ∧ a ≠ [] := by
  unfold scanSet at h
  split at h
  case isTrue => cases h
  case isFalse hne =>
    cases h
    exact ⟨rfl, rfl, hne⟩

theorem scanSet_cons (h : p c = true) :
    scanSet p (c :: s) = some (c :: s.takeWhile p, s.dropWhile p) := by
  rw [scanSet, List.takeWhile_cons_of_pos h, List.dropWhile_cons_of_pos h,
    if_neg (List.cons_ne_nil _ _)]

theorem scanSet_cons_none (h : p c = false) : scanSet p (c :: s) = none := by
  rw [scanSet, List.takeWhile_cons_of_neg (Bool.not_eq_true _ ▸ h), if_pos rfl]

theorem scanQuoted_eq (quote : UInt8) (h : scanKey line = some (key, rest)) :
    scanQuoted quote line = (quotedText quote rest).map fun value => (key, value) := by
  rw [scanQuoted, quotedText, h, Option.bind_some, Option.map_bind]
  dsimp only
  congr 1
  funext rest
  rw [Function.comp, Option.map_map]
  rfl

theorem scanPlain_eq (p : UInt8 → Bool) (h : scanKey line = some (key, rest)) :
    scanPlain p line = ((scanSet p rest).map Prod.fst).map fun value => (key, value) := by
  rw [scanPlain, h, Option.bind_some, Option.map_map]
  rfl

/-- The special formats read what the usual ones do not. -/
theorem scan_special (h : scanKey line = some (key, rest)) (hplain : plainText rest = none) :
    ((scanPlain isComment line).map Prod.fst).or (scanNoValue line) = some key := by
  cases rest with
  | cons c rest =>
    have hc : isComment c = true := by
      by_contra hc
      rw [Bool.not_eq_true] at hc
      rw [plainText, scanSet_cons (by rw [hc]; rfl)] at hplain
      cases hplain
    rw [scanPlain_eq _ h, scanSet_cons hc]
    rfl
  | nil =>
    rw [scanPlain_eq _ h]
    obtain ⟨⟨k, r⟩, hset, hmap⟩ := Option.bind_eq_some_iff.1 h
    obtain ⟨r', hchar, heq⟩ := Option.map_eq_some_iff.1 hmap
    rw [Prod.mk.injEq] at heq
    rw [scanNoValue, hset, ← heq.1]
    unfold scanChar at hchar
    split at hchar
    case h_1 => cases hchar
    case h_2 d s hd =>
      split at hchar
      case isFalse => cases hchar
      case isTrue hd' =>
        subst hd'
        rw [Option.bind_some]
        dsimp only
        rw [hd, scanSet_cons (decide_eq_true rfl)]
        rfl

theorem scanNoValue_none (h : scanKey line = none) : scanNoValue line = none := by
  rw [scanNoValue]
  rw [scanKey] at h
  cases hset : scanSet (· ≠ EQUALS) line with
  | none => rfl
  | some kr =>
    obtain ⟨k, r⟩ := kr
    rw [hset, Option.bind_some, Option.map_eq_none_iff, scanChar] at h
    rw [Option.bind_some, Option.map_eq_none_iff]
    cases hr : r.dropWhile isspace with
    | nil => rfl
    | cons d s =>
      rw [hr] at h
      dsimp only at h
      split at h
      case isTrue => cases h
      case isFalse hd => exact scanSet_cons_none (decide_eq_false hd)

/-- `iniparser_line` with one case for all formats. -/
theorem iniparserLine_eq (inputLine : Str) : iniparserLine inputLine =
    if trim inputLine = [] then some .empty
    else if (trim inputLine).head? = some HASH ∨ (trim inputLine).head? = some SEMICOLON then
      some .comment
    else if (trim inputLine).head? = some OPEN ∧ (trim inputLine).getLast? = some CLOSE then
      if (((trim inputLine).drop 1).takeWhile (· ≠ CLOSE)).length ≤ (trim inputLine).idxOf EQUALS
      then some (.section (trim (((trim inputLine).drop 1).takeWhile (· ≠ CLOSE)))) else none
    else some (readAssignment (trim inputLine)) := by
  rw [iniparserLine]
  dsimp only
  refine if_congr Iff.rfl rfl (if_congr Iff.rfl rfl (if_congr Iff.rfl rfl ?_))
  rw [readAssignment]
  cases h : scanKey (trim inputLine) with
  | none =>
    rw [scanNoValue_none h]
    simp only [scanQuoted, scanPlain, h, Option.bind_none, Option.or_none, Option.map_none]
  | some kr =>
    obtain ⟨key, rest⟩ := kr
    rw [scanQuoted_eq _ h, scanQuoted_eq _ h, scanPlain_eq _ h, ← plainText, ← Option.map_or,
      ← Option.map_or, ← rawValue]
    dsimp only
    cases hv : rawValue rest with
    | some value =>
      rw [readValue, hv]
      rfl
    | none =>
      have hplain : plainText rest = none := by
        rw [rawValue, Option.or_eq_none_iff, Option.or_eq_none_iff] at hv
        exact hv.2.2
      rw [scan_special h hplain, readValue, hv]
      rfl

section readValue

theorem trim_readValue (rest : Str) : trim (readValue rest) = readValue rest := by
  unfold readValue
  split
  · dsimp only
    split
    · rfl
    · exact trim_trim _
  · rfl

theorem readValue_ne (rest : Str) :
    readValue rest ≠ [QUOTE2, QUOTE2] ∧ readValue rest ≠ [QUOTE1, QUOTE1] := by
  unfold readValue
  split
  · dsimp only
    split
    case isTrue => exact ⟨nofun, nofun⟩
    case isFalse hne => exact not_or.1 hne
  · exact ⟨nofun, nofun⟩

theorem scanChar_suffix (h : scanChar c s = some r) : ∃ a, s = a ++ c :: r := by
  unfold scanChar at h
  split at h
  case h_1 => cases h
  case h_2 d t hd =>
    split at h
    case isFalse => cases h
    case isTrue hdc =>
      cases h
      subst hdc
      refine ⟨s.takeWhile isspace, ?_⟩
      rw [← hd, List.takeWhile_append_dropWhile]

theorem quotedText_split (h : quotedText quote rest = some v) :
    ∃ a b, rest = a ++ quote :: (v ++ b) := by
  obtain ⟨r, hchar, hmap⟩ := Option.bind_eq_some_iff.1 h
  obtain ⟨⟨v', b⟩, hset, heq⟩ := Option.map_eq_some_iff.1 hmap
  obtain ⟨a, rfl⟩ := scanChar_suffix hchar
  obtain ⟨rfl, rfl, -⟩ := scanSet_some hset
  refine ⟨a, r.dropWhile (· ≠ quote), ?_⟩
  rw [← heq]
  exact congrArg _ (congrArg _ List.takeWhile_append_dropWhile.symm)

theorem plainText_takeWhile (h : plainText rest = some v) :
    v = rest.takeWhile fun c => !isComment c := by
  obtain ⟨⟨v', b⟩, hset, rfl⟩ := Option.map_eq_some_iff.1 h
  exact (scanSet_some hset).1

theorem mem_readValue (h : c ∈ readValue rest) : c ∈ rest := by
  unfold readValue at h
  split at h
  case h_2 => cases h
  case h_1 v hv =>
    dsimp only at h
    split at h
    case isTrue => cases h
    case isFalse =>
      have hc := mem_of_mem_trim h
      rcases Option.or_eq_some_iff.1 hv with hv | ⟨-, hv⟩
      · obtain ⟨a, b, rfl⟩ := quotedText_split hv
        simp [hc]
      · rcases Option.or_eq_some_iff.1 hv with hv | ⟨-, hv⟩
        · obtain ⟨a, b, rfl⟩ := quotedText_split hv
          simp [hc]
        · rw [plainText_takeWhile hv] at hc
          exact (List.takeWhile_prefix _).subset hc

/-- A value that is not taken for a quoted text and has no comment behind it. -/
def Verbatim (v : Str) : Prop :=
  (∀ c ∈ v, isComment c = false) ∧
    ∀ quote ∈ [QUOTE2, QUOTE1], v.head? = some quote → (v.drop 1).head?.all (· = quote) = true

instance (v : Str) : Decidable (Verbatim v) := inferInstanceAs (Decidable (_ ∧ _))

theorem scanChar_trimmed (h : trim (c :: s) = c :: s) :
    scanChar q (c :: s) = if c = q then some s else none := by
  have hc : isspace c = false := head_trim h
  rw [scanChar, List.dropWhile_cons_of_neg (Bool.not_eq_true _ ▸ hc)]

theorem quotedText_trimmed (h : trim (c :: s) = c :: s) (quote : UInt8) :
    quotedText quote (c :: s) =
      if c = quote ∧ s.head?.all (· = quote) = false then some (s.takeWhile (· ≠ quote))
      else none := by
  rw [quotedText, scanChar_trimmed h]
  by_cases hc : c = quote
  · rw [if_pos hc, Option.bind_some]
    cases s with
    | nil =>
      rw [if_neg (by rintro ⟨-, hn⟩; cases hn)]
      rfl
    | cons d s =>
      by_cases hd : d = quote
      · rw [scanSet_cons_none (decide_eq_false (not_not.2 hd)), if_neg]
        · rfl
        · rintro ⟨-, hn⟩
          exact of_decide_eq_false hn hd
      · rw [scanSet_cons (decide_eq_true hd), if_pos ⟨hc, decide_eq_false hd⟩,
          List.takeWhile_cons_of_pos (by exact decide_eq_true hd)]
        rfl
  · rw [if_neg hc, if_neg (fun h => hc h.1)]
    rfl

theorem plainText_cons (c : UInt8) (s : Str) : plainText (c :: s) =
    if isComment c = true then none else some ((c :: s).takeWhile fun c => !isComment c) := by
  rw [plainText]
  by_cases hc : isComment c = true
  · rw [scanSet_cons_none (by rw [hc]; rfl), if_pos hc]
    rfl
  · rw [Bool.not_eq_true] at hc
    rw [scanSet_cons (by rw [hc]; rfl), List.takeWhile_cons_of_pos (by rw [hc]; rfl),
      if_neg (by rw [hc]; exact Bool.false_ne_true)]
    rfl

theorem verbatim_cons : Verbatim (c :: s) ↔ (∀ d ∈ c :: s, isComment d = false) ∧
    ¬(c = QUOTE2 ∧ s.head?.all (· = QUOTE2) = false) ∧
    ¬(c = QUOTE1 ∧ s.head?.all (· = QUOTE1) = false) := by
  simp only [Verbatim, List.forall_mem_cons, List.head?_cons, Option.some.injEq,
    List.drop_succ_cons,
    List.drop_zero, List.not_mem_nil, false_imp_iff, implies_true, and_true, not_and,
    Bool.not_eq_false]

theorem rawValue_verbatim (hv : Verbatim (c :: s)) (ht : trim (c :: s) = c :: s) :
    rawValue (c :: s) = some (c :: s) := by
  obtain ⟨hcomment, hquote2, hquote1⟩ := verbatim_cons.1 hv
  have htake : (c :: s).takeWhile (fun c => !isComment c) = c :: s := by
    apply List.takeWhile_eq_self_iff.2
    intro d hd
    rw [hcomment d hd]
    rfl
  rw [rawValue, quotedText_trimmed ht, quotedText_trimmed ht, if_neg hquote2, if_neg hquote1,
    plainText_cons, if_neg (by rw [hcomment c List.mem_cons_self]; exact Bool.false_ne_true), htake]
  rfl

theorem length_plainText_lt (h : plainText (c :: s) = some v)
    (hcomment : ¬∀ d ∈ c :: s, isComment d = false) : v.length < (c :: s).length := by
  have hpre := List.takeWhile_prefix (l := c :: s) fun c => !isComment c
  rw [plainText_takeWhile h]
  apply Nat.lt_of_le_of_ne hpre.length_le
  intro hlen
  apply hcomment
  intro d hd
  have hself := List.takeWhile_eq_self_iff.1 (hpre.eq_of_length hlen) d hd
  exact Bool.not_eq_true' _ ▸ hself

theorem length_rawValue_lt (hv : ¬Verbatim (c :: s)) (ht : trim (c :: s) = c :: s)
    (h : rawValue (c :: s) = some v) : v.length < (c :: s).length := by
  have htake : ∀ p : UInt8 → Bool, (s.takeWhile p).length < (c :: s).length := fun p =>
    Nat.lt_succ_of_le (List.takeWhile_prefix _).length_le
  rw [rawValue, quotedText_trimmed ht, quotedText_trimmed ht] at h
  rw [verbatim_cons] at hv
  by_cases hquote2 : c = QUOTE2 ∧ s.head?.all (· = QUOTE2) = false
  · rw [if_pos hquote2] at h
    cases h
    exact htake _
  · by_cases hquote1 : c = QUOTE1 ∧ s.head?.all (· = QUOTE1) = false
    · rw [if_neg hquote2, if_pos hquote1] at h
      cases h
      exact htake _
    · rw [if_neg hquote2, if_neg hquote1] at h
      exact length_plainText_lt h fun hcomment => hv ⟨hcomment, hquote2, hquote1⟩

/-- A value is read as it is written just when it is verbatim. -/
theorem readValue_eq_self_iff (ht : trim v = v)
    (hne : v ≠ [QUOTE2, QUOTE2] ∧ v ≠ [QUOTE1, QUOTE1]) : readValue v = v ↔ Verbatim v := by
  cases v with
  | nil => exact iff_of_true rfl ⟨nofun, nofun⟩
  | cons c s =>
    rw [readValue]
    constructor
    · intro heq
      by_contra hv
      split at heq
      case h_2 => cases heq
      case h_1 v h =>
        have hlt := length_rawValue_lt hv ht h
        dsimp only at heq
        split at heq
        case isTrue => cases heq
        case isFalse =>
          have hle := length_trim_le v
          rw [heq] at hle
          exact Nat.not_lt_of_le hle hlt
    · intro hv
      rw [rawValue_verbatim hv ht]
      dsimp only
      rw [ht, if_neg (not_or.2 hne)]

end readValue

end BigBox.IniConfig1
