import BigBox.Ini.IniConfig1Line
import Mathlib.Data.List.Infix

namespace BigBox.IniConfig1
open StringDic
set_option autoImplicit true

/-- The line that is written for a key, with blanks behind the key. -/
def entryLine (key : Str) (pad : Nat) (value : Str) : Str :=
  key ++ List.replicate pad BLANK ++ BLANK :: EQUALS :: BLANK :: value

def headerLine (name : Str) : Str := OPEN :: (name ++ [CLOSE])

/-- The names that sections are read with: an equals sign ends the room for a name. -/
structure SectionName (name : Str) : Prop where
  trimmed : trim name = name
  no_close : CLOSE ∉ name
  equals : EQUALS ∉ name.dropLast

structure KeyName (key : Str) : Prop where
  trimmed : trim key = key
  ne_nil : key ≠ []
  no_equals : EQUALS ∉ key
  no_comment : key.head? ≠ some HASH ∧ key.head? ≠ some SEMICOLON

structure ValueText (value : Str) : Prop where
  trimmed : trim value = value
  no_quotes : value ≠ [QUOTE2, QUOTE2] ∧ value ≠ [QUOTE1, QUOTE1]

theorem not_mem_dropLast_of_idxOf {a : UInt8} (h : s.length ≤ ((c :: (s ++ r)).idxOf a))
    (hc : c ≠ a) :
    a ∉ s.dropLast := by
  intro ha
  rw [List.idxOf_cons_ne _ hc] at h
  rw [List.dropLast_eq_take] at ha
  have hmem : a ∈ s := List.mem_of_mem_take ha
  rw [List.mem_take_iff_idxOf_lt hmem] at ha
  rw [List.idxOf_append_of_mem hmem] at h
  omega

theorem not_mem_dropLast_trim (h : c ∉ s.dropLast) : c ∉ (trim s).dropLast := by
  obtain ⟨a, b, hab⟩ := trim_isInfix s
  rcases List.eq_nil_or_concat (trim s) with hnil | ⟨t, d, ht⟩
  · rw [hnil]
    exact List.not_mem_nil
  · rw [ht, List.concat_eq_append, List.dropLast_concat]
    intro hc
    apply h
    rw [← hab, ht, List.concat_eq_append, List.append_assoc, List.append_assoc,
      List.dropLast_append_of_ne_nil (by simp), List.dropLast_append_of_ne_nil (by simp)]
    exact List.mem_append_right _ (List.mem_append_left _ hc)

theorem section_ends (h : iniparserLine line = some (.section name)) :
    (trim line).head? = some OPEN ∧ (trim line).getLast? = some CLOSE ∧
      (((trim line).drop 1).takeWhile (· ≠ CLOSE)).length ≤ (trim line).idxOf EQUALS ∧
      name = trim (((trim line).drop 1).takeWhile (· ≠ CLOSE)) := by
  rw [iniparserLine_eq] at h
  split at h
  case isTrue => cases h
  case isFalse =>
    split at h
    case isTrue => cases h
    case isFalse =>
      split at h
      case isFalse =>
        rw [readAssignment] at h
        split at h <;> cases h
      case isTrue hends =>
        split at h
        case isFalse => cases h
        case isTrue hroom =>
          cases h
          exact ⟨hends.1, hends.2, hroom, rfl⟩

theorem takeWhile_close (h : CLOSE ∉ raw) :
    (raw ++ CLOSE :: more).takeWhile (· ≠ CLOSE) = raw := by
  rw [List.takeWhile_append_of_pos (decide_ne_of_not_mem h), List.takeWhile_cons_of_neg (by decide),
    List.append_nil]

/-- A line that is read as a section. -/
theorem section_shape (h : iniparserLine line = some (.section name)) :
    ∃ raw more, trim line = OPEN :: (raw ++ CLOSE :: more) ∧ CLOSE ∉ raw ∧
      EQUALS ∉ raw.dropLast ∧ name = trim raw := by
  obtain ⟨hhead, hlast, hroom, rfl⟩ := section_ends h
  obtain ⟨rest, hrest⟩ := List.head?_eq_some_iff.1 hhead
  rw [hrest, List.drop_succ_cons, List.drop_zero] at hroom ⊢
  have hclose : CLOSE ∈ rest := by
    have hmem := List.mem_of_getLast? hlast
    rw [hrest] at hmem
    exact (List.mem_cons.1 hmem).resolve_left (by decide)
  obtain ⟨raw, more, rfl, hraw⟩ := List.eq_append_cons_of_mem hclose
  rw [takeWhile_close hraw] at hroom ⊢
  exact ⟨raw, more, rfl, hraw, not_mem_dropLast_of_idxOf hroom (by decide), rfl⟩

theorem iniparserLine_section (h : iniparserLine line = some (.section name)) :
    SectionName name ∧ ∀ c ∈ name, c ∈ line := by
  obtain ⟨raw, more, hline, hclose, hequals, rfl⟩ := section_shape h
  refine ⟨⟨trim_trim _, fun hc => hclose (mem_of_mem_trim hc), not_mem_dropLast_trim hequals⟩, ?_⟩
  intro c hc
  apply mem_of_mem_trim
  rw [hline]
  exact List.mem_cons_of_mem _ (List.mem_append_left _ (mem_of_mem_trim hc))

theorem scanKey_some (h : scanKey line = some (key, rest)) :
    key ≠ [] ∧ EQUALS ∉ key ∧ key <+: line ∧ ∀ c ∈ rest, c ∈ line := by
  obtain ⟨⟨k, r⟩, hset, hmap⟩ := Option.bind_eq_some_iff.1 h
  obtain ⟨r', hchar, heq⟩ := Option.map_eq_some_iff.1 hmap
  obtain ⟨rfl, rfl, hne⟩ := scanSet_some hset
  rw [Prod.mk.injEq] at heq
  obtain ⟨rfl, rfl⟩ := heq
  refine ⟨hne, ?_, List.takeWhile_prefix _, ?_⟩
  · intro hmem
    have hne := List.mem_takeWhile_imp hmem
    rw [decide_eq_true_eq] at hne
    exact hne rfl
  · intro c hc
    obtain ⟨a, ha⟩ := scanChar_suffix hchar
    apply (List.dropWhile_sublist _).subset
    rw [ha]
    exact List.mem_append_right _ (List.mem_cons_of_mem _ ((List.dropWhile_sublist _).subset hc))

theorem iniparserLine_value (h : iniparserLine line = some (.value key value)) :
    KeyName key ∧ ValueText value ∧ ∀ c ∈ key ++ value, c ∈ line := by
  rw [iniparserLine_eq] at h
  split at h
  case isTrue => cases h
  case isFalse hempty =>
    split at h
    case isTrue => cases h
    case isFalse hcomment =>
      split at h
      case isTrue =>
        split at h <;> cases h
      case isFalse =>
        rw [readAssignment] at h
        split at h
        case h_2 => cases h
        case h_1 k rest hscan =>
          cases h
          obtain ⟨hne, hequals, hpre, hrest⟩ := scanKey_some hscan
          obtain ⟨c, k, rfl⟩ := List.exists_cons_of_ne_nil hne
          obtain ⟨more, hline⟩ := hpre
          have hc : isspace c = false := head_trim hline.symm
          rw [← hline] at hcomment
          rw [trim_cons hc]
          refine ⟨⟨?_, List.cons_ne_nil _ _, ?_, not_or.1 hcomment⟩,
            ⟨trim_readValue _, readValue_ne _⟩, ?_⟩
          · rw [trim_cons hc, List.rdropWhile_idempotent]
          · intro hmem
            rw [← trim_cons hc] at hmem
            exact hequals (mem_of_mem_trim hmem)
          · intro d hd
            apply mem_of_mem_trim
            rcases List.mem_append.1 hd with hd | hd
            · rw [← trim_cons hc] at hd
              rw [← hline]
              exact List.mem_append_left _ (mem_of_mem_trim hd)
            · exact hrest d (mem_readValue hd)

theorem iniparserLine_headerLine (h : SectionName name) :
    iniparserLine (headerLine name) = some (.section name) := by
  have htrim : trim (headerLine name) = headerLine name := by
    rw [headerLine, trim_cons (by decide), List.rdropWhile_concat_neg _ _ _ (by decide)]
  have hlast : (headerLine name).getLast? = some CLOSE := by
    rw [headerLine, ← List.cons_append, List.getLast?_concat]
  have hroom : name.length ≤ (headerLine name).idxOf EQUALS := by
    rw [headerLine, List.idxOf_cons_ne _ (by decide)]
    rcases List.eq_nil_or_concat name with rfl | ⟨front, c, rfl⟩
    · exact Nat.zero_le _
    · have hfront := h.equals
      rw [List.concat_eq_append, List.dropLast_concat] at hfront
      rw [List.concat_eq_append, List.append_assoc, List.idxOf_append_of_notMem hfront]
      simp only [List.length_append, List.length_singleton]
      omega
  rw [iniparserLine_eq, htrim, if_neg (by exact List.cons_ne_nil _ _), if_neg, if_pos ⟨rfl, hlast⟩]
  · rw [headerLine, List.drop_succ_cons, List.drop_zero, takeWhile_close h.no_close, ← headerLine,
      if_pos hroom,
      h.trimmed]
  · rw [headerLine]
    rintro (hh | hh) <;> cases hh

/-- The key in front of the equals sign, without the blanks at the start of the line. -/
theorem front_entryLine (key : Str) (n : Nat) : ∃ front,
    (key ++ List.replicate n BLANK).dropWhile isspace = front ∧ trim front = trim key ∧
      front.head? = (trim key).head? ∧ ∀ c ∈ front, c ∈ key ∨ c = BLANK := by
  have hblank : ∀ c ∈ List.replicate n BLANK, isspace c = true := by
    intro c hc
    rw [List.eq_of_mem_replicate hc]
    rfl
  refine ⟨_, rfl, ?_, ?_, ?_⟩
  · rcases blank_or_middle key with h | ⟨a, c, b, hc, rfl⟩
    · rw [trim_eq_nil_iff.2 h, List.dropWhile_eq_nil_iff.2 (List.forall_mem_append.2 ⟨h, hblank⟩)]
      rfl
    · rw [List.append_assoc, List.cons_append, dropWhile_middle hc, trim_middle hc,
        List.dropWhile_idempotent, ← trim_append_blank hblank, List.append_assoc, List.cons_append,
        trim_middle hc]
  · rcases blank_or_middle key with h | ⟨a, c, b, hc, rfl⟩
    · rw [trim_eq_nil_iff.2 h, List.dropWhile_eq_nil_iff.2 (List.forall_mem_append.2 ⟨h, hblank⟩)]
    · rw [List.append_assoc, List.cons_append, dropWhile_middle hc, trim_middle hc,
        List.head?_append, List.head?_append]
      rfl
  · intro c hc
    rcases List.mem_append.1 ((List.dropWhile_sublist _).subset hc) with hc | hc
    · exact .inl hc
    · exact .inr (List.eq_of_mem_replicate hc)

theorem rdropWhile_blank (ht : trim value = value) :
    (BLANK :: value).rdropWhile isspace = if value = [] then [] else BLANK :: value := by
  split
  case isTrue h => rw [h]; rfl
  case isFalse h =>
    apply List.rdropWhile_eq_self_iff.2
    intro hne
    rw [List.getLast_cons h, getLast_trim (by rw [ht, List.getLast?_eq_some_getLast h])]
    exact Bool.false_ne_true

theorem trim_entryLine (key : Str) (pad : Nat) (ht : trim value = value) : ∃ front,
    trim (entryLine key pad value) =
        front ++ EQUALS :: (if value = [] then [] else BLANK :: value) ∧
      trim front = trim key ∧ front.head? = (trim key).head? ∧
        ∀ c ∈ front, c ∈ key ∨ c = BLANK := by
  obtain ⟨front, hfront, hrest⟩ := front_entryLine key (pad + 1)
  refine ⟨front, ?_, hrest⟩
  have hline : entryLine key pad value =
      (key ++ List.replicate (pad + 1) BLANK) ++ EQUALS :: (BLANK :: value) := by
    rw [entryLine, List.replicate_succ']
    simp only [List.append_assoc, List.cons_append, List.nil_append]
  rw [hline, trim_middle (by decide), hfront, rdropWhile_blank ht]

theorem getLast?_trim_entryLine (key : Str) (pad : Nat) (ht : trim value = value) :
    (trim (entryLine key pad value)).getLast? = some (value.getLast?.getD EQUALS) := by
  obtain ⟨front, hline, -, -, -⟩ := trim_entryLine key pad ht
  rw [hline, List.getLast?_append, List.getLast?_cons]
  cases value with
  | nil => rfl
  | cons c value => rw [if_neg (List.cons_ne_nil _ _), List.getLast?_cons_cons]; rfl

theorem scanKey_append (h : EQUALS ∉ front) : scanKey (front ++ EQUALS :: rest) =
    if front = [] then none else some (front, rest.dropWhile isspace) := by
  have hall := decide_ne_of_not_mem h
  rw [scanKey, scanSet, List.takeWhile_append_of_pos hall, List.dropWhile_append_of_pos hall,
    List.takeWhile_cons_of_neg (by decide), List.dropWhile_cons_of_neg (by decide), List.append_nil]
  split
  · rfl
  · rfl

theorem readAssignment_entryLine (h : EQUALS ∉ key) (ht : trim value = value) :
    readAssignment (trim (entryLine key pad value)) =
      if trim key = [] then .error else .value (trim key) (readValue value) := by
  obtain ⟨front, hline, htrim, hhead, hmem⟩ := trim_entryLine key pad ht
  have hequals : EQUALS ∉ front := by
    intro hc
    rcases hmem _ hc with hc | hc
    · exact h hc
    · cases hc
  have hrest : (if value = [] then [] else BLANK :: value).dropWhile isspace = value := by
    split
    case isTrue hv => rw [hv]; rfl
    case isFalse hv =>
      rw [List.dropWhile_cons_of_pos (by rfl)]
      cases value with
      | nil => rfl
      | cons c value =>
        exact List.dropWhile_cons_of_neg (by rw [head_trim ht]; exact Bool.false_ne_true)
  rw [readAssignment, hline, scanKey_append hequals, hrest, ← htrim]
  cases front with
  | nil => rfl
  | cons c front =>
    rw [if_neg (List.cons_ne_nil _ _), if_neg]
    intro hnil
    rw [← htrim, hnil] at hhead
    cases hhead

theorem entryLine_value (h : EQUALS ∉ key) (ht : trim value = value)
    (hread : iniparserLine (entryLine key pad value) = some (.value k v)) :
    k = trim key ∧ v = readValue value := by
  rw [iniparserLine_eq, readAssignment_entryLine h ht] at hread
  split at hread
  case isTrue => cases hread
  case isFalse =>
    split at hread
    case isTrue => cases hread
    case isFalse =>
      split at hread
      case isTrue => split at hread <;> cases hread
      case isFalse =>
        split at hread
        case isTrue => cases hread
        case isFalse =>
          cases hread
          exact ⟨rfl, rfl⟩

theorem entryLine_section (ht : trim value = value)
    (hread : iniparserLine (entryLine key pad value) = some (.section name)) :
    (trim key).head? = some OPEN ∧ value.getLast? = some CLOSE := by
  obtain ⟨hopen, hclose, -, -⟩ := section_ends hread
  obtain ⟨front, hfront, -, hhead, -⟩ := trim_entryLine key pad ht
  constructor
  · rw [hfront] at hopen
    rw [← hhead]
    cases front with
    | nil => cases hopen
    | cons c front => exact hopen
  · rw [getLast?_trim_entryLine key pad ht] at hclose
    cases hv : value.getLast? with
    | none => rw [hv] at hclose; cases hclose
    | some d => rw [hv] at hclose; exact hclose

theorem head?_trim_entryLine (ht : trim value = value) (h : (trim key).head? = some c) :
    (trim (entryLine key pad value)).head? = some c := by
  obtain ⟨front, hfront, -, hhead, -⟩ := trim_entryLine key pad ht
  rw [hfront, List.head?_append, hhead, h]
  rfl

theorem entryLine_value_ends (ht : trim value = value)
    (hread : iniparserLine (entryLine key pad value) = some (.value k v)) :
    ¬((trim key).head? = some OPEN ∧ value.getLast? = some CLOSE) := by
  rintro ⟨hopen, hclose⟩
  have hlast := getLast?_trim_entryLine key pad ht
  rw [hclose] at hlast
  rw [iniparserLine_eq] at hread
  split at hread
  case isTrue => cases hread
  case isFalse =>
    split at hread
    case isTrue => cases hread
    case isFalse =>
      rw [if_pos ⟨head?_trim_entryLine ht hopen, hlast⟩] at hread
      split at hread <;> cases hread

/-- A line with a proper key is read as this key, unless it looks like a section. -/
theorem entryLine_reads (pad : Nat) (h : KeyName key) (ht : trim value = value)
    (hsection : ¬(key.head? = some OPEN ∧ value.getLast? = some CLOSE)) :
    iniparserLine (entryLine key pad value) = some (.value key (readValue value)) := by
  have hlast := getLast?_trim_entryLine key pad ht
  obtain ⟨c, k, rfl⟩ := List.exists_cons_of_ne_nil h.ne_nil
  have hhead' : (trim (entryLine (c :: k) pad value)).head? = some c := by
    apply head?_trim_entryLine ht
    rw [h.trimmed]
    rfl
  rw [iniparserLine_eq, if_neg, if_neg, if_neg, readAssignment_entryLine h.no_equals ht, h.trimmed,
    if_neg h.ne_nil]
  · rw [hhead', hlast]
    rintro ⟨hopen, hclose⟩
    refine hsection ⟨hopen, ?_⟩
    cases hv : value.getLast? with
    | none => rw [hv] at hclose; cases hclose
    | some d => rw [hv] at hclose; exact hclose
  · rw [hhead']
    exact not_or.2 h.no_comment
  · intro hnil
    rw [hnil] at hhead'
    cases hhead'

def behindEquals (s : Str) : Str := (s.dropWhile (· ≠ EQUALS)).drop 1

theorem behindEquals_append (h : EQUALS ∉ a) : behindEquals (a ++ EQUALS :: b) = b := by
  rw [behindEquals, List.dropWhile_append_of_pos (decide_ne_of_not_mem h),
    List.dropWhile_cons_of_neg (by decide)]
  rfl

theorem behindEquals_entryLine (h : (behindEquals key).head? ≠ some CLOSE) (pad : Nat)
    (value : Str) :
    (behindEquals (entryLine key pad value)).head? ≠ some CLOSE := by
  by_cases hmem : EQUALS ∈ key
  · obtain ⟨a, r, rfl, ha⟩ := List.eq_append_cons_of_mem hmem
    rw [behindEquals_append ha] at h
    rw [entryLine, List.append_assoc, List.append_assoc, List.cons_append, behindEquals_append ha]
    cases r with
    | cons c r => exact h
    | nil => cases pad with
      | zero => exact fun hc => by cases hc
      | succ pad => exact fun hc => by cases hc
  · have hline : entryLine key pad value =
        (key ++ List.replicate pad BLANK ++ [BLANK]) ++ EQUALS :: BLANK :: value := by
      rw [entryLine, List.append_assoc _ [BLANK]]
      rfl
    rw [hline, behindEquals_append]
    · exact fun hc => by cases hc
    · intro hc
      rcases List.mem_append.1 hc with hc | hc
      · rcases List.mem_append.1 hc with hc | hc
        · exact hmem hc
        · cases List.eq_of_mem_replicate hc
      · cases List.mem_singleton.1 hc

/-- No section is read with an equals sign in its name when none is followed by a bracket. -/
theorem section_no_equals (hread : iniparserLine line = some (.section name))
    (h : (behindEquals line).head? ≠ some CLOSE) : EQUALS ∉ name := by
  obtain ⟨raw, more, hline, hclose, hequals, rfl⟩ := section_shape hread
  intro hmem
  have hraw : EQUALS ∈ raw := mem_of_mem_trim hmem
  rcases List.eq_nil_or_concat raw with rfl | ⟨front, c, rfl⟩
  · cases hraw
  · rw [List.concat_eq_append, List.dropLast_concat] at hequals
    rw [List.concat_eq_append, List.mem_append] at hraw
    have hc := List.mem_singleton.1 (hraw.resolve_left hequals)
    subst hc
    obtain ⟨a, b, hab, hblank, _⟩ := exists_trim_append line
    apply h
    have hsplit : line = (a ++ OPEN :: front) ++ EQUALS :: (CLOSE :: (more ++ b)) := by
      rw [hab, hline, List.concat_eq_append]
      simp only [List.append_assoc, List.cons_append, List.nil_append]
    rw [hsplit, behindEquals_append]
    · rfl
    · intro hc
      rcases List.mem_append.1 hc with hc | hc
      · have := hblank _ hc
        cases this
      · rcases List.mem_cons.1 hc with hc | hc
        · cases hc
        · exact hequals hc

end BigBox.IniConfig1
