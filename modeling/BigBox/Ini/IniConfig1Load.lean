import BigBox.Ini.IniConfig1Entry

namespace BigBox.IniConfig1
open StringDic
set_option autoImplicit true

/-- A text that stays within one line of a file. -/
def Clean (s : Str) : Prop := 0 ∉ s ∧ LF ∉ s

theorem Clean.of_subset (h : Clean s) (hsub : ∀ c ∈ t, c ∈ s) : Clean t :=
  ⟨fun hc => h.1 (hsub _ hc), fun hc => h.2 (hsub _ hc)⟩

theorem Clean.append (hs : Clean s) (ht : Clean t) : Clean (s ++ t) := by
  constructor
  · exact fun hc => (List.mem_append.1 hc).elim hs.1 ht.1
  · exact fun hc => (List.mem_append.1 hc).elim hs.2 ht.2

/-- What holds of a dictionary that was read from a file. -/
structure Loaded (d : Dic) : Prop where
  holds : ∃ es, d.Holds es
  section_key : stringDicGet d k = some none → SectionName k ∧ Clean k
  value_key : stringDicGet d k = some (some v) → ValueText v ∧ Clean v ∧ Clean k ∧
    ∃ sect t, k = sect ++ COLON :: t ∧ SectionName sect ∧ KeyName t ∧
      (sect = [] ∨ stringDicGet d sect ≠ none)

theorem sectionName_nil : SectionName [] := ⟨rfl, nofun, nofun⟩

namespace Loaded
variable {d : Dic}

theorem new (size : Nat) : Loaded (stringDicNew size) := by
  have hnone : ∀ k, stringDicGet (stringDicNew size) k = none := fun k =>
    (Dic.Holds.new size).get_none nofun
  constructor
  case holds => exact ⟨[], .new size⟩
  case section_key =>
    intro k h
    rw [hnone] at h
    cases h
  case value_key =>
    intro k v h
    rw [hnone] at h
    cases h

/-- Setting a key leaves every key that was there. -/
theorem get_set_ne_none (h : Loaded d) (hk : stringDicGet d k ≠ none) :
    stringDicGet (stringDicSet d key value) k ≠ none := by
  obtain ⟨es, hes⟩ := h.holds
  obtain ⟨-, -, hget⟩ := hes.set key value
  rw [hget]
  split
  · exact nofun
  · exact hk

theorem get_set_self (h : Loaded d) : stringDicGet (stringDicSet d key value) key ≠ none := by
  obtain ⟨es, hes⟩ := h.holds
  obtain ⟨-, -, hget⟩ := hes.set key value
  rw [hget, if_pos rfl]
  exact nofun

theorem set (h : Loaded d) (key : Str) (value : Option Str)
    (hsection : value = none → SectionName key ∧ Clean key)
    (hvalue : ∀ v, value = some v → ValueText v ∧ Clean v ∧ Clean key ∧
      ∃ sect t, key = sect ++ COLON :: t ∧ SectionName sect ∧ KeyName t ∧
        (sect = [] ∨ stringDicGet d sect ≠ none)) : Loaded (stringDicSet d key value) := by
  obtain ⟨es, hes⟩ := h.holds
  obtain ⟨es', hes', hget⟩ := hes.set key value
  constructor
  case holds => exact ⟨es', hes'⟩
  case section_key =>
    intro k hk
    rw [hget] at hk
    split at hk
    case isTrue heq =>
      subst heq
      exact hsection (Option.some.inj hk)
    case isFalse => exact h.section_key hk
  case value_key =>
    intro k v hk
    rw [hget] at hk
    split at hk
    case isTrue heq =>
      subst heq
      obtain ⟨hv, hcv, hck, sect, t, heq, hs, ht, hin⟩ := hvalue v (Option.some.inj hk)
      exact ⟨hv, hcv, hck, sect, t, heq, hs, ht, hin.imp_right h.get_set_ne_none⟩
    case isFalse =>
      obtain ⟨hv, hcv, hck, sect, t, heq, hs, ht, hin⟩ := h.value_key hk
      exact ⟨hv, hcv, hck, sect, t, heq, hs, ht, hin.imp_right h.get_set_ne_none⟩

end Loaded

/-- The state between two lines of a file. -/
structure Loader.Sound (s : Loader) : Prop where
  loaded : Loaded s.d
  sect_name : SectionName s.sect
  sect_clean : Clean s.sect
  sect_key : s.sect = [] ∨ stringDicGet s.d s.sect ≠ none
  full_clean : Clean (s.fullLine.getD [])
  errs_nonneg : 0 ≤ s.errs

namespace Loader.Sound

theorem start : Loader.start.Sound :=
  ⟨.new 0, sectionName_nil, ⟨nofun, nofun⟩, .inl rfl, ⟨nofun, nofun⟩, Int.le_refl _⟩

theorem apply (h : Sound s) (hstatus : iniparserLine full = some status) (hclean : Clean full) :
    (({ s with fullLine := none } : Loader).apply status).Sound := by
  cases status with
  | error => exact ⟨h.loaded, h.sect_name, h.sect_clean, h.sect_key, ⟨nofun, nofun⟩,
      Int.add_nonneg h.errs_nonneg (Int.zero_le_ofNat 1)⟩
  | empty => exact ⟨h.loaded, h.sect_name, h.sect_clean, h.sect_key, ⟨nofun, nofun⟩, h.errs_nonneg⟩
  | comment =>
    exact ⟨h.loaded, h.sect_name, h.sect_clean, h.sect_key, ⟨nofun, nofun⟩, h.errs_nonneg⟩
  | «section» name =>
    obtain ⟨hname, hmem⟩ := iniparserLine_section hstatus
    have hset := h.loaded.set name none
      (fun _ => ⟨hname, hclean.of_subset hmem⟩) nofun
    exact ⟨hset, hname, hclean.of_subset hmem, .inr h.loaded.get_set_self, ⟨nofun, nofun⟩,
      Int.le_refl _⟩
  | value key value =>
    obtain ⟨hkey, hvalue, hmem⟩ := iniparserLine_value hstatus
    have hckey : Clean key := hclean.of_subset fun c hc => hmem c (List.mem_append_left _ hc)
    have hcvalue : Clean value := hclean.of_subset fun c hc => hmem c (List.mem_append_right _ hc)
    have hcolon : Clean (COLON :: key) :=
      Clean.append (s := [COLON]) ⟨by decide, by decide⟩ hckey
    have hset := h.loaded.set (s.sect ++ COLON :: key) (some value) nofun
      (by
        rintro v ⟨⟩
        exact ⟨hvalue, hcvalue, h.sect_clean.append hcolon, s.sect, key, rfl, h.sect_name, hkey,
          h.sect_key⟩)
    exact ⟨hset, h.sect_name, h.sect_clean, h.sect_key.imp_right h.loaded.get_set_ne_none,
      ⟨nofun, nofun⟩, Int.le_refl _⟩

/-- One line of a file keeps the state sound. -/
theorem line {text : Str} (h : Sound s) (hzero : 0 ∉ text) (hend : LF ∉ text.dropLast)
    (hline : s.line text eof = some (s', b)) : s'.Sound := by
  have hstrip : Clean (text.rdropWhile fun c => c = LF ∨ isspace c) := by
    constructor
    · exact fun hc => hzero ((List.rdropWhile_prefix _ _).subset hc)
    · rcases List.eq_nil_or_concat text with rfl | ⟨front, c, rfl⟩
      · exact nofun
      · rw [List.concat_eq_append, List.dropLast_concat] at hend
        rw [List.concat_eq_append, List.rdropWhile_concat]
        split
        case isTrue => exact fun hc => hend ((List.rdropWhile_prefix _ _).subset hc)
        case isFalse hc =>
          intro hmem
          rcases List.mem_append.1 hmem with hmem | hmem
          · exact hend hmem
          · exact hc (by rw [← List.mem_singleton.1 hmem]; rfl)
  rw [Loader.line] at hline
  split at hline
  case isTrue => cases hline
  case isFalse =>
    split at hline
    case isTrue =>
      cases hline
      exact h
    case isFalse =>
      split at hline
      case isTrue =>
        cases hline
        exact { h with errs_nonneg := Int.add_nonneg h.errs_nonneg (Int.zero_le_ofNat 1) }
      case isFalse =>
        dsimp only at hline
        split at hline
        case isTrue =>
          cases hline
          exact { h with
            full_clean := h.full_clean.append
              (hstrip.of_subset fun c hc => (List.dropLast_prefix _).subset hc) }
        case isFalse =>
          obtain ⟨status, hstatus, heq⟩ := Option.map_eq_some_iff.1 hline
          cases heq
          exact h.apply hstatus (h.full_clean.append hstrip)

theorem not_mem_dropLast_fgets (text : Str) :
    LF ∉ (cString (text.take (fgetsLength text))).dropLast := by
  have hpre : cString (text.take (fgetsLength text)) <+: text :=
    (List.takeWhile_prefix _).trans (List.take_prefix _ _)
  have hlen : (cString (text.take (fgetsLength text))).length ≤ text.findIdx (· = LF) + 1 :=
    calc _ ≤ (text.take (fgetsLength text)).length := (List.takeWhile_prefix _).length_le
      _ ≤ fgetsLength text := List.length_take_le _ _
      _ ≤ _ := Nat.min_le_right _ _
  generalize cString (text.take (fgetsLength text)) = s at hpre hlen
  obtain ⟨rest, rfl⟩ := hpre
  intro hmem
  obtain ⟨i, hi, heq⟩ := List.mem_iff_getElem.1 hmem
  rw [List.length_dropLast] at hi
  have hlt : i < (s ++ rest).findIdx (· = LF) := Nat.lt_of_lt_of_le hi (Nat.sub_le_of_le_add hlen)
  have hne := List.not_of_lt_findIdx hlt
  rw [List.getElem_append_left (Nat.lt_of_lt_of_le hi (Nat.sub_le _ _)),
    decide_eq_false_iff_not] at hne
  rw [List.getElem_dropLast] at heq
  exact hne heq

theorem loadLoop (h : Sound s) (hload : loadLoop fuel s text = some s') : s'.Sound := by
  induction fuel generalizing s text with
  | zero =>
    cases hload
    exact h
  | succ fuel ih =>
    rw [IniConfig1.loadLoop] at hload
    split at hload
    case isTrue =>
      cases hload
      exact h
    case isFalse =>
      dsimp only at hload
      have hzero : (0 : UInt8) ∉ cString (text.take (fgetsLength text)) := by
        intro hmem
        have hne := List.mem_takeWhile_imp hmem
        rw [decide_eq_true_eq] at hne
        exact hne rfl
      have hend := not_mem_dropLast_fgets text
      split at hload
      case h_1 => cases hload
      case h_2 s₁ hline => exact ih (h.line hzero hend hline) hload
      case h_3 s₁ hline =>
        cases hload
        exact h.line hzero hend hline

end Loader.Sound

theorem configInitLoad_loaded (h : configInitLoad file = some (some d)) : Loaded d := by
  obtain ⟨s, hload, hs⟩ := Option.map_eq_some_iff.1 h
  split at hs
  case isFalse => cases hs
  case isTrue =>
    cases hs
    exact (Loader.Sound.start.loadLoop hload).loaded

set_option autoImplicit true

/-- The section that a key belongs to. -/
def sectionOf (key : Str) : Str := key.takeWhile (· ≠ COLON)

/-- The name of a key in its section. -/
def nameOf (key : Str) : Str := (key.dropWhile (· ≠ COLON)).drop 1

theorem sectionOf_append (h : COLON ∉ s) : sectionOf (s ++ COLON :: t) = s := by
  rw [sectionOf, List.takeWhile_append_of_pos (decide_ne_of_not_mem h),
    List.takeWhile_cons_of_neg (by decide), List.append_nil]

theorem nameOf_append (h : COLON ∉ s) : nameOf (s ++ COLON :: t) = t := by
  rw [nameOf, List.dropWhile_append_of_pos (decide_ne_of_not_mem h),
    List.dropWhile_cons_of_neg (by decide)]
  rfl

theorem nameOf_of_not_mem (h : COLON ∉ s) : nameOf s = [] := by
  rw [nameOf, List.dropWhile_eq_nil_iff.2 (decide_ne_of_not_mem h)]
  rfl

theorem exists_colon (h : COLON ∈ key) : COLON ∉ sectionOf key ∧
    key = sectionOf key ++ COLON :: nameOf key := by
  obtain ⟨s, t, rfl, hs⟩ := List.eq_append_cons_of_mem h
  rw [sectionOf_append hs, nameOf_append hs]
  exact ⟨hs, rfl⟩

theorem nameOf_append_of_mem (h : COLON ∈ s) :
    nameOf (s ++ COLON :: t) = nameOf s ++ COLON :: t := by
  obtain ⟨hs, heq⟩ := exists_colon h
  generalize sectionOf s = a at hs heq
  generalize nameOf s = b at heq ⊢
  rw [heq, List.append_assoc, List.cons_append, nameOf_append hs]

theorem mem_of_mem_nameOf (h : c ∈ nameOf s) : c ∈ s :=
  (List.dropWhile_sublist _).subset (List.mem_of_mem_drop h)

theorem KeyName.append (hs : KeyName s) (ht : KeyName t) : KeyName (s ++ COLON :: t) := by
  obtain ⟨c, s, rfl⟩ := List.exists_cons_of_ne_nil hs.ne_nil
  have hc : isspace c = false := head_trim hs.trimmed
  constructor
  case trimmed =>
    rcases List.eq_nil_or_concat t with rfl | ⟨front, d, rfl⟩
    · exact absurd rfl ht.ne_nil
    · have hd : isspace d = false := by
        apply getLast_trim (s := front.concat d)
        rw [ht.trimmed, List.concat_eq_append, List.getLast?_concat]
      rw [List.cons_append, trim_cons hc, List.concat_eq_append, ← List.cons_append,
        ← List.append_assoc,
        List.rdropWhile_concat_neg _ _ _ (by rw [hd]; exact Bool.false_ne_true)]
  case ne_nil => exact List.cons_ne_nil _ _
  case no_equals =>
    intro h
    rcases List.mem_append.1 h with h | h
    · exact hs.no_equals h
    · exact ht.no_equals ((List.mem_cons.1 h).resolve_left (by decide))
  case no_comment => exact hs.no_comment

theorem behindEquals_of_not_mem (h : EQUALS ∉ s) : behindEquals s = [] := by
  rw [behindEquals, List.dropWhile_eq_nil_iff.2 (decide_ne_of_not_mem h)]
  rfl

theorem behindEquals_colon (hs : CLOSE ∉ s) (ht : EQUALS ∉ t) :
    (behindEquals (s ++ COLON :: t)).head? ≠ some CLOSE := by
  by_cases hmem : EQUALS ∈ s
  · obtain ⟨a, b, rfl, ha⟩ := List.eq_append_cons_of_mem hmem
    rw [List.append_assoc, List.cons_append, behindEquals_append ha]
    cases b with
    | nil => exact fun h => by cases h
    | cons c b =>
      rintro ⟨⟩
      exact hs (by simp)
  · rw [behindEquals_of_not_mem]
    · exact fun h => by cases h
    · intro h
      rcases List.mem_append.1 h with h | h
      · exact hmem h
      · exact ht ((List.mem_cons.1 h).resolve_left (by decide))

theorem behindEquals_of_not_mem_close (h : CLOSE ∉ s) : (behindEquals s).head? ≠ some CLOSE := by
  intro hc
  apply h
  exact (List.dropWhile_sublist _).subset (List.mem_of_mem_drop (List.mem_of_head? hc))

namespace Loaded
variable {d : Dic}

/-- The first equals sign in a key is not followed by a bracket. -/
theorem behindEquals_key (h : Loaded d) (hget : stringDicGet d k = some v) :
    (behindEquals k).head? ≠ some CLOSE := by
  cases v with
  | none => exact behindEquals_of_not_mem_close (h.section_key hget).1.no_close
  | some v =>
    obtain ⟨-, -, -, sect, t, rfl, hsect, ht, -⟩ := h.value_key hget
    exact behindEquals_colon hsect.no_close ht.no_equals

theorem behindEquals_name (h : Loaded d) (hget : stringDicGet d k = some v) :
    (behindEquals (nameOf k)).head? ≠ some CLOSE := by
  cases v with
  | none =>
    apply behindEquals_of_not_mem_close
    exact fun hc => (h.section_key hget).1.no_close (mem_of_mem_nameOf hc)
  | some v =>
    obtain ⟨-, -, -, sect, t, rfl, hsect, ht, -⟩ := h.value_key hget
    by_cases hcolon : COLON ∈ sect
    · rw [nameOf_append_of_mem hcolon]
      exact behindEquals_colon (fun hc => hsect.no_close (mem_of_mem_nameOf hc)) ht.no_equals
    · rw [nameOf_append hcolon, behindEquals_of_not_mem ht.no_equals]
      exact fun hc => by cases hc

/-- A section with an equals sign has no value. -/
theorem section_equals (h : Loaded d) (hsect : SectionName sect)
    (hin : sect = [] ∨ stringDicGet d sect ≠ none) (heq : EQUALS ∈ sect) :
    stringDicGet d sect = some none := by
  obtain ⟨v, hv⟩ := Option.ne_none_iff_exists'.1 (hin.resolve_left (List.ne_nil_of_mem heq))
  cases v with
  | none => exact hv
  | some v =>
    obtain ⟨-, -, -, sect', t, rfl, -, ht, -⟩ := h.value_key hv
    obtain ⟨front, c, rfl⟩ := (List.eq_nil_or_concat t).resolve_left ht.ne_nil
    have hfront := hsect.equals
    rw [List.concat_eq_append, ← List.cons_append, ← List.append_assoc,
      List.dropLast_concat] at hfront
    rw [List.concat_eq_append, ← List.cons_append, ← List.append_assoc] at heq
    have hc := (List.mem_append.1 heq).resolve_left hfront
    apply absurd _ ht.no_equals
    rw [List.concat_eq_append]
    exact List.mem_append_right _ hc

/-- Without equals signs in the sections below other sections there are none in names. -/
theorem name_no_equals (h : Loaded d)
    (hnull : ∀ k, stringDicGet d k = some none → COLON ∈ k → EQUALS ∉ k)
    (hget : stringDicGet d k = some v) : EQUALS ∉ nameOf k := by
  cases v with
  | none =>
    by_cases hcolon : COLON ∈ k
    · exact fun hc => hnull k hget hcolon (mem_of_mem_nameOf hc)
    · rw [nameOf_of_not_mem hcolon]
      exact List.not_mem_nil
  | some v =>
    obtain ⟨-, -, -, sect, t, rfl, hsect, ht, hin⟩ := h.value_key hget
    by_cases hcolon : COLON ∈ sect
    · rw [nameOf_append_of_mem hcolon]
      intro hc
      rcases List.mem_append.1 hc with hc | hc
      · have heq := mem_of_mem_nameOf hc
        exact hnull sect (h.section_equals hsect hin heq) hcolon heq
      · exact ht.no_equals ((List.mem_cons.1 hc).resolve_left (by decide))
    · rw [nameOf_append hcolon]
      exact ht.no_equals

theorem key_no_equals (h : Loaded d) (hnull : ∀ k, stringDicGet d k = some none → EQUALS ∉ k)
    (hget : stringDicGet d k = some v) : EQUALS ∉ k := by
  cases v with
  | none => exact hnull k hget
  | some v =>
    obtain ⟨-, -, -, sect, t, rfl, hsect, ht, hin⟩ := h.value_key hget
    intro hc
    rcases List.mem_append.1 hc with hc | hc
    · exact hnull sect (h.section_equals hsect hin hc) hc
    · exact ht.no_equals ((List.mem_cons.1 hc).resolve_left (by decide))

/-- Without sections below other sections every name is proper. -/
theorem keyName (h : Loaded d) (hnull : ∀ k, stringDicGet d k = some none → COLON ∉ k)
    (hget : stringDicGet d k = some (some v)) : KeyName (nameOf k) := by
  induction hn : k.length using Nat.strong_induction_on generalizing k v with
  | _ n ih =>
    obtain ⟨-, -, -, sect, t, rfl, -, ht, hin⟩ := h.value_key hget
    by_cases hcolon : COLON ∈ sect
    · rw [nameOf_append_of_mem hcolon]
      obtain ⟨w, hw⟩ := Option.ne_none_iff_exists'.1 (hin.resolve_left (List.ne_nil_of_mem hcolon))
      cases w with
      | none => exact absurd hcolon (hnull sect hw)
      | some w =>
        have hlt : sect.length < n := by
          rw [← hn, List.length_append, List.length_cons]
          omega
        exact (ih _ hlt hw rfl).append ht
    · rw [nameOf_append hcolon]
      exact ht

end Loaded

end BigBox.IniConfig1
