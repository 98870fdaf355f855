import BigBox.Ini.InirwLines

namespace BigBox.Inirw
open Function
set_option autoImplicit true

/-- A line that `iniSetString` finds starts where the text has been read up to a line's end. -/
theorem findSectionLoop_reaches (h : Reaches buf uselen ls)
    (hcont : ∀ f, found = some f → ∃ ls, Reaches buf f.2.2 ls)
    (hs : findSectionLoop name uselen empty found (linesOf (buf.drop uselen)) = some (some f)) :
    ∃ ls, Reaches buf f.cont1 ls := by
  generalize hlines : linesOf (buf.drop uselen) = lines at hs
  induction lines generalizing uselen empty found ls with
  | nil =>
    obtain ⟨f', hf', rfl⟩ := Option.map_eq_some_iff.1 (Option.some.inj hs)
    exact hcont f' hf'
  | cons entry lines ih =>
    cases entry with
    | none => cases hs
    | some l =>
      obtain ⟨hl, hne, rfl⟩ := linesOf_eq_cons hlines
      have hnext := h.snoc hl hne
      have hdrop : linesOf (buf.drop (uselen + l.nextline)) =
          linesOf ((buf.drop uselen).drop l.nextline) := by rw [List.drop_drop]
      rw [findSectionLoop] at hs
      dsimp only at hs
      split at hs
      case h_1 =>
        split at hs
        case isTrue =>
          obtain ⟨f', hf', rfl⟩ := Option.map_eq_some_iff.1 (Option.some.inj hs)
          exact hcont f' hf'
        case isFalse =>
          split at hs
          case isTrue => exact ih hnext (fun _ hf => Option.some.inj hf ▸ ⟨_, hnext⟩) hdrop hs
          case isFalse => exact ih hnext hcont hdrop hs
      case h_2 =>
        split at hs
        case isTrue => exact ih hnext (fun _ hf => Option.some.inj hf ▸ ⟨_, h⟩) hdrop hs
        case isFalse => exact ih hnext hcont hdrop hs
      case h_3 => exact ih hnext hcont hdrop hs

theorem findKeyLoop_reaches (h : Reaches text q ls)
    (hs : findKeyLoop key (start + q) (linesOf (text.drop q)) = some (some (p, line))) :
    ∃ q' ls', p = start + q' ∧ q' < text.length ∧ Reaches text q' ls' := by
  generalize hlines : linesOf (text.drop q) = lines at hs
  induction lines generalizing q ls with
  | nil => cases hs
  | cons entry lines ih =>
    cases entry with
    | none => cases hs
    | some l =>
      obtain ⟨hl, hne, rfl⟩ := linesOf_eq_cons hlines
      rw [findKeyLoop] at hs
      split at hs
      case isTrue =>
        obtain ⟨rfl, rfl⟩ := Prod.mk.inj (Option.some.inj (Option.some.inj hs))
        have hlt : 0 < (text.drop q).length := List.length_pos_iff.2 hne
        rw [List.length_drop] at hlt
        exact ⟨q, ls, rfl, by omega, h⟩
      case isFalse =>
        rw [Nat.add_assoc] at hs
        exact ih (h.snoc hl hne) (by rw [List.drop_drop]) hs

/-- The place where `iniSetString` finds a key. -/
def Located (buf : List UInt8) (name : Option (List UInt8)) (key : List UInt8) (p : Nat)
    (line : Line) : Prop :=
  ∃ found, findSection buf name = some (some found) ∧
    findKey buf found.cont1 found.cont2 key = some (some (p, line))

theorem Located.reaches (h : Located buf name key p line) : ∃ ls, Reaches buf p ls := by
  obtain ⟨found, hsection, hkey⟩ := h
  obtain ⟨ls, hcont⟩ := findSectionLoop_reaches .nil (by nofun) hsection
  obtain ⟨q, ls', rfl, hlt, hq⟩ := findKeyLoop_reaches .nil hkey
  exact ⟨_, hcont.trans (hq.of_take hlt)⟩

theorem toLower_eq_zero : toLower c = 0 ↔ c = 0 := by
  unfold toLower
  split
  case isTrue h =>
    constructor
    · intro hz
      have : c.toNat + 32 < 256 := by
        have := UInt8.le_iff_toNat_le.1 h.2
        have h90 : (90 : UInt8).toNat = 90 := rfl
        omega
      have hn := congrArg UInt8.toNat hz
      rw [UInt8.toNat_add] at hn
      have h32 : (32 : UInt8).toNat = 32 := rfl
      have h0 : (0 : UInt8).toNat = 0 := rfl
      omega
    · rintro rfl
      exact absurd h (by decide)
  case isFalse => exact Iff.rfl

theorem toLower_toNat_eq_zero : (toLower c).toNat = 0 ↔ c = 0 := by
  rw [← toLower_eq_zero, ← UInt8.toNat_inj]
  rfl

theorem map_toLower_cons_eq (h : c ≠ 0) :
    (cString (c :: s)).map toLower = toLower c :: (cString s).map toLower := by
  rw [cString_cons, if_neg h, List.map_cons]

/-- `StriCmp` compares the strings up to their zero bytes, without regard to case. -/
theorem striCmp_eq_zero :
    striCmp s t = 0 ↔ (cString s).map toLower = (cString t).map toLower := by
  induction s generalizing t with
  | nil =>
    cases t with
    | nil => exact iff_of_true rfl rfl
    | cons d t =>
      rw [striCmp, Int.neg_eq_zero, Int.natCast_eq_zero, toLower_toNat_eq_zero, cString_cons]
      split
      case isTrue h => exact iff_of_true h rfl
      case isFalse h => exact iff_of_false h (by nofun)
  | cons c s ih =>
    cases t with
    | nil =>
      rw [striCmp, Int.natCast_eq_zero, toLower_toNat_eq_zero, cString_cons]
      split
      case isTrue h => exact iff_of_true h rfl
      case isFalse h => exact iff_of_false h (by nofun)
    | cons d t =>
      rw [striCmp]
      split
      case isTrue h =>
        have hd : d ≠ 0 := by
          rintro rfl
          exact h.1 (toLower_eq_zero.1 (h.2.trans (toLower_eq_zero.2 rfl)))
        rw [ih, map_toLower_cons_eq h.1, map_toLower_cons_eq hd, List.cons_eq_cons]
        exact (and_iff_right h.2).symm
      case isFalse h =>
        rw [Int.sub_eq_zero, Int.natCast_inj, UInt8.toNat_inj]
        by_cases hc : c = 0
        · subst hc
          rw [cString_cons, if_pos rfl, eq_comm, toLower_eq_zero.2 rfl, toLower_eq_zero,
            cString_cons]
          split
          case isTrue hd => exact iff_of_true hd rfl
          case isFalse hd => exact iff_of_false hd (by nofun)
        · have hne : toLower c ≠ toLower d := fun he => h ⟨hc, he⟩
          refine iff_of_false hne ?_
          rw [map_toLower_cons_eq hc]
          by_cases hd : d = 0
          · rw [cString_cons, if_pos hd]
            nofun
          · rw [map_toLower_cons_eq hd, List.cons_eq_cons]
            exact fun he => hne he.1

/-- What `iniGetString` returns into a buffer that holds a whole line, quotes taken off. -/
def lookup (buf : List UInt8) (name : Option (List UInt8)) (key : List UInt8) :
    Option (Option (List UInt8)) :=
  (getValueLoop name key false (linesOf buf)).map (·.map unquote)

theorem length_content_lt (h : getLine buf = some l) : l.content.length < SIZE_LINE := by
  rw [getLine, Scan.line] at h
  dsimp only at h
  split at h
  case h_1 =>
    cases h
    exact Nat.succ_pos _
  case h_2 =>
    split at h
    case isTrue =>
      cases h
      exact Nat.succ_pos _
    case isFalse hlt =>
      have htake : ∀ (b : List UInt8) {i : Int}, ¬(SIZE_LINE : Int) ≤ i →
          (b.take i.toNat).length < SIZE_LINE := by
        intro b i hi
        have := List.length_take_le i.toNat b
        have hsize : 0 < SIZE_LINE := Nat.succ_pos _
        omega
      repeat' split at h
      all_goals cases h
      all_goals exact htake _ hlt

theorem length_value_lt (h : getLine buf = some l) : l.keyValue.2.length < SIZE_LINE := by
  apply Nat.lt_of_le_of_lt _ (length_content_lt h)
  apply Nat.le_trans (length_trim_le _)
  apply Nat.le_trans (List.drop_sublist ..).length_le
  exact Nat.le_trans (List.dropWhile_sublist _).length_le (List.takeWhile_sublist _).length_le

/-- A value that is found comes from a line of the text. -/
theorem getValueLoop_length (h : ∀ l, some l ∈ lines → l.keyValue.2.length < SIZE_LINE)
    (hs : getValueLoop name key found lines = some (some value)) : value.length < SIZE_LINE := by
  induction lines generalizing found with
  | nil => cases hs
  | cons entry lines ih =>
    cases entry with
    | none => cases hs
    | some l =>
      have hl := h l List.mem_cons_self
      have hls : ∀ l, some l ∈ lines → l.keyValue.2.length < SIZE_LINE :=
        fun l hl => h l (List.mem_cons_of_mem _ hl)
      rw [getValueLoop] at hs
      split at hs
      case h_1 =>
        split at hs
        · cases hs
        · exact ih hls hs
      case h_2 =>
        split at hs
        · exact ih hls hs
        · split at hs
          · split at hs
            · cases hs
            · cases hs
              exact hl
          · exact ih hls hs
      case h_3 => exact ih hls hs

theorem mem_getLines (h : some l ∈ getLines n buf) : ∃ b, getLine b = some l := by
  induction n generalizing buf with
  | zero => cases h
  | succ n ih =>
    rw [getLines] at h
    split at h
    case isTrue => cases h
    case isFalse =>
      cases hline : getLine buf with
      | none =>
        rw [hline] at h
        cases List.mem_singleton.1 h
      | some l' =>
        rw [hline] at h
        rcases List.mem_cons.1 h with hl | hl
        · exact ⟨buf, hline.trans hl.symm⟩
        · exact ih hl

/-- The return value and the string for a value that is found, or the default. -/
def answer (maxlen : Nat) (defvalue : Option (List UInt8)) :
    Option (List UInt8) → Int × List UInt8
  | some value => (1, value)
  | none => (0, (defvalue.getD []).take (maxlen - 1))

/-- Into a buffer for a whole line `iniGetString` gives what `lookup` finds. -/
theorem iniGetString_eq (h : ini.gBuffer = some buf) (hmax : SIZE_LINE ≤ maxlen) :
    iniGetString ini name key maxlen defvalue =
      (lookup buf name key).map (answer maxlen defvalue) := by
  rw [iniGetString, iniGetValue, h, lookup]
  dsimp only
  cases hvalue : getValueLoop name key false (linesOf buf) with
  | none => rfl
  | some found =>
    cases found with
    | none => rfl
    | some value =>
      have hlen : value.length < SIZE_LINE := by
        apply getValueLoop_length _ hvalue
        intro l hl
        obtain ⟨b, hb⟩ := mem_getLines hl
        exact length_value_lt hb
      have htake : value.take (maxlen - 1) = value := List.take_of_length_le (by omega)
      simp only [Option.map_some, htake, Int.one_ne_zero, if_false, answer]

/-- Two strings name the same section or key. -/
def SameName (s t : List UInt8) : Prop := striCmp s t = 0

theorem SameName.iff {s t : List UInt8} (h : SameName s t) (u : List UInt8) :
    striCmp u s = 0 ↔ striCmp u t = 0 := by
  rw [striCmp_eq_zero, striCmp_eq_zero, striCmp_eq_zero.1 h]

/-- Sections are the same by their names; `NULL` is the part before all sections. -/
def SameSection : Option (List UInt8) → Option (List UInt8) → Prop
  | none, none => True
  | some s, some t => SameName s t
  | _, _ => False

theorem getValueLoop_same (hname : SameSection name name') (hkey : SameName key key') :
    getValueLoop name key found lines = getValueLoop name' key' found lines := by
  have hnone : name = none ↔ name' = none := by
    cases name with
    | none =>
      cases name' with
      | none => exact Iff.rfl
      | some t => exact hname.elim
    | some s =>
      cases name' with
      | none => exact hname.elim
      | some t => exact iff_of_false nofun nofun
  have hstarts : ∀ l : Line, l.startsSection name = l.startsSection name' := by
    intro l
    cases name with
    | none =>
      cases name' with
      | none => rfl
      | some t => exact hname.elim
    | some s =>
      cases name' with
      | none => exact hname.elim
      | some t => exact decide_eq_decide.2 (SameName.iff hname l.sectionName)
  induction lines generalizing found with
  | nil => rfl
  | cons entry lines ih =>
    cases entry with
    | none => rfl
    | some l =>
      rw [getValueLoop, getValueLoop]
      simp only [ne_eq, hnone, hstarts, hkey.iff, ih]

theorem lookup_same (hname : SameSection name name') (hkey : SameName key key') :
    lookup buf name key = lookup buf name' key' := by
  rw [lookup, lookup, getValueLoop_same hname hkey]

/-- The text `new` starts with a line that reads as the first line of `old` does, as a line that
gives the key the value, and goes on with the same text. -/
def Alike (old new key value : List UInt8) : Prop :=
  ∃ l l', getLine old = some l ∧ getLine new = some l' ∧ l.type = .value ∧ l'.type = .value ∧
    old.drop l.nextline = new.drop l'.nextline ∧
    SameName l.keyValue.1 key ∧ SameName l'.keyValue.1 key ∧
    unquote l.keyValue.2 = value ∧ unquote l'.keyValue.2 = value

theorem getValueLoop_alike (hl : l.type = .value) (hl' : l'.type = .value)
    (hkey : ∀ k, striCmp l.keyValue.1 k = 0 ↔ striCmp l'.keyValue.1 k = 0)
    (hvalue : unquote l.keyValue.2 = unquote l'.keyValue.2)
    (hne : unquote l.keyValue.2 ≠ []) (ls : List Line) (rest : List (Option Line)) :
    (getValueLoop name key found (ls.map some ++ some l :: rest)).map (·.map unquote) =
      (getValueLoop name key found (ls.map some ++ some l' :: rest)).map (·.map unquote) := by
  induction ls generalizing found with
  | nil =>
    rw [List.map_nil, List.nil_append, List.nil_append, getValueLoop, getValueLoop, hl, hl']
    dsimp only
    have hempty : l.keyValue.2 ≠ [] := by
      intro h
      rw [h] at hne
      exact hne rfl
    have hempty' : l'.keyValue.2 ≠ [] := by
      intro h
      rw [hvalue, h] at hne
      exact hne rfl
    simp only [hkey, if_neg hempty, if_neg hempty']
    split
    · rfl
    · split
      · simp only [Option.map_some, hvalue]
      · rfl
  | cons a ls ih =>
    rw [List.map_cons, List.cons_append, List.cons_append, getValueLoop, getValueLoop]
    repeat' split
    all_goals first | rfl | exact ih

/-- Replacing a line by one that reads alike changes no value. -/
theorem lookup_splice (hp : ∃ ls, Reaches buf p ls) (ha : Alike (buf.drop p) new key' value)
    (hne : value ≠ []) (name : Option (List UInt8)) (key : List UInt8) :
    lookup (buf.take p ++ new) name key = lookup buf name key := by
  obtain ⟨ls, hp⟩ := hp
  obtain ⟨l, l', hl, hl', htype, htype', hrest, hkey, hkey', hvalue, hvalue'⟩ := ha
  obtain ⟨c, cs, hold, hc⟩ := exists_plain hl htype
  obtain ⟨d, ds, rfl, hd⟩ := exists_plain hl' htype'
  have hlen : (buf.take p).length = p := by
    apply List.length_take_of_le
    by_contra hlt
    rw [List.drop_eq_nil_of_le (Nat.le_of_not_le hlt)] at hold
    cases hold
  have hbuf : buf = buf.take p ++ c :: cs := by
    rw [← hold, List.take_append_drop]
  have hreach : Reaches (buf.take p ++ d :: ds) p ls := by
    have hp' : Reaches (buf.take p ++ c :: cs) (buf.take p).length ls := by
      rw [← hbuf, hlen]
      exact hp
    have hsplice := hp'.splice hc hd ds
    rw [hlen] at hsplice
    exact hsplice
  have hdrop : (buf.take p ++ d :: ds).drop p = d :: ds := List.drop_left' hlen
  rw [lookup, lookup, hreach.linesOf, hp.linesOf, hdrop, linesOf_cons hl' (by nofun),
    linesOf_cons hl (by rw [hold]; nofun), hrest]
  symm
  apply getValueLoop_alike htype htype'
  · intro k
    rw [striCmp_eq_zero, striCmp_eq_zero, striCmp_eq_zero.1 hkey, striCmp_eq_zero.1 hkey']
  · exact hvalue.trans hvalue'.symm
  · exact hvalue ▸ hne

end BigBox.Inirw
