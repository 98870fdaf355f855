import BigBox.Ini.IniConfig2Split

namespace BigBox.IniConfig2
open Loop
set_option autoImplicit true

theorem skipZeros_window (a r : Str) : (window a r).skipZeros r.length a.length =
    a.length + (r.takeWhile (· = 0)).length := by
  induction r generalizing a with
  | nil => rfl
  | cons c r ih =>
    have hrest := ih (a ++ [c])
    rw [length_concat] at hrest
    rw [List.length_cons, Ini.skipZeros, window_get, List.headD_cons]
    split
    case isTrue hc =>
      subst hc
      rw [window_cons, hrest, List.takeWhile_cons_of_pos (by rfl), List.length_cons, Nat.add_assoc,
        Nat.add_comm 1]
    case isFalse hc =>
      rw [List.takeWhile_cons_of_neg (Bool.not_eq_true _ ▸ decide_eq_false hc)]
      rfl

/-- What follows a string and the zeros behind it. -/
def behind (b : Str) : Str := (b.dropWhile (· ≠ 0)).dropWhile (· = 0)

theorem next_window (a b : Str) :
    ∃ a', window a b = window a' (behind b) ∧ (window a b).next a.length = a'.length := by
  have hb : b = cString b ++ b.dropWhile (· ≠ 0) := List.takeWhile_append_dropWhile.symm
  have hr : b.dropWhile (· ≠ 0) = (b.dropWhile (· ≠ 0)).takeWhile (· = 0) ++ behind b :=
    List.takeWhile_append_dropWhile.symm
  have hwin : window a b = window (a ++ cString b) (b.dropWhile (· ≠ 0)) := by
    rw [← window_append, ← hb]
  refine ⟨a ++ cString b ++ (b.dropWhile (· ≠ 0)).takeWhile (· = 0), ?_, ?_⟩
  · rw [← window_append, ← hr, hwin]
  · have hcount : (window a b).stop - (a ++ cString b).length = (b.dropWhile (· ≠ 0)).length := by
      rw [hwin, window_stop, Nat.add_sub_cancel_left]
    rw [Ini.next, window_string, cString_append_zero, ← List.length_append, hcount, hwin,
      skipZeros_window, @List.length_append _ _ (List.takeWhile _ _)]

theorem tokens_dropZeros (r : Str) : tokens (r.dropWhile (· = 0)) = tokens r := by
  induction r with
  | nil => rfl
  | cons c r ih =>
    by_cases hc : c = 0
    · subst hc
      rw [List.dropWhile_cons_of_pos (by rfl), ih]
      exact (tokens_append_zero [] r).symm
    · rw [List.dropWhile_cons_of_neg (Bool.not_eq_true _ ▸ decide_eq_false hc)]

theorem tokens_cons (hc : c ≠ 0) (b : Str) :
    tokens (c :: b) = cString (c :: b) :: tokens (behind (c :: b)) := by
  have hne : cString (c :: b) ≠ [] := by
    rw [cString_cons, if_neg hc]
    exact List.cons_ne_nil _ _
  have hb : c :: b = cString (c :: b) ++ (c :: b).dropWhile (· ≠ 0) :=
    List.takeWhile_append_dropWhile.symm
  rw [behind, tokens_dropZeros]
  cases hr : (c :: b).dropWhile (· ≠ 0) with
  | nil =>
    rw [hr, List.append_nil] at hb
    have hzero : 0 ∉ c :: b := hb ▸ zero_not_mem_cString _
    rw [tokens_text hzero, if_neg (List.cons_ne_nil c b), ← hb]
    rfl
  | cons z r =>
    have hz := List.head?_dropWhile_not (fun c => decide (c ≠ 0)) (c :: b)
    rw [hr, List.head?_cons] at hz
    obtain rfl : z = 0 := by
      by_contra hne
      exact of_decide_eq_false hz hne
    rw [hr] at hb
    have htokens := congrArg tokens hb
    rw [tokens_append_zero, tokens_text (zero_not_mem_cString _), if_neg hne] at htokens
    exact htokens.trans (congrArg (cString (c :: b) :: ·) (tokens_append_zero [] r).symm)

theorem behind_head (b : Str) : ∀ c ∈ (behind b).head?, c ≠ 0 := by
  intro c hc
  have hnot := List.head?_dropWhile_not (fun c => decide (c = 0)) (b.dropWhile (· ≠ 0))
  rw [behind] at hc
  rw [hc] at hnot
  exact of_decide_eq_false hnot

theorem tolower_eq_zero (h : tolower c = 0) : c = 0 := by
  rw [tolower] at h
  split at h
  case isTrue hupper =>
    exfalso
    obtain ⟨hlow, hhigh⟩ := hupper
    have hsum := congrArg UInt8.toNat h
    rw [UInt8.toNat_add] at hsum
    have hlow' := UInt8.le_iff_toNat_le.1 hlow
    have hhigh' := UInt8.le_iff_toNat_le.1 hhigh
    change (c.toNat + 32) % 256 = 0 at hsum
    change 65 ≤ c.toNat at hlow'
    change c.toNat ≤ 90 at hhigh'
    omega
  case isFalse => exact h

theorem strcmpci_eq_zero (ha : 0 ∉ a) (hb : 0 ∉ b) : strcmpci a b = 0 ↔ Same a b := by
  have hzero (d : UInt8) (h : (tolower d).toNat = 0) : d = 0 :=
    tolower_eq_zero (UInt8.toNat_inj.1 h)
  induction a generalizing b with
  | nil =>
    rw [strcmpci]
    cases b with
    | nil => exact iff_of_true rfl rfl
    | cons d b =>
      apply iff_of_false
      · intro h
        rw [List.headD_cons] at h
        exact hb (List.mem_cons.2 (.inl (hzero d (by omega)).symm))
      · exact nofun
  | cons c a ih =>
    obtain ⟨hc, ha⟩ := not_or.1 fun h => ha (List.mem_cons.2 h)
    rw [strcmpci]
    cases b with
    | nil =>
      rw [List.headD_nil]
      have hne : ((tolower c).toNat : Int) - (tolower 0).toNat ≠ 0 := by
        intro h
        change ((tolower c).toNat : Int) - (0 : Nat) = 0 at h
        exact hc (hzero c (by omega)).symm
      rw [if_pos hne]
      exact iff_of_false hne nofun
    | cons d b =>
      obtain ⟨_, hb⟩ := not_or.1 fun h => hb (List.mem_cons.2 h)
      rw [List.headD_cons, List.tail_cons]
      split
      case isTrue hne =>
        apply iff_of_false hne
        intro h
        have hcd : tolower c = tolower d := (List.cons.inj h).1
        rw [hcd, Int.sub_self] at hne
        exact hne rfl
      case isFalse heq =>
        have hcd : tolower c = tolower d := UInt8.toNat_inj.1 (by omega)
        refine (ih ha hb).trans ?_
        rw [Same, Same, List.map_cons, List.map_cons, hcd, List.cons.injEq, and_iff_right rfl]

theorem roles_header (t : Str) (tokens : List Str) :
    roles ((OPEN :: t) :: tokens) = .header t :: roles tokens := by
  rw [roles.eq_def]
  exact if_pos rfl

theorem roles_entry {t : Str} (ht : t.head? ≠ some OPEN) (hb : ∀ c ∈ b.head?, c ≠ 0) :
    roles (t :: tokens b) = .entry t (cString b) :: roles (tokens (behind b)) := by
  rw [roles.eq_def]
  refine (if_neg ht).trans ?_
  cases b with
  | nil => rfl
  | cons c b => rw [tokens_cons (hb c rfl)]

theorem length_behind (c : UInt8) (hc : c ≠ 0) (b : Str) :
    (behind (c :: b)).length < (c :: b).length := by
  have hle := (List.dropWhile_sublist (· ≠ 0) (l := b)).length_le
  have hle' := (List.dropWhile_sublist (· = 0) (l := b.dropWhile (· ≠ 0))).length_le
  have hdrop : (c :: b).dropWhile (· ≠ 0) = b.dropWhile (· ≠ 0) :=
    List.dropWhile_cons_of_pos (decide_eq_true hc)
  rw [behind, hdrop, List.length_cons]
  omega

theorem length_behind_le (b : Str) : (behind b).length ≤ b.length :=
  Nat.le_trans (List.dropWhile_sublist _).length_le (List.dropWhile_sublist _).length_le

/-- `ini_get` finds the first entry among what it takes the strings for. -/
theorem getRound_window {sec : Option Str} (hkey : 0 ∉ key)
    (hsec : ∀ name, sec = some name → 0 ∉ name) (hcur : 0 ∉ cur) (hb : ∀ c ∈ b.head?, c ≠ 0) :
    ∃ val, Returns ((window a b).getRound sec key) (cur, a.length) val ∧
      val.map (window a b).string = lookup sec key cur (roles (tokens b)) := by
  induction hn : b.length using Nat.strong_induction_on generalizing a b cur with
  | _ n ih =>
    cases b with
    | nil =>
      have hround : (window a []).getRound sec key (cur, a.length) = some (.done none) :=
        if_neg (Nat.lt_irrefl _)
      exact ⟨none, (returns_done hround).2 rfl, rfl⟩
    | cons c b =>
      have hc : c ≠ 0 := hb c rfl
      obtain ⟨a₁, hwin, hnext⟩ := next_window a (c :: b)
      have hlt : (window a (c :: b)).stop > a.length :=
        Nat.lt_add_of_pos_right (Nat.succ_pos b.length)
      have hstring : (window a (c :: b)).string a.length = cString (c :: b) := by
        rw [window_string, cString_append_zero]
      rw [tokens_cons hc]
      by_cases hopen : c = OPEN
      · subst hopen
        have hname : (window a (OPEN :: b)).string (a.length + 1) = cString b := by
          rw [window_cons, ← length_concat a OPEN, window_string, cString_append_zero]
        have hround : (window a (OPEN :: b)).getRound sec key (cur, a.length) =
            some (.next (cString b, a₁.length)) := by
          rw [Ini.getRound, if_pos hlt, window_get, List.headD_cons, if_pos rfl, hname, hnext]
        obtain ⟨val, hval, hlookup⟩ := ih (behind (OPEN :: b)).length
          (hn ▸ length_behind OPEN hc b) (a := a₁) (zero_not_mem_cString b)
          (behind_head (OPEN :: b)) rfl
        rw [← hwin] at hval hlookup
        refine ⟨val, (returns_next hround).2 hval, ?_⟩
        rw [hlookup, cString_cons, if_neg hc, roles_header]
        rfl
      · obtain ⟨a₂, hwin', hnext'⟩ := next_window a₁ (behind (c :: b))
        have hvalue : (window a (c :: b)).string a₁.length = cString (behind (c :: b)) := by
          rw [hwin, window_string, cString_append_zero]
        have hhead : (cString (c :: b)).head? ≠ some OPEN := by
          rw [cString_cons, if_neg hc, List.head?_cons]
          exact fun h => hopen (Option.some.inj h)
        have hsame : ((∀ name, sec = some name → strcmpci name cur = 0) ∧
            strcmpci (cString (c :: b)) key = 0) ↔
              ((∀ name, sec = some name → Same name cur) ∧ Same (cString (c :: b)) key) := by
          rw [strcmpci_eq_zero (zero_not_mem_cString _) hkey]
          refine and_congr_left' (forall_congr' fun name => forall_congr' fun hname => ?_)
          exact strcmpci_eq_zero (hsec name hname) hcur
        rw [roles_entry hhead (behind_head _), lookup]
        by_cases hmatch : (∀ name, sec = some name → Same name cur) ∧ Same (cString (c :: b)) key
        · have hround : (window a (c :: b)).getRound sec key (cur, a.length) =
              some (.done (some a₁.length)) := by
            rw [Ini.getRound, if_pos hlt, window_get, List.headD_cons, if_neg hopen, hstring, hnext]
            exact if_pos (hsame.2 hmatch)
          refine ⟨_, (returns_done hround).2 rfl, ?_⟩
          rw [if_pos hmatch, Option.map_some, hvalue]
        · have hround : (window a (c :: b)).getRound sec key (cur, a.length) =
              some (.next (cur, a₂.length)) := by
            rw [Ini.getRound, if_pos hlt, window_get, List.headD_cons, if_neg hopen, hstring, hnext,
              ← hnext', ← hwin]
            exact if_neg (mt hsame.1 hmatch)
          have hlen : (behind (behind (c :: b))).length < n :=
            hn ▸ Nat.lt_of_le_of_lt (length_behind_le _) (length_behind c hc b)
          obtain ⟨val, hval, hlookup⟩ := ih _ hlen (a := a₂) hcur (behind_head _) rfl
          rw [← hwin', ← hwin] at hval hlookup
          refine ⟨val, (returns_next hround).2 hval, ?_⟩
          rw [hlookup, if_neg hmatch]

theorem gets_window {sec : Option Str} (hkey : 0 ∉ key) (hsec : ∀ name, sec = some name → 0 ∉ name)
    (d : Str) : (window d []).Gets sec key (lookup sec key [] (roles (tokens d))) := by
  have hwin : window d [] = window [] d := by
    rw [← List.nil_append d, ← window_append, List.append_nil, List.nil_append]
  rw [hwin, Ini.Gets, Ini.start]
  have hget := window_get [] d
  rw [List.length_nil] at hget
  rw [hget]
  split
  case isTrue hzero =>
    obtain ⟨a, ha, hnext⟩ := next_window [] d
    rw [List.length_nil] at hnext
    have htokens : tokens (behind d) = tokens d := by
      cases d with
      | nil => rfl
      | cons c d =>
        obtain rfl : c = 0 := hzero
        exact tokens_dropZeros (0 :: d)
    rw [hnext, ha, ← htokens]
    exact getRound_window hkey hsec List.not_mem_nil (behind_head d)
  case isFalse hne =>
    refine getRound_window (a := []) hkey hsec List.not_mem_nil ?_
    intro c hc
    cases d with
    | nil => cases hc
    | cons e d =>
      cases hc
      exact hne

/-- No key is empty or looks like a section, and no value is empty. -/
def Item.Proper : Item → Prop
  | .header _ => True
  | .entry key value => key ≠ [] ∧ key.head? ≠ some OPEN ∧ value ≠ []
  | .stray value => value ≠ []

theorem readLine_proper (hopen : c ≠ OPEN) : ∀ item ∈ readLine (c :: line), item.Proper := by
  intro item hitem
  rw [readLine] at hitem
  split at hitem
  case isFalse => cases hitem
  case isTrue =>
    dsimp only at hitem
    split at hitem
    case isTrue => cases hitem
    case isFalse hvalue =>
      split at hitem
      case isTrue =>
        obtain rfl := List.mem_singleton.1 hitem
        exact hvalue
      case isFalse hkey =>
        obtain rfl := List.mem_singleton.1 hitem
        refine ⟨hkey, ?_, hvalue⟩
        intro hhead
        obtain ⟨rest, hrest⟩ := (List.rdropWhile_prefix blank
          ((c :: line).takeWhile (· ≠ EQUALS))).trans (List.takeWhile_prefix (· ≠ EQUALS))
        have hline := congrArg List.head? hrest
        rw [List.head?_append_of_ne_nil _ hkey, hhead] at hline
        exact hopen (Option.some.inj hline).symm

theorem lineItems_proper (line : Str) : ∀ item ∈ lineItems line, item.Proper := by
  fun_induction lineItems line with
  | case1 => exact List.forall_mem_nil _
  | case2 c line _ ih => exact ih
  | case3 line _ ih => exact List.forall_mem_cons.2 ⟨trivial, ih⟩
  | case4 => exact List.forall_mem_nil _
  | case5 c line _ hopen => exact readLine_proper hopen

theorem items_proper (content : Str) : ∀ item ∈ items content, item.Proper := by
  intro item hitem
  obtain ⟨line, _, hline⟩ := List.mem_flatMap.1 hitem
  exact lineItems_proper line item hline

/-- The strings of well-formed items are taken for what they are. -/
theorem roles_flatMap {items : List Item} (hproper : ∀ item ∈ items, item.Proper)
    (hformed : ∀ item ∈ items, item.wellFormed = true) :
    roles (items.flatMap Item.tokens) = items := by
  induction items with
  | nil => rfl
  | cons item items ih =>
    obtain ⟨hitem, hitems⟩ := List.forall_mem_cons.1 hproper
    obtain ⟨hform, hforms⟩ := List.forall_mem_cons.1 hformed
    have hrest := ih hitems hforms
    rw [List.flatMap_cons]
    cases item with
    | header name => exact (roles_header name _).trans (congrArg (Item.header name :: ·) hrest)
    | entry key value =>
      rw [Item.tokens, List.cons_append, List.singleton_append, roles, if_neg hitem.2.1, hrest]
    | stray => cases hform

/-- Where no value is missing, the strings are those of what they are taken for. -/
theorem flatMap_roles {strings : List Str} (h : ∀ item ∈ roles strings, item.Proper) :
    (roles strings).flatMap Item.tokens = strings := by
  fun_induction roles strings with
  | case1 => rfl
  | case2 token strings hopen ih =>
    obtain ⟨c, t, rfl⟩ := List.exists_cons_of_ne_nil (l := token) (by rintro rfl; cases hopen)
    cases hopen
    rw [List.flatMap_cons, ih (List.forall_mem_cons.1 h).2]
    rfl
  | case3 token _ => exact absurd rfl (h _ List.mem_cons_self).2.2
  | case4 token _ value strings ih =>
    rw [List.flatMap_cons, ih (List.forall_mem_cons.1 h).2]
    rfl

theorem length_wellFormed (items : List Item) :
    ((items.filter Item.wellFormed).flatMap Item.tokens).length +
      items.countP (fun item => !item.wellFormed) = (items.flatMap Item.tokens).length := by
  induction items with
  | nil => rfl
  | cons item items ih =>
    rw [List.flatMap_cons, List.length_append, ← ih]
    cases item with
    | header name =>
      rw [List.filter_cons_of_pos rfl, List.flatMap_cons, List.length_append,
        List.countP_cons_of_neg Bool.false_ne_true, Nat.add_assoc]
    | entry key value =>
      rw [List.filter_cons_of_pos rfl, List.flatMap_cons, List.length_append,
        List.countP_cons_of_neg Bool.false_ne_true, Nat.add_assoc]
    | stray value =>
      rw [List.filter_cons_of_neg Bool.false_ne_true, List.countP_cons_of_pos (by rfl),
        ← Nat.add_assoc, Nat.add_comm]
      rfl

/-- `ini_get` returns the value of the first well-formed line for every section and key, and takes
no string for what it is not, for the files without a value that has no key. -/
theorem gets_wanted_iff (content : Text) :
    (∃ ini, Splits content.1 ini ∧
      roles (tokens ini.data) = (items content.1).filter Item.wellFormed ∧
      ∀ (sec : Option Text) (key : Text), ini.Gets (sec.map Subtype.val) key.1
        (wanted content.1 (sec.map Subtype.val) key.1)) ↔
      ∀ value, Item.stray value ∉ items content.1 := by
  obtain ⟨d, hd, hsplits⟩ := splits_load content.2
  have hdata : tokens (window d []).data = (items content.1).flatMap Item.tokens :=
    (tokens_concat d).trans hd
  constructor
  · rintro ⟨ini, hini, hroles, _⟩ value hvalue
    obtain rfl := Returns.unique hsplits hini
    have hproper : ∀ item ∈ roles (tokens (window d []).data), item.Proper := by
      rw [hroles]
      exact fun item hitem => items_proper content.1 item (List.mem_filter.1 hitem).1
    have hlength := length_wellFormed (items content.1)
    rw [← hroles, flatMap_roles hproper, hdata] at hlength
    have hpos : 0 < (items content.1).countP fun item => !item.wellFormed :=
      List.countP_pos_iff.2 ⟨_, hvalue, rfl⟩
    omega
  · intro hstray
    have hformed : ∀ item ∈ items content.1, item.wellFormed = true := by
      intro item hitem
      cases item with
      | header => rfl
      | entry => rfl
      | stray value => exact absurd hitem (hstray value)
    have hroles : roles (tokens d) = items content.1 := by
      rw [hd, roles_flatMap (items_proper content.1) hformed]
    refine ⟨_, hsplits, ?_, fun sec key => ?_⟩
    · rw [hdata, ← hd, hroles, List.filter_eq_self.2 hformed]
    · have hsec : ∀ name, sec.map Subtype.val = some name → 0 ∉ name := by
        intro name hname
        obtain ⟨text, _, rfl⟩ := Option.map_eq_some_iff.1 hname
        exact text.2
      rw [wanted, ← hroles]
      exact gets_window key.2 hsec d

/-- A value without a key is taken for a key, and the key of the next line for its value. -/
theorem not_gets_wanted : ¬ ∃ ini, Splits [61, 32, 118, 10, 107, 32, 61, 32, 120, 10] ini ∧
    ∀ (sec : Option Text) (key : Text), ini.Gets (sec.map Subtype.val) key.1
      (wanted [61, 32, 118, 10, 107, 32, 61, 32, 120, 10] (sec.map Subtype.val) key.1) := by
  rintro ⟨ini, hini, hgets⟩
  have hsplits : Splits [61, 32, 118, 10, 107, 32, 61, 32, 120, 10]
      ⟨[0, 0, 118, 0, 107, 0, 0, 0, 120, 0, 0], 10⟩ := ⟨20, by decide +kernel⟩
  obtain rfl := Returns.unique hsplits hini
  obtain ⟨val, hval, hwanted⟩ := hgets none ⟨[107], by decide⟩
  have hnone : Returns (Ini.getRound ⟨[0, 0, 118, 0, 107, 0, 0, 0, 120, 0, 0], 10⟩ none [107])
      ([], 2) none := ⟨10, by decide +kernel⟩
  obtain rfl := Returns.unique hnone hval
  have hitems : items [61, 32, 118, 10, 107, 32, 61, 32, 120, 10] =
      [.stray [118], .entry [107] [120]] := by
    change items ([61, 32, 118] ++ LF :: ([107, 32, 61, 32, 120] ++ LF :: [])) = _
    rw [items_line (by decide), items_line (by decide), items_last (by decide), lineItems,
      lineItems, lineItems]
    decide +kernel
  rw [wanted, hitems] at hwanted
  revert hwanted
  decide +kernel

end BigBox.IniConfig2
