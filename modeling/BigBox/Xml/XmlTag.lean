import BigBox.Xml.XmlConfig
import BigBox.Lib.CString

namespace BigBox.Xml
set_option autoImplicit true

/-- A name without blanks, colons and markup. -/
def NameOk (s : Str) : Prop :=
  s ≠ [] ∧ ∀ c ∈ s, c ∉ [0, SPACE, BANG, SLASH, COLON, LT, GT, QUESTION]

/-- A text without markup. -/
def TextOk (s : Str) : Prop := ∀ c ∈ s, c ∉ [0, LT, GT]

/-- The names of an element and its attributes as the document has them. -/
structure Tag.Valid (tag : Tag) : Prop where
  pfx : ∀ pfx ∈ tag.pfx, NameOk pfx
  name : NameOk tag.name
  attr : ∀ attr ∈ tag.attr, TextOk attr

/-- The start of the namespace declaration of an element with a prefix or without one. -/
def nsMarkup (pfx : Option Str) : Str :=
  match pfx with
  | some pfx => XMLNS ++ COLON :: pfx
  | none => XMLNS

/-- The quote behind the first `=`, if there is a single one. -/
def nsQuote (nsFront : Str) : UInt8 :=
  if ((strchr EQUALS nsFront).bind fun equals => equals.tail.head?) = some QUOTE1 then QUOTE1
  else QUOTE2

/-- The attributes of an element are kept: they do not start or end with a blank, nor end with a
slash, and a namespace declaration in them is followed by `=` and its value in quotes. -/
structure AttrKept (pfx : Option Str) (attr : Str) : Prop where
  nonempty : attr ≠ []
  head : attr.head? ≠ some SPACE
  last : attr.getLast? ≠ some SPACE
  slash : attr.getLast? ≠ some SLASH
  declared : ∀ nsFront, strstr (nsMarkup pfx) (SPACE :: attr) = some nsFront →
    EQUALS ∈ nsFront ∧ 2 ≤ nsFront.count (nsQuote nsFront)

def Tag.Kept (tag : Tag) : Prop := ∀ attr ∈ tag.attr, AttrKept tag.pfx attr

section Strip

theorem strStrip_blank (s : Str) : strStrip (SPACE :: s) = strStrip s := rfl

theorem strStrip_eq_self (hne : s ≠ []) (hhead : s.head? ≠ some SPACE)
    (hlast : s.getLast? ≠ some SPACE) : strStrip s = some s := by
  have hdrop : s.dropWhile (· = SPACE) = s := by
    cases s with
    | nil => rfl
    | cons c s =>
      have hc : c ≠ SPACE := fun h => hhead (congrArg some h)
      exact List.dropWhile_cons_of_neg (by rwa [decide_eq_true_iff])
  have hrdrop : s.rdropWhile (· = SPACE) = s := by
    apply rdropWhile_eq_self
    intro c hc
    rw [decide_eq_false_iff_not]
    rintro rfl
    exact hlast hc
  rw [strStrip, hdrop, hrdrop, if_neg hne]

theorem strStrip_sublist (h : strStrip s = some t) : t.Sublist s := by
  rw [strStrip] at h
  split at h
  case isTrue => cases h
  case isFalse =>
    cases h
    exact (List.rdropWhile_prefix _ _).sublist.trans (List.dropWhile_sublist _)

theorem NameOk.not_mem (h : NameOk s) (hc : c ∈ [0, SPACE, BANG, SLASH, COLON, LT, GT, QUESTION]) :
    c ∉ s := fun hmem => h.2 c hmem hc

theorem NameOk.strip (h : NameOk s) : strStrip s = some s := by
  have hspace : SPACE ∉ s := h.not_mem (by decide)
  apply strStrip_eq_self h.1
  · exact fun hhead => hspace (List.mem_of_head? hhead)
  · exact fun hlast => hspace (List.mem_of_getLast? hlast)

end Strip

section Namespaces

theorem strchr_isSome (c : UInt8) (s : Str) : (strchr c s).isSome ↔ c ∈ s := by
  by_cases h : c ∈ s
  · obtain ⟨a, b, rfl, ha⟩ := List.eq_append_cons_of_mem h
    rw [strchr_at ha]
    exact iff_of_true rfl h
  · rw [strchr_none h]
    exact iff_of_false Bool.false_ne_true h

/-- A declaration has a value when there are `=` and two quotes. -/
theorem nsUri_isSome (ns : Str) :
    (nsUri ns).isSome ↔ EQUALS ∈ ns ∧ 2 ≤ ns.count (nsQuote ns) := by
  rw [← strchr_isSome, nsUri, nsQuote]
  cases hequals : strchr EQUALS ns with
  | none => exact iff_of_false Bool.false_ne_true fun h => Bool.false_ne_true h.1
  | some equals =>
    simp only [Option.bind_eq_bind, Option.bind_some, Option.isSome_some, true_and]
    generalize (if equals.tail.head? = some QUOTE1 then QUOTE1 else QUOTE2) = sep
    by_cases hsep : sep ∈ ns
    · obtain ⟨a, b, rfl, ha⟩ := List.eq_append_cons_of_mem hsep
      have hcount : (a ++ sep :: b).count sep = b.count sep + 1 := by
        rw [List.count_append, List.count_eq_zero_of_not_mem ha, List.count_cons_self, Nat.zero_add]
      rw [strchr_at ha, Option.bind_some, List.tail_cons, hcount, Nat.succ_le_succ_iff,
        Nat.succ_le_iff, List.count_pos_iff, ← strchr_isSome]
      cases strchr sep b with
      | none => exact Iff.rfl
      | some rear => exact iff_of_true rfl rfl
    · rw [strchr_none hsep, List.count_eq_zero_of_not_mem hsep]
      exact iff_of_false Bool.false_ne_true (by decide)

end Namespaces

section Parse

/-- The text between `<` and `>`. -/
def Tag.text (tag : Tag) : Str :=
  match tag.attr with
  | some attr => tag.qname ++ SPACE :: attr
  | none => tag.qname

theorem strchr_length {c : UInt8} {s r : Str} (h : strchr c s = some r) : r.length ≤ s.length := by
  obtain ⟨a, t, rfl, rfl, _⟩ := strchr_some h
  rw [List.length_append]
  exact Nat.le_add_left _ _

/-- A colon among the attributes is behind a blank. -/
theorem not_havePrefix (h : COLON ∉ name) (hspace : SPACE ∉ name) (attr : Str) :
    havePrefix (strchr COLON (name ++ SPACE :: attr)) (strchr SPACE (name ++ SPACE :: attr)) =
      false := by
  rw [strchr_append h, strchr_at hspace, strchr, if_neg (by decide)]
  cases hcolon : strchr COLON attr with
  | none => rfl
  | some rest =>
    have hle := strchr_length hcolon
    rw [havePrefix, decide_eq_false_iff_not, Nat.not_lt]
    exact Nat.le_succ_of_le hle

/-- The attributes read are a part of the tag. -/
theorem parseTag_attr_sublist (h : parseTag s = some tag) : ∀ attr ∈ tag.attr, attr.Sublist s := by
  have hname : ∀ {pfx rest nsFront}, parseName pfx rest nsFront = some tag → rest.Sublist s →
      ∀ attr ∈ tag.attr, attr.Sublist s := by
    intro pfx rest nsFront hparse hrest attr hattr
    rw [parseName.eq_def] at hparse
    split at hparse
    case h_1 tagSep hsep =>
      obtain ⟨name, _, rfl⟩ := Option.map_eq_some_iff.1 hparse
      obtain ⟨a, t, hsplit, rfl, _⟩ := strchr_some hsep
      have hsub := strStrip_sublist hattr
      exact hsub.trans ((hsplit ▸ List.sublist_append_right a _).trans hrest)
    case h_2 tagSep nsFront hsep =>
      obtain ⟨name, _, hparse⟩ := Option.bind_eq_some_iff.1 hparse
      obtain ⟨uri, _, rfl⟩ := Option.map_eq_some_iff.1 hparse
      obtain ⟨a, t, hsplit, rfl, _⟩ := strchr_some hsep
      have hsub := strStrip_sublist hattr
      exact hsub.trans ((hsplit ▸ List.sublist_append_right a _).trans hrest)
    case h_3 =>
      obtain ⟨name, _, rfl⟩ := Option.map_eq_some_iff.1 hparse
      cases hattr
    case h_4 => cases hparse
  rw [parseTag] at h
  split at h
  case isTrue =>
    obtain ⟨prefixChar, hcolon, h⟩ := Option.bind_eq_some_iff.1 h
    obtain ⟨pfx, _, h⟩ := Option.bind_eq_some_iff.1 h
    obtain ⟨a, t, hsplit, rfl, _⟩ := strchr_some hcolon
    apply hname h
    rw [hsplit]
    exact (List.sublist_cons_self _ _).trans (List.sublist_append_right a _)
  case isFalse => exact hname h (List.Sublist.refl s)

end Parse

end BigBox.Xml
