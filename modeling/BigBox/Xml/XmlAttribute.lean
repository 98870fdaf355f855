import BigBox.Lib.FiniteMap
import BigBox.Xml.XmlTag

namespace BigBox.Xml
set_option autoImplicit true

/-- Memory of a size that is an `unsigned int` and is filled to its end. -/
def room (size : Nat) : Option Unit := if size < 4294967296 then some () else none

/-- `str_strip` with the lengths it has in C: a null pointer where all is blank, and no result where
the length of the copy does not fit. -/
def stripText (str : Str) : Option (Option Str) :=
  match strStrip (str.take (unsigned str.length)) with
  | none => some none
  | some strip => (copyText strip strip.length).map some

/-- A namespace declaration also sets the `uri`. -/
def setUri (node : Tag) (attr value : Str) : Option Tag :=
  let nsTag := match node.pfx with
    | some pfx => XMLNS.tail ++ COLON :: pfx
    | none => XMLNS.tail
  (room (nsTag.length + 1)).bind fun _ =>
    if nsTag = attr then
      (room (value.length + 1)).map fun _ => { node with uri := some value }
    else some node

/-- An attribute with one kind of quote: where the blank in front of it is, if it is not at the
start, and what is behind the quote. -/
def findQuote (q : UInt8) (attr all : Str) : Option (Option Str × Str) :=
  let pat := attr ++ [EQUALS, q]
  match strstr (SPACE :: pat) all with
  | some pos => some (some pos, pos.drop (pat.length + 1))
  | none => if strstr pat all = some all then some (none, all.drop pat.length) else none

/-- A single quote is tried first. -/
def findAttr (attr all : Str) : Option (UInt8 × Option Str × Str) :=
  match findQuote QUOTE1 attr all with
  | some place => some (QUOTE1, place)
  | none => (findQuote QUOTE2 attr all).map fun place => (QUOTE2, place)

def joinText (attrP1 : Option Str) (newAttr : Str) (attrP2 : Option Str) : Str :=
  match attrP1, attrP2 with
  | some attrP1, some attrP2 => attrP1 ++ SPACE :: (newAttr ++ SPACE :: attrP2)
  | some attrP1, none => attrP1 ++ SPACE :: newAttr
  | none, some attrP2 => newAttr ++ SPACE :: attrP2
  | none, none => newAttr

/-- The attributes with a new one among them. -/
def putAttr (attr newAttr all : Str) : Option Str :=
  match findAttr attr all with
  | none => some (all ++ SPACE :: newAttr)
  | some (q, attrPos, front) =>
    (match attrPos with
      | some attrPos => stripText (between all attrPos)
      | none => some none).bind fun attrP1 =>
        (strchr q front).bind fun rear =>
          (stripText rear.tail).map fun attrP2 => joinText attrP1 newAttr attrP2

def valueQuote (value : Str) : UInt8 := if QUOTE2 ∈ value then QUOTE1 else QUOTE2

/-- What a name and a value are written as. -/
def newAttr (attr value : Str) : Str :=
  attr ++ EQUALS :: valueQuote value :: (value ++ [valueQuote value])

def xmlSetAttribute (node : Tag) (attr value : Str) : Option Tag :=
  (setUri node attr value).bind fun node =>
    (room (attr.length + value.length + 4)).bind fun _ =>
      match node.attr with
      | none => some { node with attr := some (newAttr attr value) }
      | some all => (room (attr.length + 4)).bind fun _ =>
        (putAttr attr (newAttr attr value) all).bind fun allAttr =>
          (room (allAttr.length + 1)).map fun _ => { node with attr := some allAttr }

/-- No value is a null pointer. -/
def xmlGetAttribute (node : Tag) (attr : Str) : Option (Option Str) :=
  match node.attr with
  | none => some none
  | some all => (room (attr.length + 4)).bind fun _ =>
    match findAttr attr all with
    | none => some none
    | some (q, _, front) => (strchr q front).bind fun rear =>
      (copyText front (front.length - rear.length)).map some

/-- A name without blanks, quotes and equals signs. -/
abbrev AttrName := { s : Str // SPACE ∉ s ∧ QUOTE1 ∉ s ∧ QUOTE2 ∉ s ∧ EQUALS ∉ s }

/-- A value without one of the quotes. -/
abbrev AttrValue := { s : Str // ¬ (QUOTE1 ∈ s ∧ QUOTE2 ∈ s) }

structure Attr where
  name : AttrName
  value : AttrValue
  deriving DecidableEq

def Attr.quote (e : Attr) : UInt8 := valueQuote e.value.1

def Attr.text (e : Attr) : Str := newAttr e.name.1 e.value.1

/-- Attributes with a blank in front of each. -/
def spaced (l : List Attr) : Str := l.flatMap fun e => SPACE :: e.text

def attrText : List Attr → Option Str
  | [] => none
  | e :: l => some (e.text ++ spaced l)

/-- The attribute is set in its place, or behind the others. -/
def setEntry (l : List Attr) (e : Attr) : List Attr :=
  if e.name ∈ l.map Attr.name then l.map fun o => if o.name = e.name then e else o else l ++ [e]

/-- What the search for a name with a quote looks for. -/
def pattern (q : UInt8) (name : Str) : Str := SPACE :: (name ++ [EQUALS, q])

/-- A name with a quote is read in the value of an attribute, or across its end. -/
def Lookalike (q : UInt8) (name : AttrName) (e : Attr) : Prop :=
  pattern q name.1 <:+: e.value.1 ++ [e.quote]

/-- The name is found before it is read in the last of some first attributes: it has an attribute
with a single quote, which is looked for first, or one behind the first of them with this quote. -/
def Shadowed (l first : List Attr) (name : AttrName) (q : UInt8) : Prop :=
  (q = QUOTE2 ∧ ∃ o ∈ l, o.name = name ∧ o.quote = QUOTE1) ∨
    ∃ o ∈ first.tail, o.name = name ∧ o.quote = q

/-- No search ends in a value. -/
def Clear (l : List Attr) : Prop :=
  ∀ a e b, l = a ++ e :: b → ∀ name q, q = QUOTE1 ∨ q = QUOTE2 → Lookalike q name e →
    Shadowed l (a ++ [e]) name q

section text
variable {e o : Attr} {q : UInt8} {name : AttrName} {rest : Str}

theorem Attr.quote_or (e : Attr) : e.quote = QUOTE1 ∨ e.quote = QUOTE2 := by
  rw [Attr.quote, valueQuote]
  split
  · exact .inl rfl
  · exact .inr rfl

theorem Attr.quote_not_mem (e : Attr) : e.quote ∉ e.value.1 := by
  rw [Attr.quote, valueQuote]
  split
  · next h => exact fun h' => e.value.2 ⟨h', h⟩
  · next h => exact h

theorem AttrName.quote_not_mem (name : AttrName) (hq : q = QUOTE1 ∨ q = QUOTE2) : q ∉ name.1 := by
  rcases hq with rfl | rfl
  · exact name.2.2.1
  · exact name.2.2.2.1

theorem Attr.text_append (e : Attr) (rest : Str) :
    e.text ++ rest = e.name.1 ++ EQUALS :: e.quote :: (e.value.1 ++ e.quote :: rest) := by
  rw [Attr.text, newAttr, List.append_assoc]
  simp only [List.cons_append, List.append_assoc, List.nil_append]
  rfl

/-- The search goes past an attribute that the name is not read in. -/
theorem strstr_past_text (h : ¬ Lookalike q name e) :
    strstr (pattern q name.1) (e.text ++ rest) = strstr (pattern q name.1) rest := by
  have hlast : e.quote ∉ (pattern q name.1).dropLast := by
    have hpat : (pattern q name.1).dropLast = SPACE :: (name.1 ++ [EQUALS]) := by
      have happend : pattern q name.1 = (SPACE :: (name.1 ++ [EQUALS])) ++ [q] := by
        rw [List.cons_append, List.append_assoc]
        rfl
      rw [happend, List.dropLast_concat]
    rw [hpat]
    intro hmem
    have hquote := e.quote_or
    rcases List.mem_cons.1 hmem with hs | hmem
    · rw [hs] at hquote
      exact absurd hquote (by decide)
    · rcases List.mem_append.1 hmem with hn | heq
      · exact name.quote_not_mem hquote hn
      · rw [List.mem_singleton.1 heq] at hquote
        exact absurd hquote (by decide)
  have hfront : SPACE ∉ e.name.1 ++ [EQUALS, e.quote] := by
    intro hmem
    rcases List.mem_append.1 hmem with hn | hmem
    · exact e.name.2.1 hn
    · rcases e.quote_or with hq | hq
      · rw [hq] at hmem
        exact absurd hmem (by decide)
      · rw [hq] at hmem
        exact absurd hmem (by decide)
  have htext : e.text ++ rest =
      e.name.1 ++ [EQUALS, e.quote] ++ (e.value.1 ++ e.quote :: rest) := by
    rw [e.text_append, List.append_assoc]
    rfl
  rw [htext, pattern, strstr_append hfront]
  exact strstr_past hlast h rest

/-- The name and the quote are those of the attribute. -/
def Attr.Own (e : Attr) (name : AttrName) (q : UInt8) : Prop := e.name = name ∧ e.quote = q

theorem prefix_text_iff : name.1 ++ [EQUALS, q] <+: e.text ++ rest ↔ e.Own name q := by
  rw [e.text_append]
  constructor
  · rintro ⟨t, ht⟩
    rw [List.append_assoc] at ht
    obtain ⟨hname, hquote⟩ := append_cons_inj name.2.2.2.2 e.name.2.2.2.2 ht
    exact ⟨Subtype.ext hname.symm, (List.cons.inj hquote).1.symm⟩
  · rintro ⟨rfl, rfl⟩
    refine ⟨e.value.1 ++ e.quote :: rest, ?_⟩
    rw [List.append_assoc]
    rfl

theorem strstr_other (h : ¬ Lookalike q name e) (hown : ¬ e.Own name q) :
    strstr (pattern q name.1) (SPACE :: (e.text ++ rest)) = strstr (pattern q name.1) rest := by
  refine (strstr_cons ?_).trans (strstr_past_text h)
  intro hpre
  exact hown (prefix_text_iff.1 (List.cons_prefix_cons.1 hpre).2)

theorem strstr_own (hown : e.Own name q) :
    strstr (pattern q name.1) (SPACE :: (e.text ++ rest)) = some (SPACE :: (e.text ++ rest)) :=
  if_pos (List.cons_prefix_cons.2 ⟨rfl, prefix_text_iff.2 hown⟩)

theorem spaced_cons (e : Attr) (l : List Attr) :
    spaced (e :: l) = SPACE :: (e.text ++ spaced l) := by
  rw [spaced, List.flatMap_cons, List.cons_append]
  rfl

theorem spaced_nil : spaced [] = [] := rfl

theorem spaced_append (a b : List Attr) : spaced (a ++ b) = spaced a ++ spaced b :=
  List.flatMap_append

theorem strstr_spaced (l : List Attr) (h : ∀ o ∈ l, ¬ Lookalike q name o ∧ ¬ o.Own name q)
    (rest : Str) :
    strstr (pattern q name.1) (spaced l ++ rest) = strstr (pattern q name.1) rest := by
  induction l with
  | nil => rfl
  | cons o l ih =>
    obtain ⟨ho, hl⟩ := List.forall_mem_cons.1 h
    rw [spaced_cons, List.cons_append, List.append_assoc, strstr_other ho.1 ho.2, ih hl]

end text

section find
variable {first e o : Attr} {a b l : List Attr} {q : UInt8} {name : AttrName}

theorem findQuote_none (hfirst : ¬ Lookalike q name first) (hown : ¬ first.Own name q)
    (h : ∀ o ∈ l, ¬ Lookalike q name o ∧ ¬ o.Own name q) :
    findQuote q name.1 (first.text ++ spaced l) = none := by
  have hrest := strstr_spaced l h []
  rw [List.append_nil] at hrest
  have hsearch : strstr (SPACE :: (name.1 ++ [EQUALS, q])) (first.text ++ spaced l) = none :=
    (strstr_past_text hfirst).trans hrest
  have hstart : strstr (name.1 ++ [EQUALS, q]) (first.text ++ spaced l) ≠
      some (first.text ++ spaced l) := by
    intro hsome
    obtain ⟨c, t, hc, ht⟩ := strstr_some hsome
    exact hown (prefix_text_iff.1 ⟨t, ht.symm⟩)
  rw [findQuote, hsearch]
  exact if_neg hstart

theorem findQuote_first (hfirst : ¬ Lookalike q name first) (hown : first.Own name q)
    (h : ∀ o ∈ l, ¬ Lookalike q name o ∧ ¬ o.Own name q) :
    findQuote q name.1 (first.text ++ spaced l) = some (none, first.value.1 ++ q :: spaced l) := by
  have hrest := strstr_spaced l h []
  rw [List.append_nil] at hrest
  have hsearch : strstr (SPACE :: (name.1 ++ [EQUALS, q])) (first.text ++ spaced l) = none :=
    (strstr_past_text hfirst).trans hrest
  obtain ⟨rfl, rfl⟩ := hown
  have htext : first.text ++ spaced l =
      first.name.1 ++ [EQUALS, first.quote] ++ (first.value.1 ++ first.quote :: spaced l) := by
    rw [first.text_append, List.append_assoc]
    rfl
  rw [findQuote, hsearch]
  dsimp only
  rw [htext, strstr_self, if_pos rfl, List.drop_left]

theorem findQuote_at (hfirst : ¬ Lookalike q name first)
    (h : ∀ o ∈ a, ¬ Lookalike q name o ∧ ¬ o.Own name q) (hown : e.Own name q) :
    findQuote q name.1 (first.text ++ spaced (a ++ e :: b)) =
      some (some (spaced (e :: b)), e.value.1 ++ q :: spaced b) := by
  have hsearch : strstr (SPACE :: (name.1 ++ [EQUALS, q])) (first.text ++ spaced (a ++ e :: b)) =
      some (SPACE :: (e.text ++ spaced b)) := by
    rw [spaced_append, spaced_cons]
    exact (strstr_past_text hfirst).trans ((strstr_spaced a h _).trans (strstr_own hown))
  obtain ⟨rfl, rfl⟩ := hown
  have htext : e.text ++ spaced b =
      e.name.1 ++ [EQUALS, e.quote] ++ (e.value.1 ++ e.quote :: spaced b) := by
    rw [e.text_append, List.append_assoc]
    rfl
  rw [findQuote, hsearch, spaced_cons]
  dsimp only
  rw [List.drop_succ_cons, htext, List.drop_left]

/-- No attribute has the name of another. -/
def Distinct (l : List Attr) : Prop := (l.map Attr.name).Nodup

theorem Distinct.eq (h : Distinct l) (ho : o ∈ l) (he : e ∈ l) (hname : o.name = e.name) : o = e :=
  List.inj_on_of_nodup_map h ho he hname

/-- A name without an attribute is read nowhere. -/
theorem Clear.absent (h : Clear l) (hname : name ∉ l.map Attr.name)
    (hq : q = QUOTE1 ∨ q = QUOTE2) : ∀ o ∈ l, ¬ Lookalike q name o ∧ ¬ o.Own name q := by
  have hno : ∀ o ∈ l, o.name ≠ name := by
    rintro o ho rfl
    exact hname (List.mem_map_of_mem ho)
  intro o ho
  refine ⟨fun hlook => ?_, fun hown => hno o ho hown.1⟩
  obtain ⟨a, b, hl⟩ := List.append_of_mem ho
  rcases h a o b hl name q hq hlook with ⟨_, x, hx, hname, _⟩ | ⟨x, hx, hname, _⟩
  · exact hno x hx hname
  · refine hno x ?_ hname
    rw [hl, List.append_cons]
    exact List.mem_append_left b (List.mem_of_mem_tail hx)

/-- An attribute with double quotes is not read with a single quote. -/
theorem Clear.double (h : Clear l) (hl : Distinct l) (he : e ∈ l) (hquote : e.quote = QUOTE2) :
    ∀ o ∈ l, ¬ Lookalike QUOTE1 e.name o ∧ ¬ o.Own e.name QUOTE1 := by
  have hno : ∀ o ∈ l, ¬ o.Own e.name QUOTE1 := by
    rintro o ho ⟨hname, hq⟩
    rw [hl.eq ho he hname, hquote] at hq
    exact absurd hq (by decide)
  intro o ho
  refine ⟨fun hlook => ?_, hno o ho⟩
  obtain ⟨a, b, heq⟩ := List.append_of_mem ho
  rcases h a o b heq e.name QUOTE1 (.inl rfl) hlook with ⟨hq, _⟩ | ⟨x, hx, hown⟩
  · exact absurd hq (by decide)
  · refine hno x ?_ hown
    rw [heq, List.append_cons]
    exact List.mem_append_left b (List.mem_of_mem_tail hx)

/-- The name of an attribute is not read in the attributes up to one of them, if its own is not
among the second to the last of these. -/
theorem Clear.before (h : Clear l) (hl : Distinct l) (he : e ∈ l) (hsplit : l = a ++ o :: b)
    (hnot : e ∉ (a ++ [o]).tail) : ¬ Lookalike e.quote e.name o := by
  intro hlook
  rcases h a o b hsplit e.name e.quote e.quote_or hlook with
    ⟨hq, x, hx, hname, hquote⟩ | ⟨x, hx, hname, _⟩
  · rw [hl.eq hx he hname, hq] at hquote
    exact absurd hquote (by decide)
  · apply hnot
    have hmem : x ∈ l := by
      rw [hsplit, List.append_cons]
      exact List.mem_append_left b (List.mem_of_mem_tail hx)
    rw [← hl.eq hmem he hname]
    exact hx

theorem Distinct.not_mem (h : Distinct (a ++ e :: b)) : e ∉ a ∧ e ∉ b := by
  have hnodup : (a ++ e :: b).Nodup := h.of_map
  rw [List.nodup_append, List.nodup_cons] at hnodup
  exact ⟨fun ha => hnodup.2.2 e ha e List.mem_cons_self rfl, hnodup.2.1.1⟩

theorem findAttr_none (h : Clear (first :: l)) (hname : name ∉ (first :: l).map Attr.name) :
    findAttr name.1 (first.text ++ spaced l) = none := by
  have hnone : ∀ q, q = QUOTE1 ∨ q = QUOTE2 →
      findQuote q name.1 (first.text ++ spaced l) = none := by
    intro q hq
    obtain ⟨hfirst, hrest⟩ := List.forall_mem_cons.1 (h.absent hname hq)
    exact findQuote_none hfirst.1 hfirst.2 hrest
  rw [findAttr, hnone _ (.inl rfl), hnone _ (.inr rfl)]
  rfl

/-- A search that ends at a place with the quote of the attribute is the whole search. -/
theorem findAttr_of_findQuote (h : Clear (first :: l)) (hl : Distinct (first :: l))
    (he : e ∈ first :: l)
    (hfind : findQuote e.quote e.name.1 (first.text ++ spaced l) = some place) :
    findAttr e.name.1 (first.text ++ spaced l) = some (e.quote, place) := by
  rw [findAttr]
  rcases e.quote_or with hq | hq
  · rw [hq] at hfind
    rw [hfind, hq]
  · obtain ⟨hfirst, hrest⟩ := List.forall_mem_cons.1 (h.double hl he hq)
    rw [hq] at hfind
    rw [findQuote_none hfirst.1 hfirst.2 hrest, hfind, hq]
    rfl

theorem findAttr_first (h : Clear (first :: l)) (hl : Distinct (first :: l)) :
    findAttr first.name.1 (first.text ++ spaced l) =
      some (first.quote, none, first.value.1 ++ first.quote :: spaced l) := by
  refine findAttr_of_findQuote h hl List.mem_cons_self ?_
  have hlook : ∀ a o b, first :: l = a ++ o :: b → ¬ Lookalike first.quote first.name o := by
    intro a o b hsplit
    refine h.before hl List.mem_cons_self hsplit fun hmem => ?_
    have hnot := (hl.not_mem (a := [])).2
    cases a with
    | nil => cases hmem
    | cons x a =>
      obtain ⟨rfl, hrest⟩ := List.cons.inj hsplit
      rw [List.cons_append, List.tail_cons] at hmem
      have hwhole : l = a ++ [o] ++ b := hrest.trans (List.append_cons a o b)
      rw [hwhole] at hnot
      exact hnot (List.mem_append_left b hmem)
  refine findQuote_first (hlook [] first l rfl) ⟨rfl, rfl⟩ fun o ho => ?_
  obtain ⟨a, b, rfl⟩ := List.append_of_mem ho
  refine ⟨hlook (first :: a) o b rfl, fun hown => ?_⟩
  have hsame := hl.eq (List.mem_cons_of_mem first ho) List.mem_cons_self hown.1
  have hmem : first ∈ a ++ o :: b := by
    rw [← hsame]
    exact ho
  exact (hl.not_mem (a := [])).2 hmem

theorem findAttr_at (h : Clear (first :: (a ++ e :: b))) (hl : Distinct (first :: (a ++ e :: b))) :
    findAttr e.name.1 (first.text ++ spaced (a ++ e :: b)) =
      some (e.quote, some (spaced (e :: b)), e.value.1 ++ e.quote :: spaced b) := by
  have he : e ∈ first :: (a ++ e :: b) :=
    List.mem_cons_of_mem _ (List.mem_append_right a List.mem_cons_self)
  refine findAttr_of_findQuote h hl he ?_
  have hnot := (Distinct.not_mem (a := first :: a) hl).1
  have hlook : ∀ o ∈ first :: a, ¬ Lookalike e.quote e.name o := by
    intro o ho
    obtain ⟨c, d, hsplit⟩ := List.append_of_mem ho
    have hwhole : first :: (a ++ e :: b) = c ++ o :: (d ++ e :: b) := by
      rw [← List.cons_append, hsplit, List.append_assoc]
      rfl
    refine h.before hl he hwhole fun hmem => hnot ?_
    rw [hsplit, List.append_cons]
    exact List.mem_append_left d (List.mem_of_mem_tail hmem)
  obtain ⟨hfirst, hrest⟩ := List.forall_mem_cons.1 hlook
  refine findQuote_at hfirst (fun o ho => ⟨hrest o ho, fun hown => ?_⟩) ⟨rfl, rfl⟩
  have hmem : o ∈ first :: (a ++ e :: b) := List.mem_cons_of_mem _ (List.mem_append_left _ ho)
  rw [hl.eq hmem he hown.1] at ho
  exact hnot (List.mem_cons_of_mem _ ho)

end find

section set
variable {first e call : Attr} {a b l : List Attr}

theorem text_head (e : Attr) (rest : Str) : (e.text ++ rest).head? ≠ some SPACE := by
  rw [e.text_append]
  intro h
  cases hname : e.name.1 with
  | nil =>
    rw [hname] at h
    exact absurd (Option.some.inj h) (by decide)
  | cons c s =>
    rw [hname] at h
    cases h
    exact e.name.2.1 (by rw [hname]; exact List.mem_cons_self)

theorem spaced_last (l : List Attr) : (spaced l).getLast? ≠ some SPACE := by
  induction l with
  | nil =>
    intro h
    cases h
  | cons e l ih =>
    rw [spaced_cons, e.text_append]
    cases l with
    | nil =>
      have hlast : (SPACE :: (e.name.1 ++ EQUALS :: e.quote ::
          (e.value.1 ++ e.quote :: spaced []))) =
          (SPACE :: (e.name.1 ++ EQUALS :: e.quote :: e.value.1)) ++ [e.quote] := by
        simp only [List.cons_append, List.append_assoc]
        rfl
      rw [hlast, List.getLast?_concat]
      rcases e.quote_or with hq | hq
      · rw [hq]
        decide
      · rw [hq]
        decide
    | cons o l =>
      have hlast : (SPACE :: (e.name.1 ++ EQUALS :: e.quote ::
          (e.value.1 ++ e.quote :: spaced (o :: l)))) =
          (SPACE :: (e.name.1 ++ EQUALS :: e.quote :: (e.value.1 ++ [e.quote]))) ++
            spaced (o :: l) := by
        simp only [List.cons_append, List.append_assoc]
        rfl
      have hne : spaced (o :: l) ≠ [] := by
        rw [spaced_cons]
        exact List.cons_ne_nil _ _
      rw [hlast, List.getLast?_append_of_ne_nil _ hne]
      exact ih

theorem text_ne_nil (e : Attr) (rest : Str) : e.text ++ rest ≠ [] := by
  rw [e.text_append]
  intro h
  cases (List.append_eq_nil_iff.1 h).2

theorem stripText_text (h : (spaced (e :: l)).length < 2147483648) :
    stripText (e.text ++ spaced l) = some (some (e.text ++ spaced l)) := by
  have hlast := spaced_last (e :: l)
  rw [spaced_cons] at h hlast
  rw [List.length_cons] at h
  have hstrip : strStrip (e.text ++ spaced l) = some (e.text ++ spaced l) := by
    apply strStrip_eq_self (text_ne_nil e _) (text_head e _)
    rw [← List.getLast?_cons_of_ne_nil (text_ne_nil e _)]
    exact hlast
  have hcopy := copyText_append (Nat.lt_of_succ_lt_succ h) []
  rw [List.append_nil] at hcopy
  rw [stripText, unsigned_of_lt (by omega), List.take_length, hstrip]
  dsimp only
  rw [hcopy]
  rfl

theorem stripText_spaced (h : (spaced l).length < 2147483648) :
    stripText (spaced l) = some (attrText l) := by
  cases l with
  | nil =>
    rw [stripText, spaced_nil, List.take_nil]
    rfl
  | cons e l =>
    have htext := stripText_text h
    rw [spaced_cons, List.length_cons] at h
    rw [stripText, unsigned_of_lt (by omega), List.take_length] at htext
    rw [stripText, spaced_cons, unsigned_of_lt (by rw [List.length_cons]; omega), List.take_length,
      strStrip_blank]
    exact htext

theorem joinText_eq (a : List Attr) (e : Attr) (b : List Attr) :
    some (joinText (attrText a) e.text (attrText b)) = attrText (a ++ e :: b) := by
  cases a with
  | nil =>
    cases b with
    | nil => exact congrArg some (List.append_nil e.text).symm
    | cons o b =>
      have htext : attrText (e :: o :: b) = some (e.text ++ SPACE :: (o.text ++ spaced b)) := by
        rw [attrText, spaced_cons]
      rw [List.nil_append, htext]
      rfl
  | cons first a =>
    have hrest : spaced (a ++ e :: b) = spaced a ++ SPACE :: (e.text ++ spaced b) := by
      rw [spaced_append, spaced_cons]
    rw [List.cons_append, attrText, attrText, hrest]
    cases b with
    | nil =>
      rw [spaced_nil, List.append_nil, ← List.append_assoc]
      rfl
    | cons o b =>
      rw [spaced_cons, ← List.append_assoc]
      rfl

theorem putAttr_absent (h : Clear (first :: l)) (hname : call.name ∉ (first :: l).map Attr.name) :
    putAttr call.name.1 call.text (first.text ++ spaced l) =
      attrText (first :: l ++ [call]) := by
  rw [putAttr, findAttr_none h hname]
  dsimp only
  rw [List.cons_append, attrText, spaced_append, spaced_cons, List.append_assoc, spaced_nil,
    List.append_nil]

theorem putAttr_present (h : Clear (a ++ e :: b)) (hl : Distinct (a ++ e :: b))
    (hname : e.name = call.name) (ha : (spaced a).length < 2147483648)
    (hb : (spaced b).length < 2147483648) (hall : attrText (a ++ e :: b) = some all) :
    putAttr call.name.1 call.text all = attrText (a ++ call :: b) := by
  rw [← hname]
  cases a with
  | nil =>
    cases hall
    rw [putAttr, findAttr_first h hl]
    dsimp only
    rw [Option.bind_some, strchr_at e.quote_not_mem, Option.bind_some, List.tail_cons,
      stripText_spaced hb]
    exact joinText_eq [] call b
  | cons first a =>
    obtain rfl : first.text ++ spaced (a ++ e :: b) = all := Option.some.inj hall
    rw [putAttr, findAttr_at h hl]
    dsimp only
    rw [spaced_append, ← List.append_assoc, between_append, stripText_text ha, Option.bind_some,
      strchr_at e.quote_not_mem, Option.bind_some, List.tail_cons, stripText_spaced hb]
    exact joinText_eq (first :: a) call b

theorem setEntry_present (hl : Distinct (a ++ e :: b)) (hname : e.name = call.name) :
    setEntry (a ++ e :: b) call = a ++ call :: b := by
  have hmem : call.name ∈ (a ++ e :: b).map Attr.name := by
    rw [← hname]
    exact List.mem_map_of_mem (List.mem_append_right a List.mem_cons_self)
  have he : e ∈ a ++ e :: b := List.mem_append_right a List.mem_cons_self
  have hkeep : ∀ c : List Attr, (∀ o ∈ c, o ∈ a ++ e :: b ∧ e ∉ c) →
      c.map (fun o => if o.name = call.name then call else o) = c := by
    intro c hc
    refine (List.map_congr_left (g := id) fun o ho => if_neg fun hsame => ?_).trans (List.map_id c)
    obtain ⟨hmem, hnot⟩ := hc o ho
    rw [hl.eq hmem he (hsame.trans hname.symm)] at ho
    exact hnot ho
  rw [setEntry, if_pos hmem, List.map_append, List.map_cons, if_pos hname,
    hkeep a fun o ho => ⟨List.mem_append_left _ ho, hl.not_mem.1⟩,
    hkeep b fun o ho => ⟨List.mem_append_right a (List.mem_cons_of_mem e ho), hl.not_mem.2⟩]

end set

/-- What a call needs of the attributes before it: that no search ends in a value behind it, and
that the lengths it works with do not overflow. -/
structure CallFits (pfx : Option Str) (l : List Attr) (call : Attr) : Prop where
  clear : Clear (setEntry l call)
  pfx : ∀ p ∈ pfx, p.length + 7 < 4294967296
  value : call.value.1.length < 2147483647
  all : (spaced (setEntry l call)).length < 4294967296
  parts : ∀ a e b, l = a ++ e :: b → e.name = call.name →
    (spaced a).length < 2147483648 ∧ (spaced b).length < 2147483648

def RunFits (pfx : Option Str) : List Attr → List Attr → Prop
  | _, [] => True
  | l, call :: calls => CallFits pfx l call ∧ RunFits pfx (setEntry l call) calls

/-- The attributes of a node are written one behind the other, in the order they came. -/
structure Holds (node : Tag) (l : List Attr) (m : Finmap fun _ : AttrName => AttrValue) :
    Prop where
  attr : node.attr = attrText l
  binds : Binds m Attr.name Attr.value l
  clear : Clear l
  values : ∀ e ∈ l, e.value.1.length < 2147483647

def setAll (node : Tag) (calls : List Attr) : Option Tag :=
  calls.foldlM (fun node call => xmlSetAttribute node call.name.1 call.value.1) node

/-- The values last set. -/
def lastValues (calls : List Attr) : Finmap fun _ : AttrName => AttrValue :=
  calls.foldl (fun m call => m.insert call.name call.value) ∅

section run
variable {node : Tag} {l : List Attr} {m : Finmap fun _ : AttrName => AttrValue} {call : Attr}

theorem room_of_lt (h : n < 4294967296) : room n = some () := if_pos h

/-- The attributes are not touched by a namespace declaration. -/
theorem setUri_some (hpfx : ∀ p ∈ node.pfx, p.length + 7 < 4294967296) (attr value : Str)
    (hvalue : value.length + 1 < 4294967296) :
    ∃ node', setUri node attr value = some node' ∧ node'.pfx = node.pfx ∧
      node'.attr = node.attr := by
  rw [setUri]
  have hroom : ∀ nsTag : Str, nsTag.length + 1 < 4294967296 →
      ∃ node', ((room (nsTag.length + 1)).bind fun _ =>
        if nsTag = attr then
          (room (value.length + 1)).map fun _ => { node with uri := some value }
        else some node) = some node' ∧ node'.pfx = node.pfx ∧ node'.attr = node.attr := by
    intro nsTag hlen
    rw [room_of_lt hlen, room_of_lt hvalue, Option.bind_some]
    split
    · exact ⟨_, rfl, rfl, rfl⟩
    · exact ⟨_, rfl, rfl, rfl⟩
  apply hroom
  cases hp : node.pfx with
  | none => decide
  | some pfx =>
    have hlen : (XMLNS.tail ++ COLON :: pfx).length = pfx.length + 6 := by
      rw [List.length_append, List.length_cons, Nat.add_comm]
      rfl
    have hfit := hpfx pfx hp
    dsimp only
    omega

theorem exists_of_name (h : call.name ∈ l.map Attr.name) :
    ∃ a e b, l = a ++ e :: b ∧ e.name = call.name := by
  obtain ⟨e, he, hname⟩ := List.mem_map.1 h
  obtain ⟨a, b, hl⟩ := List.append_of_mem he
  exact ⟨a, e, b, hl, hname⟩

theorem setEntry_binds (h : Binds m Attr.name Attr.value l) :
    Binds (m.insert call.name call.value) Attr.name Attr.value (setEntry l call) := by
  by_cases hname : call.name ∈ l.map Attr.name
  · obtain ⟨a, e, b, rfl, he⟩ := exists_of_name hname
    rw [setEntry_present h.nodup_keys he]
    have hnew : Binds (m.insert e.name call.value) Attr.name Attr.value (call :: (a ++ b)) :=
      h.replace List.perm_middle he.symm
    rw [he] at hnew
    exact hnew.perm List.perm_middle.symm
  · rw [setEntry, if_neg hname]
    have hnot : call.name ∉ m := h.notMem fun e he hsame => by
      rw [← hsame] at hname
      exact hname (List.mem_map_of_mem he)
    exact (h.insert hnot).perm (List.perm_append_singleton call l).symm

theorem mem_setEntry (h : o ∈ setEntry l call) : o ∈ l ∨ o = call := by
  rw [setEntry] at h
  split at h
  · obtain ⟨e, he, heq⟩ := List.mem_map.1 h
    split at heq
    · exact .inr heq.symm
    · rw [← heq]
      exact .inl he
  · exact (List.mem_append.1 h).imp_right List.mem_singleton.1

theorem putAttr_eq (h : Holds node l m) (hfits : CallFits pfx l call)
    (hall : node.attr = some all) :
    putAttr call.name.1 call.text all = attrText (setEntry l call) := by
  have hl : attrText l = some all := h.attr.symm.trans hall
  by_cases hname : call.name ∈ l.map Attr.name
  · obtain ⟨a, e, b, rfl, he⟩ := exists_of_name hname
    obtain ⟨ha, hb⟩ := hfits.parts a e b rfl he
    rw [setEntry_present h.binds.nodup_keys he]
    exact putAttr_present h.clear h.binds.nodup_keys he ha hb hl
  · cases l with
    | nil => cases hl
    | cons first l =>
      cases hl
      rw [setEntry, if_neg hname]
      exact putAttr_absent h.clear hname

theorem length_text (call : Attr) :
    call.text.length = call.name.1.length + call.value.1.length + 3 := by
  rw [Attr.text, newAttr, List.length_append, List.length_cons, List.length_cons,
    List.length_append, List.length_singleton]
  omega

theorem attrText_eq_some (h : attrText l = some all) : (spaced l).length = all.length + 1 := by
  cases l with
  | nil => cases h
  | cons e l =>
    cases h
    rw [spaced_cons, List.length_cons]

theorem mem_spaced (h : e ∈ l) : e.text.length + 1 ≤ (spaced l).length := by
  obtain ⟨a, b, rfl⟩ := List.append_of_mem h
  rw [spaced_append, spaced_cons, List.length_append, List.length_cons, List.length_append]
  omega

theorem call_mem_setEntry (l : List Attr) (call : Attr) : call ∈ setEntry l call := by
  rw [setEntry]
  split
  · next h =>
    obtain ⟨e, he, hname⟩ := List.mem_map.1 h
    exact List.mem_map.2 ⟨e, he, if_pos hname⟩
  · exact List.mem_append_right l (List.mem_singleton_self call)

theorem Holds.set (h : Holds node l m) (hfits : CallFits node.pfx l call) :
    ∃ node', xmlSetAttribute node call.name.1 call.value.1 = some node' ∧ node'.pfx = node.pfx ∧
      Holds node' (setEntry l call) (m.insert call.name call.value) := by
  have hvalue := hfits.value
  have hall := hfits.all
  have hnew := mem_spaced (call_mem_setEntry l call)
  rw [length_text] at hnew
  obtain ⟨node', huri, hpfx, hattr⟩ := setUri_some hfits.pfx call.name.1
    call.value.1 (by omega)
  have hvalues : ∀ e ∈ setEntry l call, e.value.1.length < 2147483647 := by
    intro e he
    rcases mem_setEntry he with he | rfl
    · exact h.values e he
    · exact hvalue
  rw [xmlSetAttribute, huri, Option.bind_some, room_of_lt (by omega), Option.bind_some]
  cases hold : node'.attr with
  | none =>
    rw [hattr, h.attr] at hold
    cases l with
    | nil => exact ⟨_, rfl, hpfx, (congrArg some (List.append_nil call.text)).symm,
        setEntry_binds h.binds, hfits.clear, hvalues⟩
    | cons e l => cases hold
  | some all =>
    rw [hattr] at hold
    obtain ⟨text, htext⟩ : ∃ text, attrText (setEntry l call) = some text := by
      cases hs : setEntry l call with
      | nil =>
        have hmem := call_mem_setEntry l call
        rw [hs] at hmem
        cases hmem
      | cons e l => exact ⟨_, rfl⟩
    have hput := (putAttr_eq h hfits hold).trans htext
    have hlen := attrText_eq_some htext
    dsimp only
    rw [room_of_lt (by omega), Option.bind_some]
    have hput' : putAttr call.name.1 (newAttr call.name.1 call.value.1) all = some text := hput
    rw [hput', Option.bind_some, room_of_lt (by omega)]
    exact ⟨_, rfl, hpfx, htext.symm, setEntry_binds h.binds, hfits.clear, hvalues⟩

theorem Holds.run (h : Holds node l m) (calls : List Attr) (hfits : RunFits node.pfx l calls) :
    ∃ node', setAll node calls = some node' ∧ Holds node' (calls.foldl setEntry l)
      (calls.foldl (fun m call => m.insert call.name call.value) m) := by
  induction calls generalizing node l m with
  | nil => exact ⟨node, rfl, h⟩
  | cons call calls ih =>
    obtain ⟨hcall, hrest⟩ := hfits
    obtain ⟨node', hset, hpfx, hnext⟩ := h.set hcall
    rw [← hpfx] at hrest
    obtain ⟨last, hlast, hholds⟩ := ih hnext hrest
    refine ⟨last, ?_, hholds⟩
    rw [setAll, List.foldlM_cons, hset]
    exact hlast

/-- A value is read back where its name is found. -/
theorem Holds.get (h : Holds node l m) (name : AttrName)
    (hroom : name.1.length + 4 < 4294967296 ∨ l = []) :
    xmlGetAttribute node name.1 = some ((m.lookup name).map Subtype.val) := by
  rw [xmlGetAttribute, h.attr]
  cases l with
  | nil =>
    have hempty : m.lookup name = none :=
      Finmap.lookup_eq_none.2 (h.binds.notMem fun e he => absurd he List.not_mem_nil)
    rw [hempty]
    rfl
  | cons first l =>
    have hsize : name.1.length + 4 < 4294967296 := hroom.resolve_right (List.cons_ne_nil first l)
    dsimp only [attrText]
    rw [room_of_lt hsize, Option.bind_some]
    by_cases hname : name ∈ (first :: l).map Attr.name
    · obtain ⟨e, he, rfl⟩ := List.mem_map.1 hname
      have hcopy := copyText_append (h.values e he)
      obtain ⟨a, b, hl⟩ := List.append_of_mem he
      have hperm : (first :: l).Perm (e :: (a ++ b)) := by
        rw [hl]
        exact List.perm_middle
      have hvalue : m.lookup e.name = some e.value := h.binds.lookup hperm
      have hfind : ∃ pos rest, findAttr e.name.1 (first.text ++ spaced l) =
          some (e.quote, pos, e.value.1 ++ e.quote :: rest) := by
        cases a with
        | nil =>
          cases hl
          exact ⟨_, _, findAttr_first h.clear h.binds.nodup_keys⟩
        | cons x a =>
          cases hl
          exact ⟨_, _, findAttr_at h.clear h.binds.nodup_keys⟩
      obtain ⟨pos, rest, hfind⟩ := hfind
      rw [hfind, hvalue]
      dsimp only
      rw [strchr_at e.quote_not_mem, Option.bind_some, List.length_append, Nat.add_sub_cancel,
        hcopy]
      rfl
    · have hempty : m.lookup name = none := by
        refine Finmap.lookup_eq_none.2 (h.binds.notMem fun e he hsame => hname ?_)
        rw [← hsame]
        exact List.mem_map_of_mem he
      rw [findAttr_none h.clear hname, hempty]
      rfl

end run

/-- After the calls a name has the value last set for it, and no value if there is none. A name that
is looked for in attributes has room in memory. -/
def Keeps (tag : Tag) (calls : List Attr) : Prop :=
  ∃ node, setAll tag calls = some node ∧
    ∀ name : AttrName, name.1.length + 4 < 4294967296 ∨ calls = [] →
      xmlGetAttribute node name.1 = some (((lastValues calls).lookup name).map Subtype.val)

theorem RunFits.of_append (h : RunFits pfx l (a ++ b)) : RunFits pfx l a := by
  induction a generalizing l with
  | nil => trivial
  | cons call a ih => exact ⟨h.1, ih h.2⟩

theorem holds_empty {tag : Tag} (h : tag.attr = none) : Holds tag [] ∅ where
  attr := h
  binds := binds_empty Attr.name Attr.value
  clear := by
    intro a e b hl
    cases (List.append_eq_nil_iff.1 hl.symm).2
  values := fun e he => absurd he List.not_mem_nil

/-- In every state of a run whose calls leave no search that ends in a value, every name has the
value last set. -/
theorem setAttribute_keeps (tag : Tag) (hattr : tag.attr = none) (calls : List Attr)
    (h : RunFits tag.pfx [] calls) (done : List Attr) (hdone : done <+: calls) :
    Keeps tag done := by
  obtain ⟨rest, rfl⟩ := hdone
  obtain ⟨node, hrun, hholds⟩ := (holds_empty hattr).run done h.of_append
  refine ⟨node, hrun, fun name hname => hholds.get name (hname.imp_right ?_)⟩
  rintro rfl
  rfl

/-- An element without attributes. -/
def bare : Tag := ⟨none, [97], none, none⟩

def letterX : Attr := ⟨⟨[120], by decide⟩, ⟨[49], by decide⟩⟩

theorem setAttribute_keeps_letter :
    bare.attr = none ∧ RunFits bare.pfx [] [letterX] ∧ Keeps bare [letterX] := by
  have hset : setEntry [] letterX = [letterX] := rfl
  have hclear : Clear [letterX] := by
    intro a e b hl name q _ hlook
    have he : e = letterX := by
      have hmem : e ∈ [letterX] := by
        rw [hl]
        exact List.mem_append_right a List.mem_cons_self
      exact List.mem_singleton.1 hmem
    have hspace : SPACE ∈ e.value.1 ++ [e.quote] := hlook.subset List.mem_cons_self
    rw [he] at hspace
    exact absurd hspace (by decide)
  have hfits : RunFits bare.pfx [] [letterX] := by
    refine ⟨⟨?_, ?_, by decide, ?_, ?_⟩, trivial⟩
    · rw [hset]
      exact hclear
    · intro p hp
      cases hp
    · rw [hset]
      decide
    · intro a e b hl
      cases (List.append_eq_nil_iff.1 hl.symm).2
  exact ⟨rfl, hfits, setAttribute_keeps bare rfl [letterX] hfits _ (List.prefix_refl _)⟩

/-- The value `1 y='2'`. -/
def embedding : Attr := ⟨⟨[120], by decide⟩, ⟨[49, 32, 121, 61, 39, 50, 39], by decide⟩⟩

def letterY : AttrName := ⟨[121], by decide⟩

/-- A name that was never set is read in a value. -/
theorem not_keeps : ¬ Keeps bare [embedding] := by
  rintro ⟨node, hrun, hget⟩
  have hnode : setAll bare [embedding] = some { bare with attr := some embedding.text } := by
    decide +kernel
  rw [hnode] at hrun
  cases hrun
  have hy := hget letterY (.inl (by decide))
  have hread : xmlGetAttribute { bare with attr := some embedding.text } letterY.1 =
      some (some [50]) := by
    decide +kernel
  have hnone : (lastValues [embedding]).lookup letterY = none := by decide +kernel
  rw [hread, hnone] at hy
  cases hy

end BigBox.Xml
