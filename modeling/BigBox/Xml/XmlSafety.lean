import BigBox.Xml.XmlDump
import Mathlib.Logic.Relation

namespace BigBox.Xml
set_option autoImplicit true

/-- Where the document starts behind its prolog. -/
def docStart (docBuf : Str) : Option Str :=
  (prologEnd [LT, QUESTION] (docBuf.length + 1) none docBuf).bind fun procInst =>
    (prologEnd [LT, BANG] (docBuf.length + 1) none docBuf).map fun comment =>
      if procInst.length < comment.length then procInst else comment

/-- A `>` stands behind every place of a markup. -/
def Closed (markup text : Str) : Prop := ∀ b, markup ++ b <:+ text → GT ∈ b

/-- What stands in front of the first blank. -/
def tagName (tag : Str) : Str := tag.takeWhile (· ≠ SPACE)

def prefixOf (name : Str) : Option Str :=
  if COLON ∈ name then some (name.takeWhile (· ≠ COLON)) else none

/-- A name is there, on both sides of its first colon if it has one. -/
structure Named (name : Str) : Prop where
  nonempty : name ≠ []
  head : name.head? ≠ some COLON
  last : strchr COLON name ≠ some [COLON]

/-- A tag has a name, and a namespace declaration in it has `=` and a value in quotes. -/
structure TagOk (tag : Str) : Prop where
  named : Named (tagName tag)
  declared : ∀ nsFront, strstr (nsMarkup (prefixOf (tagName tag))) tag = some nsFront →
    EQUALS ∈ nsFront ∧ 2 ≤ nsFront.count (nsQuote nsFront)

section prolog
variable {markup pos : Str}

theorem Closed.tail (h : Closed markup pos) (hd : d <:+ pos) : Closed markup d :=
  fun b hb => h b (hb.trans hd)

theorem closed_of_tail (hgt : GT ∉ markup) (hd : GT :: d <:+ pos) (h : Closed markup d) :
    Closed markup pos := by
  intro b hb
  rcases List.suffix_or_suffix_of_suffix hd hb with hsub | hsub
  · have hmem : GT ∈ markup ++ b := hsub.subset List.mem_cons_self
    exact (List.mem_append.1 hmem).resolve_left hgt
  · rcases List.suffix_cons_iff.1 hsub with heq | hsub
    · have hmem : GT ∈ markup ++ b := by
        rw [heq]
        exact List.mem_cons_self
      exact (List.mem_append.1 hmem).resolve_left hgt
    · exact h b hsub

theorem prologEnd_isSome (hgt : GT ∉ markup) (hne : markup ≠ []) (hn : pos.length < n)
    (found : Option Str) (hfound : found.isSome ∨ pos ≠ []) :
    (prologEnd markup n found pos).isSome ↔ Closed markup pos := by
  induction n generalizing pos found with
  | zero => exact (Nat.not_lt_zero _ hn).elim
  | succ n ih =>
    rw [prologEnd]
    split
    case isTrue hpos =>
      refine iff_of_true (hfound.resolve_right (not_not.2 hpos)) ?_
      intro b hb
      rw [hpos] at hb
      exact absurd (List.append_eq_nil_iff.1 (List.suffix_nil.1 hb)).1 hne
    case isFalse hpos =>
      cases hfront : strstr markup pos with
      | none =>
        refine iff_of_true rfl fun b hb => ?_
        have hin : markup <:+: pos := (List.prefix_append markup b).isInfix.trans hb.isInfix
        obtain ⟨c, d, _, hrun⟩ := strstr_inside hin
        have hsome := hrun []
        rw [List.append_nil, hfront] at hsome
        cases hsome
      | some front =>
        obtain ⟨a, t, rfl, rfl⟩ := strstr_some hfront
        dsimp only
        rw [strchr_append hgt]
        cases hrear : strchr GT t with
        | none =>
          refine iff_of_false Bool.false_ne_true fun h => ?_
          have hmem := h t (List.suffix_append a _)
          rw [← strchr_isSome, hrear] at hmem
          cases hmem
        | some rear =>
          obtain ⟨c, d, rfl, rfl, _⟩ := strchr_some hrear
          have hd : GT :: d <:+ a ++ (markup ++ (c ++ GT :: d)) := by
            rw [← List.append_assoc, ← List.append_assoc]
            exact List.suffix_append _ _
          have hlen := hd.length_le
          rw [List.length_cons] at hlen
          rw [Option.bind_some, List.tail_cons, ih (by omega) _ (.inl rfl)]
          exact ⟨closed_of_tail hgt hd, fun h => h.tail ((List.suffix_cons GT d).trans hd)⟩

theorem docStart_isSome (text : Str) : (docStart text).isSome ↔
    text ≠ [] ∧ Closed [LT, QUESTION] text ∧ Closed [LT, BANG] text := by
  rw [docStart]
  by_cases hne : text = []
  · subst hne
    exact iff_of_false Bool.false_ne_true fun h => h.1 rfl
  · have hproc : (prologEnd [LT, QUESTION] (text.length + 1) none text).isSome ↔
        Closed [LT, QUESTION] text :=
      prologEnd_isSome (by decide) (List.cons_ne_nil _ _) (Nat.lt_succ_self _) none (.inr hne)
    have hcomment : (prologEnd [LT, BANG] (text.length + 1) none text).isSome ↔
        Closed [LT, BANG] text :=
      prologEnd_isSome (by decide) (List.cons_ne_nil _ _) (Nat.lt_succ_self _) none (.inr hne)
    rw [← hproc, ← hcomment]
    cases prologEnd [LT, QUESTION] (text.length + 1) none text with
    | none => exact iff_of_false Bool.false_ne_true fun h => Bool.false_ne_true h.2.1
    | some procInst =>
      rw [Option.bind_some, Option.isSome_map]
      exact ⟨fun h => ⟨hne, rfl, h⟩, fun h => h.2.2⟩

theorem xmlParse_eq (text : Str) :
    xmlParse text = (docStart text).bind fun start => parseDoc (start.length + 1) start none := by
  rw [xmlParse, docStart]
  cases prologEnd [LT, QUESTION] (text.length + 1) none text with
  | none => rfl
  | some procInst =>
    cases prologEnd [LT, BANG] (text.length + 1) none text with
    | none => rfl
    | some comment => rfl

end prolog

section tag
variable {name rest p n : Str} {pfx : Option Str} {tag : Tag}

theorem strStrip_of_not_mem (h : SPACE ∉ name) :
    strStrip name = if name = [] then none else some name := by
  split
  · next hnil =>
    rw [hnil]
    rfl
  · next hne =>
    apply strStrip_eq_self hne
    · exact fun hhead => h (List.mem_of_head? hhead)
    · exact fun hlast => h (List.mem_of_getLast? hlast)

/-- What is behind a name starts with a blank. -/
def Blank (rest : Str) : Prop := rest = [] ∨ ∃ attr, rest = SPACE :: attr

theorem parseName_isSome (hn : SPACE ∉ n) (hrest : Blank rest) (pfx : Option Str)
    (hns : nsFront ≠ none → rest ≠ []) : (parseName pfx (n ++ rest) nsFront).isSome ↔
      n ≠ [] ∧ ∀ ns, nsFront = some ns → (nsUri ns).isSome := by
  have hstrip := strStrip_of_not_mem hn
  rcases hrest with rfl | ⟨attr, rfl⟩
  · cases nsFront with
    | some ns => exact absurd rfl (hns (Option.some_ne_none ns))
    | none =>
      rw [List.append_nil, parseName.eq_def, strchr_none hn, hstrip]
      dsimp only
      split
      · next hnil => exact iff_of_false Bool.false_ne_true fun h => h.1 hnil
      · next hne =>
        refine iff_of_true rfl ⟨hne, fun ns h => ?_⟩
        cases h
  · rw [parseName.eq_def, strchr_at hn]
    cases nsFront with
    | none =>
      dsimp only
      rw [between_append, hstrip]
      split
      · next hnil => exact iff_of_false Bool.false_ne_true fun h => h.1 hnil
      · next hne =>
        refine iff_of_true rfl ⟨hne, fun ns h => ?_⟩
        cases h
    | some ns =>
      dsimp only
      rw [between_append, hstrip]
      split
      · next hnil => exact iff_of_false Bool.false_ne_true fun h => h.1 hnil
      · next hne =>
        rw [Option.bind_some, Option.isSome_map]
        refine ⟨fun h => ⟨hne, fun ns' heq => ?_⟩, fun h => h.2 ns rfl⟩
        cases heq
        exact h

theorem parseName_some (hn : SPACE ∉ n) (hrest : Blank rest)
    (h : parseName pfx (n ++ rest) nsFront = some tag) : tag.pfx = pfx ∧ tag.name = n := by
  have hstrip : ∀ name, strStrip n = some name → name = n := by
    intro name hname
    rw [strStrip_of_not_mem hn] at hname
    split at hname
    · cases hname
    · exact (Option.some.inj hname).symm
  rcases hrest with rfl | ⟨attr, rfl⟩
  · rw [List.append_nil, parseName.eq_def, strchr_none hn] at h
    cases nsFront with
    | some ns => cases h
    | none =>
      obtain ⟨name, hname, rfl⟩ := Option.map_eq_some_iff.1 h
      exact ⟨rfl, hstrip name hname⟩
  · rw [parseName.eq_def, strchr_at hn] at h
    cases nsFront with
    | none =>
      dsimp only at h
      rw [between_append] at h
      obtain ⟨name, hname, rfl⟩ := Option.map_eq_some_iff.1 h
      exact ⟨rfl, hstrip name hname⟩
    | some ns =>
      dsimp only at h
      rw [between_append] at h
      obtain ⟨name, hname, h⟩ := Option.bind_eq_some_iff.1 h
      obtain ⟨uri, _, rfl⟩ := Option.map_eq_some_iff.1 h
      exact ⟨rfl, hstrip name hname⟩

/-- Without a colon in front of its first blank a tag has no prefix. -/
theorem parseTag_plain (hspace : SPACE ∉ name) (hcolon : COLON ∉ name) (hrest : Blank rest) :
    parseTag (name ++ rest) = parseName none (name ++ rest) (strstr XMLNS (name ++ rest)) := by
  have hno : havePrefix (strchr COLON (name ++ rest)) (strchr SPACE (name ++ rest)) = false := by
    rcases hrest with rfl | ⟨attr, rfl⟩
    · rw [List.append_nil, strchr_none hcolon]
      rfl
    · exact not_havePrefix hcolon hspace attr
  rw [parseTag, hno, if_neg Bool.false_ne_true]

theorem parseTag_prefixed (hp : SPACE ∉ p) (hcolon : COLON ∉ p) (hn : SPACE ∉ n)
    (hrest : Blank rest) : parseTag (p ++ COLON :: (n ++ rest)) =
      if p = [] then none
      else parseName (some p) (n ++ rest)
        (strstr (XMLNS ++ COLON :: p) (p ++ COLON :: (n ++ rest))) := by
  have hhave : havePrefix (some (COLON :: (n ++ rest)))
      (strchr SPACE (p ++ COLON :: (n ++ rest))) = true := by
    have hcons : COLON :: (n ++ rest) = COLON :: n ++ rest := rfl
    have hmem : SPACE ∉ COLON :: n := by
      rw [List.mem_cons, not_or]
      exact ⟨by decide, hn⟩
    rw [strchr_append hp, hcons, strchr_append hmem]
    rcases hrest with rfl | ⟨attr, rfl⟩
    · rfl
    · rw [strchr_self, havePrefix, decide_eq_true_iff]
      simp only [List.length_cons, List.length_append]
      omega
  rw [parseTag, strchr_at hcolon, hhave, if_pos rfl, Option.bind_some, between_append,
    strStrip_of_not_mem hp]
  split
  · rfl
  · rw [Option.bind_some, List.tail_cons]

theorem takeWhile_ne (c : UInt8) (h : c ∉ p) (t : Str) : (p ++ c :: t).takeWhile (· ≠ c) = p := by
  rw [List.takeWhile_append_of_pos, List.takeWhile_cons_of_neg, List.append_nil]
  · rw [decide_eq_true_iff]
    exact not_not.2 rfl
  · intro a ha
    rw [decide_eq_true_iff]
    rintro rfl
    exact h ha

/-- What reading a tag needs and what it gives. -/
theorem parseTag_spec (hspace : SPACE ∉ name) (hrest : Blank rest) :
    ((parseTag (name ++ rest)).isSome ↔ Named name ∧
      ∀ ns, strstr (nsMarkup (prefixOf name)) (name ++ rest) = some ns → (nsUri ns).isSome) ∧
    ∀ tag, parseTag (name ++ rest) = some tag → tag.qname = name := by
  have hns : ∀ pat, strstr (SPACE :: pat) (name ++ rest) ≠ none → rest ≠ [] := by
    rintro pat hfound rfl
    rw [List.append_nil] at hfound
    exact hfound (strstr_none hspace pat)
  by_cases hcolon : COLON ∈ name
  · obtain ⟨p, n, rfl, hp⟩ := List.eq_append_cons_of_mem hcolon
    have hpfx : prefixOf (p ++ COLON :: n) = some p := by
      rw [prefixOf, if_pos hcolon]
      exact congrArg some (takeWhile_ne COLON hp n)
    have hpspace : SPACE ∉ p := fun h => hspace (List.mem_append_left _ h)
    have hnspace : SPACE ∉ n :=
      fun h => hspace (List.mem_append_right p (List.mem_cons_of_mem COLON h))
    have hsplit : p ++ COLON :: n ++ rest = p ++ COLON :: (n ++ rest) := by
      rw [List.append_assoc, List.cons_append]
    have hnamed : Named (p ++ COLON :: n) ↔ p ≠ [] ∧ n ≠ [] := by
      have hlast : strchr COLON (p ++ COLON :: n) = some (COLON :: n) := strchr_at hp n
      constructor
      · intro h
        refine ⟨?_, ?_⟩
        · rintro rfl
          exact h.head rfl
        · rintro rfl
          exact h.last hlast
      · rintro ⟨hpne, hnne⟩
        refine ⟨?_, ?_, ?_⟩
        · exact fun h => hpne (List.append_eq_nil_iff.1 h).1
        · rw [List.head?_append_of_ne_nil _ hpne]
          exact fun h => hp (List.mem_of_head? h)
        · rw [hlast]
          exact fun h => hnne (List.cons.inj (Option.some.inj h)).2
    have hparse := parseTag_prefixed hpspace hp hnspace hrest
    rw [← hsplit] at hparse
    rw [hparse, hpfx, hnamed]
    constructor
    · split
      · next hnil => exact iff_of_false Bool.false_ne_true fun h => h.1.1 hnil
      · next hne =>
        refine (parseName_isSome hnspace hrest (some p)
          (hns (XMLNS.tail ++ COLON :: p))).trans ?_
        exact ⟨fun h => ⟨⟨hne, h.1⟩, h.2⟩, fun h => ⟨h.1.2, h.2⟩⟩
    · intro tag htag
      split at htag
      · cases htag
      · obtain ⟨hpfx, hname⟩ := parseName_some hnspace hrest htag
        rw [Tag.qname, hpfx, hname]
  · have hpfx : prefixOf name = none := if_neg hcolon
    have hnamed : Named name ↔ name ≠ [] := by
      refine ⟨fun h => h.nonempty, fun h => ⟨h, ?_, ?_⟩⟩
      · exact fun hhead => hcolon (List.mem_of_head? hhead)
      · rw [strchr_none hcolon]
        exact fun hnone => Option.some_ne_none _ hnone.symm
    rw [parseTag_plain hspace hcolon hrest, hpfx, hnamed]
    refine ⟨parseName_isSome hspace hrest _ (hns XMLNS.tail), fun tag htag => ?_⟩
    obtain ⟨hpfx, hname⟩ := parseName_some hspace hrest htag
    rw [Tag.qname, hpfx, hname]

theorem exists_name (tag : Str) :
    ∃ rest, tag = tagName tag ++ rest ∧ SPACE ∉ tagName tag ∧ Blank rest := by
  by_cases h : SPACE ∈ tag
  · obtain ⟨name, attr, rfl, hname⟩ := List.eq_append_cons_of_mem h
    have htag : tagName (name ++ SPACE :: attr) = name := takeWhile_ne SPACE hname attr
    rw [htag]
    exact ⟨_, rfl, hname, .inr ⟨attr, rfl⟩⟩
  · have htag : tagName tag = tag := by
      rw [tagName, List.takeWhile_eq_self_iff]
      intro c hc
      rw [decide_eq_true_iff]
      rintro rfl
      exact h hc
    rw [htag]
    exact ⟨[], (List.append_nil tag).symm, h, .inl rfl⟩

theorem parseTag_isSome (tag : Str) : (parseTag tag).isSome ↔ TagOk tag := by
  obtain ⟨rest, htag, hspace, hrest⟩ := exists_name tag
  have hspec := (parseTag_spec hspace hrest).1
  rw [← htag] at hspec
  rw [hspec]
  constructor
  · rintro ⟨hnamed, hdeclared⟩
    exact ⟨hnamed, fun ns hns => (nsUri_isSome ns).1 (hdeclared ns hns)⟩
  · intro h
    exact ⟨h.named, fun ns hns => (nsUri_isSome ns).2 (h.declared ns hns)⟩

theorem parseTag_qname {s : Str} (h : parseTag s = some tag) : tag.qname = tagName s := by
  obtain ⟨rest, htag, hspace, hrest⟩ := exists_name s
  have hspec := (parseTag_spec hspace hrest).2
  rw [← htag] at hspec
  exact hspec tag h

end tag

/-- What the parser is at: a text, with an element to add nodes to or without one. -/
structure Config where
  hasRoot : Bool
  doc : Str

/-- The next tag and what is behind it. -/
def tagAt (doc : Str) : Option (Str × Str) :=
  (nextTag doc).map fun (front, rear) => (between front rear, rear.tail)

/-- The closing tag of a name, with `>` or a blank behind the name. -/
def closingTag (name rest : Str) : Option Str :=
  (strstr (endTag1 name) rest).or (strstr (endTag2 name) rest)

/-- What the parser comes to next: the content of the element at the next tag, what is behind the
element, or behind the tag. -/
def Config.next (c : Config) : List Config :=
  match tagAt c.doc with
  | none => []
  | some (tag, rest) =>
    if tag.getLast? = some SLASH then (if c.hasRoot then [⟨true, rest⟩] else [])
    else match closingTag (tagName tag) rest with
      | none => [⟨c.hasRoot, rest⟩]
      | some docRear => ⟨true, between rest docRear⟩ ::
          (if c.hasRoot then ((strchr GT docRear).map fun rear => ⟨true, rear.tail⟩).toList else [])

/-- The next tag can be read, and behind its closing tag a `>` is found where one is looked for. -/
def Config.Ok (c : Config) : Prop :=
  match tagAt c.doc with
  | none => True
  | some (tag, rest) =>
    if tag.getLast? = some SLASH then TagOk tag.dropLast
    else TagOk tag ∧
      ∀ docRear, closingTag (tagName tag) rest = some docRear → c.hasRoot → GT ∈ docRear

/-- All that the parser comes to can be read. -/
def Clean (c : Config) : Prop := ∀ d, Relation.ReflTransGen (fun c d => d ∈ c.next) c d → d.Ok

section configs
variable {c : Config} {cur : Str} {root : Option Element}

theorem clean_iff (c : Config) : Clean c ↔ c.Ok ∧ ∀ d ∈ c.next, Clean d := by
  constructor
  · exact fun h => ⟨h c .refl, fun d hd e he => h e (.head hd he)⟩
  · rintro ⟨hok, hnext⟩ d hd
    rcases hd.cases_head with rfl | ⟨e, he, hd⟩
    · exact hok
    · exact hnext e he d hd

theorem clean_of_none (h : tagAt c.doc = none) : Clean c := by
  rw [clean_iff, Config.Ok, Config.next, h]
  exact ⟨trivial, fun d hd => absurd hd List.not_mem_nil⟩

theorem clean_slash (h : tagAt c.doc = some (tag, rest)) (hslash : tag.getLast? = some SLASH) :
    Clean c ↔ TagOk tag.dropLast ∧ (c.hasRoot → Clean ⟨true, rest⟩) := by
  rw [clean_iff, Config.Ok, Config.next, h]
  dsimp only
  rw [if_pos hslash, if_pos hslash]
  refine and_congr_right fun _ => ?_
  split
  · next hroot =>
    exact ⟨fun h _ => h _ (List.mem_singleton_self _),
      fun h => List.forall_mem_singleton.2 (h hroot)⟩
  · next hroot =>
    exact iff_of_true (fun d hd => absurd hd List.not_mem_nil) fun h => absurd h hroot

theorem clean_unclosed (h : tagAt c.doc = some (tag, rest)) (hslash : tag.getLast? ≠ some SLASH)
    (hclose : closingTag (tagName tag) rest = none) :
    Clean c ↔ TagOk tag ∧ Clean ⟨c.hasRoot, rest⟩ := by
  rw [clean_iff, Config.Ok, Config.next, h]
  dsimp only
  rw [if_neg hslash, if_neg hslash, hclose]
  dsimp only
  rw [List.forall_mem_singleton]
  refine and_congr_left fun _ => ⟨fun h => h.1, fun h => ⟨h, fun docRear hsome => ?_⟩⟩
  cases hsome

theorem clean_closed (h : tagAt c.doc = some (tag, rest)) (hslash : tag.getLast? ≠ some SLASH)
    (hclose : closingTag (tagName tag) rest = some docRear) :
    Clean c ↔ TagOk tag ∧ Clean ⟨true, between rest docRear⟩ ∧
      (c.hasRoot → ∃ rear, strchr GT docRear = some rear ∧ Clean ⟨true, rear.tail⟩) := by
  rw [clean_iff, Config.Ok, Config.next, h]
  dsimp only
  rw [if_neg hslash, if_neg hslash, hclose]
  dsimp only
  rw [List.forall_mem_cons, and_assoc]
  refine and_congr_right fun _ => ?_
  have hrear : (∀ d, some docRear = some d → c.hasRoot → GT ∈ d) ↔
      (c.hasRoot → (strchr GT docRear).isSome) := by
    rw [strchr_isSome]
    refine ⟨fun h => h docRear rfl, fun h d hd => ?_⟩
    cases hd
    exact h
  rw [hrear, and_left_comm]
  refine and_congr_right fun _ => ?_
  cases hroot : c.hasRoot with
  | false =>
    refine iff_of_true ⟨fun h => absurd h Bool.false_ne_true, fun d hd => ?_⟩
      fun h => absurd h Bool.false_ne_true
    exact absurd hd List.not_mem_nil
  | true =>
    cases strchr GT docRear with
    | none =>
      refine iff_of_false (fun h => Bool.false_ne_true (h.1 rfl)) fun h => ?_
      obtain ⟨rear, hsome, _⟩ := h rfl
      cases hsome
    | some rear =>
      refine ⟨fun h _ => ⟨rear, rfl, h.2 _ (List.mem_singleton_self _)⟩, fun h => ?_⟩
      obtain ⟨rear', hsome, hclean⟩ := h rfl
      cases hsome
      exact ⟨fun _ => rfl, List.forall_mem_singleton.2 hclean⟩

theorem tagAt_some (h : nextTag cur = some (front, rear)) :
    tagAt cur = some (between front rear, rear.tail) := by
  rw [tagAt, h]
  rfl

end configs

/-- A text is read if and only if all tags that are come to can be read. -/
theorem parseDoc_isSome (n : Nat) : ∀ (cur : Str) (root : Option Element), cur.length < n →
    ((parseDoc n cur root).isSome ↔ Clean ⟨root.isSome, cur⟩) := by
  induction n with
  | zero => exact fun cur root h => (Nat.not_lt_zero _ h).elim
  | succ n ih =>
    intro cur root hn
    rw [parseDoc]
    split
    case isTrue hnil =>
      subst hnil
      exact iff_of_true rfl (clean_of_none rfl)
    case isFalse =>
      cases hnext : nextTag cur with
      | none =>
        refine iff_of_true rfl (clean_of_none ?_)
        rw [tagAt, hnext]
        rfl
      | some place =>
        obtain ⟨front, rear⟩ := place
        have htag := tagAt_some hnext
        obtain ⟨a, t, u, rfl, rfl, rfl, _⟩ := nextTag_some hnext
        simp only [List.length_append, List.length_cons] at hn
        rw [between_append, List.tail_cons] at htag
        dsimp only
        rw [between_append, List.tail_cons]
        split
        case isTrue hslash =>
          rw [clean_slash htag hslash, ← parseTag_isSome]
          cases parseTag t.dropLast with
          | none => exact iff_of_false Bool.false_ne_true fun h => Bool.false_ne_true h.1
          | some tag =>
            rw [Option.bind_some]
            cases root with
            | none => exact iff_of_true rfl ⟨rfl, fun h => absurd h Bool.false_ne_true⟩
            | some root =>
              have hrest := ih u (some (root.addChild (.element tag .nil .nil))) (by omega)
              exact hrest.trans ⟨fun h => ⟨rfl, fun _ => h⟩, fun h => h.2 rfl⟩
        case isFalse hslash =>
          cases hparse : parseTag t with
          | none =>
            refine iff_of_false Bool.false_ne_true fun h => ?_
            have hok := ((clean_iff _).1 h).1
            rw [Config.Ok, htag] at hok
            dsimp only at hok
            rw [if_neg hslash, ← parseTag_isSome, hparse] at hok
            exact Bool.false_ne_true hok.1
          | some tag =>
            have hok : TagOk t := (parseTag_isSome t).1 (by rw [hparse]; rfl)
            rw [Option.bind_some, parseTag_qname hparse]
            cases hclose : closingTag (tagName t) u with
            | none =>
              rw [clean_unclosed htag hslash hclose]
              have hnone : (strstr (endTag1 (tagName t)) u).or (strstr (endTag2 (tagName t)) u) =
                  none := hclose
              rw [hnone]
              exact (ih u root (by omega)).trans ⟨fun h => ⟨hok, h⟩, fun h => h.2⟩
            | some docRear =>
              rw [clean_closed htag hslash hclose]
              have hsome : (strstr (endTag1 (tagName t)) u).or (strstr (endTag2 (tagName t)) u) =
                  some docRear := hclose
              rw [hsome]
              dsimp only
              have hlen := (between_sublist u docRear).length_le
              have hinner := ih (between u docRear) (some ⟨tag, .nil⟩) (by omega)
              cases hnode : parseDoc n (between u docRear) (some ⟨tag, .nil⟩) with
              | none =>
                rw [hnode] at hinner
                exact iff_of_false Bool.false_ne_true fun h =>
                  Bool.false_ne_true (hinner.2 h.2.1)
              | some node =>
                rw [hnode] at hinner
                have hclean := hinner.1 rfl
                obtain ⟨g, rfl, _⟩ := parseDoc_extends hnode
                rw [Option.bind_some]
                cases root with
                | none =>
                  exact iff_of_true rfl ⟨hok, hclean, fun h => absurd h Bool.false_ne_true⟩
                | some root =>
                  dsimp only
                  obtain ⟨b, s, hdoc, _⟩ := docRear_some hclose
                  cases hgt : strchr GT docRear with
                  | none =>
                    refine iff_of_false Bool.false_ne_true fun h => ?_
                    obtain ⟨rear, hrear, _⟩ := h.2.2 rfl
                    cases hrear
                  | some rear =>
                    have hle := strchr_length hgt
                    have hdocLen := congrArg List.length hdoc
                    rw [List.length_append] at hdocLen
                    rw [Option.bind_some]
                    refine (ih rear.tail _ ?_).trans ?_
                    · rw [List.length_tail]
                      omega
                    · refine ⟨fun h => ⟨hok, hclean, fun _ => ⟨rear, rfl, h⟩⟩, fun h => ?_⟩
                      obtain ⟨rear', hrear, hrest⟩ := h.2.2 rfl
                      cases hrear
                      exact hrest

/-- A tree or no tree is returned, and the length of the document can be incremented. -/
def Safe (text : Str) : Prop :=
  (∀ start, docStart text = some start → start.length + 1 < 2147483648) ∧ (xmlParse text).isSome

/-- The text is not empty, the markup of its prolog is closed, and behind the prolog the parser
comes to tags that can be read. -/
structure Parsable (text : Str) : Prop where
  nonempty : text ≠ []
  procInst : Closed [LT, QUESTION] text
  comment : Closed [LT, BANG] text
  length : ∀ start, docStart text = some start → start.length + 1 < 2147483648
  clean : ∀ start, docStart text = some start → Clean ⟨false, start⟩

/-- A tag without a name, a declaration without a value and markup without an end are read through
null pointers. -/
theorem xmlParse_safe_iff (text : Str) : Safe text ↔ Parsable text := by
  have hstart := docStart_isSome text
  rw [Safe, xmlParse_eq]
  cases hdoc : docStart text with
  | none =>
    rw [hdoc] at hstart
    refine iff_of_false (fun h => Bool.false_ne_true h.2) fun h => ?_
    exact Bool.false_ne_true (hstart.2 ⟨h.nonempty, h.procInst, h.comment⟩)
  | some start =>
    rw [hdoc] at hstart
    obtain ⟨hne, hproc, hcomment⟩ := hstart.1 rfl
    rw [Option.bind_some, parseDoc_isSome _ _ _ (Nat.lt_succ_self _)]
    constructor
    · rintro ⟨hlen, hclean⟩
      refine ⟨hne, hproc, hcomment, ?_, ?_⟩
      · rw [hdoc]
        exact hlen
      · intro start' heq
        rw [hdoc] at heq
        cases heq
        exact hclean
    · intro h
      have hlen := h.length
      rw [hdoc] at hlen
      exact ⟨hlen, h.clean start hdoc⟩

/-- The tag `<>` has no name. -/
theorem not_safe : ¬ Safe [LT, GT] := by
  rintro ⟨_, h⟩
  have hnone : xmlParse [LT, GT] = none := by decide +kernel
  rw [hnone] at h
  cases h

end BigBox.Xml
