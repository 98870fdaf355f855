import BigBox.Buffer.SbufEdits
import BigBox.Lib.TryRun

namespace BigBox.Sbuf
set_option autoImplicit true

/-- The call on an ordinary string. -/
def Edit.text (text : List UInt8) : Edit → Bool × List UInt8
  | .appendStr s => (true, text ++ s.1)
  | .appendChr c => (true, text ++ [c])
  | .back len => (decide (text ≠ []), text.take (text.length - len))
  | .eraser start end_ =>
    if start < end_ ∧ end_ ≤ text.length then (true, text.take start ++ text.drop end_)
    else (false, text)
  | .insertStr pos str =>
    if pos ≤ text.length ∧ str.1 ≠ [] then (true, text.take pos ++ str.1 ++ text.drop pos)
    else (false, text)

/-- What is asked for can be allocated. -/
def StrFits (data : SBUF) (s : Text) : Prop :=
  strGrows data (toInt (s.1.length + 1)) →
    strRequest data (toInt (s.1.length + 1)) < 281474976710656

/-- An object has fewer than 2 ^ 48 bytes. -/
def Edit.Valid (data : SBUF) : Edit → Prop
  | .appendStr s => s.1.length < 281474976710656 ∧ StrFits data s
  | .appendChr _ => chrGrows data → chrRequest data < 281474976710656
  | .back len => len < 18446744073709551616
  | .eraser _ _ => True
  | .insertStr pos str => str.1.length < 281474976710656 ∧
      (pos ≤ data.len → 0 < toInt str.1.length → StrFits data str)

/-- The lengths of strings fit in an `int`, no more is taken away than is there, and what is moved
does not overlap itself. -/
def Edit.Ok (text : List UInt8) : Edit → Prop
  | .appendStr s => s.1.length < 2147483647
  | .appendChr _ => True
  | .back len => len ≤ text.length ∨ text = []
  | .eraser start end_ => start < end_ ∧ end_ ≤ text.length → Erasable text start end_
  | .insertStr pos str => pos ≤ text.length ∧ str.1 ≠ [] →
      str.1.length < 2147483647 ∧ text.length - pos ≤ str.1.length

section Edit
variable {data data' : SBUF} {text : List UInt8}

theorem edit_good (fresh : Nat → UInt8) (e : Edit) (h : data.Holds text) (hvalid : e.Valid data)
    (hok : e.Ok text) :
    ∃ data', e.apply fresh data = some ((e.text text).1, data') ∧ data'.Holds (e.text text).2 := by
  cases e with
  | appendStr s => exact sbufAppendStr_good h hok hvalid.2
  | appendChr c => exact sbufAppendChr_good h hvalid c
  | back len => exact sbufBack_good h hok
  | eraser start end_ =>
    rw [Edit.text]
    by_cases hrange : start < end_ ∧ end_ ≤ text.length
    · rw [if_pos hrange]
      exact sbufEraser_cuts h hrange (hok hrange)
    · rw [if_neg hrange]
      exact ⟨data, sbufEraser_refused h hrange, h⟩
  | insertStr pos str =>
    rw [Edit.text]
    by_cases hrange : pos ≤ text.length ∧ str.1 ≠ []
    · obtain ⟨hlong, hapart⟩ := hok hrange
      have hpositive := List.length_pos_of_ne_nil hrange.2
      have hint : toInt str.1.length = str.1.length := toInt_of_lt (by omega)
      have hfits : StrFits data str := hvalid.2 (h.len ▸ hrange.1) (by omega)
      rw [if_pos hrange]
      exact sbufInsertStr_good h hrange.1 hrange.2 hlong hfits hapart
    · rw [if_neg hrange]
      refine ⟨data, ?_, h⟩
      by_cases hpos : pos ≤ text.length
      · have hs : str.1 = [] := Classical.not_not.1 fun hs => hrange ⟨hpos, hs⟩
        exact sbufInsertStr_nil h hpos hs
      · exact sbufInsertStr_refused h (Nat.lt_of_not_le hpos)

theorem edit_bad (fresh : Nat → UInt8) (e : Edit) (h : data.Holds text) (hvalid : e.Valid data)
    (hok : ¬ e.Ok text) (happly : e.apply fresh data = some ((e.text text).1, data')) :
    ¬ data'.Sound (e.text text).2 := by
  cases e with
  | appendStr s => exact sbufAppendStr_bad h (Nat.le_of_not_lt hok) hvalid.1 happly
  | appendChr c => exact absurd trivial hok
  | back len => exact sbufBack_bad h hok hvalid happly
  | eraser start end_ =>
    obtain ⟨hrange, hno⟩ := Classical.not_imp.1 hok
    rw [Edit.text, if_pos hrange] at happly ⊢
    exact fun hsound => hno ((sbufEraser_iff h hrange).1 ⟨data', happly, hsound⟩)
  | insertStr pos str =>
    obtain ⟨⟨hpos, hs⟩, hno⟩ := Classical.not_imp.1 hok
    rw [Edit.text, if_pos ⟨hpos, hs⟩] at happly ⊢
    by_cases hlong : str.1.length < 2147483647
    · have hpositive := List.length_pos_of_ne_nil hs
      have hint : toInt str.1.length = str.1.length := toInt_of_lt (by omega)
      have hfits : StrFits data str := hvalid.2 (h.len ▸ hpos) (by omega)
      have hnone := @sbufInsertStr_overlap data text fresh str pos h hpos hs hlong hfits
        fun hapart => hno ⟨hlong, hapart⟩
      rw [Edit.apply, hnone] at happly
      cases happly
    · exact sbufInsertStr_bad h hpos (Nat.le_of_not_lt hlong) hvalid.1 happly

end Edit

/-- Buffers and their texts. -/
def Each (P : SBUF → List UInt8 → Prop) (bufs : List SBUF) (texts : List (List UInt8)) : Prop :=
  bufs.length = texts.length ∧
    ∀ (i : Nat) data text, bufs[i]? = some data → texts[i]? = some text → P data text

section Each
variable {P Q : SBUF → List UInt8 → Prop} {bufs : List SBUF} {texts : List (List UInt8)}

theorem Each.get (h : Each P bufs texts) (hi : i < bufs.length) :
    ∃ data text, bufs[i]? = some data ∧ texts[i]? = some text ∧ P data text := by
  have hdata := List.getElem?_eq_getElem hi
  have htext := List.getElem?_eq_getElem (h.1 ▸ hi : i < texts.length)
  exact ⟨_, _, hdata, htext, h.2 i _ _ hdata htext⟩

theorem Each.set (h : Each P bufs texts) (hP : P data text) :
    Each P (bufs.set i data) (texts.set i text) := by
  refine ⟨by rw [List.length_set, List.length_set, h.1], ?_⟩
  intro j data' text' hdata htext
  by_cases hij : i = j
  · subst hij
    have hi := (List.getElem?_eq_some_iff.1 hdata).1
    rw [List.length_set] at hi
    rw [List.getElem?_set_self hi] at hdata
    rw [List.getElem?_set_self (h.1 ▸ hi)] at htext
    cases hdata
    cases htext
    exact hP
  · rw [List.getElem?_set_ne hij] at hdata htext
    exact h.2 j _ _ hdata htext

theorem Each.of_set (h : Each P (bufs.set i data) (texts.set i text)) (hi : i < bufs.length) :
    P data text := by
  have hlen := h.1
  rw [List.length_set, List.length_set] at hlen
  exact h.2 i _ _ (List.getElem?_set_self hi) (List.getElem?_set_self (hlen ▸ hi))

theorem Each.concat (h : Each P bufs texts) (hP : P data text) :
    Each P (bufs ++ [data]) (texts ++ [text]) := by
  refine ⟨by rw [List.length_append, List.length_append, h.1]; rfl, ?_⟩
  intro j data' text' hdata htext
  rcases Nat.lt_trichotomy j bufs.length with hj | rfl | hj
  · rw [List.getElem?_append_left hj] at hdata
    rw [List.getElem?_append_left (h.1 ▸ hj)] at htext
    exact h.2 j _ _ hdata htext
  · rw [List.getElem?_concat_length] at hdata
    rw [h.1, List.getElem?_concat_length] at htext
    cases hdata
    cases htext
    exact hP
  · rw [List.getElem?_eq_none (by rw [List.length_append, List.length_singleton]; omega)] at hdata
    cases hdata

theorem Each.mono (h : Each P bufs texts) (hPQ : ∀ data text, P data text → Q data text) :
    Each Q bufs texts :=
  ⟨h.1, fun i data text hdata htext => hPQ _ _ (h.2 i data text hdata htext)⟩

end Each

/-- The call on ordinary strings. -/
def spec (texts : List (List UInt8)) (call : Fresh × Call) : List (List UInt8) × Bool :=
  match call.2 with
  | .new _ => (texts ++ [[]], true)
  | .edit i e =>
    (texts.set i (e.text (texts.getD i [])).2, (e.text (texts.getD i [])).1)
  | .copy none _ => (texts, true)
  | .copy (some i) from_ => (texts.set i (texts.getD from_ []), true)

def Valid (bufs : List SBUF) (call : Fresh × Call) : Prop :=
  match call.2 with
  | .new size => size < 281474976710656
  | .edit i e => ∃ data, bufs[i]? = some data ∧ e.Valid data
  | .copy to_ from_ => from_ < bufs.length ∧ ∀ i, to_ = some i → i < bufs.length

/-- A buffer is made with some room. The byte behind a copy is zero by chance, and no text is copied
to itself. -/
def Ok (texts : List (List UInt8)) (call : Fresh × Call) : Prop :=
  match call.2 with
  | .new size => size ≠ 0
  | .edit i e => e.Ok (texts.getD i [])
  | .copy none _ => True
  | .copy (some i) from_ => (i = from_ → texts.getD from_ [] = []) ∧
      call.1.bytes (texts.getD from_ []).length = 0

section Step
variable {bufs bufs' : List SBUF} {texts : List (List UInt8)}

theorem getD_of_getElem? {texts : List (List UInt8)} (h : texts[i]? = some text) :
    texts.getD i [] = text := by
  rw [List.getD_eq_getElem?_getD, h]
  rfl

theorem copied_eq {i from_ : Nat} (h : data.Holds text) (fresh : Nat → UInt8)
    (hself : i = from_ → text = []) :
    ∃ data', (if i = from_ then sbufCopySelf fresh data else sbufCopy fresh data) =
        some (true, data') ∧ data'.size = data.size ∧
      (data'.Sound text ↔ fresh text.length = 0) := by
  split
  · next heq =>
    cases hself heq
    exact sbufCopySelf_nil h fresh
  · exact sbufCopy_eq h fresh

theorem copy_eq {i : Nat} (hget : bufs[from_]? = some data)
    (hdata : data.Holds text) (fresh : Fresh) (hself : i = from_ → text = []) :
    ∃ data', step bufs (fresh, .copy (some i) from_) = some (bufs.set i data', true) ∧
      data'.size = data.size ∧ (data'.Sound text ↔ fresh.bytes text.length = 0) := by
  obtain ⟨data', hcopied, hsize, hsound⟩ := copied_eq hdata fresh.bytes hself
  refine ⟨data', ?_, hsize, hsound⟩
  rw [step, copy, hget, Option.bind_eq_bind, Option.bind_some]
  dsimp only
  rw [hcopied]
  rfl

theorem step_good (call : Fresh × Call) (h : Each SBUF.Holds bufs texts) (hvalid : Valid bufs call)
    (hok : Ok texts call) :
    ∃ bufs', step bufs call = some (bufs', (spec texts call).2) ∧
      Each SBUF.Holds bufs' (spec texts call).1 := by
  obtain ⟨fresh, call⟩ := call
  cases call with
  | new size =>
    obtain ⟨data, hnew, hdata⟩ := @sbufNew_good fresh.bytes size fresh.size hok hvalid
    refine ⟨bufs ++ [data], ?_, h.concat hdata⟩
    rw [step, new, hnew]
    rfl
  | edit i e =>
    obtain ⟨data, hget, hvalid⟩ := hvalid
    obtain ⟨data₁, text, hget₁, htext, hdata⟩ := h.get (List.getElem?_eq_some_iff.1 hget).1
    cases hget.symm.trans hget₁
    have hgetD := getD_of_getElem? htext
    have hok : e.Ok text := hgetD ▸ hok
    obtain ⟨data', happly, hdata'⟩ := edit_good fresh.bytes e hdata hvalid hok
    refine ⟨bufs.set i data', ?_, ?_⟩
    · rw [step, edit, hget, Option.bind_eq_bind, Option.bind_some, happly]
      rw [← hgetD]
      rfl
    · rw [spec]
      dsimp only
      rw [hgetD]
      exact h.set hdata'
  | copy to_ from_ =>
    obtain ⟨data, text, hget, htext, hdata⟩ := h.get hvalid.1
    have hgetD := getD_of_getElem? htext
    cases to_ with
    | none =>
      obtain ⟨data', hcopy, _⟩ := sbufCopy_eq hdata fresh.bytes
      refine ⟨bufs, ?_, h⟩
      rw [step, copy, hget, Option.bind_eq_bind, Option.bind_some]
      dsimp only
      rw [hcopy]
      rfl
    | some i =>
      have hself : i = from_ → text = [] := hgetD ▸ hok.1
      have hbyte : fresh.bytes text.length = 0 := hgetD ▸ hok.2
      obtain ⟨data', hstep, hsize, hsound⟩ := copy_eq hget hdata fresh hself
      refine ⟨_, hstep, ?_⟩
      rw [spec]
      dsimp only
      rw [hgetD]
      exact h.set ((hsound.2 hbyte).holds (hsize ▸ hdata.small))

theorem step_bad (call : Fresh × Call) (h : Each SBUF.Holds bufs texts) (hvalid : Valid bufs call)
    (hok : ¬ Ok texts call) (bufs' : List SBUF)
    (hstep : step bufs call = some (bufs', (spec texts call).2)) :
    ¬ Each SBUF.Sound bufs' (spec texts call).1 := by
  obtain ⟨fresh, call⟩ := call
  cases call with
  | new size =>
    have hzero : size = 0 := Classical.not_not.1 hok
    rw [step, new, sbufNew_none hzero] at hstep
    cases hstep
  | edit i e =>
    obtain ⟨data, hget, hvalid⟩ := hvalid
    have hi := (List.getElem?_eq_some_iff.1 hget).1
    obtain ⟨data₁, text, hget₁, htext, hdata⟩ := h.get hi
    cases hget.symm.trans hget₁
    have hgetD := getD_of_getElem? htext
    have hok : ¬ e.Ok text := hgetD ▸ hok
    rw [step, edit, hget, Option.bind_eq_bind, Option.bind_some] at hstep
    obtain ⟨⟨ret, data'⟩, happly, hset⟩ := Option.bind_eq_some_iff.1 hstep
    obtain ⟨hbufs, hret⟩ := Prod.mk.inj (Option.some.inj hset)
    rw [← hbufs, spec]
    dsimp only
    intro hsound
    have hret : ret = (e.text text).1 := hgetD ▸ hret
    rw [hgetD] at hsound
    exact edit_bad fresh.bytes e hdata hvalid hok (hret ▸ happly) (hsound.of_set hi)
  | copy to_ from_ =>
    cases to_ with
    | none => exact absurd trivial hok
    | some i =>
      obtain ⟨data, text, hget, htext, hdata⟩ := h.get hvalid.1
      have hgetD := getD_of_getElem? htext
      by_cases hself : i = from_ → text = []
      · have hbyte : ¬ fresh.bytes text.length = 0 :=
          fun hbyte => hok ⟨fun heq => hgetD.trans (hself heq), hgetD.symm ▸ hbyte⟩
        obtain ⟨data', hcopy, _, hsound⟩ := copy_eq hget hdata fresh hself
        cases hcopy.symm.trans hstep
        rw [spec]
        dsimp only
        rw [hgetD]
        exact fun heach => hbyte (hsound.1 (heach.of_set (hvalid.2 i rfl)))
      · obtain ⟨rfl, hne⟩ := Classical.not_imp.1 hself
        rw [step, copy, hget, Option.bind_eq_bind, Option.bind_some] at hstep
        dsimp only at hstep
        rw [if_pos rfl, sbufCopySelf_none hdata hne] at hstep
        cases hstep

end Step

/-- The lengths, the zeros and the texts are right in the runs whose calls are. -/
theorem sbuf_follows_iff (calls : List (Fresh × Call)) (hvalid : Admits step Valid [] calls) :
    Follows step spec (Each SBUF.Sound) [] [] calls ↔ Meets spec Ok [] calls := by
  apply follows_iff_of_keeps (R := Each SBUF.Holds) _ _ _ _ hvalid
  · exact fun bufs texts h => h.mono fun data text hdata => hdata.sound
  · exact fun bufs texts call h hvalid hok => step_good call h hvalid hok
  · exact fun bufs texts call h hvalid hok => step_bad call h hvalid hok
  · exact ⟨rfl, fun i data text hdata => nomatch hdata⟩

def filled (byte : UInt8) : Fresh := ⟨fun _ => byte, 0⟩

/-- Of two empty buffers one is copied to the other. -/
def copies (byte : UInt8) : List (Fresh × Call) :=
  [(filled byte, .new 4), (filled byte, .new 4), (filled byte, .copy (some 1) 0),
    (filled byte, .edit 1 (.back 3))]

theorem copies_admits (byte : UInt8) : Admits step Valid [] (copies byte) := by
  have hsize : 4 < 281474976710656 := by decide
  have hlen : 3 < 18446744073709551616 := by decide
  refine ⟨hsize, fun bufs₁ ret₁ h₁ => ?_⟩
  cases h₁
  refine ⟨hsize, fun bufs₂ ret₂ h₂ => ?_⟩
  cases h₂
  refine ⟨⟨Nat.zero_lt_two, fun i hi => ?_⟩, fun bufs₃ ret₃ h₃ => ?_⟩
  · cases hi
    exact Nat.one_lt_two
  · cases h₃
    exact ⟨⟨_, rfl, hlen⟩, fun _ _ _ => trivial⟩

theorem sbuf_follows_iff_copies :
    Follows step spec (Each SBUF.Sound) [] [] (copies 0) ↔ Meets spec Ok [] (copies 0) :=
  sbuf_follows_iff (copies 0) (copies_admits 0)

/-- A buffer without room has no place for its zero, and a copy has no zero behind it. -/
theorem not_sbuf_follows :
    (¬ Follows step spec (Each SBUF.Sound) [] [] [(filled 255, .new 0)]) ∧
      ¬ Follows step spec (Each SBUF.Sound) [] [] (copies 255) := by
  constructor
  · rintro ⟨_, bufs, hstep, _⟩
    have hnone : step [] (filled 255, .new 0) = none := by
      rw [step, new, sbufNew_none rfl]
      rfl
    rw [hnone] at hstep
    cases hstep
  · rintro ⟨_, bufs₁, h₁, _, bufs₂, h₂, _, bufs₃, h₃, hsound, _⟩
    cases h₁
    cases h₂
    cases h₃
    exact absurd (hsound.2 1 _ _ rfl rfl).zero (by decide)

end BigBox.Sbuf
