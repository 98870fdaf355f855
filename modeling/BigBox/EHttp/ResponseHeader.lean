import BigBox.EHttp.UrlParser

namespace BigBox.EHttp
open Loop
set_option autoImplicit true

def CR : UInt8 := 13
def LF : UInt8 := 10
def CRLF : List UInt8 := [CR, LF]

/-- The bytes of `tmp_buf`. -/
def tmpBufSize : Nat := 128

/-- A header that is found: the place of its line in the message, and the text put out. -/
structure Taken where
  place : Nat
  value : List UInt8
  deriving DecidableEq, Repr

/-- A line in `tmp_buf`, from where it is read as a string. There is none without room for a zero
byte behind it. -/
def lineBuf (msg : List UInt8) (pos count : Nat) : Option (List UInt8) :=
  if count ≤ tmpBufSize then
    stringAt ((msg.drop pos).take count ++ List.replicate (tmpBufSize - count) 0) 0
  else none

/-- The text behind the colon of a line whose name is compared with the key. -/
def matchKey (line key : List UInt8) : Option (List UInt8) :=
  match strstr [COLON] line with
  | none => none
  | some tmpPtr =>
    let n := (between line tmpPtr).length
    if line.take n = key.take n then some (line.drop (n + 1)) else none

/-- A round of the loop of `parser_response_header`, with `buf_ptr` and `pos` as places in the
message. It puts out nothing for the result -1. -/
def headerRound (msg key : List UInt8) (s : Nat × Nat) :
    Option (Round (Nat × Nat) (Option Taken)) :=
  if s.1 + 2 ≤ msg.length then
    match strstr CRLF (msg.drop (s.1 + 2)) with
    | none => some (.done none)
    | some rest => do
      let bufPtr := msg.length - rest.length
      let count := bufPtr - s.2
      if count = 2 then return .done none
      let tmpBuf ← lineBuf msg s.2 count
      match matchKey tmpBuf key with
      | some value => return .done (some ⟨s.2, value⟩)
      | none => return .next (bufPtr, s.2 + (count + 2))
  else none

/-- The name in front of the first colon of a line. -/
def fieldName (line : List UInt8) : Option (List UInt8) :=
  if COLON ∈ line then some (line.takeWhile (· ≠ COLON)) else none

def fieldValue (line : List UInt8) : List UInt8 := (line.dropWhile (· ≠ COLON)).drop 1

def joinLines (lines : List (List UInt8)) : List UInt8 := lines.flatMap (· ++ CRLF)

/-- An HTTP response. -/
structure Response where
  status : List UInt8
  headers : List (List UInt8)
  body : List UInt8
  version : [72, 84, 84, 80, 47] <+: status
  plain : ∀ line ∈ status :: headers, 0 ∉ line ∧ ¬ CRLF <:+: line
  shown : ∀ line ∈ headers, line ≠ []

/-- The string of a response. A zero byte in the body ends it. -/
def Response.text (r : Response) : List UInt8 :=
  joinLines (r.status :: r.headers) ++ CRLF ++ cString r.body

/-- A header of that name is found if there is one, and nothing otherwise. -/
def Delivers (r : Response) (key : List UInt8) (out : Option Taken) : Prop :=
  (out.isSome ↔ ∃ line ∈ r.headers, fieldName line = some key) ∧
    ∀ taken, out = some taken → ∃ before line after, r.headers = before ++ line :: after ∧
      fieldName line = some key ∧
      taken = ⟨(joinLines (r.status :: before)).length, fieldValue line⟩

/-- The lines of a text that end in a line break, behind the start of one. -/
def linesFrom (line : List UInt8) : List UInt8 → List (List UInt8)
  | [] => []
  | c :: s =>
    if c = LF ∧ line.getLast? = some CR then line.dropLast :: linesFrom [] s
    else linesFrom (line ++ [c]) s

/-- The name of a line is the start of the key. -/
def Hits (key line : List UInt8) : Prop := ∃ name, fieldName line = some name ∧ name <+: key

/-- A line that is read and left behind. -/
def Harmless (key line : List UInt8) : Prop :=
  line.length ≠ 2 ∧ line.length < tmpBufSize ∧ ¬ Hits key line

/-- The lines of a response that the loop can come to. -/
def Response.lines (r : Response) : List (List UInt8) :=
  r.status :: (r.headers ++ [] :: linesFrom [] (cString r.body))

/-- A header of that name comes behind harmless lines alone, or there is none and nothing else is
hit up to the first line of two bytes. -/
def Served (r : Response) (key : List UInt8) : Prop :=
  (∃ before line after, r.headers = before ++ line :: after ∧ fieldName line = some key ∧
    (∀ l ∈ r.status :: before, Harmless key l) ∧ line.length ≠ 2 ∧ line.length < tmpBufSize) ∨
  ((∀ line ∈ r.headers, fieldName line ≠ some key) ∧
    ∀ l ∈ r.lines.takeWhile (·.length ≠ 2), l.length < tmpBufSize ∧ ¬ Hits key l)

theorem crlf_cons (a : List UInt8) (h : ¬ CRLF <:+: a) (hp : ¬ CRLF <+: c :: a) :
    ¬ CRLF <:+: c :: a := by
  rw [List.infix_cons_iff]
  exact fun hor => hor.elim hp h

/-- The first line of a text. -/
theorem strstr_crlf (h : ¬ CRLF <:+: a) (t : List UInt8) :
    strstr CRLF (a ++ (CRLF ++ t)) = some (CRLF ++ t) := by
  induction a with
  | nil => exact strstr_self CRLF t
  | cons c a ih =>
    have hno : ¬ CRLF <+: c :: (a ++ (CRLF ++ t)) := by
      intro hp
      apply h
      obtain ⟨rfl, hlf⟩ := List.cons_prefix_cons.1 hp
      cases a with
      | nil => exact absurd (List.cons_prefix_cons.1 hlf).1 (by decide)
      | cons d a =>
        obtain ⟨rfl, _⟩ := List.cons_prefix_cons.1 hlf
        exact (List.prefix_append CRLF a).isInfix
    rw [List.cons_append, strstr_cons hno]
    exact ih fun hin => h (List.infix_cons hin)

/-- A text is without a line break, or has a first line. -/
theorem crlf_induction {motive : List UInt8 → Prop}
    (last : ∀ s, ¬ CRLF <:+: s → motive s)
    (line : ∀ a t, ¬ CRLF <:+: a → motive t → motive (a ++ (CRLF ++ t))) (s : List UInt8) :
    motive s := by
  have hsplit : ∀ s : List UInt8, ¬ CRLF <:+: s ∨ ∃ a t, ¬ CRLF <:+: a ∧ s = a ++ (CRLF ++ t) := by
    intro s
    induction s with
    | nil => exact .inl (by decide)
    | cons c s ih =>
      by_cases hp : CRLF <+: c :: s
      · obtain ⟨t, ht⟩ := hp
        exact .inr ⟨[], t, by decide, ht.symm⟩
      · rcases ih with hno | ⟨a, t, ha, rfl⟩
        · exact .inl (crlf_cons s hno hp)
        · refine .inr ⟨c :: a, t, crlf_cons a ha fun hpa => ?_, rfl⟩
          exact hp (hpa.trans (List.prefix_append (c :: a) _))
  induction hn : s.length using Nat.strong_induction_on generalizing s with
  | _ n ih =>
    rcases hsplit s with hno | ⟨a, t, ha, rfl⟩
    · exact last s hno
    · apply line a t ha
      apply ih t.length _ t rfl
      rw [← hn, List.length_append, List.length_append, CRLF, List.length_cons]
      omega

theorem linesFrom_line (h : ¬ CRLF <:+: l ++ a) (t : List UInt8) :
    linesFrom l (a ++ (CRLF ++ t)) = (l ++ a) :: linesFrom [] t := by
  induction a generalizing l with
  | nil =>
    have hcr : ¬ (CR = LF ∧ l.getLast? = some CR) := fun he => absurd he.1 (by decide)
    have hlf : LF = LF ∧ (l ++ [CR]).getLast? = some CR := ⟨rfl, List.getLast?_concat⟩
    rw [List.nil_append, CRLF, List.cons_append, linesFrom, if_neg hcr, List.cons_append, linesFrom,
      if_pos hlf, List.dropLast_concat, List.append_nil]
    rfl
  | cons c a ih =>
    have hno : ¬ (c = LF ∧ l.getLast? = some CR) := by
      rintro ⟨rfl, hcr⟩
      obtain ⟨m, rfl⟩ := List.getLast?_eq_some_iff.1 hcr
      apply h
      rw [List.append_assoc]
      exact ⟨m, a, by rw [List.append_assoc]; rfl⟩
    rw [List.cons_append, linesFrom, if_neg hno, ih]
    · rw [List.append_assoc]
      rfl
    · rwa [List.append_assoc]

theorem linesFrom_last (h : ¬ CRLF <:+: l ++ s) : linesFrom l s = [] := by
  induction s generalizing l with
  | nil => rfl
  | cons c s ih =>
    have hno : ¬ (c = LF ∧ l.getLast? = some CR) := by
      rintro ⟨rfl, hcr⟩
      obtain ⟨m, rfl⟩ := List.getLast?_eq_some_iff.1 hcr
      apply h
      rw [List.append_assoc]
      exact ⟨m, s, by rw [List.append_assoc]; rfl⟩
    rw [linesFrom, if_neg hno, ih]
    rwa [List.append_assoc]

/-- What a round does with a line. -/
def lineRound (key : List UInt8) (place : Nat) (line : List UInt8) :
    Option (Round (Nat × Nat) (Option Taken)) :=
  if line.length = 2 then some (.done none)
  else if line.length < tmpBufSize then
    match matchKey line key with
    | some value => some (.done (some ⟨place, value⟩))
    | none => some (.next (place + line.length, place + (line.length + 2)))
  else none

theorem lineBuf_line (hline : 0 ∉ line) (before after : List UInt8) :
    lineBuf (before ++ (line ++ after)) before.length line.length =
      if line.length < tmpBufSize then some line else none := by
  have htake : ((before ++ (line ++ after)).drop before.length).take line.length = line := by
    rw [List.drop_left, List.take_left]
  rw [lineBuf, htake]
  by_cases hlt : line.length < tmpBufSize
  · obtain ⟨n, hn⟩ : ∃ n, tmpBufSize - line.length = n + 1 :=
      Nat.exists_eq_succ_of_ne_zero (Nat.sub_ne_zero_of_lt hlt)
    rw [if_pos (Nat.le_of_lt hlt), if_pos hlt, hn, List.replicate_succ]
    exact stringAt_middle [] (List.replicate n 0) hline
  · rw [if_neg hlt]
    split
    case isTrue hle =>
      have heq : tmpBufSize - line.length = 0 := Nat.sub_eq_zero_of_le (Nat.not_lt.1 hlt)
      rw [heq, List.replicate_zero, List.append_nil, stringAt, List.drop_zero, if_neg hline]
    case isFalse => rfl

/-- A round at the first line of what is left. -/
theorem headerRound_line (hline : 0 ∉ line)
    (hin : bufPtr + 2 ≤ (before ++ (line ++ (CRLF ++ t))).length)
    (hfind : strstr CRLF ((before ++ (line ++ (CRLF ++ t))).drop (bufPtr + 2)) = some (CRLF ++ t)) :
    headerRound (before ++ (line ++ (CRLF ++ t))) key (bufPtr, before.length) =
      lineRound key before.length line := by
  have hptr : (before ++ (line ++ (CRLF ++ t))).length - (CRLF ++ t).length =
      before.length + line.length := by
    rw [← List.append_assoc, List.length_append, Nat.add_sub_cancel, List.length_append]
  rw [headerRound, if_pos hin, hfind]
  dsimp only
  rw [hptr, Nat.add_sub_cancel_left, lineRound]
  split
  case isTrue => rfl
  case isFalse =>
    rw [lineBuf_line hline, Option.bind_eq_bind]
    split
    case isTrue =>
      rw [Option.bind_some]
      cases matchKey line key <;> rfl
    case isFalse => rfl

theorem headerRound_last (hin : bufPtr + 2 ≤ msg.length)
    (hlast : ¬ CRLF <:+: msg.drop (bufPtr + 2)) :
    headerRound msg key (bufPtr, pos) = some (.done none) := by
  have hnone : strstr CRLF (msg.drop (bufPtr + 2)) = none := by
    cases h : strstr CRLF (msg.drop (bufPtr + 2)) with
    | none => rfl
    | some r =>
      obtain ⟨a, t, hs, hr⟩ := strstr_some h
      apply absurd _ hlast
      rw [hs, hr]
      exact List.infix_append' a CRLF t
  rw [headerRound, if_pos hin, hnone]

/-- The loop over the lines of a text. -/
def scan (key : List UInt8) : Nat → List (List UInt8) → Option (Option Taken)
  | _, [] => some none
  | place, line :: lines =>
    if line.length = 2 then some none
    else if line.length < tmpBufSize then
      match matchKey line key with
      | some value => some (some ⟨place, value⟩)
      | none => scan key (place + (line.length + 2)) lines
    else none

theorem lineRound_scan {round : Nat × Nat → Option (Round (Nat × Nat) (Option Taken))}
    (hrest : ∀ out, Returns round (place + line.length, place + (line.length + 2)) out ↔
      scan key (place + (line.length + 2)) lines = some out)
    (hround : round (p, place) = lineRound key place line) (out : Option Taken) :
    Returns round (p, place) out ↔ scan key place (line :: lines) = some out := by
  rw [lineRound] at hround
  rw [scan]
  split at hround
  case isTrue htwo => rw [returns_done hround, if_pos htwo, Option.some_inj]
  case isFalse htwo =>
    rw [if_neg htwo]
    split at hround
    case isTrue hlt =>
      rw [if_pos hlt]
      cases hmatch : matchKey line key with
      | some value =>
        rw [hmatch] at hround
        rw [returns_done hround, Option.some_inj]
      | none =>
        rw [hmatch] at hround
        rw [returns_next hround]
        exact hrest out
    case isFalse hge =>
      rw [if_neg hge]
      exact iff_of_false (not_returns_of_none hround) nofun

/-- The loop behind a line. -/
theorem returns_scan (hmsg : 0 ∉ before ++ text) (hbefore : 2 ≤ before.length)
    (out : Option Taken) :
    Returns (headerRound (before ++ text) key) (before.length - 2, before.length) out ↔
      scan key before.length (linesFrom [] text) = some out := by
  have hptr : before.length - 2 + 2 = before.length := Nat.sub_add_cancel hbefore
  induction text using crlf_induction generalizing before out with
  | last s hlast =>
    have hround : headerRound (before ++ s) key (before.length - 2, before.length) =
        some (.done none) := by
      apply headerRound_last
      · rw [hptr, List.length_append]
        exact Nat.le_add_right _ _
      · rwa [hptr, List.drop_left]
    rw [returns_done hround, linesFrom_last (l := []) hlast, scan, Option.some_inj]
  | line a t ha ih =>
    have hline : 0 ∉ a := fun h =>
      hmsg (List.mem_append_right _ (List.mem_append_left _ h))
    rw [linesFrom_line (l := []) ha]
    apply lineRound_scan
    · intro out
      have hlen : (before ++ (a ++ CRLF)).length = before.length + (a.length + 2) := by
        rw [List.length_append, List.length_append]
        rfl
      have happ : before ++ (a ++ (CRLF ++ t)) = before ++ (a ++ CRLF) ++ t := by
        rw [List.append_assoc, List.append_assoc]
      have hrest := @ih (before ++ (a ++ CRLF)) (by rwa [← happ]) (by omega) out (by omega)
      rw [hlen] at hrest
      rw [happ]
      exact hrest
    · apply headerRound_line hline
      · rw [hptr, List.length_append]
        exact Nat.le_add_right _ _
      · rw [hptr, List.drop_left]
        exact strstr_crlf ha t

/-- The first line that is hit, behind harmless lines. -/
def Found (key : List UInt8) (place : Nat) (lines : List (List UInt8)) (taken : Taken) : Prop :=
  ∃ before line after, lines = before ++ line :: after ∧ (∀ l ∈ before, Harmless key l) ∧
    line.length ≠ 2 ∧ line.length < tmpBufSize ∧ Hits key line ∧
    taken = ⟨place + (joinLines before).length, fieldValue line⟩

end BigBox.EHttp
