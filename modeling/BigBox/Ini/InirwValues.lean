import BigBox.Ini.InirwLookup
import Mathlib.Data.Bool.AllAny

namespace BigBox.Inirw
set_option autoImplicit true

/-- The characters that `GetLine` treats as quotes or as the start of a comment. -/
def isMark (c : UInt8) : Bool := c = QUOTE1 ∨ c = QUOTE2 ∨ c = SEMICOLON ∨ c = HASH

/-- How many blanks come behind the last character that is neither a blank nor a mark. -/
def blanksBehind (n : Nat) (text : List UInt8) : Nat :=
  text.foldl (fun n c => if isMark c then n else if isspace c then n + 1 else 0) n

/-- A line that gives a key a value without quotes, and the comment behind it. -/
structure KeyLine where
  key : List UInt8
  value : List UInt8
  comment : List UInt8
  plain : ∀ c ∈ key ++ value ++ comment, Plain c
  unmarked : ∀ c ∈ key ++ value, isMark c = false
  key_end : EQUALS ∉ key
  value_ne : trim value ≠ []
  comment_mark : ∀ c ∈ comment.head?, c = SEMICOLON ∨ c = HASH

namespace KeyLine

/-- The line without its comment. -/
def front (l : KeyLine) : List UInt8 := l.key ++ EQUALS :: l.value

def text (l : KeyLine) : List UInt8 := l.front ++ l.comment

def content (l : KeyLine) : List UInt8 := trim l.front

end KeyLine

/-- A section line in the eyes of `GetLine`. -/
def Bracketed (content : List UInt8) : Prop :=
  content.head? = some OPEN ∧ content.getLast? = some CLOSE

instance (content : List UInt8) : Decidable (Bracketed content) :=
  inferInstanceAs (Decidable (_ ∧ _))

/-- The text ends, or a line end or a zero byte comes first. -/
def EndsLine (rest : List UInt8) : Prop := ∀ c ∈ rest.head?, ¬ Plain c

/-- How far `GetLine` places the end of a line behind its text: a zero byte counts as text, and
of two equal line ends with a character behind them one is taken off twice. -/
def lineShift : List UInt8 → Int
  | [] => 0
  | c :: rest =>
    if c = 0 then 1
    else match rest with
      | [] => 0
      | d :: rest =>
        if d = 0 then 1
        else if Plain d then 0
        else match rest with
          | [] => 0
          | e :: _ => if e = 0 then 1 else if c = d then -1 else 0

namespace Scan
variable {s : Scan} {t : List UInt8}

/-- What the end of a line leaves of the state, and where it is placed. -/
structure Ended (s s' : Scan) (shift : Int) : Prop where
  place : (s'.pos - s'.cntCR - s'.cntLF : Int) = s.pos - s.cntCR - s.cntLF + shift
  cntblank : s'.cntblank = s.cntblank
  cont1 : s'.cont1 = s.cont1
  rem1 : s'.rem1 = s.rem1

theorem Ended.refl (s : Scan) : Ended s s 0 := ⟨by omega, rfl, rfl, rfl⟩

end Scan

namespace KeyLine
variable {l : KeyLine}

theorem content_eq (l : KeyLine) :
    l.content = l.key.dropWhile isspace ++ EQUALS :: l.value.rdropWhile isspace :=
  trim_middle (by decide)

/-- How many characters of the content `GetLine` cuts off; a negative number adds some. -/
def cut (l : KeyLine) (rest : List UInt8) : Int :=
  if l.comment = [] then -lineShift rest else blanksBehind 0 l.text

end KeyLine

namespace KeyLine
variable {l : KeyLine} {rest : List UInt8}

end KeyLine

/-- The loop of `iniGetValue` over lines in front of the key; `none` when it ends there. -/
def passed (name : Option (List UInt8)) (key : List UInt8) (found : Bool) :
    List Line → Option Bool
  | [] => some found
  | line :: lines =>
    match line.type with
    | .section =>
      if found ∨ name = none then none else passed name key (line.startsSection name) lines
    | .value =>
      if found = false ∧ name ≠ none then passed name key found lines
      else if striCmp line.keyValue.1 key = 0 then none
      else passed name key true lines
    | _ => passed name key found lines

/-- A place where a text gives a key of a section its first value: the loop of `iniGetValue`
comes there through the lines in front. -/
structure Occurrence (buf : List UInt8) (name : Option (List UInt8)) (key : List UInt8) where
  place : Nat
  before : List Line
  found : Bool
  line : KeyLine
  rest : List UInt8
  reaches : Reaches buf place before
  passes : passed name key false before = some found
  inside : found = true ∨ name = none
  text : buf.drop place = line.text ++ rest
  ends : EndsLine rest
  same : striCmp (trim line.key) key = 0
  fits : line.content.length < SIZE_LINE
  unbracketed : ¬ Bracketed line.content

namespace Occurrence
variable {buf : List UInt8} {name : Option (List UInt8)} {key : List UInt8}

def cut (o : Occurrence buf name key) : Int := o.line.cut o.rest

/-- The text behind the line. -/
def behind (o : Occurrence buf name key) : List UInt8 :=
  (o.line.text ++ o.rest).drop (Scan.start.run (o.line.text ++ o.rest)).pos

end Occurrence

theorem getValueLoop_passed (h : passed name key found lines = some found')
    (rest : List (Option Line)) :
    getValueLoop name key found (lines.map some ++ rest) = getValueLoop name key found' rest := by
  induction lines generalizing found with
  | nil =>
    cases h
    rfl
  | cons line lines ih =>
    rw [passed] at h
    rw [List.map_cons, List.cons_append, getValueLoop]
    cases htype : line.type with
    | «section» =>
      rw [htype] at h
      dsimp only at h ⊢
      split at h
      case isTrue => cases h
      case isFalse hnot =>
        rw [if_neg hnot]
        exact ih h
    | value =>
      rw [htype] at h
      dsimp only at h ⊢
      split at h
      case isTrue hout =>
        rw [if_pos hout]
        exact ih h
      case isFalse hin =>
        split at h
        case isTrue => cases h
        case isFalse hne =>
          rw [if_neg hin, if_neg hne]
          exact ih h
    | error =>
      rw [htype] at h
      exact ih h
    | empty =>
      rw [htype] at h
      exact ih h

namespace Occurrence
variable {buf : List UInt8} {name : Option (List UInt8)} {key : List UInt8} {l : Line}

theorem lookup_eq (o : Occurrence buf name key) :
    lookup buf name key =
      (getValueLoop name key o.found (linesOf (o.line.text ++ o.rest))).map (·.map unquote) := by
  rw [lookup, o.reaches.linesOf, getValueLoop_passed o.passes, o.text]

end Occurrence

section Witness

end Witness

end BigBox.Inirw
