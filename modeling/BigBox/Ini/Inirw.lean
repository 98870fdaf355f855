import BigBox.Lib.CString
import Mathlib.Logic.Function.Basic

namespace BigBox.Inirw
open Function
set_option autoImplicit true

def SIZE_LINE : Nat := 1024
def SIZE_FILENAME : Nat := 256

def CR : UInt8 := 13
def LF : UInt8 := 10
def BLANK : UInt8 := 32
def QUOTE1 : UInt8 := 39
def QUOTE2 : UInt8 := 34
def SEMICOLON : UInt8 := 59
def HASH : UInt8 := 35
def EQUALS : UInt8 := 61
def OPEN : UInt8 := 91
def CLOSE : UInt8 := 93

inductive LineType
  | error | empty | section | value
deriving DecidableEq

def strStrip (s : List UInt8) : List UInt8 := trim s

def toLower (c : UInt8) : UInt8 := if 65 ≤ c ∧ c ≤ 90 then c + 32 else c

/-- `StriCmp`: the end of a list stands for the zero byte. -/
def striCmp : List UInt8 → List UInt8 → Int
  | [], [] => 0
  | [], c :: _ => -(toLower c).toNat
  | c :: _, [] => (toLower c).toNat
  | c :: s, d :: t =>
    if c ≠ 0 ∧ toLower c = toLower d then striCmp s t
    else (toLower c).toNat - (toLower d).toNat

/-- What `GetLine` keeps while it reads a line; `pos` is `p - buf`. -/
structure Scan where
  pos : Nat
  cntblank : Nat
  cntCR : Nat
  cntLF : Nat
  isQuot1 : Bool
  isQuot2 : Bool
  cont1 : Option Nat
  rem1 : Option Int

def Scan.start : Scan := ⟨0, 0, 0, 0, false, false, none, none⟩

/-- The `switch` of `GetLine`. -/
def Scan.char (s : Scan) (c : UInt8) : Scan :=
  let next := { s with pos := s.pos + 1 }
  if c = CR then { next with cntCR := s.cntCR + 1 }
  else if c = LF then { next with cntLF := s.cntLF + 1 }
  else if c = QUOTE1 then
    if s.isQuot2 then next else { next with isQuot1 := !s.isQuot1 }
  else if c = QUOTE2 then
    if s.isQuot1 then next else { next with isQuot2 := !s.isQuot2 }
  else if c = SEMICOLON ∨ c = HASH then
    if s.isQuot1 ∨ s.isQuot2 then next
    else if s.rem1 = none then { next with rem1 := some (s.pos - s.cntblank) }
    else next
  else if isspace c then { next with cntblank := s.cntblank + 1 }
  else if s.rem1 = none ∧ s.cont1 = none then { next with cntblank := 0, cont1 := some s.pos }
  else { next with cntblank := 0 }

/-- How the loop of `GetLine` ends at a character, if it does: behind a zero byte, or before
the character when a line end is complete. After two equal line ends it goes back by one. -/
def Scan.stop (s : Scan) (c : UInt8) : Option Scan :=
  if c = 0 then some { s with pos := s.pos + 1 }
  else if s.cntCR = 2 ∨ s.cntLF = 2 then some { s with pos := s.pos - 1 }
  else if 2 ≤ s.cntCR + s.cntLF then some s
  else if (s.cntCR ≠ 0 ∨ s.cntLF ≠ 0) ∧ c ≠ CR ∧ c ≠ LF then some s
  else none

def Scan.run (s : Scan) : List UInt8 → Scan
  | [] => s
  | c :: cs =>
    match s.stop c with
    | some s => s
    | none => (s.char c).run cs

/-- A line as `GetLine` returns it, its pointers as offsets from the line's start. -/
structure Line where
  type : LineType
  content : List UInt8
  rem1 : Int
  rem2 : Int
  nextline : Nat

/-- The line read from `buf` when the loop has ended. The copy crashes when the blanks counted
behind a comment exceed the content. -/
def Scan.line (s : Scan) (buf : List UInt8) : Option Line :=
  let rem2 : Int := s.pos - s.cntCR - s.cntLF
  let rem1 := s.rem1.getD rem2
  let cont2 := rem1 - s.cntblank
  match s.cont1 with
  | none => some ⟨.empty, [], rem1, rem2, s.pos⟩
  | some cont1 =>
    let i := cont2 - cont1
    if SIZE_LINE ≤ i then some ⟨.error, [], rem1, rem2, s.pos⟩
    else if i < 0 then none
    else
      let content := (buf.drop cont1).take i.toNat
      if content.head? = some OPEN ∧ content.getLast? = some CLOSE then
        some ⟨.section, content, rem1, rem2, s.pos⟩
      else if EQUALS ∈ cString content then some ⟨.value, content, rem1, rem2, s.pos⟩
      else some ⟨.error, content, rem1, rem2, s.pos⟩

def getLine (buf : List UInt8) : Option Line := (Scan.start.run buf).line buf

/-- The lines `GetLine` returns one behind the other; it crashes at an entry `none`. -/
def getLines : Nat → List UInt8 → List (Option Line)
  | 0, _ => []
  | n + 1, buf =>
    if buf = [] then []
    else match getLine buf with
      | none => [none]
      | some line => some line :: getLines n (buf.drop line.nextline)

def linesOf (buf : List UInt8) : List (Option Line) := getLines buf.length buf

/-- The name in a section line, as the loops below cut it out of the content. -/
def Line.sectionName (line : Line) : List UInt8 := strStrip ((cString line.content).dropLast.drop 1)

/-- `GetKeyValue`. -/
def Line.keyValue (line : Line) : List UInt8 × List UInt8 :=
  let content := cString line.content
  (strStrip (content.takeWhile (· ≠ EQUALS)), strStrip ((content.dropWhile (· ≠ EQUALS)).drop 1))

/-- A line starts the section asked for. -/
def Line.startsSection (line : Line) (name : Option (List UInt8)) : Bool :=
  name.any fun name => striCmp line.sectionName name = 0

/-- What `FindSection` finds, as offsets. -/
structure FoundSection where
  sect1 : Nat
  sect2 : Int
  cont1 : Nat
  cont2 : Nat
  nextsect : Nat

/-- The loop of `FindSection`; `none` is a crash. Until the loop ends `cont2` is the end of the
last line with content, in `empty`. -/
def findSectionLoop (name : Option (List UInt8)) (uselen : Nat) (empty : Nat)
    (found : Option (Nat × Int × Nat)) : List (Option Line) → Option (Option FoundSection)
  | [] => some (found.map fun (sect1, sect2, cont1) => ⟨sect1, sect2, cont1, empty, uselen⟩)
  | none :: _ => none
  | some line :: lines =>
    let next := uselen + line.nextline
    match line.type with
    | .section =>
      if found.isSome ∨ name = none then
        some (found.map fun (sect1, sect2, cont1) => ⟨sect1, sect2, cont1, empty, next⟩)
      else if line.startsSection name then
        findSectionLoop name next next (some (uselen, uselen + line.rem1, next)) lines
      else findSectionLoop name next next found lines
    | .value =>
      if found = none ∧ name = none then
        findSectionLoop name next next (some (uselen, uselen, uselen)) lines
      else findSectionLoop name next next found lines
    | _ => findSectionLoop name next empty found lines

def findSection (buf : List UInt8) (name : Option (List UInt8)) : Option (Option FoundSection) :=
  findSectionLoop name 0 0 none (linesOf buf)

structure Ini where
  gFileName : List UInt8
  gBuffer : Option (List UInt8)

/-- The files by their names. -/
def Files : Type := List UInt8 → Option (List UInt8)

def parserIniLoad (filename : List UInt8) (files : Files) : Option Ini :=
  if SIZE_FILENAME ≤ filename.length then none
  else (files filename).map fun content => ⟨filename, some content⟩

/-- The loop of `iniGetValue`: the raw value, unless the key is missing or has no value. -/
def getValueLoop (name : Option (List UInt8)) (key : List UInt8) (found : Bool) :
    List (Option Line) → Option (Option (List UInt8))
  | [] => some none
  | none :: _ => none
  | some line :: lines =>
    match line.type with
    | .section =>
      if found ∨ name = none then some none
      else getValueLoop name key (line.startsSection name) lines
    | .value =>
      if found = false ∧ name ≠ none then getValueLoop name key found lines
      else if striCmp line.keyValue.1 key = 0 then
        if line.keyValue.2 = [] then some none else some (some line.keyValue.2)
      else getValueLoop name key true lines
    | _ => getValueLoop name key found lines

/-- `iniGetValue` into a buffer of `maxlen` bytes: its return value and the string there. -/
def iniGetValue (ini : Ini) (name : Option (List UInt8)) (key : List UInt8) (maxlen : Nat)
    (defvalue : Option (List UInt8)) : Option (Int × List UInt8) :=
  match ini.gBuffer with
  | none => some (0, [])
  | some buf => (getValueLoop name key false (linesOf buf)).map fun
    | some value => (1, value.take (maxlen - 1))
    | none => (0, (defvalue.getD []).take (maxlen - 1))

/-- A value without the quotes around it. -/
def unquote (value : List UInt8) : List UInt8 :=
  if value.head? = some QUOTE1 ∧ value.getLast? = some QUOTE1 then value.dropLast.drop 1
  else if value.head? = some QUOTE2 ∧ value.getLast? = some QUOTE2 then value.dropLast.drop 1
  else value

def iniGetString (ini : Ini) (name : Option (List UInt8)) (key : List UInt8) (maxlen : Nat)
    (defvalue : Option (List UInt8)) : Option (Int × List UInt8) :=
  (iniGetValue ini name key maxlen defvalue).map fun (ret, value) =>
    if ret = 0 then (ret, value) else (ret, unquote value)

/-- The loop of `iniSetString` over a section's lines: the key's line and where it starts. -/
def findKeyLoop (key : List UInt8) (p : Nat) :
    List (Option Line) → Option (Option (Nat × Line))
  | [] => some none
  | none :: _ => none
  | some line :: lines =>
    if line.type = .value ∧ striCmp line.keyValue.1 key = 0 then some (some (p, line))
    else findKeyLoop key (p + line.nextline) lines

def findKey (buf : List UInt8) (cont1 cont2 : Nat) (key : List UInt8) :
    Option (Option (Nat × Line)) :=
  findKeyLoop key cont1 (linesOf ((buf.drop cont1).take (cont2 - cont1)))

/-- The text `key = value`. -/
def assignment (key value : List UInt8) : List UInt8 := key ++ [BLANK, EQUALS, BLANK] ++ value

/-- `iniSetString`, where `opens` says whether `fopen` succeeds: its return value and the files.
The object that `parser_ini_load` makes of the written file is dropped. -/
def iniSetString (ini : Ini) (name : Option (List UInt8)) (key : List UInt8)
    (value : Option (List UInt8)) (opens : Bool) (files : Files) : Option (Int × Files) :=
  match ini.gBuffer with
  | none => some (0, files)
  | some buf =>
    (findSection buf name).bind fun
    | none =>
      match value with
      | none => some (0, files)
      | some value =>
        if opens = false then some (0, files)
        else name.map fun name =>
          let old := (files ini.gFileName).getD []
          let new := old ++ [LF, OPEN] ++ name ++ [CLOSE, LF] ++ assignment key value ++ [LF]
          (1, update files ini.gFileName (some new))
    | some found =>
      (findKey buf found.cont1 found.cont2 key).bind fun
      | some (p, line) =>
        if opens = false then some (0, files)
        else
          let new := match value with
            | none => buf.take p ++ buf.drop (p + line.nextline)
            | some value =>
              buf.take p ++ (assignment key value ++ buf.drop (p + line.rem1).toNat)
          some (1, update files ini.gFileName (some new))
      | none =>
        match value with
        | none => some (0, files)
        | some value =>
          if opens = false then some (0, files)
          else
            let new := buf.take found.cont2 ++ assignment key value ++ [LF] ++
              buf.drop found.cont2
            some (1, update files ini.gFileName (some new))

end BigBox.Inirw
