import BigBox.Ini.StringDic
import BigBox.Lib.CString

namespace BigBox.IniConfig1
open StringDic
set_option autoImplicit true

def ASCIILINESZ : Nat := 1024

def LF : UInt8 := 10
def BLANK : UInt8 := 32
def QUOTE2 : UInt8 := 34
def HASH : UInt8 := 35
def QUOTE1 : UInt8 := 39
def COLON : UInt8 := 58
def SEMICOLON : UInt8 := 59
def EQUALS : UInt8 := 61
def OPEN : UInt8 := 91
def BACKSLASH : UInt8 := 92
def CLOSE : UInt8 := 93

/-- What `iniparser_line` makes of a line. -/
inductive LineStatus
  | error | empty | comment
  | section (name : Str)
  | value (key value : Str)
deriving DecidableEq

/-- `sscanf`'s `%[...]`: the longest text of characters that meet `p`, which is not empty. -/
def scanSet (p : UInt8 → Bool) (s : Str) : Option (Str × Str) :=
  if s.takeWhile p = [] then none else some (s.takeWhile p, s.dropWhile p)

/-- A blank in a format, and the character behind it. -/
def scanChar (c : UInt8) (s : Str) : Option Str :=
  match s.dropWhile isspace with
  | [] => none
  | d :: s => if d = c then some s else none

/-- The key in front of the equals sign, and the text behind the sign and blanks. -/
def scanKey (line : Str) : Option (Str × Str) :=
  (scanSet (· ≠ EQUALS) line).bind fun (key, rest) =>
    (scanChar EQUALS rest).map fun rest => (key, rest.dropWhile isspace)

/-- The formats `%[^=] = "%[^"]"` and `%[^=] = '%[^']'`. -/
def scanQuoted (quote : UInt8) (line : Str) : Option (Str × Str) :=
  (scanKey line).bind fun (key, rest) =>
    (scanChar quote rest).bind fun rest =>
      (scanSet (· ≠ quote) rest).map fun (value, _) => (key, value)

/-- The formats `%[^=] = %[^;#]` and `%[^=] = %[;#]`. -/
def scanPlain (p : UInt8 → Bool) (line : Str) : Option (Str × Str) :=
  (scanKey line).bind fun (key, rest) => (scanSet p rest).map fun (value, _) => (key, value)

/-- The format `%[^=] %[=]`. -/
def scanNoValue (line : Str) : Option Str :=
  (scanSet (· ≠ EQUALS) line).bind fun (key, rest) =>
    (scanSet (· = EQUALS) (rest.dropWhile isspace)).map fun _ => key

def isComment (c : UInt8) : Bool := c = SEMICOLON ∨ c = HASH

/-- `iniparser_line`, or `none` when a section name is written past the end of `key`, which is
allocated for the characters in front of the first equals sign. -/
def iniparserLine (inputLine : Str) : Option LineStatus :=
  let line := trim inputLine
  if line = [] then some .empty
  else if line.head? = some HASH ∨ line.head? = some SEMICOLON then some .comment
  else if line.head? = some OPEN ∧ line.getLast? = some CLOSE then
    let name := (line.drop 1).takeWhile (· ≠ CLOSE)
    if name.length ≤ line.idxOf EQUALS then some (.section (trim name)) else none
  else
    match (scanQuoted QUOTE2 line).or ((scanQuoted QUOTE1 line).or
      (scanPlain (fun c => !isComment c) line)) with
    | some (key, value) =>
      let value := trim value
      let value := if value = [QUOTE2, QUOTE2] ∨ value = [QUOTE1, QUOTE1] then [] else value
      some (.value (trim key) value)
    | none =>
      match ((scanPlain isComment line).map Prod.fst).or (scanNoValue line) with
      | some key => some (.value (trim key) [])
      | none => some .error

/-- What `config_init_load` keeps from line to line. -/
structure Loader where
  fullLine : Option Str
  sect : Str
  d : Dic
  errs : Int

def Loader.start : Loader := ⟨none, [], stringDicNew 0, 0⟩

/-- The `switch` of `config_init_load`; `string_dic_set` returns 0 to `errs`. -/
def Loader.apply (s : Loader) : LineStatus → Loader
  | .empty => s
  | .comment => s
  | .section name => { s with d := stringDicSet s.d name none, errs := 0, sect := name }
  | .value key value =>
    { s with d := stringDicSet s.d (s.sect ++ COLON :: key) (some value), errs := 0 }
  | .error => { s with errs := s.errs + 1 }

/-- One line from `fgets`, and whether the end of the file was met; false is returned to leave
the loop. The result is `none` when the behaviour is undefined: an empty string is read before
its start. -/
def Loader.line (s : Loader) (line : Str) (eof : Bool) : Option (Loader × Bool) :=
  if line = [] then none
  else if line.length = 1 then some (s, true)
  else if line.getLast? ≠ some LF ∧ eof = false then some ({ s with errs := s.errs + 1 }, false)
  else
    let line := line.rdropWhile fun c => c = LF ∨ isspace c
    if line.getLast? = some BACKSLASH then
      some ({ s with fullLine := some (s.fullLine.getD [] ++ line.dropLast) }, true)
    else
      (iniparserLine (s.fullLine.getD [] ++ line)).map fun status =>
        (({ s with fullLine := none } : Loader).apply status, true)

/-- How many characters `fgets` asks of the text for one line. -/
def fgetsLength (text : Str) : Nat := min (ASCIILINESZ - 1) (text.findIdx (· = LF) + 1)

def loadLoop : Nat → Loader → Str → Option Loader
  | 0, s, _ => some s
  | fuel + 1, s, text =>
    if text = [] then some s
    else
      let n := fgetsLength text
      match s.line (cString (text.take n)) (text.length < n) with
      | none => none
      | some (s, true) => loadLoop fuel s (text.drop n)
      | some (s, false) => some s

/-- `config_init_load` on a file it can open: its dictionary, or null after an error. -/
def configInitLoad (file : Str) : Option (Option Dic) :=
  (loadLoop file.length Loader.start file).map fun s => if s.errs = 0 then some s.d else none

/-- The keys that are sections. -/
def sections (d : Dic) : List Str := (d.entries.map Slot.key).filter fun key => COLON ∉ key

def configIniGetSectionNum (d : Dic) : Nat := (sections d).length

def configIniGetSectionName (d : Dic) (n : Nat) : Option Str := (sections d)[n]?

def configIniFindEntry (d : Dic) (entry : Str) : Bool := (stringDicGet d entry).isSome

/-- The format `%-30s = %s` and a line end. -/
def assignment (key value : Str) : Str :=
  key ++ List.replicate (30 - key.length) BLANK ++ [BLANK, EQUALS, BLANK] ++ value ++ [LF]

def configIniSavesectionToFile (d : Dic) (s : Str) : Str :=
  if configIniFindEntry d s = false then []
  else
    let keym := s ++ [COLON]
    [LF, OPEN] ++ s ++ [CLOSE, LF] ++
      (d.entries.filter fun e => keym.isPrefixOf e.key).flatMap
        (fun e => assignment (e.key.drop keym.length) (e.val.getD [])) ++ [LF]

/-- What `%s` prints for a null pointer. -/
def NULL_TEXT : Str := [40, 110, 117, 108, 108, 41]

/-- `config_ini_save_ini`: the text it writes. -/
def configIniSaveIni (d : Dic) : Str :=
  let nsec := configIniGetSectionNum d
  if nsec < 1 then
    d.entries.flatMap fun e =>
      e.key ++ [BLANK, EQUALS, BLANK] ++ e.val.getD NULL_TEXT ++ [LF]
  else
    ((List.range nsec).flatMap fun i =>
      configIniSavesectionToFile d ((configIniGetSectionName d i).getD [])) ++ [LF]

end BigBox.IniConfig1
