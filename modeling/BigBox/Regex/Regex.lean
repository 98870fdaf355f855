import BigBox.Lib.Backtrack

namespace BigBox.Regex
set_option autoImplicit true

inductive SymbolType where
  | unused
  | dot
  | begin
  | end
  | questionmark
  | star
  | plus
  | char
  | charClass
  | invCharClass
  | digit
  | notDigit
  | alpha
  | notAlpha
  | whitespace
  | notWhitespace
  deriving DecidableEq, Repr

/-- `regex_t`, with the two members of its union side by side. -/
structure RegexT where
  type : SymbolType
  ch : UInt8
  ccl : List Int8
  deriving DecidableEq, Repr

/-- The sentinel behind the last symbol. -/
def unused : RegexT := ⟨.unused, 0, []⟩

def matchdigit (c : Int8) : Bool := c ≥ 48 ∧ c ≤ 57

def matchalpha (c : Int8) : Bool := (c ≥ 97 ∧ c ≤ 122) ∨ (c ≥ 65 ∧ c ≤ 90)

def matchwhitespace (c : Int8) : Bool :=
  c = 32 ∨ c = 9 ∨ c = 10 ∨ c = 13 ∨ c = 12 ∨ c = 11

def matchalphanum (c : Int8) : Bool := c = 95 ∨ matchalpha c ∨ matchdigit c

/-- A string is its characters in front of the zero. -/
def matchrange (c : Int8) (str : List Int8) : Bool :=
  c ≠ 45 ∧ str.getD 0 0 ≠ 0 ∧ str.getD 0 0 ≠ 45 ∧ str.getD 1 0 = 45 ∧ str.getD 1 0 ≠ 0 ∧
    str.getD 2 0 ≠ 0 ∧ c ≥ str.getD 0 0 ∧ c ≤ str.getD 2 0

def ismetachar (c : Int8) : Bool :=
  c = 115 ∨ c = 83 ∨ c = 119 ∨ c = 87 ∨ c = 100 ∨ c = 68

def matchmetachar (c s : Int8) : Bool :=
  if s = 100 then matchdigit c
  else if s = 68 then !matchdigit c
  else if s = 119 then matchalphanum c
  else if s = 87 then !matchalphanum c
  else if s = 115 then matchwhitespace c
  else if s = 83 then !matchwhitespace c
  else c = s

/-- `matchcharclass`, with the character in front of the string. -/
def matchcharclass (c : Int8) : Int8 → List Int8 → Bool
  | _, [] => c = 0
  | before, s :: str =>
    if matchrange c (s :: str) then true
    else if s = 92 then
      match str with
      | [] => c = 0
      | s :: str =>
        if matchmetachar c s then true
        else if c = s ∧ ¬ ismetachar c then true
        else matchcharclass c s str
    else if c = s then
      if c = 45 then before = 0 ∨ str = [] else true
    else matchcharclass c s str

/-- In front of the string of a class there is a zero. -/
def matchone (p : RegexT) (c : Int8) : Bool :=
  match p.type with
  | .dot => true
  | .charClass => matchcharclass c 0 p.ccl
  | .invCharClass => !matchcharclass c 0 p.ccl
  | .digit => matchdigit c
  | .notDigit => !matchdigit c
  | .alpha => matchalphanum c
  | .notAlpha => !matchalphanum c
  | .whitespace => matchwhitespace c
  | .notWhitespace => !matchwhitespace c
  | _ => (p.ch.toNat : Int) = c.toInt

/-- What a matcher returns, and the counter behind `matchlength`. -/
abbrev Outcome := Bool × Int

section Repeats
variable (matchRest : List Int8 → Int → Outcome)

/-- The second loop of `matchstar`, which takes back one character after the other. -/
def starLoop (prepoint : List Int8) : Nat → Int → Outcome
  | 0, matchlength =>
    let (ok, matchlength) := matchRest prepoint matchlength
    if ok then (true, matchlength) else (false, matchlength - 1)
  | k + 1, matchlength =>
    let (ok, matchlength) := matchRest (prepoint.drop (k + 1)) matchlength
    if ok then (true, matchlength) else starLoop prepoint k (matchlength - 1)

def matchstar (p : RegexT) (text : List Int8) (matchlength : Int) : Outcome :=
  let prelen := matchlength
  let k := Backtrack.runLength (matchone p) text
  let (ok, matchlength) := starLoop matchRest text k (matchlength + k)
  if ok then (true, matchlength) else (false, prelen)

/-- The second loop of `matchplus`. -/
def plusLoop (prepoint : List Int8) : Nat → Int → Outcome
  | 0, matchlength => (false, matchlength)
  | k + 1, matchlength =>
    let (ok, matchlength) := matchRest (prepoint.drop (k + 1)) matchlength
    if ok then (true, matchlength) else plusLoop prepoint k (matchlength - 1)

def matchplus (p : RegexT) (text : List Int8) (matchlength : Int) : Outcome :=
  let k := Backtrack.runLength (matchone p) text
  plusLoop matchRest text k (matchlength + k)

def matchquestion (p : RegexT) (text : List Int8) (matchlength : Int) : Outcome :=
  if p.type = .unused then (true, matchlength)
  else
    let (ok, matchlength) := matchRest text matchlength
    if ok then (true, matchlength)
    else
      match text with
      | [] => (false, matchlength)
      | c :: text =>
        if matchone p c then
          let (ok, matchlength) := matchRest text matchlength
          if ok then (true, matchlength + 1) else (false, matchlength)
        else (false, matchlength)

/-- The returns of the loop of `matchpattern`, whose first two symbols are `p` and `q`. -/
def matchReturn (p q : RegexT) (text : List Int8) (matchlength : Int) : Option Outcome :=
  if p.type = .unused ∨ q.type = .questionmark then
    some (matchquestion matchRest p text matchlength)
  else if q.type = .star then some (matchstar matchRest p text matchlength)
  else if q.type = .plus then some (matchplus matchRest p text matchlength)
  else if p.type = .end ∧ q.type = .unused then some (text = [], matchlength)
  else none

end Repeats

/-- The loop of `matchpattern`. A pattern is its symbols in front of the sentinel. -/
def matchLoop (pre : Int) : List RegexT → List Int8 → Int → Outcome
  | [], _, matchlength => (true, matchlength)
  | [p], text, matchlength =>
    match matchReturn (fun _ matchlength => (true, matchlength)) p unused text matchlength with
    | some result => result
    | none =>
      match text with
      | [] => (false, pre)
      | c :: text =>
        if matchone p c then matchLoop pre [] text (matchlength + 1) else (false, pre)
  | p :: q :: pattern, text, matchlength =>
    match matchReturn (fun text matchlength => matchLoop matchlength pattern text matchlength) p q
      text matchlength with
    | some result => result
    | none =>
      match text with
      | [] => (false, pre)
      | c :: text =>
        if matchone p c then matchLoop pre (q :: pattern) text (matchlength + 1) else (false, pre)

def matchpattern (pattern : List RegexT) (text : List Int8) (matchlength : Int) : Outcome :=
  matchLoop matchlength pattern text matchlength

/-- The loop of `re_matchp`. -/
def searchLoop (pattern : List RegexT) : List Int8 → Int → Int → Int × Int
  | [], _, matchlength => (-1, (matchpattern pattern [] matchlength).2)
  | c :: text, idx, matchlength =>
    let (ok, matchlength) := matchpattern pattern (c :: text) matchlength
    if ok then (idx + 1, matchlength) else searchLoop pattern text (idx + 1) matchlength

/-- The `int` that a counter gets to. -/
@[irreducible] def int (n : Int) : Int := n.bmod 4294967296

/-- What `re_matchp` returns, and what it leaves in `*matchlength`. -/
def reMatchp (pattern : Option (List RegexT)) (text : List Int8) : Int × Int :=
  let (ret, matchlength) :=
    match pattern with
    | none => (-1, 0)
    | some [] => searchLoop [] text (-1) 0
    | some (p :: pattern) =>
      if p.type = .begin then
        let (ok, matchlength) := matchpattern pattern text 0
        (if ok then 0 else -1, matchlength)
      else searchLoop (p :: pattern) text (-1) 0
  (int ret, int matchlength)

end BigBox.Regex
