import BigBox.Base.Base64
import BigBox.Lib.Hex
import BigBox.Lib.Loop
import Mathlib.Data.List.GetD

namespace BigBox.StrOpt
open Hex Loop
set_option autoImplicit true

/-- `StrOpt::Code`, as far as both directions have a case for it. -/
inductive Code where
  | PathEl
  | HttpURL
  | Custom
  | base64
  | Bin
  deriving DecidableEq, Repr

/-- The sum of an `int` and a constant, unless it overflows. -/
def addInt (i n : Nat) : Option Nat := if i + n < 2147483648 then some (i + n) else none

/-- `string::operator[]`. There is a zero behind the last character. -/
def charAt (s : List UInt8) (i : Nat) : Option UInt8 :=
  if i < s.length then some (s.getD i 0) else if i = s.length then some 0 else none

def substr (s : List UInt8) (pos n : Nat) : List UInt8 := (s.drop pos).take n

/-- `snprintf` of a text into a buffer that is then read as a string. -/
def snprintf (size : Nat) (text : List UInt8) : Option (List UInt8) :=
  if size < 2147483648 then some (text.take (size - 1)) else none

/-- The cases of `StrOpt::PathEl`. -/
def pathElCase (c : UInt8) : Option (List UInt8) :=
  if c = 47 then some [37, 50, 102]
  else if c = 37 then some [37, 50, 53]
  else none

/-- The cases of `StrOpt::HttpURL`. -/
def httpURLCase (c : UInt8) : Option (List UInt8) :=
  if c = 37 then some [37, 50, 53]
  else if c = 32 then some [37, 50, 48]
  else if c = 9 then some [37, 48, 57]
  else if c &&& 128 ≠ 0 then some (37 :: hexPair c)
  else none

/-- A round over the text that is rewritten in place. -/
def replaceRound (case : UInt8 → Option (List UInt8)) :
    Nat × List UInt8 → Option (Round (Nat × List UInt8) (List UInt8))
  | (iSz, sout) =>
    if (iSz : Int) < toInt sout.length then
      match case (sout.getD iSz 0) with
      | some text => do
        let sout := sout.take iSz ++ text ++ sout.drop (iSz + 1)
        let iSz ← addInt iSz 2
        let iSz ← addInt iSz 1
        return .next (iSz, sout)
      | none => do
        let iSz ← addInt iSz 1
        return .next (iSz, sout)
    else some (.done sout)

/-- A round of the search in `opt1`, which is the inner loop of `StrOpt::Custom`. -/
def customRound (input opt1 : List UInt8) :
    Nat × Nat × List UInt8 → Option (Round (Nat × Nat × List UInt8) (List UInt8))
  | (iSz, iSmb, sout) =>
    if (iSz : Int) < toInt input.length then
      let c := input.getD iSz 0
      if iSmb < opt1.length then
        if c = opt1.getD iSmb 0 then do
          let iSz ← addInt iSz 1
          return .next (iSz, 0, sout ++ 37 :: hexPair c)
        else some (.next (iSz, unsigned (iSmb + 1), sout))
      else do
        let iSz ← addInt iSz 1
        return .next (iSz, 0, sout ++ [c])
    else some (.done sout)

def base64alph : Nat → UInt8 := Base64.table

def base64Round (input opt1 : List UInt8) :
    Nat × List UInt8 → Option (Round (Nat × List UInt8) (List UInt8))
  | (iSz, sout) =>
    let size := toInt input.length
    if (iSz : Int) < size then do
      let at0 := (input.getD iSz 0).toNat
      let at1 := (input.getD (iSz + 1) 0).toNat
      let at2 := (input.getD (iSz + 2) 0).toNat
      let sout := if iSz ≠ 0 ∧ iSz % 57 = 0 ∧ opt1.length ≠ 0 then sout ++ opt1 else sout
      let sout := sout ++ [base64alph (at0 >>> 2)]
      let sout :=
        if size ≤ (iSz + 1 : Nat) then sout ++ [base64alph ((at0 &&& 3) <<< 4), 61, 61]
        else
          let sout := sout ++ [base64alph ((at0 &&& 3) <<< 4 ||| at1 >>> 4)]
          if size ≤ (iSz + 2 : Nat) then sout ++ [base64alph ((at1 &&& 15) <<< 2), 61]
          else sout ++ [base64alph ((at1 &&& 15) <<< 2 ||| at2 >>> 6), base64alph (at2 &&& 63)]
      let iSz ← addInt iSz 3
      return .next (iSz, sout)
    else some (.done sout)

def binRound (input : List UInt8) :
    Nat × List UInt8 → Option (Round (Nat × List UInt8) (List UInt8))
  | (iCh, sout) =>
    if iCh < input.length then
      if isxdigit (input.getD iCh 0) then
        some (.next (unsigned (unsigned (iCh + 1) + 1),
          sout ++ [UInt8.ofInt (strtolHex (substr input iCh 2))]))
      else some (.next (unsigned (iCh + 1), sout))
    else some (.done sout)

/-- `StrOpt::strEncode`, up to so many rounds of its loop. -/
def strEncode (fuel : Nat) (input : List UInt8) (tp : Code) (opt1 : List UInt8) :
    Option (List UInt8) :=
  match tp with
  | .PathEl => iterate (replaceRound pathElCase) fuel (0, input)
  | .HttpURL => iterate (replaceRound httpURLCase) fuel (0, input)
  | .Custom => iterate (customRound input opt1) fuel (0, 0, [])
  | .base64 => iterate (base64Round input opt1) fuel (0, [])
  | .Bin => iterate (binRound input) fuel (0, [])

/-- The decoding of what a percent sign is in front of. -/
def percentRound (input : List UInt8) :
    Nat × List UInt8 → Option (Round (Nat × List UInt8) (List UInt8))
  | (iSz, sout) =>
    if iSz < input.length then
      let c := input.getD iSz 0
      if c = 37 then
        if unsigned (iSz + 2) < input.length then
          let text := substr input (unsigned (iSz + 1)) 2
          some (.next (unsigned (unsigned (iSz + 2) + 1), sout ++ [UInt8.ofInt (strtolHex text)]))
        else some (.next (unsigned (iSz + 1), sout ++ [c]))
      else some (.next (unsigned (iSz + 1), sout ++ [c]))
    else some (.done sout)

def getBase64Code (asymb : UInt8) : UInt8 :=
  if asymb = 43 then 62
  else if asymb = 47 then 63
  else if 65 ≤ asymb ∧ asymb ≤ 90 then asymb - 65
  else if 97 ≤ asymb ∧ asymb ≤ 122 then 26 + asymb - 97
  else if 48 ≤ asymb ∧ asymb ≤ 57 then 52 + asymb - 48
  else 0

def base64DecodeRound (input : List UInt8) :
    Nat × List UInt8 → Option (Round (Nat × List UInt8) (List UInt8))
  | (iSz, sout) =>
    if iSz < input.length then
      if isspace (input.getD iSz 0) then some (.next (unsigned (iSz + 1), sout))
      else if unsigned (iSz + 3) < input.length then do
        let at1 ← charAt input (unsigned (iSz + 1))
        let at2 ← charAt input (unsigned (iSz + 2))
        let at3 ← charAt input (unsigned (iSz + 3))
        let w_code1 := getBase64Code at1
        let w_code2 := getBase64Code at2
        let sout :=
          if at1 ≠ 61 then
            let sout := sout ++ [getBase64Code (input.getD iSz 0) <<< 2 ||| w_code1 >>> 4]
            if at2 ≠ 61 then
              let sout := sout ++ [w_code1 <<< 4 ||| w_code2 >>> 2]
              if at3 ≠ 61 then sout ++ [w_code2 <<< 6 ||| getBase64Code at3] else sout
            else sout
          else sout
        return .next (unsigned (iSz + 4), sout)
      else some (.next (unsigned (iSz + 4), sout))
    else some (.done sout)

def binDecodeRound (input opt1 : List UInt8) :
    Nat × List UInt8 → Option (Round (Nat × List UInt8) (List UInt8))
  | (iSz, sout) =>
    if iSz < input.length then do
      let separator :=
        if iSz ≠ 0 ∧ opt1.length ≠ 0 then if iSz % 16 ≠ 0 then cString opt1 else [10] else []
      let buf ← snprintf (3 + opt1.length) (separator ++ hexPair (input.getD iSz 0))
      return .next (unsigned (iSz + 1), sout ++ buf)
    else some (.done sout)

/-- The option `<text>`. -/
def textOption : List UInt8 := [60, 116, 101, 120, 116, 62]

/-- `StrOpt::strDecode`, up to so many rounds of its loop. The listing with the text at the right
is left open. -/
def strDecode (listing : List UInt8 → Option (List UInt8)) (fuel : Nat) (input : List UInt8)
    (tp : Code) (opt1 : List UInt8) : Option (List UInt8) :=
  match tp with
  | .PathEl | .HttpURL | .Custom => iterate (percentRound input) fuel (0, [])
  | .base64 => iterate (base64DecodeRound input) fuel (0, [])
  | .Bin =>
    if opt1 = textOption then listing input
    else iterate (binDecodeRound input opt1) fuel (0, [])

end BigBox.StrOpt
