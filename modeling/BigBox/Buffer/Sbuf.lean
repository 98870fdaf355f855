import BigBox.Lib.Block
import BigBox.Lib.CInt
import BigBox.Lib.CString
import BigBox.Lib.Double

namespace BigBox.Sbuf
open Double
set_option autoImplicit true

/-- A dynamic string with the bytes of its block. -/
structure SBUF where
  buf : List UInt8
  size : Nat
  len : Nat

/-- An `int` as a `size_t`. -/
def intToSize (n : Int) : Nat := (n % 18446744073709551616).toNat

/-- The difference of two `size_t`. -/
def minus (a b : Nat) : Nat := sizeT (a + 18446744073709551616 - b)

/-- `SBUF_BUF`, a double. -/
def sbufBuf (size : Nat) : Nat := mul (ofNat size) fifth

/-- `unset` is what stands in the size of the new structure. -/
def sbufNew (fresh : Nat → UInt8) (unset size : Nat) : Option SBUF := do
  let buf ← Block.write (Block.realloc [] fresh size) 0 [0]
  return ⟨buf, if size ≠ 0 then size else toNat (sbufBuf unset), 0⟩

def strGrows (data : SBUF) (size : Int) : Prop := data.size < sizeT (data.len + intToSize size)

instance decidableStrGrows (data : SBUF) (size : Int) : Decidable (strGrows data size) :=
  inferInstanceAs (Decidable (_ < _))

/-- The size that `sbuf_append_str` asks for. -/
def strRequest (data : SBUF) (size : Int) : Nat :=
  toNat (add (ofNat (sizeT (data.size + data.len + intToSize size))) (sbufBuf data.size))

/-- The size that it notes down. -/
def strSize (data : SBUF) (size : Int) : Nat :=
  toNat (add (ofNat data.size)
    (add (ofNat (sizeT (data.len + intToSize size))) (sbufBuf data.size)))

/-- What `snprintf` writes of a string. -/
def snprintf (n : Nat) (s : Text) : List UInt8 :=
  if n = 0 then [] else s.1.take (n - 1) ++ [0]

/-- A signed overflow has no result. -/
def sbufAppendStr (fresh : Nat → UInt8) (data : SBUF) (s : Text) : Option (Bool × SBUF) := do
  let size := toInt (s.1.length + 1)
  let data := if strGrows data size then { data with
    buf := Block.realloc data.buf fresh (strRequest data size), size := strSize data size } else
      data
  let buf ← Block.write data.buf data.len (snprintf (intToSize size) s)
  if size = -2147483648 then none
  else return (true, { data with buf, len := sizeT (data.len + intToSize (size - 1)) })

def chrGrows (data : SBUF) : Prop := data.size < sizeT (data.len + 2)

instance decidableChrGrows (data : SBUF) : Decidable (chrGrows data) :=
  inferInstanceAs (Decidable (_ < _))

def chrRequest (data : SBUF) : Nat :=
  toNat (add (add (ofNat (sizeT (data.size + data.len))) (sbufBuf data.size)) (ofNat 2))

def chrSize (data : SBUF) : Nat :=
  toNat (add (ofNat data.size) (add (add (ofNat data.len) (sbufBuf data.size)) (ofNat 2)))

def sbufAppendChr (fresh : Nat → UInt8) (data : SBUF) (c : UInt8) : Option (Bool × SBUF) := do
  let data := if chrGrows data then { data with
    buf := Block.realloc data.buf fresh (chrRequest data), size := chrSize data } else data
  let buf ← Block.write data.buf data.len [c]
  let buf ← Block.write buf (data.len + 1) [0]
  return (true, { data with buf, len := data.len + 1 })

def sbufBack (data : SBUF) (len : Nat) : Option (Bool × SBUF) := do
  if data.len = 0 then return (false, data)
  else
    let len := minus data.len len
    let buf ← Block.write data.buf len [0]
    return (true, { data with buf, len })

/-- The length of what is moved is an `int`. -/
def sbufEraser (data : SBUF) (start end_ : Nat) : Option (Bool × SBUF) := do
  if data.len = 0 ∨ data.len ≤ start ∨ end_ ≤ start ∨ end_ = 0 ∨ data.len < end_ then
    return (false, data)
  else
    let len := toInt (data.len - end_ + 1)
    let buf ← Block.memcpy data.buf start end_ (intToSize len)
    return (true, { data with buf, len := data.len - (end_ - start) })

/-- A copy to another buffer. -/
def sbufCopy (fresh : Nat → UInt8) (from_ : SBUF) : Option (Bool × SBUF) := do
  let bytes ← Block.read from_.buf 0 from_.len
  let buf ← Block.write (Block.realloc [] fresh from_.size) 0 bytes
  return (true, { from_ with buf })

/-- A buffer that is copied to itself has got its new block before it is read. -/
def sbufCopySelf (fresh : Nat → UInt8) (data : SBUF) : Option (Bool × SBUF) := do
  let buf ← Block.memcpy (Block.realloc [] fresh data.size) 0 0 data.len
  return (true, { data with buf })

def sbufInsertStr (fresh : Nat → UInt8) (data : SBUF) (pos : Nat) (str : Text) :
    Option (Bool × SBUF) := do
  if data.len < pos then return (false, data)
  else
    let len := toInt str.1.length
    if len ≤ 0 then return (false, data)
    else
      let (_, data) ← sbufAppendStr fresh data str
      let (_, data) ← sbufEraser data (minus data.len len.toNat) data.len
      let buf ← Block.memcpy data.buf (pos + len.toNat) pos (minus data.len pos)
      let buf ← Block.write buf pos (str.1.take len.toNat)
      return (true, { data with buf, len := sizeT (data.len + len.toNat) })

/-- A call that changes one buffer. -/
inductive Edit where
  | appendStr (s : Text)
  | appendChr (c : UInt8)
  | back (len : Nat)
  | eraser (start end_ : Nat)
  | insertStr (pos : Nat) (str : Text)

def Edit.apply (fresh : Nat → UInt8) (data : SBUF) : Edit → Option (Bool × SBUF)
  | .appendStr s => sbufAppendStr fresh data s
  | .appendChr c => sbufAppendChr fresh data c
  | .back len => sbufBack data len
  | .eraser start end_ => sbufEraser data start end_
  | .insertStr pos str => sbufInsertStr fresh data pos str

inductive Call where
  | new (size : Nat)
  | edit (i : Nat) (e : Edit)
  | copy (to_ : Option Nat) (from_ : Nat)

/-- What a call finds in new memory. -/
structure Fresh where
  bytes : Nat → UInt8
  size : Nat

def new (fresh : Fresh) (bufs : List SBUF) (size : Nat) : Option (List SBUF × Bool) :=
  (sbufNew fresh.bytes fresh.size size).map fun data => (bufs ++ [data], true)

def edit (fresh : Fresh) (bufs : List SBUF) (i : Nat) (e : Edit) : Option (List SBUF × Bool) := do
  let data ← bufs[i]?
  let (ret, data) ← e.apply fresh.bytes data
  return (bufs.set i data, ret)

/-- A copy to a buffer that is yet to be made is lost. -/
def copy (fresh : Fresh) (bufs : List SBUF) (to_ : Option Nat) (from_ : Nat) :
    Option (List SBUF × Bool) := do
  let data ← bufs[from_]?
  match to_ with
  | none => (sbufCopy fresh.bytes data).map fun r => (bufs, r.1)
  | some i =>
    let copied := if i = from_ then sbufCopySelf fresh.bytes data else sbufCopy fresh.bytes data
    copied.map fun r => (bufs.set i r.2, r.1)

/-- A call on one of several buffers. -/
def step (bufs : List SBUF) : Fresh × Call → Option (List SBUF × Bool)
  | (fresh, .new size) => new fresh bufs size
  | (fresh, .edit i e) => edit fresh bufs i e
  | (fresh, .copy to_ from_) => copy fresh bufs to_ from_

end BigBox.Sbuf
