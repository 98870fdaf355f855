import BigBox.Libnet.HttpBuffer
import BigBox.Lib.Search

namespace BigBox.Libnet
set_option autoImplicit true

structure HttpRequest where
  header : HttpBuffer

structure Header where
  key : Text
  value : Text

def httpRequestGetHeaderData (req : HttpRequest) : List UInt8 := req.header.data

/-- The memory from the pointer on that is returned. -/
def httpRequestGetHeader (req : HttpRequest) (key : Text) : Option (List UInt8) :=
  let offset := key.1.length
  let data := req.header.data
  match strstr key.1 (cString data) with
  | some _ => some (data.drop (offset + 1))
  | none => none

def Header.line (h : Header) : List UInt8 := h.key.1 ++ 58 :: h.value.1 ++ [13, 10]

/-- The data are the lines in order, and every value is found by its key. -/
structure HttpRequest.Shows (req : HttpRequest) (headers : List Header) : Prop where
  data : cString (httpRequestGetHeaderData req) = (headers.map Header.line).flatten
  value : ∀ h ∈ headers, ∃ text, httpRequestGetHeader req h.key = some text ∧ h.value.1 <+: text

/-- No key is in another header's text. -/
def Apart (headers : List Header) : Prop :=
  (headers.map Header.key).Nodup ∧
    headers.Pairwise fun a b => ¬a.key.1 <:+: b.line ∧ ¬b.key.1 <:+: a.line

section Text
variable {data data' : List UInt8} {buf buf' : HttpBuffer} {line : List UInt8}

theorem Header.zero_not_mem_line (h : Header) : 0 ∉ h.line := by
  have hkey := h.key.2
  have hvalue := h.value.2
  simp only [Header.line, List.mem_append, List.mem_cons, hkey, hvalue, List.not_mem_nil, or_false,
    false_or]
  decide

end Text

section Requests
variable {req req' : HttpRequest} {h : Header}

theorem cString_line (h : Header) (rest : List UInt8) : cString (h.line ++ 0 :: rest) = h.line := by
  rw [cString_append h.zero_not_mem_line, cString_cons, if_pos rfl, List.append_nil]

end Requests

end BigBox.Libnet
