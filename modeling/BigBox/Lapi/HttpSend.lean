import BigBox.Lapi.Http
import BigBox.Lapi.Stringbuf
import BigBox.Lib.Block
import BigBox.Lib.CString

namespace BigBox.Lapi.Http
set_option autoImplicit true

inductive HttpRequestMethod where
  | get | options | head | post | put | delete | trace | connect | propfind | proppatch | mkcol
  | copy | move | lock | unlock

def ascii (s : String) : Str := s.toList.map fun c => c.toNat.toUInt8

def httpReqTypeChar : HttpRequestMethod → Str
  | .get => ascii "GET"
  | .options => ascii "OPTIONS"
  | .head => ascii "HEAD"
  | .post => ascii "POST"
  | .put => ascii "PUT"
  | .delete => ascii "DELETE"
  | .trace => ascii "TRACE"
  | .connect => ascii "CONNECT"
  | .propfind => ascii "PROPFIND"
  | .proppatch => ascii "PROPPATCH"
  | .mkcol => ascii "MKCOL"
  | .copy => ascii "COPY"
  | .move => ascii "MOVE"
  | .lock => ascii "LOCK"
  | .unlock => ascii "UNLOCK"

def CRLF : Str := [CR, LF]

/-- `http_t` as far as a request is sent. The version is the text that `%f` prints for it. -/
structure HttpT where
  fd : Int
  path : Option Str
  method : HttpRequestMethod
  httpVer : Str
  headerReqList : HeaderList
  body : Strbuf

/-- `sizeof(http->reqeust.body.len) + 1024`. -/
def bufferSize : Nat := 4 + 1024

/-- The buffer and the position in it. -/
abbrev Writer := Str × Nat

/-- `sprintf` to the position. A byte behind the end of the buffer has no result. -/
def sprintf (w : Writer) (s : Str) : Option Writer :=
  (Block.write w.1 w.2 (s ++ [0])).map fun buffer => (buffer, w.2 + s.length)

def printHeader (list : HeaderList) (w : Writer) (i : Fin HTTP_HEADER_MAX) : Option Writer :=
  match list.header i, list.value i with
  | some header, some value => sprintf w (header ++ value ++ CRLF)
  | _, _ => some w

def memmove (w : Writer) (s : Str) : Option Writer :=
  (Block.write w.1 w.2 s).map fun buffer => (buffer, w.2 + s.length)

/-- The request in the buffer, with the position behind it. -/
def build (http : HttpT) : Option Writer := do
  let w ← sprintf (List.replicate bufferSize 0, 0) (httpReqTypeChar http.method ++ ascii " ")
  let w ← sprintf w (http.path.getD (ascii "/") ++ ascii " ")
  let w ← sprintf w (ascii "HTTP/" ++ http.httpVer ++ CRLF)
  let w ← (List.finRange HTTP_HEADER_MAX).foldlM (printHeader http.headerReqList) w
  let w ← sprintf w CRLF
  let body ← Block.read http.body.content 0 http.body.len
  memmove w body

/-- The loop around `send`, whose result may depend on the number of bytes it is given. The bytes
that it takes come with the return value. -/
def sendLoop (send : Nat → Int) (buffer : Str) (pos : Nat) : Nat → Nat → Option (Int × Str)
  | rounds, st =>
    if st < pos then
      match rounds with
      | 0 => none
      | rounds + 1 =>
        let rv := send (pos - st)
        if rv < 1 then some (-1, [])
        else do
          let taken ← Block.read buffer st rv.toNat
          let (ret, sent) ← sendLoop send buffer pos rounds (st + rv.toNat)
          return (ret, taken ++ sent)
    else some (0, [])

/-- The request left, the return value and the bytes sent. -/
def httpSendRequest (send : Nat → Int) (http : HttpT) : Option (HttpT × Int × Str) :=
  if http.fd < 0 then some (http, -1, [])
  else do
    let (buffer, pos) ← build http
    let (ret, sent) ← sendLoop send buffer pos pos 0
    return ({ http with body := (http.body.consume http.body.len).2 }, ret, sent)

/-- A way to take bytes piecewise. -/
structure Accepting where
  send : Nat → Int
  pos : ∀ n, 0 < n → 0 < send n
  le : ∀ n, 0 < n → send n ≤ n

/-- The name and the value of a header are without line breaks. -/
def Call.Clean : Call → Prop
  | .set key value => CR ∉ key ∧ CR ∉ value
  | .del _ => True

/-- A request whose headers are set by calls. -/
structure Request extends HttpT where
  valid : body.Valid
  calls : List Call
  clean : ∀ c ∈ calls, c.Clean
  made : (tryRun headerStep emptyList calls).map Prod.fst = some headerReqList

def HttpT.requestLine (http : HttpT) : Str :=
  httpReqTypeChar http.method ++ ascii " " ++ (http.path.getD (ascii "/") ++ ascii " ") ++
    (ascii "HTTP/" ++ http.httpVer ++ CRLF)

/-- The line of a header, with the value last set for its name. -/
def fieldLine (values : Str → Option Str) (name : Str) : Str :=
  match values (lower name) with
  | some value => name ++ ascii ": " ++ value ++ CRLF
  | none => []

/-- The request line, a line for every header, a blank line and the body. -/
def Request.wanted (r : Request) : Str :=
  r.requestLine ++
    ((List.finRange HTTP_HEADER_MAX).flatMap fun i =>
      (r.headerReqList.header i).elim [] (fieldLine (run specStep (fun _ => none) r.calls).1)) ++
    (CRLF ++ r.body.content)

/-- The request is sent as wanted, inside the buffer. -/
def Request.Sent (r : Request) (send : Nat → Int) : Prop :=
  ∃ http, httpSendRequest send r.toHttpT = some (http, 0, r.wanted)

/-- There is a connection and no header, and the request has room in the buffer. -/
def Request.Fits (r : Request) : Prop :=
  0 ≤ r.fd ∧ (∀ i, r.headerReqList.header i = none) ∧ r.requestLine.length + 3 ≤ bufferSize ∧
    r.requestLine.length + 2 + r.body.len ≤ bufferSize

/-- The buffer holds these bytes in front of the position. -/
structure Writes (w : Writer) (done : Str) : Prop where
  pos : w.2 = done.length
  size : w.1.length = bufferSize
  front : w.1.take done.length = done

section Build
variable {w w' : Writer} {done s : Str} {list : HeaderList}

theorem Writes.write (h : Writes w done) (rest : Str)
    (hrun : (Block.write w.1 w.2 (s ++ rest)).map (fun buffer => (buffer, w.2 + s.length)) =
      some w') : Writes w' (done ++ s) ∧ done.length + (s ++ rest).length ≤ bufferSize := by
  obtain ⟨buffer, hwrite, rfl⟩ := Option.map_eq_some_iff.1 hrun
  have hfront := Block.take_write hwrite
  have hlength := Block.length_write hwrite
  rw [h.pos] at hwrite hfront ⊢
  rw [h.front, List.length_append, ← Nat.add_assoc] at hfront
  have hin : done.length + (s ++ rest).length ≤ bufferSize := by
    rw [Block.write, h.size] at hwrite
    exact (Option.ite_none_right_eq_some.1 hwrite).1
  refine ⟨⟨List.length_append.symm, hlength.trans h.size, ?_⟩, hin⟩
  have htake := congrArg (List.take (done ++ s).length) hfront
  rw [List.take_take, List.length_append, Nat.min_eq_left (Nat.le_add_right _ _),
    ← List.append_assoc, ← List.length_append, List.take_left] at htake
  exact htake

theorem Writes.exists_print (h : Writes w done) (hin : (done ++ s).length + 1 ≤ bufferSize) :
    ∃ w', sprintf w s = some w' ∧ Writes w' (done ++ s) := by
  have hroom : done.length + (s ++ [0]).length ≤ bufferSize := by
    rwa [← List.length_append, ← List.append_assoc, List.length_append]
  have hrun : sprintf w s = some (copyAt w.1 w.2 (s ++ [0]), w.2 + s.length) := by
    rw [sprintf, Block.write, h.pos, h.size, if_pos hroom]
    rfl
  exact ⟨_, hrun, (h.write [0] hrun).1⟩

theorem Writes.exists_move (h : Writes w done) (hin : (done ++ s).length ≤ bufferSize) :
    ∃ w', memmove w s = some w' := by
  rw [List.length_append] at hin
  rw [memmove, Block.write, h.pos, h.size, if_pos hin]
  exact ⟨_, rfl⟩

/-- What is printed for the header of a slot. -/
def sentLine (list : HeaderList) (i : Fin HTTP_HEADER_MAX) : Str :=
  match list.header i, list.value i with
  | some header, some value => header ++ value ++ CRLF
  | _, _ => []

theorem Writes.header (h : Writes w done) (hrun : printHeader list w i = some w') :
    Writes w' (done ++ sentLine list i) := by
  rw [printHeader] at hrun
  rw [sentLine]
  generalize list.header i = header at hrun ⊢
  generalize list.value i = value at hrun ⊢
  cases header with
  | none =>
    cases hrun
    rwa [List.append_nil]
  | some header =>
    cases value with
    | none =>
      cases hrun
      rwa [List.append_nil]
    | some value => exact (h.write [0] hrun).1

theorem Writes.headers {l : List (Fin HTTP_HEADER_MAX)} (h : Writes w done)
    (hrun : l.foldlM (printHeader list) w = some w') :
    Writes w' (done ++ l.flatMap (sentLine list)) := by
  induction l generalizing w done with
  | nil =>
    cases hrun
    rwa [List.flatMap_nil, List.append_nil]
  | cons i l ih =>
    rw [List.foldlM_cons] at hrun
    obtain ⟨w₁, hheader, hrest⟩ := Option.bind_eq_some_iff.1 hrun
    rw [List.flatMap_cons, ← List.append_assoc]
    exact ih (h.header hheader) hrest

theorem headers_none (hnone : ∀ i, list.header i = none) (l : List (Fin HTTP_HEADER_MAX)) :
    l.foldlM (printHeader list) w = some w := by
  induction l with
  | nil => rfl
  | cons i l ih =>
    rw [List.foldlM_cons, printHeader, hnone]
    exact ih

theorem writes_start : Writes (List.replicate bufferSize 0, 0) [] :=
  ⟨rfl, List.length_replicate, rfl⟩

def HttpT.sentText (http : HttpT) : Str :=
  http.requestLine ++ (List.finRange HTTP_HEADER_MAX).flatMap (sentLine http.headerReqList) ++
    (CRLF ++ http.body.content)

theorem read_content {sb : Strbuf} (h : sb.Valid) :
    Block.read sb.content 0 sb.len = some sb.content := by
  have hread := Block.read_middle [] sb.content [] List.length_nil.symm h.len_eq
  rwa [List.nil_append, List.append_nil] at hread

/-- What is in the buffer when the request has room in it. -/
theorem build_writes {http : HttpT} (hvalid : http.body.Valid) (h : build http = some w) :
    Writes w http.sentText ∧ http.requestLine.length + 3 ≤ bufferSize ∧
      http.sentText.length ≤ bufferSize := by
  obtain ⟨w₁, h₁, h⟩ := Option.bind_eq_some_iff.1 h
  obtain ⟨w₂, h₂, h⟩ := Option.bind_eq_some_iff.1 h
  obtain ⟨w₃, h₃, h⟩ := Option.bind_eq_some_iff.1 h
  obtain ⟨w₄, h₄, h⟩ := Option.bind_eq_some_iff.1 h
  obtain ⟨w₅, h₅, h⟩ := Option.bind_eq_some_iff.1 h
  obtain ⟨body, hbody, h₆⟩ := Option.bind_eq_some_iff.1 h
  cases (read_content hvalid).symm.trans hbody
  have hline : Writes w₃ http.requestLine :=
    (((writes_start.write [0] h₁).1.write [0] h₂).1.write [0] h₃).1
  have hheaders := hline.headers h₄
  obtain ⟨hblank, hin⟩ := hheaders.write [0] h₅
  obtain ⟨hwrites, hsize⟩ := hblank.write (s := http.body.content) [] (by rwa [List.append_nil])
  rw [List.append_assoc] at hwrites
  refine ⟨hwrites, ?_, ?_⟩
  · rw [List.length_append] at hin
    exact Nat.le_trans (Nat.add_le_add_right (Nat.le_add_right _ _) 3) hin
  · rwa [← List.length_append, List.append_nil, List.append_assoc] at hsize

/-- A request without headers that has room in the buffer is built. -/
theorem build_exists {http : HttpT} (hvalid : http.body.Valid)
    (hnone : ∀ i, http.headerReqList.header i = none)
    (hline : http.requestLine.length + 3 ≤ bufferSize)
    (hall : http.requestLine.length + 2 + http.body.len ≤ bufferSize) :
    ∃ w, build http = some w := by
  have hlength : http.requestLine.length =
      (httpReqTypeChar http.method ++ ascii " ").length +
        (http.path.getD (ascii "/") ++ ascii " ").length +
          (ascii "HTTP/" ++ http.httpVer ++ CRLF).length := by
    rw [HttpT.requestLine, List.length_append, List.length_append]
  obtain ⟨w₁, h₁, hw₁⟩ := writes_start.exists_print
    (s := httpReqTypeChar http.method ++ ascii " ") (by rw [List.nil_append]; omega)
  obtain ⟨w₂, h₂, hw₂⟩ := hw₁.exists_print (s := http.path.getD (ascii "/") ++ ascii " ")
    (by rw [List.nil_append, List.length_append]; omega)
  obtain ⟨w₃, h₃, hw₃⟩ := hw₂.exists_print (s := ascii "HTTP/" ++ http.httpVer ++ CRLF)
    (Nat.le_trans (Nat.le_add_right _ 2) hline)
  obtain ⟨w₄, h₄, hw₄⟩ := hw₃.exists_print (s := CRLF)
    (by rw [List.length_append]; exact hline)
  obtain ⟨w₅, h₅⟩ := hw₄.exists_move (s := http.body.content)
    (by rw [List.length_append, List.length_append, ← hvalid.len_eq]; exact hall)
  refine ⟨w₅, ?_⟩
  rw [build, h₁, Option.bind_eq_bind, Option.bind_some, h₂, Option.bind_some, h₃,
    Option.bind_some, headers_none hnone, Option.bind_some, h₄, Option.bind_some,
    read_content hvalid]
  exact h₅

/-- The loop sends all of what is in front of the position, however it is taken. -/
theorem sendLoop_all (h : Writes w t) (hsize : t.length ≤ bufferSize) (a : Accepting)
    (hst : st ≤ t.length) (hrounds : t.length ≤ st + rounds) :
    sendLoop a.send w.1 w.2 rounds st = some (0, t.drop st) := by
  rw [h.pos]
  induction rounds generalizing st with
  | zero =>
    have hend : t.length ≤ st := hrounds
    rw [sendLoop, if_neg (Nat.not_lt.2 hend), List.drop_of_length_le hend]
  | succ rounds ih =>
    rw [sendLoop]
    by_cases hlt : st < t.length
    · have hleft : 0 < t.length - st := Nat.sub_pos_of_lt hlt
      have hpos := a.pos _ hleft
      have hle := a.le _ hleft
      have hread : Block.read w.1 st (a.send (t.length - st)).toNat =
          some ((t.drop st).take (a.send (t.length - st)).toNat) := by
        rw [Block.read, h.size, if_pos (by omega)]
        have hdrop : t.drop st = (w.1.drop st).take (t.length - st) := by
          rw [← List.drop_take, h.front]
        rw [hdrop, List.take_take, Nat.min_eq_left (by omega)]
      rw [if_pos hlt]
      dsimp only
      rw [if_neg (by omega), hread, ih (by omega) (by omega), ← List.drop_drop]
      exact congrArg (fun s => some ((0 : Int), s)) (List.take_append_drop _ _)
    · rw [if_neg hlt, List.drop_of_length_le (Nat.not_lt.1 hlt)]

/-- What is sent when the request has room in the buffer, however it is taken. -/
theorem httpSendRequest_eq {http : HttpT} (hvalid : http.body.Valid) (hfd : ¬ http.fd < 0)
    (h : build http = some w) (a : Accepting) :
    httpSendRequest a.send http =
      some ({ http with body := (http.body.consume http.body.len).2 }, 0, http.sentText) := by
  obtain ⟨hw, _, hsize⟩ := build_writes hvalid h
  have hrounds : http.sentText.length ≤ 0 + w.2 := by rw [Nat.zero_add, hw.pos]
  have hloop := sendLoop_all hw hsize a (Nat.zero_le _) hrounds
  rw [httpSendRequest, if_neg hfd, h, Option.bind_eq_bind, Option.bind_some]
  dsimp only
  rw [hloop]
  rfl

end Build

section Clean
variable {list : HeaderList} {values : Str → Option Str}

/-- The names in a list are without line breaks, and so is the text of every value. -/
structure HeaderList.Clean (list : HeaderList) : Prop where
  named : ∀ i a, list.header i = some a → CR ∉ a
  stored : ∀ i a, list.header i = some a → ∃ v, list.value i = some (lineOf v) ∧ CR ∉ v

theorem httpStrdupKey_eq (h : httpStrdupKey str = some header) : header = str := by
  obtain ⟨len, hlen, rfl⟩ := Option.map_eq_some_iff.1 h
  rw [intLen] at hlen
  cases (Option.ite_none_right_eq_some.1 hlen).2
  rw [snprintf, Nat.add_sub_cancel, List.take_left]

theorem httpStrdupVal_eq (h : httpStrdupVal str = some value) : value = lineOf str := by
  by_cases hlength : str.length + 3 < 2147483648
  · exact Option.some.inj (h.symm.trans (httpStrdupVal_some hlength))
  · rw [httpStrdupVal_none hlength] at h
    cases h

theorem HeaderList.Clean.set_value (h : list.Clean) (hv : CR ∉ v) (i : Fin HTTP_HEADER_MAX) :
    HeaderList.Clean { list with value := Function.update list.value i (some (lineOf v)) } where
  named := h.named
  stored j a ha := by
    rcases eq_or_ne j i with rfl | hj
    · exact ⟨v, Function.update_self .., hv⟩
    · obtain ⟨u, hu, hclean⟩ := h.stored j a ha
      exact ⟨u, (Function.update_of_ne hj ..).trans hu, hclean⟩

theorem HeaderList.Clean.add (h : list.Clean) (hkey : CR ∉ key)
    (hadd : addHeader list key = some (list', r)) : list'.Clean := by
  rw [addHeader] at hadd
  cases hfree : firstSlot fun i => (list.header i).isNone with
  | none =>
    rw [hfree] at hadd
    cases hadd
    exact h
  | some i =>
    rw [hfree] at hadd
    obtain ⟨header, hheader, hadd⟩ := Option.bind_eq_some_iff.1 hadd
    obtain ⟨value, hvalue, he⟩ := Option.map_eq_some_iff.1 hadd
    cases he
    cases httpStrdupKey_eq hheader
    cases httpStrdupVal_eq hvalue
    constructor
    · intro j a (ha : Function.update list.header i (some key) j = some a)
      rcases update_some ha with ⟨_, ha⟩ | ⟨_, ha⟩
      · cases ha
        exact hkey
      · exact h.named j a ha
    · intro j a (ha : Function.update list.header i (some key) j = some a)
      rcases update_some ha with ⟨rfl, _⟩ | ⟨hj, ha⟩
      · exact ⟨key, Function.update_self .., hkey⟩
      · obtain ⟨v, hv, hclean⟩ := h.stored j a ha
        exact ⟨v, (Function.update_of_ne hj ..).trans hv, hclean⟩

theorem HeaderList.Clean.replace {value : Str} (h : list.Clean) (hvalue : CR ∉ value)
    (hreplace : replaceValue list temp value = some (list', r)) : list'.Clean := by
  rw [replaceValue] at hreplace
  cases hslot : list.valueSlot temp with
  | none =>
    rw [hslot] at hreplace
    cases hreplace
    exact h
  | some i =>
    rw [hslot] at hreplace
    obtain ⟨_, hreplace⟩ := Option.ite_none_left_eq_some.1 hreplace
    obtain ⟨v, hv, he⟩ := Option.map_eq_some_iff.1 hreplace
    cases he
    cases httpStrdupVal_eq hv
    exact h.set_value hvalue i

theorem HeaderList.Clean.del (h : list.Clean) (key : Str) :
    (httpHeaderDelValue list key).1.Clean := by
  rw [httpHeaderDelValue]
  cases list.slot key with
  | none => exact h
  | some i =>
    constructor
    · intro j a (ha : Function.update list.header i none j = some a)
      rcases update_some ha with ⟨_, ha⟩ | ⟨_, ha⟩
      · cases ha
      · exact h.named j a ha
    · intro j a (ha : Function.update list.header i none j = some a)
      rcases update_some ha with ⟨_, ha⟩ | ⟨hj, ha⟩
      · cases ha
      · obtain ⟨v, hv, hclean⟩ := h.stored j a ha
        exact ⟨v, (Function.update_of_ne hj ..).trans hv, hclean⟩

theorem HeaderList.Clean.step (h : list.Clean) (hc : c.Clean)
    (hstep : headerStep list c = some (list', r)) : list'.Clean := by
  cases c with
  | set key value =>
    rw [headerStep, httpHeaderSetValue] at hstep
    cases hget : httpHeaderGetValue list key with
    | none =>
      rw [hget] at hstep
      exact h.add hc.1 hstep
    | some temp =>
      rw [hget] at hstep
      exact h.replace hc.2 hstep
  | del key =>
    have hlist : (httpHeaderDelValue list key).1 = list' :=
      congrArg Prod.fst (Option.some.inj hstep)
    exact hlist ▸ h.del key

theorem HeaderList.Clean.run (h : list.Clean) (hcs : ∀ c ∈ cs, c.Clean)
    (hrun : tryRun headerStep list cs = some (list', os)) : list'.Clean := by
  induction cs generalizing list os with
  | nil =>
    cases hrun
    exact h
  | cons c cs ih =>
    obtain ⟨r, hstep, hrest⟩ := Option.bind_eq_some_iff.1 hrun
    obtain ⟨r', hr', he⟩ := Option.map_eq_some_iff.1 hrest
    cases he
    have hclean := h.step (hcs c List.mem_cons_self) hstep
    exact ih hclean (fun d hd => hcs d (List.mem_cons_of_mem _ hd)) hr'

theorem specStep_clean (h : ∀ k v, values k = some v → CR ∉ v) (hcs : ∀ c ∈ cs, c.Clean) :
    ∀ k v, (run specStep values cs).1 k = some v → CR ∉ v := by
  induction cs generalizing values with
  | nil => exact h
  | cons c cs ih =>
    apply ih _ fun d hd => hcs d (List.mem_cons_of_mem _ hd)
    have hc := hcs c List.mem_cons_self
    intro k v hv
    cases c with
    | set key value =>
      by_cases hk : k = lower key
      · subst hk
        cases (Function.update_self ..).symm.trans hv
        exact hc.2
      · exact h k v ((Function.update_of_ne hk ..).symm.trans hv)
    | del key =>
      by_cases hk : k = lower key
      · subst hk
        cases (Function.update_self ..).symm.trans hv
      · exact h k v ((Function.update_of_ne hk ..).symm.trans hv)

/-- The byte behind the first carriage return. -/
def behindCr (s : Str) : Option UInt8 := (s.dropWhile (· ≠ CR))[1]?

theorem behindCr_line (h : CR ∉ a) (c : UInt8) (t : Str) :
    behindCr (a ++ CR :: c :: t) = some c := by
  rw [behindCr, dropWhile_at h]
  rfl

/-- The first line break of the lines wanted is a whole one. -/
theorem behindCr_wanted (hlist : list.Clean) (hvalues : ∀ k v, values k = some v → CR ∉ v)
    (l : List (Fin HTTP_HEADER_MAX)) (t : Str) :
    behindCr ((l.flatMap fun i => (list.header i).elim [] (fieldLine values)) ++ (CRLF ++ t)) =
      some LF := by
  induction l with
  | nil => exact behindCr_line (a := []) List.not_mem_nil LF t
  | cons i l ih =>
    rw [List.flatMap_cons, List.append_assoc]
    cases hname : list.header i with
    | none => exact ih
    | some name =>
      rw [Option.elim_some, fieldLine]
      cases hvalue : values (lower name) with
      | none => exact ih
      | some value =>
        have hclean : CR ∉ name ++ ascii ": " ++ value := by
          rw [List.mem_append, List.mem_append, not_or, not_or]
          exact ⟨⟨hlist.named i name hname, by decide⟩, hvalues _ _ hvalue⟩
        have hline := behindCr_line hclean LF
          ((l.flatMap fun i => (list.header i).elim [] (fieldLine values)) ++ (CRLF ++ t))
        rwa [List.append_assoc]

/-- The first line break behind a header that is sent is not. -/
theorem behindCr_sent (hlist : list.Clean) {l : List (Fin HTTP_HEADER_MAX)} (hi : i ∈ l)
    (hsome : list.header i ≠ none) (t : Str) :
    behindCr (l.flatMap (sentLine list) ++ t) = some CR := by
  induction l with
  | nil => cases hi
  | cons j l ih =>
    rw [List.flatMap_cons, List.append_assoc, sentLine]
    cases hname : list.header j with
    | none =>
      have hin : i ∈ l := by
        rcases List.mem_cons.1 hi with rfl | hin
        · exact absurd hname hsome
        · exact hin
      exact ih hin
    | some name =>
      obtain ⟨v, hv, hclean⟩ := hlist.stored j name hname
      rw [hv]
      have hclean : CR ∉ name ++ v := by
        rw [List.mem_append, not_or]
        exact ⟨hlist.named j name hname, hclean⟩
      have hline := behindCr_line hclean CR (LF :: (l.flatMap (sentLine list) ++ t))
      dsimp only
      rw [lineOf]
      simpa only [CRLF, List.append_assoc, List.cons_append, List.nil_append] using hline

end Clean

theorem emptyList_clean : emptyList.Clean := ⟨nofun, nofun⟩

theorem Request.list_clean (r : Request) : r.headerReqList.Clean := by
  obtain ⟨⟨list, os⟩, hrun, he⟩ := Option.map_eq_some_iff.1 r.made
  cases he
  exact emptyList_clean.run r.clean hrun

/-- What is sent of a request with a header is not what is wanted. -/
theorem Request.header_none (r : Request) (h : r.sentText = r.wanted) (i : Fin HTTP_HEADER_MAX) :
    r.headerReqList.header i = none := by
  by_contra hsome
  rw [HttpT.sentText, wanted, List.append_assoc, List.append_assoc] at h
  have hbehind := congrArg behindCr (List.append_cancel_left h)
  have hvalues : ∀ k v, (fun _ : Str => (none : Option Str)) k = some v → CR ∉ v :=
    fun _ _ h => absurd h (Option.some_ne_none _).symm
  rw [behindCr_sent r.list_clean (List.mem_finRange i) hsome,
    behindCr_wanted r.list_clean (specStep_clean hvalues r.clean)] at hbehind
  exact absurd hbehind (by decide)

/-- What is sent of a request without headers. -/
theorem HttpT.sentText_eq {http : HttpT} (hnone : ∀ i, http.headerReqList.header i = none) :
    http.sentText = http.requestLine ++ (CRLF ++ http.body.content) := by
  have hsent : sentLine http.headerReqList = fun _ => [] := by
    funext i
    rw [sentLine, hnone]
  have hlines : ((List.finRange HTTP_HEADER_MAX).flatMap fun _ => ([] : Str)) = [] :=
    List.flatMap_eq_nil_iff.2 fun _ _ => rfl
  rw [HttpT.sentText, hsent, hlines, List.append_nil]

theorem Request.wanted_eq (r : Request) (hnone : ∀ i, r.headerReqList.header i = none) :
    r.wanted = r.requestLine ++ (CRLF ++ r.body.content) := by
  have hlines : ((List.finRange HTTP_HEADER_MAX).flatMap fun i => (r.headerReqList.header i).elim []
      (fieldLine (run specStep (fun _ => none) r.calls).1)) = [] := by
    apply List.flatMap_eq_nil_iff.2
    intro i _
    rw [hnone, Option.elim_none]
  rw [wanted, hlines, List.append_nil]

/-- A request is sent as wanted, however it is taken, exactly when there is a connection and no
header, and the request line, the blank line and the body have room in the buffer. -/
theorem sends_request_iff (r : Request) (a : Accepting) : r.Sent a.send ↔ r.Fits := by
  constructor
  · rintro ⟨http, hrun⟩
    by_cases hfd : r.fd < 0
    · rw [httpSendRequest, if_pos hfd] at hrun
      cases hrun
    · cases hbuild : build r.toHttpT with
      | none =>
        rw [httpSendRequest, if_neg hfd, hbuild] at hrun
        cases hrun
      | some w =>
        rw [httpSendRequest_eq r.valid hfd hbuild a] at hrun
        have htext : r.sentText = r.wanted := (Prod.mk.inj (Prod.mk.inj (Option.some.inj hrun)).2).2
        obtain ⟨_, hline, hsize⟩ := build_writes r.valid hbuild
        have hnone := r.header_none htext
        rw [HttpT.sentText_eq hnone, List.length_append, List.length_append, ← r.valid.len_eq,
          ← Nat.add_assoc] at hsize
        exact ⟨Int.not_lt.1 hfd, hnone, hline, hsize⟩
  · rintro ⟨hfd, hnone, hline, hall⟩
    obtain ⟨w, hbuild⟩ := build_exists r.valid hnone hline hall
    have hrun := httpSendRequest_eq r.valid (Int.not_lt.2 hfd) hbuild a
    rw [HttpT.sentText_eq hnone, ← r.wanted_eq hnone] at hrun
    exact ⟨_, hrun⟩

section Witness

/-- One byte is taken at a time. -/
def bytewise : Accepting := ⟨fun _ => 1, fun _ _ => by decide, fun n h => by omega⟩

def oneHeader : List Call := [.set (ascii "A") (ascii "1")]

theorem oneHeader_isSome : (tryRun headerStep emptyList oneHeader).isSome = true := by
  decide +kernel

/-- A request for `/` with the header `A: 1`. -/
def headerRequest : Request where
  fd := 3
  path := none
  method := .get
  httpVer := ascii "1.100000"
  headerReqList := ((tryRun headerStep emptyList oneHeader).get oneHeader_isSome).1
  body := strbufInit 4096
  valid := Strbuf.init_valid 4096
  calls := oneHeader
  clean := by
    intro c hc
    rw [List.mem_singleton.1 hc]
    exact ⟨by decide, by decide⟩
  made := congrArg (Option.map Prod.fst) (Option.some_get oneHeader_isSome).symm

/-- A request for `/` with a body of 1024 bytes. -/
def bodyRequest : Request where
  fd := 3
  path := none
  method := .post
  httpVer := ascii "1.100000"
  headerReqList := emptyList
  body := ⟨some (List.replicate 1024 97), 1024, 4096, 4096⟩
  valid := ⟨List.length_replicate.symm, fun _ => by decide⟩
  calls := []
  clean := nofun
  made := rfl

theorem not_sends_request :
    (httpSendRequest bytewise.send headerRequest.toHttpT).map Prod.snd =
        some (0, ascii "GET / HTTP/1.100000\r\nAA\r\r\n\r\n") ∧
      headerRequest.wanted = ascii "GET / HTTP/1.100000\r\nA: 1\r\n\r\n" ∧
      ¬ headerRequest.Sent bytewise.send ∧ ¬ bodyRequest.Sent bytewise.send := by
  have hsent : (httpSendRequest bytewise.send headerRequest.toHttpT).map Prod.snd =
      some (0, ascii "GET / HTTP/1.100000\r\nAA\r\r\n\r\n") := by decide +kernel
  have hwanted : headerRequest.wanted = ascii "GET / HTTP/1.100000\r\nA: 1\r\n\r\n" := by
    decide +kernel
  refine ⟨hsent, hwanted, ?_, ?_⟩
  · rintro ⟨_, hrun⟩
    have hne : ascii "GET / HTTP/1.100000\r\nA: 1\r\n\r\n" ≠
        ascii "GET / HTTP/1.100000\r\nAA\r\r\n\r\n" := by decide +kernel
    rw [hrun, Option.map_some, hwanted] at hsent
    exact hne (Prod.mk.inj (Option.some.inj hsent)).2
  · rintro ⟨_, hrun⟩
    have hnone : (httpSendRequest bytewise.send bodyRequest.toHttpT).isNone = true := by
      decide +kernel
    rw [hrun] at hnone
    cases hnone

end Witness

end BigBox.Lapi.Http
