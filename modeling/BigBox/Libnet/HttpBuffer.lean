import BigBox.Lib.Block
import BigBox.Lib.CString
import BigBox.Lib.TryRun

namespace BigBox.Libnet
set_option autoImplicit true

def HTTP_BUFFER_DEFAULT_SIZE : Nat := 64

/-- A `http_buffer_t` with the bytes of its block. -/
structure HttpBuffer where
  length : Nat
  used : Nat
  data : List UInt8

/-- What `realloc` puts behind the old bytes, if it succeeds. -/
abbrev Alloc := Option (Nat → UInt8)

def httpBufferNew (size : Nat) : HttpBuffer :=
  let size := if 0 = size then HTTP_BUFFER_DEFAULT_SIZE else size
  ⟨size, 1, List.replicate size 0⟩

/-- A `realloc` that fails leaves a null pointer, which every caller writes through. -/
def httpBufferGrow (alloc : Alloc) (buf : HttpBuffer) (newsize : Nat) : Option HttpBuffer :=
  if buf.length < newsize then
    let length := (newsize / HTTP_BUFFER_DEFAULT_SIZE + 1) * HTTP_BUFFER_DEFAULT_SIZE
    alloc.map fun fresh => { buf with length, data := Block.realloc buf.data fresh length }
  else some buf

def httpVaArgs (strs : List Text) : Nat := (strs.map fun next => next.1.length).sum

def httpVaCopy (data : List UInt8) (str : Nat) : List Text → Option (List UInt8)
  | [] => some data
  | next :: strs =>
    (Block.write data str next.1).bind fun data => httpVaCopy data (str + next.1.length) strs

def httpBufferAppend (alloc : Alloc) (buf : HttpBuffer) (strs : List Text) : Option HttpBuffer :=
  let total := buf.used + httpVaArgs strs
  (httpBufferGrow alloc buf total).bind fun buf =>
    (httpVaCopy buf.data (buf.used - 1) strs).bind fun data =>
      (Block.write data (total - 1) [0]).map fun data =>
        { buf with used := buf.used + total, data }

def httpBufferCat (alloc : Alloc) (buf : HttpBuffer) (str : List UInt8) : Option HttpBuffer :=
  (httpBufferGrow alloc buf (buf.used + str.length)).bind fun buf =>
    (Block.write buf.data (buf.used - 1) str).bind fun data =>
      let used := buf.used + str.length
      (Block.write data (used - 1) [0]).map fun data => { buf with used, data }

/-- The text `vsnprintf` makes, if it makes one, and whether there is memory for it; without it a
null pointer is copied from. -/
def httpBufferSprintf (malloc : Bool) (alloc : Alloc) (buf : HttpBuffer) (res : Option Text) :
    Option HttpBuffer :=
  match res with
  | none => some buf
  | some res => if malloc then httpBufferCat alloc buf res.1 else none

inductive Call where
  | append (strs : List Text) (alloc : Alloc)
  | cat (str : List UInt8) (alloc : Alloc)
  | sprintf (res : Option Text) (malloc : Bool) (alloc : Alloc)

def httpStep (buf : HttpBuffer) : Call → Option (HttpBuffer × Unit)
  | .append strs alloc => (httpBufferAppend alloc buf strs).map (·, ())
  | .cat str alloc => (httpBufferCat alloc buf str).map (·, ())
  | .sprintf res malloc alloc => (httpBufferSprintf malloc alloc buf res).map (·, ())

/-- All that is appended. -/
def appended (text : List UInt8) : Call → List UInt8 × Unit
  | .append strs _ => (text ++ (strs.map Subtype.val).flatten, ())
  | .cat str _ => (text ++ str, ())
  | .sprintf (some res) _ _ => (text ++ res.1, ())
  | .sprintf none _ _ => (text, ())

/-- The text and a zero byte fill the used part, inside the block. -/
structure HttpBuffer.Holds (buf : HttpBuffer) (text : List UInt8) : Prop where
  used : buf.used = 1 + text.length
  fits : buf.used ≤ buf.length
  block : buf.data.length = buf.length
  data : ∃ rest, buf.data = text ++ 0 :: rest

/-- There is room for `n` more bytes, or memory for it. -/
def HttpBuffer.HasRoom (buf : HttpBuffer) (n : Nat) (alloc : Alloc) : Prop :=
  buf.used + n ≤ buf.length ∨ alloc ≠ none

/-- The calls that keep the text. -/
def Call.Ok (buf : HttpBuffer) : Call → Prop
  | .append _ _ => False
  | .cat str alloc => buf.HasRoom str.length alloc
  | .sprintf none _ _ => True
  | .sprintf (some res) malloc alloc => malloc = true ∧ buf.HasRoom res.1.length alloc

section Buffer
variable {buf buf' : HttpBuffer} {text str : List UInt8} {alloc : Alloc}

theorem httpBufferNew_holds (size : Nat) : (httpBufferNew size).Holds [] := by
  rw [httpBufferNew]
  obtain ⟨n, hn⟩ : ∃ n, (if 0 = size then HTTP_BUFFER_DEFAULT_SIZE else size) = n + 1 := by
    split
    · exact ⟨63, rfl⟩
    · exact Nat.exists_eq_succ_of_ne_zero (by omega)
  rw [hn]
  exact ⟨rfl, Nat.succ_le_succ (Nat.zero_le n), List.length_replicate, List.replicate n 0, rfl⟩

/-- Growing keeps the text and makes room. -/
theorem httpBufferGrow_holds (h : buf.Holds text)
    (hgrow : httpBufferGrow alloc buf newsize = some buf') :
    buf'.Holds text ∧ newsize ≤ buf'.length := by
  rw [httpBufferGrow] at hgrow
  split at hgrow
  case isTrue hlt =>
    obtain ⟨fresh, _, rfl⟩ := Option.map_eq_some_iff.1 hgrow
    obtain ⟨rest, hrest⟩ := h.data
    have hused := h.used
    have hfits := h.fits
    have hle : newsize ≤ (newsize / HTTP_BUFFER_DEFAULT_SIZE + 1) * HTTP_BUFFER_DEFAULT_SIZE := by
      rw [HTTP_BUFFER_DEFAULT_SIZE]
      omega
    have hless : buf.used ≤ newsize := by omega
    refine ⟨⟨h.used, Nat.le_trans hless hle, Block.length_realloc _ _ _, ?_⟩, hle⟩
    have hkept := Block.realloc_append (text ++ [0]) rest fresh
      (n := (newsize / HTTP_BUFFER_DEFAULT_SIZE + 1) * HTTP_BUFFER_DEFAULT_SIZE) (by
        rw [List.length_append, List.length_singleton]
        omega)
    rw [List.append_assoc, List.singleton_append, ← hrest] at hkept
    obtain ⟨rest', hrest'⟩ := hkept
    refine ⟨rest', ?_⟩
    rw [hrest', List.append_assoc, List.singleton_append]
  case isFalse hge =>
    cases hgrow
    exact ⟨h, Nat.not_lt.1 hge⟩

theorem httpBufferGrow_some (h : buf.HasRoom n alloc) :
    ∃ buf', httpBufferGrow alloc buf (buf.used + n) = some buf' := by
  rw [httpBufferGrow]
  split
  case isTrue hlt =>
    obtain ⟨fresh, rfl⟩ := Option.ne_none_iff_exists'.1 (h.resolve_left (Nat.not_le.2 hlt))
    exact ⟨_, rfl⟩
  case isFalse => exact ⟨buf, rfl⟩

theorem httpBufferGrow_none (h : ¬buf.HasRoom n alloc) :
    httpBufferGrow alloc buf (buf.used + n) = none := by
  obtain ⟨hlt, halloc⟩ := not_or.1 h
  rw [httpBufferGrow, if_pos (Nat.not_le.1 hlt), Classical.not_not.1 halloc]
  rfl

theorem httpBufferGrow_used (h : httpBufferGrow alloc buf newsize = some buf') :
    buf'.used = buf.used := by
  rw [httpBufferGrow] at h
  split at h
  case isTrue =>
    obtain ⟨fresh, _, rfl⟩ := Option.map_eq_some_iff.1 h
    rfl
  case isFalse =>
    cases h
    rfl

/-- A string and a zero byte are written over the zero byte at the end. -/
theorem write_text {data rest : List UInt8} (hdata : data = text ++ 0 :: rest)
    (hroom : text.length + str.length < data.length) :
    ∃ data' data'' rest', Block.write data text.length str = some data' ∧
      Block.write data' (text.length + str.length) [0] = some data'' ∧
      data'' = text ++ str ++ 0 :: rest' ∧ data''.length = data.length := by
  have hlen : data.length = text.length + (rest.length + 1) := by
    rw [hdata, List.length_append, List.length_cons]
  have hsplit : data = text ++ (0 :: rest).take str.length ++ (0 :: rest).drop str.length := by
    rw [List.append_assoc, List.take_append_drop, hdata]
  have hwrite : Block.write data text.length str =
      some (text ++ str ++ (0 :: rest).drop str.length) := by
    rw [hsplit]
    apply Block.write_middle _ _ _ _ rfl
    rw [List.length_take, List.length_cons]
    omega
  have hdrop : ((0 :: rest).drop str.length).length = rest.length + 1 - str.length := by
    rw [List.length_drop, List.length_cons]
  obtain ⟨c, rest', hrest'⟩ := List.exists_cons_of_length_pos
    (by omega : 0 < ((0 :: rest).drop str.length).length)
  have hzero : Block.write (text ++ str ++ [c] ++ rest') (text.length + str.length) [0] =
      some (text ++ str ++ [0] ++ rest') :=
    Block.write_middle (text ++ str) [c] rest' [0] List.length_append.symm rfl
  rw [hrest', ← List.singleton_append, ← List.append_assoc] at hwrite
  refine ⟨_, _, rest', hwrite, hzero, ?_, ?_⟩
  · rw [List.append_assoc _ [0], List.singleton_append]
  · exact (Block.length_write hzero).trans (Block.length_write hwrite)

theorem httpBufferCat_holds (h : buf.Holds text) (hroom : buf.HasRoom str.length alloc) :
    ∃ buf', httpBufferCat alloc buf str = some buf' ∧ buf'.Holds (text ++ str) := by
  obtain ⟨grown, hgrow⟩ := httpBufferGrow_some hroom
  obtain ⟨hholds, hle⟩ := httpBufferGrow_holds h hgrow
  obtain ⟨rest, hrest⟩ := hholds.data
  have hused := hholds.used
  have hsame := httpBufferGrow_used hgrow
  have hblock := hholds.block
  obtain ⟨data', data'', rest', hwrite, hzero, hdata, hlen⟩ :=
    write_text hrest (by omega : text.length + str.length < grown.data.length)
  have hoff : grown.used - 1 = text.length := by omega
  have hoff' : grown.used + str.length - 1 = text.length + str.length := by omega
  refine ⟨{ grown with used := grown.used + str.length, data := data'' }, ?_, ?_, ?_, ?_, ?_⟩
  · rw [httpBufferCat, hgrow, Option.bind_some, hoff, hwrite, Option.bind_some]
    dsimp only
    rw [hoff', hzero]
    rfl
  · change grown.used + str.length = 1 + (text ++ str).length
    rw [List.length_append]
    omega
  · change grown.used + str.length ≤ grown.length
    omega
  · exact hlen.trans hblock
  · exact ⟨rest', hdata⟩

theorem httpStep_good (h : buf.Holds text) (call : Call) (hok : call.Ok buf) :
    ∃ buf', httpStep buf call = some (buf', ()) ∧ buf'.Holds (appended text call).1 := by
  cases call with
  | append strs alloc => exact hok.elim
  | cat str alloc =>
    obtain ⟨buf', hcat, hholds⟩ := httpBufferCat_holds h hok
    refine ⟨buf', ?_, hholds⟩
    rw [httpStep, hcat]
    rfl
  | sprintf res malloc alloc =>
    cases res with
    | none => exact ⟨buf, rfl, h⟩
    | some res =>
      obtain ⟨rfl, hroom⟩ := hok
      obtain ⟨buf', hcat, hholds⟩ := httpBufferCat_holds h hroom
      refine ⟨buf', ?_, hholds⟩
      rw [httpStep, httpBufferSprintf, if_pos rfl, hcat]
      rfl

/-- After `http_buffer_append` the used part counts the old one twice. -/
theorem httpBufferAppend_used (h : httpBufferAppend alloc buf strs = some buf') :
    buf'.used = buf.used + (buf.used + httpVaArgs strs) := by
  obtain ⟨grown, hgrow, hrest⟩ := Option.bind_eq_some_iff.1 h
  obtain ⟨data, _, hrest⟩ := Option.bind_eq_some_iff.1 hrest
  obtain ⟨data', _, rfl⟩ := Option.map_eq_some_iff.1 hrest
  rw [← httpBufferGrow_used hgrow]

theorem httpVaArgs_eq (strs : List Text) :
    httpVaArgs strs = (strs.map Subtype.val).flatten.length := by
  rw [httpVaArgs, List.length_flatten, List.map_map]
  rfl

theorem httpBufferCat_none (h : ¬buf.HasRoom str.length alloc) :
    httpBufferCat alloc buf str = none := by
  rw [httpBufferCat, httpBufferGrow_none h, Option.bind_none]

theorem httpStep_bad (h : buf.Holds text) (call : Call) (hbad : ¬call.Ok buf)
    (hstep : httpStep buf call = some (buf', ())) : ¬buf'.Holds (appended text call).1 := by
  cases call with
  | append strs alloc =>
    obtain ⟨buf'', happend, heq⟩ := Option.map_eq_some_iff.1 hstep
    cases heq
    intro hholds
    have hused := hholds.used
    rw [httpBufferAppend_used happend, httpVaArgs_eq, h.used, appended, List.length_append]
      at hused
    omega
  | cat str alloc =>
    rw [httpStep, httpBufferCat_none hbad] at hstep
    cases hstep
  | sprintf res malloc alloc =>
    cases res with
    | none => exact absurd trivial hbad
    | some res =>
      rw [httpStep, httpBufferSprintf] at hstep
      by_cases hmalloc : malloc = true
      · have hroom : ¬buf.HasRoom res.1.length alloc := fun hroom => hbad ⟨hmalloc, hroom⟩
        rw [if_pos hmalloc, httpBufferCat_none hroom] at hstep
        cases hstep
      · rw [if_neg hmalloc] at hstep
        cases hstep

end Buffer

/-- A buffer holds all that is appended to it in the runs that never call `http_buffer_append` and
find memory. -/
theorem http_buffer_iff (size : Nat) (calls : List Call) :
    Follows httpStep appended HttpBuffer.Holds (httpBufferNew size) [] calls ↔
      Admits httpStep (fun buf call => call.Ok buf) (httpBufferNew size) calls := by
  have hall : Admits httpStep (fun _ _ => True) (httpBufferNew size) calls :=
    admits_of_forall _ fun _ _ => trivial
  refine follows_iff_admits (fun _ _ h => h) ?_ ?_ (httpBufferNew_holds size) hall
  · exact fun _ _ call h _ hok => httpStep_good h call hok
  · exact fun _ _ call h _ hbad _ hstep => httpStep_bad h call hbad hstep

/-- `http_buffer_append` of one letter leaves three bytes used. -/
theorem not_http_buffer :
    ¬ ∀ (size : Nat) (calls : List Call),
      Follows httpStep appended HttpBuffer.Holds (httpBufferNew size) [] calls := by
  intro h
  obtain ⟨_, buf, hstep, hholds⟩ := h 4 [.append [⟨[97], by decide⟩] none]
  have hrun : httpStep (httpBufferNew 4) (.append [⟨[97], by decide⟩] none) =
      some (⟨4, 3, [97, 0, 0, 0]⟩, ()) := rfl
  rw [hrun] at hstep
  cases hstep
  have hused : 3 = 1 + 1 := hholds.used
  cases hused

end BigBox.Libnet
