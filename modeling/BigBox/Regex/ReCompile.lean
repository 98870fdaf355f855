import BigBox.Lib.Block
import BigBox.Lib.CString
import BigBox.Regex.ReMatchp
import BigBox.StrOpt.StrEncodeSql

namespace BigBox.Regex
open Backtrack Loop StrOpt
set_option autoImplicit true

def MAX_REGEXP_OBJECTS : Nat := 30
def MAX_CHAR_CLASS_LEN : Nat := 40

/-- The union of a symbol: what was stored last, a character or the place of a class. -/
inductive Stored where
  | ch (c : UInt8)
  | ccl (buf_begin : Nat)
  deriving DecidableEq, Repr

structure Entry where
  type : SymbolType
  stored : Stored
  deriving DecidableEq, Repr

/-- The two static buffers. -/
structure Statics where
  re_compiled : List Entry
  ccl_buf : List UInt8
  deriving DecidableEq, Repr

/-- What a symbol of a pattern says. -/
inductive Symbol where
  | type (type : SymbolType)
  | char (ch : UInt8)
  | ccl (inverted : Bool) (content : List UInt8)
  deriving DecidableEq, Repr

def Symbol.symbolType : Symbol → SymbolType
  | .type t => t
  | .char _ => .char
  | .ccl inverted _ => if inverted then .invCharClass else .charClass

def metaSymbol (c : UInt8) : Symbol :=
  if c = 94 then .type .begin
  else if c = 36 then .type .end
  else if c = 46 then .type .dot
  else if c = 42 then .type .star
  else if c = 43 then .type .plus
  else if c = 63 then .type .questionmark
  else .char c

def escapedSymbol (c : UInt8) : Symbol :=
  if c = 100 then .type .digit
  else if c = 68 then .type .notDigit
  else if c = 119 then .type .alpha
  else if c = 87 then .type .notAlpha
  else if c = 115 then .type .whitespace
  else if c = 83 then .type .notWhitespace
  else .char c

/-- The members that are assigned. The place of a class is assigned behind its characters. -/
def Entry.assign (e : Entry) (symbol : Symbol) : Entry :=
  match symbol with
  | .char c => ⟨.char, .ch c⟩
  | symbol => { e with type := symbol.symbolType }

/-- The variables of `re_compile` and its static buffers. -/
structure Compiling where
  i : Nat
  j : Nat
  ccl_bufidx : Nat
  re_compiled : List Entry
  ccl_buf : List UInt8

/-- The loop over the symbols, and the one over the characters of a class. -/
inductive Place where
  | symbol (s : Compiling)
  | copy (buf_begin : Nat) (s : Compiling)

/-- An access outside the table has no result. -/
def update (l : List α) (j : Nat) (f : α → α) : Option (List α) :=
  l[j]?.map fun a => l.set j (f a)

/-- A symbol that is assigned at once, and the next one. -/
def Compiling.assign (s : Compiling) (i : Nat) (symbol : Symbol) : Option (Round Place β) := do
  let re_compiled ← update s.re_compiled s.j (·.assign symbol)
  return .next (.symbol { s with i, j := s.j + 1, re_compiled })

/-- A round of the loop over the symbols. -/
def symbolRound (pattern : List UInt8) (s : Compiling) :
    Option (Round Place (Bool × Statics)) := do
  let c ← charAt pattern s.i
  if c = 0 ∨ ¬s.j + 1 < MAX_REGEXP_OBJECTS then
    let re_compiled ← update s.re_compiled s.j (·.assign (.type .unused))
    return .done (true, ⟨re_compiled, s.ccl_buf⟩)
  else if c = 92 then
    let c ← charAt pattern (s.i + 1)
    if c ≠ 0 then s.assign (s.i + 2) (escapedSymbol c)
    else return .next (.symbol { s with i := s.i + 1, j := s.j + 1 })
  else if c = 91 then
    let c ← charAt pattern (s.i + 1)
    let re_compiled ← update s.re_compiled s.j (·.assign (.ccl (c = 94) []))
    return .next (.copy s.ccl_bufidx
      { s with i := if c = 94 then s.i + 1 else s.i, re_compiled })
  else s.assign (s.i + 1) (metaSymbol c)

/-- A round of the loop over the characters of a class. -/
def copyRound (pattern : List UInt8) (buf_begin : Nat) (s : Compiling) :
    Option (Round Place (Bool × Statics)) := do
  let i := s.i + 1
  let c ← charAt pattern i
  if c = 93 ∨ c = 0 then
    if MAX_CHAR_CLASS_LEN ≤ s.ccl_bufidx then return .done (false, ⟨s.re_compiled, s.ccl_buf⟩)
    else
      let ccl_buf ← Block.write s.ccl_buf s.ccl_bufidx [0]
      let re_compiled ← update s.re_compiled s.j fun e => { e with stored := .ccl buf_begin }
      return .next (.symbol
        { i := i + 1, j := s.j + 1, ccl_bufidx := s.ccl_bufidx + 1, re_compiled, ccl_buf })
  else if c = 92 then
    if MAX_CHAR_CLASS_LEN - 1 ≤ s.ccl_bufidx then
      return .done (false, ⟨s.re_compiled, s.ccl_buf⟩)
    else
      let ccl_buf ← Block.write s.ccl_buf s.ccl_bufidx [c]
      let i := i + 1
      let c ← charAt pattern i
      let ccl_buf ← Block.write ccl_buf (s.ccl_bufidx + 1) [c]
      return .next (.copy buf_begin { s with i, ccl_bufidx := s.ccl_bufidx + 2, ccl_buf })
  else if MAX_CHAR_CLASS_LEN ≤ s.ccl_bufidx then
    return .done (false, ⟨s.re_compiled, s.ccl_buf⟩)
  else
    let ccl_buf ← Block.write s.ccl_buf s.ccl_bufidx [c]
    return .next (.copy buf_begin { s with i, ccl_bufidx := s.ccl_bufidx + 1, ccl_buf })

def compileRound (pattern : List UInt8) : Place → Option (Round Place (Bool × Statics))
  | .symbol s => symbolRound pattern s
  | .copy buf_begin s => copyRound pattern buf_begin s

/-- `re_compile`, up to so many rounds: whether it returns its table, and the buffers. -/
def reCompile (fuel : Nat) (pattern : List UInt8) (s : Statics) : Option (Bool × Statics) :=
  iterate (compileRound pattern) fuel (.symbol ⟨0, 0, 1, s.re_compiled, s.ccl_buf⟩)

/-- The string of a class, with the zero in front of it that `matchcharclass` looks for. -/
def classAt (ccl_buf : List UInt8) (buf_begin : Nat) : Option (List Int8) :=
  if 0 < buf_begin ∧ ccl_buf[buf_begin - 1]? = some 0 ∧ (0 : UInt8) ∈ ccl_buf.drop buf_begin then
    some ((cString (ccl_buf.drop buf_begin)).map UInt8.toInt8)
  else none

/-- A symbol as the matcher reads it. A place has a first byte, and a character is no place. -/
def Entry.regex (firstByte : Nat → UInt8) (ccl_buf : List UInt8) (e : Entry) : Option RegexT :=
  match e.stored with
  | .ch c => if e.type = .charClass ∨ e.type = .invCharClass then none else some ⟨e.type, c, []⟩
  | .ccl buf_begin =>
    if e.type = .charClass ∨ e.type = .invCharClass then
      (classAt ccl_buf buf_begin).map fun ccl => ⟨e.type, firstByte buf_begin, ccl⟩
    else some ⟨e.type, firstByte buf_begin, []⟩

/-- The symbols in front of the sentinel. -/
def Statics.program (s : Statics) (firstByte : Nat → UInt8) : Option (List RegexT) :=
  (s.re_compiled.takeWhile (·.type ≠ .unused)).mapM (Entry.regex firstByte s.ccl_buf)

/-- `re_matchp` with what `re_compile` returned. -/
def reMatch (firstByte : Nat → UInt8) (compiled : Bool × Statics) (text : List Int8) :
    Option (Int × Int) :=
  if compiled.1 then
    (compiled.2.program firstByte).map fun pattern => reMatchp (some pattern) text
  else some (reMatchp none text)

/-- The static buffers behind some calls of `re_compile`. -/
inductive History : Statics → Prop
  | fresh : History
      ⟨List.replicate MAX_REGEXP_OBJECTS ⟨.unused, .ch 0⟩, List.replicate MAX_CHAR_CLASS_LEN 0⟩
  | call (h : History s) (hrun : reCompile fuel pattern s = some (ok, s')) : History s'

/-- Behind every history a pattern is compiled inside the buffers, and what it matches depends on
the pattern. -/
def Compiles (pattern : List UInt8) : Prop :=
  ∃ behaviour : List Int8 → Int × Int, ∀ s, History s →
    ∃ fuel compiled, reCompile fuel pattern s = some compiled ∧
      ∀ firstByte text, reMatch firstByte compiled text = some (behaviour text)

/-- The characters of a class and what is behind it, from a place in the buffer on. A class that is
too long is cut short, and one that is left open has no result. -/
def classRest (idx : Nat) (pattern : List UInt8) : Option (Option (List UInt8 × List UInt8)) :=
  if MAX_CHAR_CLASS_LEN ≤ idx then some none
  else
    match pattern with
    | [] => none
    | c :: rest =>
      if c = 93 then some (some ([], rest))
      else if c = 92 then
        if MAX_CHAR_CLASS_LEN ≤ idx + 1 then some none
        else
          match rest with
          | [] => none
          | d :: rest =>
            (classRest (idx + 2) rest).map (·.map fun (content, rest) => (c :: d :: content, rest))
      else
        (classRest (idx + 1) rest).map (·.map fun (content, rest) => (c :: content, rest))

/-- A caret behind a bracket inverts the class. -/
def inverted (rest : List UInt8) : Bool := rest.head? = some 94

def inner (rest : List UInt8) : List UInt8 := if inverted rest then rest.tail else rest

/-- The next `n` symbols of a pattern. A backslash at the end has no result. -/
def symbols : Nat → Nat → List UInt8 → Option (Option (List Symbol))
  | 0, _, _ => some (some [])
  | _ + 1, _, [] => some (some [])
  | n + 1, idx, c :: rest =>
    if c = 92 then
      match rest with
      | [] => none
      | d :: rest => (symbols n idx rest).map (·.map (escapedSymbol d :: ·))
    else if c = 91 then
      match classRest idx (inner rest) with
      | none => none
      | some none => some none
      | some (some (content, behind)) =>
        (symbols n (idx + content.length + 1) behind).map
          (·.map (.ccl (inverted rest) content :: ·))
    else (symbols n idx rest).map (·.map (metaSymbol c :: ·))

def Symbol.regex (symbol : Symbol) : RegexT :=
  match symbol with
  | .type t => ⟨t, 0, []⟩
  | .char c => ⟨.char, c, []⟩
  | .ccl inverted content => ⟨(Symbol.ccl inverted content).symbolType, 0, content.map UInt8.toInt8⟩

def Symbol.atom (symbol : Symbol) : Option Atom :=
  if h : symbol.regex.type.isAtom = true then some ⟨symbol.regex, h⟩ else none

def Symbol.quantifier (symbol : Symbol) : Option Quantifier :=
  match symbol.symbolType with
  | .star => some .star
  | .plus => some .plus
  | .questionmark => some .question
  | _ => none

/-- Atoms with their quantifiers, and a dollar sign at the end. -/
def atoms : List Symbol → Option (Bool × List (Atom × Quantifier))
  | [] => some (false, [])
  | [symbol] =>
    if symbol.symbolType = .end then some (true, [])
    else symbol.atom.map fun a => (false, [(a, .one)])
  | symbol :: next :: rest =>
    symbol.atom.bind fun a =>
      match next.quantifier with
      | some q => (atoms rest).map fun (dollar, as) => (dollar, (a, q) :: as)
      | none => (atoms (next :: rest)).map fun (dollar, as) => (dollar, (a, .one) :: as)

/-- A caret, atoms and a dollar sign. -/
def expression : List Symbol → Option (Bool × Bool × List (Atom × Quantifier))
  | [] => some (false, false, [])
  | symbol :: rest =>
    if symbol.symbolType = .begin then (atoms rest).map (true, ·)
    else (atoms (symbol :: rest)).map (false, ·)

/-- The expression that a pattern spells, if no class of it is left open, no backslash ends it, and
its carets, dollar signs and quantifiers are where they belong. -/
def parse (pattern : List UInt8) : Option (Option (Bool × Bool × List (Atom × Quantifier))) :=
  match symbols (MAX_REGEXP_OBJECTS - 1) 1 pattern with
  | none => none
  | some none => some none
  | some (some symbols) => (expression symbols).map some

section Copy
variable {pattern rest content block back : List UInt8} {re_compiled re' : List Entry}
  {i j b : Nat} {out : Bool × Statics}

theorem update_middle (es : List α) (e : α) (tail : List α) (f : α → α) :
    update (es ++ e :: tail) es.length f = some (es ++ f e :: tail) := by
  rw [update, List.getElem?_append_right (Nat.le_refl _), Nat.sub_self, List.getElem?_cons_zero,
    Option.map_some, List.set_append, if_neg (Nat.lt_irrefl _), Nat.sub_self, List.set_cons_zero]

/-- A character of a pattern. -/
structure Reads (pattern : List UInt8) (i : Nat) (rest : List UInt8) : Prop where
  le : i ≤ pattern.length
  drop : pattern.drop i = rest

theorem Reads.charAt (h : Reads pattern i (c :: rest)) : charAt pattern i = some c := by
  have hlt : i < pattern.length := by
    by_contra hge
    have hdrop := h.drop
    rw [List.drop_of_length_le (Nat.not_lt.1 hge)] at hdrop
    cases hdrop
  have hget := List.drop_eq_getElem_cons hlt
  rw [h.drop] at hget
  rw [StrOpt.charAt, if_pos hlt, List.getD_eq_getElem _ _ hlt, (List.cons.inj hget).1]

theorem Reads.charAt_nil (h : Reads pattern i []) : StrOpt.charAt pattern i = some 0 := by
  have hlength := List.drop_eq_nil_iff.1 h.drop
  rw [StrOpt.charAt, if_neg (Nat.not_lt.2 hlength), if_pos (Nat.le_antisymm h.le hlength)]

theorem Reads.next (h : Reads pattern i (c :: rest)) : Reads pattern (i + 1) rest := by
  have hdrop : pattern.drop (i + 1) = rest := by
    rw [← List.drop_drop, h.drop]
    rfl
  refine ⟨?_, hdrop⟩
  by_contra hgt
  have hrest := h.drop
  rw [List.drop_of_length_le (by omega)] at hrest
  cases hrest

theorem Reads.mem (h : Reads pattern i (c :: rest)) : c ∈ pattern := by
  apply List.mem_of_mem_drop (i := i)
  rw [h.drop]
  exact List.mem_cons_self

/-- A class that is too long ends the call. -/
theorem returns_full (hfull : MAX_CHAR_CLASS_LEN ≤ block.length)
    (h : Reads pattern (i + 1) rest) :
    ∃ s, Returns (compileRound pattern) (.copy b ⟨i, j, block.length, re_compiled, block ++ back⟩)
      (false, s) := by
  obtain ⟨c, hc⟩ : ∃ c, StrOpt.charAt pattern (i + 1) = some c := by
    cases rest with
    | nil => exact ⟨0, h.charAt_nil⟩
    | cons c rest => exact ⟨c, h.charAt⟩
  refine ⟨⟨re_compiled, block ++ back⟩, (returns_done ?_).2 rfl⟩
  have hless : MAX_CHAR_CLASS_LEN - 1 ≤ block.length := Nat.le_trans (Nat.sub_le _ _) hfull
  rw [compileRound, copyRound]
  simp only [hc, Option.bind_eq_bind, Option.bind_some, hfull, hless, if_true]
  split <;> [rfl; split <;> rfl]

theorem returns_full_escape (hfull : MAX_CHAR_CLASS_LEN ≤ block.length + 1)
    (h : Reads pattern (i + 1) (92 :: rest)) :
    ∃ s, Returns (compileRound pattern) (.copy b ⟨i, j, block.length, re_compiled, block ++ back⟩)
      (false, s) := by
  have hless : MAX_CHAR_CLASS_LEN - 1 ≤ block.length := Nat.sub_le_of_le_add hfull
  have hend : ¬((92 : UInt8) = 93 ∨ (92 : UInt8) = 0) := by decide
  refine ⟨⟨re_compiled, block ++ back⟩, (returns_done ?_).2 rfl⟩
  rw [compileRound, copyRound, h.charAt]
  simp only [Option.bind_eq_bind, Option.bind_some, hend, if_false, if_true, hless]
  rfl

theorem copyRound_char {c x : UInt8} (h : Reads pattern (i + 1) (c :: rest)) (hend : c ≠ 93)
    (hescape : c ≠ 92) (hzero : (0 : UInt8) ∉ pattern)
    (hroom : ¬MAX_CHAR_CLASS_LEN ≤ block.length) :
    compileRound pattern (.copy b ⟨i, j, block.length, re_compiled, block ++ x :: back⟩) =
      some (.next (.copy b
        ⟨i + 1, j, (block ++ [c]).length, re_compiled, (block ++ [c]) ++ back⟩)) := by
  have hne : c ≠ 0 := by
    rintro rfl
    exact hzero h.mem
  rw [compileRound, copyRound, h.charAt]
  simp only [Option.bind_eq_bind, Option.bind_some, hend, hne, or_self, if_false, hescape, hroom,
    Block.write_cons block x c back rfl, List.length_append, List.length_singleton,
    List.append_assoc, List.singleton_append]
  rfl

theorem copyRound_escape {c x y : UInt8} (h : Reads pattern (i + 1) (92 :: c :: rest))
    (hroom : ¬MAX_CHAR_CLASS_LEN ≤ block.length + 1) :
    compileRound pattern (.copy b ⟨i, j, block.length, re_compiled, block ++ x :: y :: back⟩) =
      some (.next (.copy b
        ⟨i + 2, j, (block ++ [92, c]).length, re_compiled, (block ++ [92, c]) ++ back⟩)) := by
  have hless : ¬MAX_CHAR_CLASS_LEN - 1 ≤ block.length := by
    rw [MAX_CHAR_CLASS_LEN] at hroom ⊢
    omega
  have hlength : block.length + 1 = (block ++ [92]).length := by
    rw [List.length_append, List.length_singleton]
  have hwrite := Block.write_cons (block ++ [92]) y c back hlength
  rw [List.append_assoc, List.append_assoc] at hwrite
  have hend : ¬((92 : UInt8) = 93 ∨ (92 : UInt8) = 0) := by decide
  rw [compileRound, copyRound, h.charAt]
  simp only [Option.bind_eq_bind, Option.bind_some, hend, if_false, if_true, hless,
    Block.write_cons block x 92 (y :: back) rfl, h.next.charAt]
  rw [List.singleton_append] at hwrite
  rw [hwrite, List.length_append, List.append_assoc]
  rfl

theorem copyRound_close {x : UInt8} (h : Reads pattern (i + 1) (93 :: rest))
    (hroom : ¬MAX_CHAR_CLASS_LEN ≤ block.length)
    (hupdate : update re_compiled j (fun e => { e with stored := .ccl b }) = some re') :
    compileRound pattern (.copy b ⟨i, j, block.length, re_compiled, block ++ x :: back⟩) =
      some (.next (.symbol ⟨i + 2, j + 1, block.length + 1, re', block ++ 0 :: back⟩)) := by
  rw [compileRound, copyRound, h.charAt]
  simp only [Option.bind_eq_bind, Option.bind_some, true_or, if_true, hroom, if_false,
    Block.write_cons block x 0 back rfl, hupdate]
  rfl

/-- The room behind a place in the buffer. -/
theorem exists_room (hroom : ¬MAX_CHAR_CLASS_LEN ≤ block.length)
    (hsize : (block ++ back).length = MAX_CHAR_CLASS_LEN) : ∃ x back', back = x :: back' := by
  apply List.exists_cons_of_ne_nil
  rintro rfl
  rw [List.append_nil] at hsize
  exact hroom (Nat.le_of_eq hsize.symm)

/-- What becomes of a class whose characters go behind a block: the call ends, or the loop over the
symbols goes on. -/
def Copied (pattern block : List UInt8) (j : Nat) (re' : List Entry) (start : Place) :
    Option (List UInt8 × List UInt8) → Prop
  | none => ∃ s, Returns (compileRound pattern) start (false, s)
  | some (content, rest) => ∃ i' back', Reads pattern i' rest ∧ (0 : UInt8) ∉ content ∧
      (block ++ content ++ 0 :: back').length = MAX_CHAR_CLASS_LEN ∧
      ∀ out, Returns (compileRound pattern)
        (.symbol ⟨i', j + 1, block.length + content.length + 1, re',
          block ++ content ++ 0 :: back'⟩) out → Returns (compileRound pattern) start out

/-- One more piece in front of what is copied. -/
theorem Copied.append {piece : List UInt8} {start next : Place}
    {r : Option (List UInt8 × List UInt8)} (h : Copied pattern (block ++ piece) j re' next r)
    (hpiece : (0 : UInt8) ∉ piece) (hround : compileRound pattern start = some (.next next)) :
    Copied pattern block j re' start (r.map fun (content, rest) => (piece ++ content, rest)) := by
  cases r with
  | none =>
    obtain ⟨s, hreturns⟩ := h
    exact ⟨s, (returns_next hround).2 hreturns⟩
  | some r =>
    obtain ⟨content, rest'⟩ := r
    obtain ⟨i', back', hreads, hcontent, hlength, hgo⟩ := h
    refine ⟨i', back', hreads, ?_, ?_, fun out hout => ?_⟩
    · rw [List.mem_append, not_or]
      exact ⟨hpiece, hcontent⟩
    · rw [List.append_assoc block] at hlength
      exact hlength
    · apply (returns_next hround).2
      apply hgo
      rw [List.append_assoc block, List.length_append, Nat.add_assoc block.length,
        ← List.length_append]
      exact hout

/-- The characters of a class are copied, or they are too many. -/
theorem returns_copy {r : Option (List UInt8 × List UInt8)}
    (hrest : classRest idx rest = some r) (hidx : idx = block.length)
    (h : Reads pattern (i + 1) rest) (hzero : (0 : UInt8) ∉ pattern)
    (hsize : (block ++ back).length = MAX_CHAR_CLASS_LEN)
    (hupdate : update re_compiled j (fun e => { e with stored := .ccl b }) = some re') :
    Copied pattern block j re' (.copy b ⟨i, j, block.length, re_compiled, block ++ back⟩) r := by
  induction idx, rest using classRest.induct generalizing block back i r with
  | case1 rest idx hfull =>
    rw [classRest.eq_def, if_pos hfull] at hrest
    cases hrest
    exact returns_full (hidx ▸ hfull) h
  | case2 idx hroom =>
    rw [classRest.eq_def, if_neg hroom] at hrest
    cases hrest
  | case3 idx hroom rest =>
    rw [classRest.eq_def, if_neg hroom] at hrest
    cases hrest
    rw [hidx] at hroom
    obtain ⟨x, back, rfl⟩ := exists_room hroom hsize
    refine ⟨i + 2, back, h.next, List.not_mem_nil, ?_, fun out hout => ?_⟩
    · rw [List.append_nil]
      rw [List.length_append, List.length_cons] at hsize ⊢
      exact hsize
    · rw [List.append_nil] at hout
      exact (returns_next (copyRound_close h hroom hupdate)).2 hout
  | case4 idx hroom rest hfull hclose =>
    rw [classRest.eq_def, if_neg hroom] at hrest
    simp only [if_neg hclose, if_pos hfull, if_true] at hrest
    cases hrest
    exact returns_full_escape (hidx ▸ hfull) h
  | case5 idx hroom hmore hclose =>
    rw [classRest.eq_def, if_neg hroom] at hrest
    simp only [if_neg hclose, if_neg hmore, if_true] at hrest
    cases hrest
  | case6 idx hroom hmore d rest hclose ih =>
    rw [classRest.eq_def, if_neg hroom] at hrest
    simp only [if_neg hclose, if_neg hmore, if_true] at hrest
    obtain ⟨r, hrec, rfl⟩ := Option.map_eq_some_iff.1 hrest
    rw [hidx] at hroom hmore
    obtain ⟨x, back, rfl⟩ := exists_room hroom hsize
    obtain ⟨y, back, rfl⟩ : ∃ y back', back = y :: back' := by
      apply List.exists_cons_of_ne_nil
      rintro rfl
      rw [List.length_append, List.length_singleton] at hsize
      exact hmore (Nat.le_of_eq hsize.symm)
    have hidx' : idx + 2 = (block ++ [92, d]).length := by
      rw [hidx, List.length_append]
      rfl
    have hsize' : (block ++ [92, d] ++ back).length = MAX_CHAR_CLASS_LEN := by
      rw [List.append_assoc, List.length_append]
      rw [List.length_append] at hsize
      exact hsize
    refine (ih hrec hidx' h.next.next hsize').append ?_ (copyRound_escape h hmore)
    rw [List.mem_cons, List.mem_singleton, not_or]
    refine ⟨by decide, ?_⟩
    rintro rfl
    exact hzero h.next.mem
  | case7 idx hroom c rest hclose hescape ih =>
    rw [classRest.eq_def, if_neg hroom] at hrest
    simp only [if_neg hclose, if_neg hescape] at hrest
    obtain ⟨r, hrec, rfl⟩ := Option.map_eq_some_iff.1 hrest
    rw [hidx] at hroom
    obtain ⟨x, back, rfl⟩ := exists_room hroom hsize
    have hidx' : idx + 1 = (block ++ [c]).length := by
      rw [hidx, List.length_append]
      rfl
    have hsize' : (block ++ [c] ++ back).length = MAX_CHAR_CLASS_LEN := by
      rw [List.append_assoc, List.length_append]
      rw [List.length_append] at hsize
      exact hsize
    refine (ih hrec hidx' h.next hsize').append ?_ (copyRound_char h hclose hescape hzero hroom)
    rw [List.mem_singleton]
    rintro rfl
    exact hzero h.mem

end Copy

section Symbols
variable {pattern rest : List UInt8} {i n : Nat}

/-- The type is all there is to a symbol. -/
def SymbolType.plain (t : SymbolType) : Bool :=
  t ≠ .unused ∧ t ≠ .char ∧ t ≠ .charClass ∧ t ≠ .invCharClass

/-- An entry says what a symbol says. -/
def Realizes (ccl_buf : List UInt8) : Symbol → Entry → Prop
  | .ccl inverted content, e =>
    e.type = (Symbol.ccl inverted content).symbolType ∧ (0 : UInt8) ∉ content ∧
      ∃ front back, ccl_buf = front ++ 0 :: (content ++ 0 :: back) ∧
        e.stored = .ccl (front.length + 1)
  | .char c, e => e = ⟨.char, .ch c⟩
  | .type t, e => e.type = t ∧ t.plain = true

/-- What a call ends with, that has some entries and the front of the class buffer behind it. -/
def Settles (es : List Entry) (front : List UInt8) : Option (List Symbol) → Bool × Statics → Prop
  | none, out => out.1 = false
  | some symbols, out => out.1 = true ∧ ∃ new e tail back,
      out.2 = ⟨es ++ (new ++ e :: tail), front ++ 0 :: back⟩ ∧ e.type = .unused ∧
        List.Forall₂ (Realizes (front ++ 0 :: back)) symbols new

theorem Settles.cons {es : List Entry} {front front' : List UInt8} {e : Entry} {symbol : Symbol}
    {r : Option (List Symbol)} {out : Bool × Statics} (h : Settles (es ++ [e]) front' r out)
    (hfront : ∀ back, ∃ back', front' ++ 0 :: back = front ++ 0 :: back')
    (he : ∀ back, Realizes (front' ++ 0 :: back) symbol e) :
    Settles es front (r.map (symbol :: ·)) out := by
  cases r with
  | none => exact h
  | some symbols =>
    obtain ⟨hok, new, last, tail, back, hout, hlast, hnew⟩ := h
    obtain ⟨back', hback⟩ := hfront back
    refine ⟨hok, e :: new, last, tail, back', ?_, hlast, ?_⟩
    · rw [hout, hback, List.append_assoc]
      rfl
    · rw [← hback]
      exact .cons (he back) hnew

/-- The sentinel. -/
theorem symbolRound_last {es tail : List Entry} {e : Entry} {buf : List UInt8} {c : UInt8}
    (hc : charAt pattern i = some c) (hend : c = 0 ∨ ¬es.length + 1 < MAX_REGEXP_OBJECTS) :
    compileRound pattern (.symbol ⟨i, es.length, idx, es ++ e :: tail, buf⟩) =
      some (.done (true, ⟨es ++ e.assign (.type .unused) :: tail, buf⟩)) := by
  rw [compileRound, symbolRound, hc]
  simp only [Option.bind_eq_bind, Option.bind_some, hend, if_true, update_middle]
  rfl

theorem assign_eq {es tail : List Entry} {e : Entry} {buf : List UInt8} (i' : Nat)
    (symbol : Symbol) :
    Compiling.assign ⟨i, es.length, idx, es ++ e :: tail, buf⟩ i' symbol =
      some (.next (.symbol ⟨i', (es ++ [e.assign symbol]).length, idx,
        (es ++ [e.assign symbol]) ++ tail, buf⟩) : Round Place (Bool × Statics)) := by
  rw [Compiling.assign, update_middle, List.length_append, List.append_assoc]
  rfl

theorem realizes_meta (buf : List UInt8) (e : Entry) (c : UInt8) :
    Realizes buf (metaSymbol c) (e.assign (metaSymbol c)) := by
  rw [metaSymbol]
  split_ifs <;> first | rfl | exact ⟨rfl, rfl⟩

theorem realizes_escaped (buf : List UInt8) (e : Entry) (c : UInt8) :
    Realizes buf (escapedSymbol c) (e.assign (escapedSymbol c)) := by
  rw [escapedSymbol]
  split_ifs <;> first | rfl | exact ⟨rfl, rfl⟩

/-- Behind a bracket, and behind the caret that inverts a class. -/
theorem reads_class (h : Reads pattern i (91 :: rest)) :
    ∃ d, charAt pattern (i + 1) = some d ∧ decide (d = 94) = inverted rest ∧
      Reads pattern ((if d = 94 then i + 1 else i) + 1) (inner rest) := by
  cases rest with
  | nil => exact ⟨0, h.next.charAt_nil, rfl, h.next⟩
  | cons d rest =>
    refine ⟨d, h.next.charAt, ?_⟩
    by_cases hd : d = 94
    · subst hd
      exact ⟨rfl, h.next.next⟩
    · have hno : inverted (d :: rest) = false := by
        apply decide_eq_false
        rintro ⟨⟩
        exact hd rfl
      rw [hno, inner, hno, if_neg hd]
      exact ⟨decide_eq_false hd, h.next⟩

/-- The symbols of a pattern are compiled. -/
theorem returns_symbols {es tail : List Entry} {front back : List UInt8}
    {r : Option (List Symbol)} (hsymbols : symbols n (front.length + 1) rest = some r)
    (h : Reads pattern i rest) (hzero : (0 : UInt8) ∉ pattern)
    (hcount : es.length + (n + 1) = MAX_REGEXP_OBJECTS) (htail : tail.length = n + 1)
    (hsize : (front ++ 0 :: back).length = MAX_CHAR_CLASS_LEN) :
    ∃ out, Returns (compileRound pattern)
        (.symbol ⟨i, es.length, front.length + 1, es ++ tail, front ++ 0 :: back⟩) out ∧
      Settles es front r out := by
  induction n generalizing i rest es tail front back r with
  | zero =>
    obtain ⟨e, tail, rfl⟩ := List.exists_cons_of_length_eq_add_one htail
    cases hsymbols
    obtain ⟨c, hc⟩ : ∃ c, charAt pattern i = some c := by
      cases rest with
      | nil => exact ⟨0, h.charAt_nil⟩
      | cons c rest => exact ⟨c, h.charAt⟩
    refine ⟨_, (returns_done (symbolRound_last hc (Or.inr ?_))).2 rfl, rfl, [], _, tail, back, rfl,
      rfl, .nil⟩
    omega
  | succ n ih =>
    obtain ⟨e, tail, rfl⟩ := List.exists_cons_of_length_eq_add_one htail
    cases rest with
    | nil =>
      cases hsymbols
      exact ⟨_, (returns_done (symbolRound_last h.charAt_nil (Or.inl rfl))).2 rfl, rfl, [], _, tail,
        back, rfl, rfl, .nil⟩
    | cons c rest =>
      have hc : c ≠ 0 := by
        rintro rfl
        exact hzero h.mem
      have hmore : ¬(c = 0 ∨ ¬es.length + 1 < MAX_REGEXP_OBJECTS) := by
        rintro (heq | hge)
        · exact hc heq
        · omega
      have htail' : tail.length = n + 1 := Nat.succ.inj htail
      have hcount' : ∀ e' : Entry, (es ++ [e']).length + (n + 1) = MAX_REGEXP_OBJECTS := by
        intro e'
        rw [List.length_append, List.length_singleton]
        omega
      have hsame : ∀ back, ∃ back', front ++ 0 :: back = front ++ 0 :: back' :=
        fun back => ⟨back, rfl⟩
      rw [symbols.eq_def] at hsymbols
      dsimp only at hsymbols
      split at hsymbols
      case isTrue hescape =>
        subst hescape
        cases rest with
        | nil => cases hsymbols
        | cons d rest =>
          obtain ⟨r, hrec, rfl⟩ := Option.map_eq_some_iff.1 hsymbols
          have hd : d ≠ 0 := by
            rintro rfl
            exact hzero h.next.mem
          obtain ⟨out, hreturns, hsettles⟩ :=
            ih hrec h.next.next (hcount' (e.assign (escapedSymbol d))) htail' hsize
          refine ⟨out, (returns_next ?_).2 hreturns,
            hsettles.cons hsame fun _ => realizes_escaped _ _ _⟩
          rw [compileRound, symbolRound, h.charAt]
          simp only [Option.bind_eq_bind, Option.bind_some, hmore, if_false, if_true,
            h.next.charAt, ne_eq, hd, not_false_eq_true]
          exact assign_eq _ _
      case isFalse hescape =>
        split at hsymbols
        case isTrue hclass =>
          subst hclass
          obtain ⟨d, hd, hinverted, hinner⟩ := reads_class h
          have hround : compileRound pattern (.symbol ⟨i, es.length, front.length + 1,
              es ++ e :: tail, front ++ 0 :: back⟩) =
              some (.next (.copy (front.length + 1) ⟨if d = 94 then i + 1 else i, es.length,
                front.length + 1, es ++ e.assign (.ccl (d = 94) []) :: tail,
                front ++ 0 :: back⟩)) := by
            rw [compileRound, symbolRound, h.charAt]
            simp only [Option.bind_eq_bind, Option.bind_some, hmore, if_false, hescape, if_true,
              hd, update_middle]
            rfl
          have hblock : front ++ 0 :: back = front ++ [0] ++ back := List.append_cons _ _ _
          have hlength : front.length + 1 = (front ++ [0]).length := by
            rw [List.length_append, List.length_singleton]
          have hupdate := update_middle es (e.assign (.ccl (d = 94) [])) tail
            fun e => { e with stored := .ccl (front.length + 1) }
          rw [hinverted] at hround hupdate
          cases hrest : classRest (front.length + 1) (inner rest) with
          | none =>
            rw [hrest] at hsymbols
            cases hsymbols
          | some copied =>
            rw [hrest] at hsymbols
            rw [hblock] at hsize
            have hcopied := returns_copy hrest hlength hinner hzero hsize hupdate
            rw [← hlength, ← hblock] at hcopied
            cases copied with
            | none =>
              cases hsymbols
              obtain ⟨s, hreturns⟩ := hcopied
              exact ⟨(false, s), (returns_next hround).2 hreturns, rfl⟩
            | some copied =>
              obtain ⟨content, behind⟩ := copied
              obtain ⟨r, hrec, rfl⟩ := Option.map_eq_some_iff.1 hsymbols
              obtain ⟨i', back', hreads, hcontent, hsize', hgo⟩ := hcopied
              have hfront : ∀ back : List UInt8, front ++ [0] ++ content ++ 0 :: back =
                  (front ++ 0 :: content) ++ 0 :: back := by
                intro back
                rw [List.append_cons front 0 content]
              have hlength' : front.length + 1 + content.length =
                  (front ++ 0 :: content).length := by
                rw [List.length_append, List.length_cons]
                omega
              rw [hlength'] at hrec
              rw [hfront] at hsize'
              obtain ⟨out, hreturns, hsettles⟩ := ih hrec hreads
                (hcount' ⟨(Symbol.ccl (inverted rest) content).symbolType, .ccl (front.length + 1)⟩)
                htail' hsize'
              refine ⟨out, (returns_next hround).2 (hgo out ?_), hsettles.cons ?_ ?_⟩
              · rw [← hlength, hlength', hfront, List.append_cons es]
                rw [List.length_append, List.length_singleton] at hreturns
                exact hreturns
              · intro back
                exact ⟨content ++ 0 :: back, List.append_assoc ..⟩
              · intro back
                exact ⟨rfl, hcontent, front, back, List.append_assoc .., rfl⟩
        case isFalse hclass =>
          obtain ⟨r, hrec, rfl⟩ := Option.map_eq_some_iff.1 hsymbols
          obtain ⟨out, hreturns, hsettles⟩ :=
            ih hrec h.next (hcount' (e.assign (metaSymbol c))) htail' hsize
          refine ⟨out, (returns_next ?_).2 hreturns,
            hsettles.cons hsame fun _ => realizes_meta _ _ _⟩
          rw [compileRound, symbolRound, h.charAt]
          simp only [Option.bind_eq_bind, Option.bind_some, hmore, if_false, hescape, hclass]
          exact assign_eq _ _

end Symbols

section History
variable {pattern : List UInt8} {s : Compiling}

/-- The buffers keep their lengths, and the class buffer its zero in front. -/
structure Statics.Kept (s : Statics) : Prop where
  re_compiled : s.re_compiled.length = MAX_REGEXP_OBJECTS
  ccl_buf : s.ccl_buf.length = MAX_CHAR_CLASS_LEN
  front : s.ccl_buf.head? = some 0

structure Compiling.Kept (s : Compiling) : Prop where
  statics : Statics.Kept ⟨s.re_compiled, s.ccl_buf⟩
  ccl_bufidx : 0 < s.ccl_bufidx

def Place.Kept : Place → Prop
  | .symbol s => s.Kept
  | .copy _ s => s.Kept

def RoundKept : Round Place (Bool × Statics) → Prop
  | .next p => p.Kept
  | .done out => out.2.Kept

theorem length_update {l l' : List α} (h : update l j f = some l') : l'.length = l.length := by
  obtain ⟨a, -, rfl⟩ := Option.map_eq_some_iff.1 h
  exact List.length_set

theorem Statics.Kept.update {s : Statics} (h : s.Kept)
    (hupdate : update s.re_compiled j f = some re') : Statics.Kept ⟨re', s.ccl_buf⟩ :=
  ⟨(length_update hupdate).trans h.re_compiled, h.ccl_buf, h.front⟩

theorem Statics.Kept.write {s : Statics} (h : s.Kept) (hoff : 0 < off)
    (hwrite : Block.write s.ccl_buf off bytes = some buf') :
    Statics.Kept ⟨s.re_compiled, buf'⟩ := by
  refine ⟨h.re_compiled, (Block.length_write hwrite).trans h.ccl_buf, ?_⟩
  have htake := Block.take_write hwrite
  have hhead := congrArg List.head? htake
  have hfront := h.front
  cases hbuf : s.ccl_buf with
  | nil =>
    rw [hbuf] at hfront
    cases hfront
  | cons x rest =>
    obtain ⟨k, rfl⟩ := Nat.exists_eq_succ_of_ne_zero hoff.ne'
    rw [hbuf, List.take_succ_cons, List.cons_append, List.head?_cons, List.head?_take,
      if_neg (by omega)] at hhead
    rw [hbuf] at hfront
    exact hhead.trans hfront

theorem assign_kept (h : s.Kept) (hround : s.assign i symbol = some r) : RoundKept r := by
  rw [Compiling.assign, Option.bind_eq_bind] at hround
  obtain ⟨re', hupdate, hnext⟩ := Option.bind_eq_some_iff.1 hround
  cases hnext
  exact ⟨h.statics.update hupdate, h.ccl_bufidx⟩

theorem symbolRound_kept (h : s.Kept) (hround : symbolRound pattern s = some r) : RoundKept r := by
  rw [symbolRound, Option.bind_eq_bind] at hround
  obtain ⟨c, -, hround⟩ := Option.bind_eq_some_iff.1 hround
  split at hround
  case isTrue =>
    obtain ⟨re', hupdate, hdone⟩ := Option.bind_eq_some_iff.1 hround
    cases hdone
    exact h.statics.update hupdate
  case isFalse =>
    split at hround
    case isTrue =>
      obtain ⟨d, -, hround⟩ := Option.bind_eq_some_iff.1 hround
      split at hround
      case isTrue => exact assign_kept h hround
      case isFalse =>
        cases hround
        exact ⟨h.statics, h.ccl_bufidx⟩
    case isFalse =>
      split at hround
      case isTrue =>
        obtain ⟨d, -, hround⟩ := Option.bind_eq_some_iff.1 hround
        obtain ⟨re', hupdate, hnext⟩ := Option.bind_eq_some_iff.1 hround
        cases hnext
        exact ⟨h.statics.update hupdate, h.ccl_bufidx⟩
      case isFalse => exact assign_kept h hround

theorem copyRound_kept (h : s.Kept) (hround : copyRound pattern b s = some r) : RoundKept r := by
  rw [copyRound, Option.bind_eq_bind] at hround
  obtain ⟨c, -, hround⟩ := Option.bind_eq_some_iff.1 hround
  split at hround
  case isTrue =>
    split at hround
    case isTrue =>
      cases hround
      exact h.statics
    case isFalse =>
      obtain ⟨buf, hwrite, hround⟩ := Option.bind_eq_some_iff.1 hround
      obtain ⟨re', hupdate, hnext⟩ := Option.bind_eq_some_iff.1 hround
      cases hnext
      exact ⟨(h.statics.write h.ccl_bufidx hwrite).update hupdate, Nat.succ_pos _⟩
  case isFalse =>
    split at hround
    case isTrue =>
      split at hround
      case isTrue =>
        cases hround
        exact h.statics
      case isFalse =>
        obtain ⟨buf, hwrite, hround⟩ := Option.bind_eq_some_iff.1 hround
        obtain ⟨d, -, hround⟩ := Option.bind_eq_some_iff.1 hround
        obtain ⟨buf', hwrite', hnext⟩ := Option.bind_eq_some_iff.1 hround
        cases hnext
        exact ⟨(h.statics.write h.ccl_bufidx hwrite).write (Nat.succ_pos _) hwrite',
          Nat.succ_pos _⟩
    case isFalse =>
      split at hround
      case isTrue =>
        cases hround
        exact h.statics
      case isFalse =>
        obtain ⟨buf, hwrite, hnext⟩ := Option.bind_eq_some_iff.1 hround
        cases hnext
        exact ⟨h.statics.write h.ccl_bufidx hwrite, Nat.succ_pos _⟩

/-- What one round leaves. -/
theorem compileRound_kept {p : Place} (h : p.Kept) (hround : compileRound pattern p = some r) :
    RoundKept r := by
  cases p with
  | symbol s => exact symbolRound_kept h hround
  | copy b s => exact copyRound_kept h hround

/-- What every history leaves, also one with patterns that are malformed. -/
theorem History.kept {s : Statics} (h : History s) : s.Kept := by
  induction h with
  | fresh => exact ⟨List.length_replicate, List.length_replicate, rfl⟩
  | call _ hrun ih =>
    obtain ⟨p, hp, hdone⟩ := Returns.last ⟨_, hrun⟩ (P := Place.Kept) ⟨ih, Nat.one_pos⟩
      fun p p' hp hround => compileRound_kept hp hround
    exact compileRound_kept hp hdone

end History

section Program
variable {buf : List UInt8} {e : Entry} {symbol : Symbol} {p : RegexT} {ps ps' : List RegexT}
  {caret dollar : Bool} {as as' : List (Atom × Quantifier)}

/-- The matcher sees of an entry what the symbol says. -/
def Reading (symbol : Symbol) (p : RegexT) : Prop :=
  p.type = symbol.symbolType ∧ (p.type.isAtom = true → matchone p = matchone symbol.regex)

theorem classAt_middle (front content back : List UInt8) (hcontent : (0 : UInt8) ∉ content) :
    classAt (front ++ 0 :: (content ++ 0 :: back)) (front.length + 1) =
      some (content.map UInt8.toInt8) := by
  have hdrop : (front ++ 0 :: (content ++ 0 :: back)).drop (front.length + 1) =
      content ++ 0 :: back := by
    rw [List.append_cons, List.drop_left' (by rw [List.length_append, List.length_singleton])]
  have hstring : cString (content ++ 0 :: back) = content := by
    rw [cString, List.takeWhile_append_of_pos]
    · rw [List.takeWhile_cons_of_neg (by decide), List.append_nil]
    · intro c hc
      refine decide_eq_true ?_
      rintro rfl
      exact hcontent hc
  rw [classAt, hdrop, if_pos, hstring]
  refine ⟨Nat.succ_pos _, ?_, List.mem_append_right _ List.mem_cons_self⟩
  rw [Nat.add_sub_cancel, List.getElem?_append_right (Nat.le_refl _), Nat.sub_self]
  rfl

theorem Realizes.reading (h : Realizes buf symbol e) (firstByte : Nat → UInt8) :
    ∃ p, e.regex firstByte buf = some p ∧ Reading symbol p ∧ e.type ≠ .unused := by
  cases symbol with
  | type t =>
    obtain ⟨rfl, hplain⟩ := h
    obtain ⟨t, stored⟩ := e
    have hmatch : ∀ ch, t.isAtom = true → matchone ⟨t, ch, []⟩ = matchone ⟨t, 0, []⟩ := by
      intro ch hatom
      cases t <;> first
        | rfl
        | exact absurd hatom Bool.false_ne_true
        | exact absurd hplain Bool.false_ne_true
    have hclass : ¬(t = .charClass ∨ t = .invCharClass) := by
      rintro (rfl | rfl) <;> cases hplain
    have hused : t ≠ .unused := by
      rintro rfl
      cases hplain
    cases stored with
    | ch c => exact ⟨⟨t, c, []⟩, if_neg hclass, ⟨rfl, hmatch c⟩, hused⟩
    | ccl b => exact ⟨⟨t, firstByte b, []⟩, if_neg hclass, ⟨rfl, hmatch _⟩, hused⟩
  | char c =>
    obtain rfl := h
    exact ⟨⟨.char, c, []⟩, rfl, ⟨rfl, fun _ => rfl⟩, SymbolType.noConfusion⟩
  | ccl inverted content =>
    obtain ⟨htype, hcontent, front, back, rfl, hstored⟩ := h
    obtain ⟨t, stored⟩ := e
    obtain rfl : t = _ := htype
    obtain rfl : stored = _ := hstored
    refine ⟨⟨(Symbol.ccl inverted content).symbolType, firstByte (front.length + 1),
      content.map UInt8.toInt8⟩, ?_, ⟨rfl, fun _ => ?_⟩, ?_⟩
    · rw [Entry.regex]
      dsimp only
      rw [classAt_middle front content back hcontent]
      cases inverted <;> rfl
    · cases inverted <;> rfl
    · cases inverted <;> exact SymbolType.noConfusion

/-- The program that a settled call leaves. -/
theorem program_reads {symbols : List Symbol} {new : List Entry}
    (h : List.Forall₂ (Realizes buf) symbols new) (he : e.type = .unused) (tail : List Entry)
    (firstByte : Nat → UInt8) :
    ∃ ps, Statics.program ⟨new ++ e :: tail, buf⟩ firstByte = some ps ∧
      List.Forall₂ Reading symbols ps := by
  rw [Statics.program]
  induction h with
  | nil =>
    rw [List.nil_append, List.takeWhile_cons, he]
    exact ⟨[], rfl, .nil⟩
  | cons hsymbol _ ih =>
    obtain ⟨p, hp, hreading, hused⟩ := hsymbol.reading firstByte
    obtain ⟨ps, hps, hrest⟩ := ih
    refine ⟨p :: ps, ?_, .cons hreading hrest⟩
    dsimp only at hps ⊢
    rw [List.cons_append, List.takeWhile_cons, if_pos (decide_eq_true hused), List.mapM_cons, hp]
    simp only [Option.bind_eq_bind, Option.bind_some, hps]
    rfl

theorem reading_refl (symbol : Symbol) : Reading symbol symbol.regex := by
  cases symbol <;> exact ⟨rfl, fun _ => rfl⟩

theorem Symbol.regex_type (symbol : Symbol) : symbol.regex.type = symbol.symbolType := by
  cases symbol <;> rfl

theorem atom_reading {a : Atom} (h : Reading symbol p) (ha : symbol.atom = some a) :
    ∃ a' : Atom, a'.regex = p ∧ matchone a'.regex = matchone a.regex := by
  rw [Symbol.atom] at ha
  split at ha
  case isTrue hatom =>
    cases ha
    have hp : p.type.isAtom = true := by
      rw [h.1, ← symbol.regex_type]
      exact hatom
    exact ⟨⟨p, hp⟩, rfl, h.2 hp⟩
  case isFalse => cases ha

theorem quantifier_symbolType {q : Quantifier} (h : symbol.quantifier = some q) :
    symbolType q = some symbol.symbolType := by
  rw [Symbol.quantifier] at h
  split at h
  case h_1 hstar =>
    cases h
    exact congrArg some hstar.symm
  case h_2 hplus =>
    cases h
    exact congrArg some hplus.symm
  case h_3 hquestion =>
    cases h
    exact congrArg some hquestion.symm
  case h_4 => cases h

theorem items_cons_congr {a a' : Atom} (q : Quantifier) (ha : matchone a'.regex = matchone a.regex)
    (h : items as' = items as) : items ((a', q) :: as') = items ((a, q) :: as) := by
  rw [items_cons, items_cons, ha, h]

/-- What is read of atoms spells them. -/
theorem atoms_spells {symbols : List Symbol} (h : List.Forall₂ Reading symbols ps)
    (hatoms : atoms symbols = some (dollar, as)) :
    ∃ as', Spells dollar as' ps ∧ items as' = items as := by
  induction symbols using atoms.induct generalizing ps as with
  | case1 =>
    cases h
    cases hatoms
    exact ⟨[], rfl, rfl⟩
  | case2 symbol hend =>
    obtain ⟨p, _, hp, hnil, rfl⟩ := List.forall₂_cons_left_iff.1 h
    cases hnil
    rw [atoms, if_pos hend] at hatoms
    cases hatoms
    exact ⟨[], ⟨p, hp.1.trans hend, rfl⟩, rfl⟩
  | case3 symbol hend =>
    obtain ⟨p, _, hp, hnil, rfl⟩ := List.forall₂_cons_left_iff.1 h
    cases hnil
    rw [atoms, if_neg hend] at hatoms
    obtain ⟨a, ha, heq⟩ := Option.map_eq_some_iff.1 hatoms
    cases heq
    obtain ⟨a', rfl, hmatch⟩ := atom_reading hp ha
    exact ⟨[(a', .one)], ⟨[], rfl, rfl⟩, items_cons_congr .one hmatch rfl⟩
  | case4 symbol next rest ih ihnext =>
    obtain ⟨p, ps, hp, hrest, rfl⟩ := List.forall₂_cons_left_iff.1 h
    rw [atoms] at hatoms
    obtain ⟨a, ha, hatoms⟩ := Option.bind_eq_some_iff.1 hatoms
    obtain ⟨a', rfl, hmatch⟩ := atom_reading hp ha
    cases hquantifier : next.quantifier with
    | none =>
      rw [hquantifier] at hatoms
      obtain ⟨r, hmore, heq⟩ := Option.map_eq_some_iff.1 hatoms
      cases heq
      obtain ⟨as', hspells, hitems⟩ := ihnext hrest hmore
      exact ⟨(a', .one) :: as', ⟨ps, rfl, hspells⟩, items_cons_congr .one hmatch hitems⟩
    | some q =>
      rw [hquantifier] at hatoms
      obtain ⟨r, hmore, heq⟩ := Option.map_eq_some_iff.1 hatoms
      cases heq
      obtain ⟨s, ps, hs, hbehind, rfl⟩ := List.forall₂_cons_left_iff.1 hrest
      obtain ⟨as', hspells, hitems⟩ := ih hbehind hmore
      refine ⟨(a', q) :: as', ?_, items_cons_congr q hmatch hitems⟩
      rw [Spells, quantifier_symbolType hquantifier]
      exact ⟨s, ps, hs.1, rfl, hspells⟩

theorem matchpattern_congr (h : Spells dollar as ps) (h' : Spells dollar as' ps')
    (hitems : items as = items as') : matchpattern ps = matchpattern ps' := by
  funext text n
  rw [matchpattern_finds h, matchpattern_finds h', hitems]

theorem searchLoop_congr (h : matchpattern ps = matchpattern ps') (text : List Int8) (idx n : Int) :
    searchLoop ps text idx n = searchLoop ps' text idx n := by
  induction text generalizing idx n with
  | nil => rw [searchLoop, searchLoop, h]
  | cons c text ih => simp only [searchLoop, h, ih]

theorem reMatchp_search (h : Spells dollar as ps) (text : List Int8) :
    reMatchp (some ps) text =
      (int (searchLoop ps text (-1) 0).1, int (searchLoop ps text (-1) 0).2) := by
  cases ps with
  | nil => rfl
  | cons p rest =>
    have hp : p.type ≠ .begin := by
      intro he
      rcases Spells.head h with hatom | hend
      · rw [he] at hatom
        cases hatom
      · rw [he] at hend
        cases hend
    simp only [reMatchp, if_neg hp]

/-- What is matched depends on the atoms as sets of characters. -/
theorem reMatchp_congr (h : Compiled caret dollar as ps) (h' : Compiled caret dollar as' ps')
    (hitems : items as = items as') (text : List Int8) :
    reMatchp (some ps) text = reMatchp (some ps') text := by
  cases caret with
  | true =>
    obtain ⟨p, rest, hp, rfl, hrest⟩ := h
    obtain ⟨p', rest', hp', rfl, hrest'⟩ := h'
    simp only [reMatchp, if_pos hp, if_pos hp', matchpattern_congr hrest hrest' hitems]
  | false =>
    rw [reMatchp_search h, reMatchp_search h',
      searchLoop_congr (matchpattern_congr h h' hitems)]

theorem expression_compiled {symbols : List Symbol} (h : List.Forall₂ Reading symbols ps)
    (hexpression : expression symbols = some (caret, dollar, as)) :
    ∃ as', Compiled caret dollar as' ps ∧ items as' = items as := by
  cases h with
  | nil =>
    cases hexpression
    exact ⟨[], rfl, rfl⟩
  | cons hp hrest =>
    rw [expression] at hexpression
    split at hexpression
    case isTrue hbegin =>
      obtain ⟨r, hatoms, heq⟩ := Option.map_eq_some_iff.1 hexpression
      cases heq
      obtain ⟨as', hspells, hitems⟩ := atoms_spells hrest hatoms
      exact ⟨as', ⟨_, _, hp.1.trans hbegin, rfl, hspells⟩, hitems⟩
    case isFalse =>
      obtain ⟨r, hatoms, heq⟩ := Option.map_eq_some_iff.1 hexpression
      cases heq
      exact atoms_spells (.cons hp hrest) hatoms

/-- A pattern that spells an expression, or whose classes are too long, is compiled in the same
way whatever was compiled before. -/
theorem compiles_of_parse (pattern : List UInt8) (hzero : (0 : UInt8) ∉ pattern)
    (h : parse pattern ≠ none) : Compiles pattern := by
  have hreads : Reads pattern 0 pattern := ⟨Nat.zero_le _, rfl⟩
  obtain ⟨r, hr⟩ := Option.ne_none_iff_exists'.1 h
  rw [parse] at hr
  cases hsymbols : symbols (MAX_REGEXP_OBJECTS - 1) 1 pattern with
  | none =>
    rw [hsymbols] at hr
    cases hr
  | some compiled =>
    have hsettled : ∀ s, History s → ∃ fuel out, reCompile fuel pattern s = some out ∧
        Settles [] [] compiled out := by
      intro s hs
      obtain ⟨hentries, hlength, hfront⟩ := hs.kept
      obtain ⟨x, back, hbuf⟩ :=
        List.exists_cons_of_ne_nil (List.ne_nil_of_length_eq_add_one hlength)
      rw [hbuf, List.head?_cons] at hfront
      cases hfront
      rw [hbuf] at hlength
      have hcount : ([] : List Entry).length + (MAX_REGEXP_OBJECTS - 1 + 1) = MAX_REGEXP_OBJECTS :=
        rfl
      have hsize : (([] : List UInt8) ++ 0 :: back).length = MAX_CHAR_CLASS_LEN := hlength
      obtain ⟨out, ⟨fuel, hrun⟩, hsettles⟩ :=
        returns_symbols hsymbols hreads hzero hcount hentries hsize
      refine ⟨fuel, out, ?_, hsettles⟩
      rw [reCompile, hbuf]
      exact hrun
    cases compiled with
    | none =>
      refine ⟨fun text => reMatchp none text, fun s hs => ?_⟩
      obtain ⟨fuel, out, hrun, hfail⟩ := hsettled s hs
      refine ⟨fuel, out, hrun, fun firstByte text => ?_⟩
      rw [reMatch, if_neg (ne_true_of_eq_false hfail)]
    | some ss =>
      rw [hsymbols] at hr
      obtain ⟨⟨caret, dollar, as⟩, hexpression, -⟩ := Option.map_eq_some_iff.1 hr
      have hself : List.Forall₂ Reading ss (ss.map Symbol.regex) := by
        rw [List.forall₂_map_right_iff]
        exact List.forall₂_same.2 fun symbol _ => reading_refl symbol
      obtain ⟨as₀, hcompiled₀, hitems₀⟩ := expression_compiled hself hexpression
      refine ⟨fun text => reMatchp (some (ss.map Symbol.regex)) text, fun s hs => ?_⟩
      obtain ⟨fuel, out, hrun, hok, new, e, tail, back, hout, he, hnew⟩ := hsettled s hs
      refine ⟨fuel, out, hrun, fun firstByte text => ?_⟩
      obtain ⟨ps, hps, hreading⟩ := program_reads hnew he tail firstByte
      obtain ⟨as₁, hcompiled₁, hitems₁⟩ := expression_compiled hreading hexpression
      rw [reMatch, if_pos hok, hout, List.nil_append, hps, Option.map_some,
        reMatchp_congr hcompiled₁ hcompiled₀ (hitems₁.trans hitems₀.symm)]

/-- The pattern `a[b-d]*$`. -/
theorem compiles_of_parse_class :
    (0 : UInt8) ∉ [97, 91, 98, 45, 100, 93, 42, 36] ∧
      parse [97, 91, 98, 45, 100, 93, 42, 36] ≠ none ∧
      Compiles [97, 91, 98, 45, 100, 93, 42, 36] :=
  ⟨by decide, Option.some_ne_none _, compiles_of_parse _ (by decide) (Option.some_ne_none _)⟩

/-- A bracket that is left open. -/
theorem not_compiles : ¬Compiles [91] := by
  rintro ⟨behaviour, h⟩
  obtain ⟨fuel, compiled, hrun, -⟩ := h _ .fresh
  have hreturns : Returns (compileRound [91]) _ compiled := ⟨fuel, hrun⟩
  rw [returns_next rfl, returns_next rfl] at hreturns
  exact not_returns_of_none rfl hreturns

end Program

end BigBox.Regex
