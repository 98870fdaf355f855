import BigBox.Lib.CString
import BigBox.Lib.Loop

namespace BigBox.IniConfig2
open Loop
set_option autoImplicit true

abbrev Str := List UInt8

abbrev TAB : UInt8 := 9
abbrev LF : UInt8 := 10
abbrev CR : UInt8 := 13
abbrev SPACE : UInt8 := 32
abbrev QUOTE : UInt8 := 34
abbrev SEMICOLON : UInt8 := 59
abbrev EQUALS : UInt8 := 61
abbrev OPEN : UInt8 := 91
abbrev BACKSLASH : UInt8 := 92
abbrev CLOSE : UInt8 := 93

/-- What `trim_back` takes off, and what is skipped behind the equals sign. -/
def blank (c : UInt8) : Bool := c = SPACE ∨ c = TAB ∨ c = CR

def tolower (c : UInt8) : UInt8 := if 65 ≤ c ∧ c ≤ 90 then c + 32 else c

def strcmpci : Str → Str → Int
  | [], b => 0 - (tolower (b.headD 0)).toNat
  | c :: a, b =>
    let d : Int := (tolower c).toNat - (tolower (b.headD 0)).toNat
    if d ≠ 0 then d else strcmpci a b.tail

/-- The file with a zero behind it. `stop` is the field `end`. -/
structure Ini where
  data : Str
  stop : Nat
  deriving DecidableEq, Repr

def Ini.load (content : Str) : Ini := ⟨content ++ [0], content.length⟩

def Ini.get (ini : Ini) (p : Nat) : UInt8 := ini.data.getD p 0

def Ini.set (ini : Ini) (p : Nat) (c : UInt8) : Ini := { ini with data := ini.data.set p c }

/-- The string at a pointer. -/
def Ini.string (ini : Ini) (p : Nat) : Str := cString (ini.data.drop p)

def Ini.strcspn (ini : Ini) (p : Nat) (reject : Str) : Nat :=
  ((ini.string p).takeWhile (· ∉ reject)).length

/-- The inner loop of `next`, `n` characters in front of the end. -/
def Ini.skipZeros (ini : Ini) : Nat → Nat → Nat
  | 0, p => p
  | n + 1, p => if ini.get p = 0 then ini.skipZeros n (p + 1) else p

def Ini.next (ini : Ini) (p : Nat) : Nat :=
  let p := p + (ini.string p).length
  ini.skipZeros (ini.stop - p) p

/-- `trim_back(ini, p - 1)`. -/
def Ini.trimBack (ini : Ini) : Nat → Ini
  | 0 => ini
  | p + 1 => if blank (ini.get p) then (ini.set p 0).trimBack p else ini

/-- The loop of `discard_line`, `n` characters in front of the end. -/
def Ini.discard (ini : Ini) : Nat → Nat → Ini × Nat
  | 0, p => (ini, p)
  | n + 1, p => if ini.get p = LF then (ini, p) else (ini.set p 0).discard n (p + 1)

def Ini.discardLine (ini : Ini) (p : Nat) : Ini × Nat := ini.discard (ini.stop - p) p

/-- What a character behind a backslash stands for, if it does not end the value. -/
def escaped (c : UInt8) : Option UInt8 :=
  if c = 114 then some CR
  else if c = 110 then some LF
  else if c = 116 then some TAB
  else if c = CR ∨ c = LF ∨ c = 0 then none
  else some c

/-- The loop of `unescape_quoted_value`, at most `n` characters in front of the end. -/
def Ini.unescape (ini : Ini) : Nat → Nat → Nat → Ini × Nat
  | 0, _, q => (ini, q)
  | n + 1, p, q =>
    if p < ini.stop ∧ ini.get p ≠ QUOTE ∧ ini.get p ≠ CR ∧ ini.get p ≠ LF then
      if ini.get p = BACKSLASH then
        match escaped (ini.get (p + 1)) with
        | some c => (ini.set q c).unescape n (p + 2) (q + 1)
        | none => (ini, q)
      else (ini.set q (ini.get p)).unescape n (p + 1) (q + 1)
    else (ini, q)

def Ini.unescapeQuotedValue (ini : Ini) (p : Nat) : Ini × Nat :=
  ini.unescape (ini.stop - p) (p + 1) p

/-- The loop that replaces white space behind the equals sign, `n` characters in front of the
end. -/
def Ini.skipBlanks (ini : Ini) : Nat → Nat → Ini × Nat
  | 0, p => (ini, p)
  | n + 1, p => if blank (ini.get p) then (ini.set p 0).skipBlanks n (p + 1) else (ini, p)

/-- The part of the `default` case of `split_data` behind the equals sign. -/
def Ini.splitValue (ini : Ini) (lineStart p : Nat) : Ini × Nat :=
  if ini.get p = LF ∨ ini.get p = 0 then ini.discardLine lineStart
  else if ini.get p = QUOTE then
    let valueStart := p
    let (ini, p) := ini.unescapeQuotedValue p
    if p = valueStart then ini.discardLine lineStart else ini.discardLine p
  else
    let p := p + ini.strcspn p [LF]
    (ini.trimBack p, p)

/-- The `default` case of `split_data`. -/
def Ini.splitLine (ini : Ini) (lineStart : Nat) : Ini × Nat :=
  let p := lineStart + ini.strcspn lineStart [EQUALS, LF]
  if ini.get p ≠ EQUALS then ini.discardLine lineStart
  else
    let (ini, p) := ((ini.trimBack p).set p 0).skipBlanks (ini.stop - (p + 1)) (p + 1)
    ini.splitValue lineStart p

/-- The body of the loop of `split_data`. -/
def Ini.splitStep (ini : Ini) (p : Nat) : Ini × Nat :=
  let c := ini.get p
  if c = CR ∨ c = LF ∨ c = TAB ∨ c = SPACE then (ini.set p 0, p + 1)
  else if c = 0 then (ini, p + 1)
  else if c = OPEN then
    let p := p + ini.strcspn p [CLOSE, LF]
    (ini.set p 0, p)
  else if c = SEMICOLON then ini.discardLine p
  else ini.splitLine p

def splitRound (s : Ini × Nat) : Option (Round (Ini × Nat) Ini) :=
  if s.2 < s.1.stop then some (.next (s.1.splitStep s.2)) else some (.done s.1)

/-- `ini_load` behind the reading of the file. -/
def Splits (content : Str) (ini : Ini) : Prop := Returns splitRound (Ini.load content, 0) ini

def Ini.start (ini : Ini) : Nat := if ini.get 0 = 0 then ini.next 0 else 0

/-- A round of the loop of `ini_get`, with `current_section` and the pointer. -/
def Ini.getRound (ini : Ini) (sec : Option Str) (key : Str) (s : Str × Nat) :
    Option (Round (Str × Nat) (Option Nat)) :=
  if s.2 < ini.stop then
    if ini.get s.2 = OPEN then some (.next (ini.string (s.2 + 1), ini.next s.2))
    else
      let val := ini.next s.2
      if (∀ name, sec = some name → strcmpci name s.1 = 0) ∧ strcmpci (ini.string s.2) key = 0 then
        some (.done (some val))
      else some (.next (s.1, ini.next val))
  else some (.done none)

/-- `ini_get` has this value. -/
def Ini.Gets (ini : Ini) (sec : Option Str) (key : Str) (value : Option Str) : Prop :=
  ∃ val, Returns (ini.getRound sec key) ([], ini.start) val ∧ val.map ini.string = value

/-- What a line of a file holds. A value without a key is `stray`. -/
inductive Item where
  | header (name : Str)
  | entry (key value : Str)
  | stray (value : Str)
  deriving DecidableEq, Repr

/-- A quoted value without its quotes and escapes. -/
def readQuoted : Str → Str
  | [] => []
  | c :: text =>
    if c = QUOTE ∨ c = CR then []
    else if c = BACKSLASH then
      match text with
      | [] => []
      | d :: text =>
        match escaped d with
        | some d => d :: readQuoted text
        | none => []
    else c :: readQuoted text

def readValue (text : Str) : Str :=
  match text.dropWhile blank with
  | [] => []
  | c :: text => if c = QUOTE then readQuoted text else (c :: text).rdropWhile blank

/-- A line that is neither empty nor a comment nor a section. It is well formed when it has an
equals sign with a key in front of it and a value behind it. -/
def readLine (line : Str) : List Item :=
  if EQUALS ∈ line then
    let key := (line.takeWhile (· ≠ EQUALS)).rdropWhile blank
    let value := readValue (line.dropWhile (· ≠ EQUALS)).tail
    if value = [] then [] else if key = [] then [.stray value] else [.entry key value]
  else []

/-- The items of a line. What follows a section on its line is read as another line. -/
def lineItems : Str → List Item
  | [] => []
  | c :: line =>
    if blank c then lineItems line
    else if c = OPEN then
      .header (line.takeWhile (· ≠ CLOSE)) :: lineItems (line.dropWhile (· ≠ CLOSE)).tail
    else if c = SEMICOLON then []
    else readLine (c :: line)
  termination_by line => line.length
  decreasing_by
    · exact Nat.lt_succ_self _
    · have hle := (List.dropWhile_sublist (· ≠ CLOSE) (l := line)).length_le
      rw [List.length_tail, List.length_cons]
      omega

def items (content : Str) : List Item := (content.splitOn LF).flatMap lineItems

def Item.wellFormed : Item → Bool
  | .stray _ => false
  | _ => true

/-- The strings are equal but for upper and lower case. -/
def Same (a b : Str) : Prop := a.map tolower = b.map tolower

instance (a b : Str) : Decidable (Same a b) := inferInstanceAs (Decidable (_ = _))

/-- The value of the first entry with this key in a part headed by this section. -/
def lookup (sec : Option Str) (key : Str) (current : Str) : List Item → Option Str
  | [] => none
  | .header name :: items => lookup sec key name items
  | .entry k v :: items =>
    if (∀ name, sec = some name → Same name current) ∧ Same k key then some v
    else lookup sec key current items
  | .stray _ :: items => lookup sec key current items

/-- What `ini_get` is to return. -/
def wanted (content : Str) (sec : Option Str) (key : Str) : Option Str :=
  lookup sec key [] (items content)

/-- The strings between zeros. -/
def tokens (data : Str) : List Str := (data.splitOn 0).filter (· ≠ [])

/-- What `ini_get` takes the strings for, by their places alone. -/
def roles : List Str → List Item
  | [] => []
  | token :: tokens =>
    if token.head? = some OPEN then .header token.tail :: roles tokens
    else
      match tokens with
      | [] => [.entry token []]
      | value :: tokens => .entry token value :: roles tokens

def Item.tokens : Item → List Str
  | .header name => [OPEN :: name]
  | .entry key value => [key, value]
  | .stray value => [value]

/-- The data in front of a pointer, and from there to the end of the file. -/
def window (done rest : Str) : Ini := ⟨done ++ (rest ++ [0]), done.length + rest.length⟩

theorem window_append (done a rest : Str) : window done (a ++ rest) = window (done ++ a) rest := by
  rw [window, window, List.append_assoc, List.append_assoc, List.length_append, List.length_append,
    Nat.add_assoc]

theorem window_cons (done : Str) (c : UInt8) (rest : Str) :
    window done (c :: rest) = window (done ++ [c]) rest := window_append done [c] rest

@[simp] theorem window_get (done rest : Str) :
    (window done rest).get done.length = rest.headD 0 := by
  cases rest <;> simp [window, Ini.get]

@[simp] theorem window_set (done : Str) (c d : UInt8) (rest : Str) :
    (window done (c :: rest)).set done.length d = window done (d :: rest) := by
  simp [window, Ini.set]

@[simp] theorem window_stop (done rest : Str) :
    (window done rest).stop = done.length + rest.length := rfl

@[simp] theorem window_string (done rest : Str) :
    (window done rest).string done.length = cString (rest ++ [0]) := by
  simp [window, Ini.string]

theorem length_concat (done : Str) (c : UInt8) : (done ++ [c]).length = done.length + 1 :=
  List.length_append

/-- A line ends at a line feed or at the end of the file. -/
def LineEnd (rest : Str) : Prop := ∀ c ∈ rest.head?, c = LF

theorem LineEnd.head (h : LineEnd rest) : rest.headD 0 = LF ∨ rest.headD 0 = 0 := by
  cases rest with
  | nil => exact .inr rfl
  | cons c rest => exact .inl (h c rfl)

theorem window_strcspn {reject : Str} (done : Str) (ha : ∀ c ∈ a, c ≠ 0 ∧ c ∉ reject)
    (hrest : ∀ c ∈ rest.head?, c = 0 ∨ c ∈ reject) :
    (window done (a ++ rest)).strcspn done.length reject = a.length := by
  have hzero : 0 ∉ a := fun h => (ha 0 h).1 rfl
  rw [Ini.strcspn, window_string, List.append_assoc, cString_append hzero,
    List.takeWhile_append_of_pos fun c hc => decide_eq_true (ha c hc).2]
  suffices hnil : (cString (rest ++ [0])).takeWhile (fun c => decide (c ∉ reject)) = [] by
    rw [hnil, List.append_nil]
  cases rest with
  | nil => rfl
  | cons c rest =>
    rw [List.cons_append, cString_cons]
    split
    case isTrue => rfl
    case isFalse hc =>
      apply List.takeWhile_cons_of_neg
      rw [decide_eq_true_iff]
      exact not_not.2 ((hrest c rfl).resolve_left hc)

theorem discard_window (hline : LF ∉ line) (htail : LineEnd tail) (done : Str) :
    (window done (line ++ tail)).discardLine done.length =
      (window (done ++ List.replicate line.length 0) tail, done.length + line.length) := by
  rw [Ini.discardLine, window_stop, Nat.add_sub_cancel_left]
  induction line generalizing done with
  | nil =>
    rw [List.nil_append, List.length_nil, List.replicate_zero, List.append_nil, Nat.add_zero]
    cases tail with
    | nil => rfl
    | cons c tail =>
      rw [List.length_cons, Ini.discard, window_get, if_pos]
      exact htail c rfl
  | cons c line ih =>
    have hc : c ≠ LF := fun heq => hline (heq ▸ List.mem_cons_self)
    have hrest := ih (fun hmem => hline (List.mem_cons_of_mem c hmem)) (done ++ [0])
    rw [List.cons_append, List.length_cons, Ini.discard, window_get, List.headD_cons, if_neg hc,
      window_set, window_cons]
    rw [length_concat] at hrest
    rw [hrest, List.append_assoc, List.length_cons, List.replicate_succ, Nat.add_assoc,
      Nat.add_comm 1]
    rfl

theorem trimBack_window (hlast : ∀ c ∈ a.getLast?, blank c = false) (hw : ∀ c ∈ w, blank c = true)
    (rest : Str) : (window (a ++ w) rest).trimBack (a ++ w).length =
      window (a ++ List.replicate w.length 0) rest := by
  induction w using List.reverseRecOn generalizing rest with
  | nil =>
    rw [List.append_nil, List.length_nil, List.replicate_zero, List.append_nil]
    cases a using List.reverseRecOn with
    | nil => rfl
    | append_singleton a c =>
      have hc : blank c = false := hlast c (by rw [List.getLast?_concat]; rfl)
      rw [List.length_append, List.length_singleton, Ini.trimBack, ← window_cons, window_get,
        List.headD_cons, hc]
      rfl
  | append_singleton w c ih =>
    obtain ⟨hw, hc⟩ := List.forall_mem_append.1 hw
    rw [← List.append_assoc, List.length_append, List.length_singleton, Ini.trimBack,
      ← window_cons, window_get, List.headD_cons, if_pos (hc c List.mem_cons_self), window_set,
      ih hw, window_cons, List.append_assoc, List.length_append, List.length_singleton,
      List.replicate_succ']

theorem skipBlanks_window (hw : ∀ c ∈ w, blank c = true) (ht : ∀ c ∈ t.head?, blank c = false)
    (done : Str) : (window done (w ++ t)).skipBlanks (w ++ t).length done.length =
      (window (done ++ List.replicate w.length 0) t, done.length + w.length) := by
  induction w generalizing done with
  | nil =>
    rw [List.nil_append, List.length_nil, List.replicate_zero, List.append_nil, Nat.add_zero]
    cases t with
    | nil => rfl
    | cons c t =>
      rw [List.length_cons, Ini.skipBlanks, window_get, List.headD_cons, ht c rfl]
      rfl
  | cons c w ih =>
    have hrest := ih (fun d hd => hw d (List.mem_cons_of_mem c hd)) (done ++ [0])
    rw [length_concat] at hrest
    rw [List.cons_append, List.length_cons, Ini.skipBlanks, window_get, List.headD_cons,
      if_pos (hw c List.mem_cons_self), window_set, window_cons, hrest, List.append_assoc,
      List.length_cons, List.replicate_succ, Nat.add_assoc, Nat.add_comm 1]
    rfl

theorem window_get_behind (a gap rest : Str) :
    (window a (gap ++ rest)).get (a.length + gap.length) = rest.headD 0 := by
  rw [window_append, ← List.length_append, window_get]

theorem window_get_next_behind (a gap : Str) (c : UInt8) (rest : Str) :
    (window a (gap ++ c :: rest)).get (a.length + (gap.length + 1)) = rest.headD 0 := by
  have hget := window_get_behind a (gap ++ [c]) rest
  rwa [length_concat, List.append_assoc] at hget

theorem escaped_lineEnd (h : LineEnd rest) : escaped (rest.headD 0) = none := by
  obtain h | h := h.head <;> rw [h] <;> rfl

theorem readQuoted_nil (h : c = QUOTE ∨ c = CR) (s : Str) : readQuoted (c :: s) = [] := by
  cases s <;> rw [readQuoted, if_pos h]

theorem readQuoted_none (h : escaped (s.headD 0) = none) : readQuoted (BACKSLASH :: s) = [] := by
  cases s with
  | nil => rfl
  | cons d s =>
    rw [List.headD_cons] at h
    rw [readQuoted, if_neg (by decide), if_pos rfl, h]

theorem readQuoted_some (h : escaped d = some e) (s : Str) :
    readQuoted (BACKSLASH :: d :: s) = e :: readQuoted s := by
  rw [readQuoted, if_neg (by decide), if_pos rfl, h]

theorem readQuoted_plain (hc : ¬ (c = QUOTE ∨ c = CR)) (hb : c ≠ BACKSLASH) (s : Str) :
    readQuoted (c :: s) = c :: readQuoted s := by
  cases s <;> simp only [readQuoted, if_neg hc, if_neg hb]

/-- The place behind what has been read of a quoted value: the value in front of the write head,
and what is left of the line, over which nothing has been written yet. -/
def Unescaped (a gap s tail : Str) (r : Ini × Nat) : Prop :=
  ∃ junk, LF ∉ junk ∧ junk.length + (readQuoted s).length = gap.length + s.length ∧
    r = (window (a ++ readQuoted s) (junk ++ tail), a.length + (readQuoted s).length)

theorem Unescaped.stop (hlf : LF ∉ gap) (hs : LF ∉ s) (hnil : readQuoted s = []) (a tail : Str) :
    Unescaped a gap s tail (window a (gap ++ (s ++ tail)), a.length) := by
  refine ⟨gap ++ s, fun h => (List.mem_append.1 h).elim hlf hs, ?_, ?_⟩
  · rw [hnil]
    exact List.length_append
  · rw [hnil, List.append_nil, List.append_assoc]
    rfl

/-- One character of the value is written over the first one of the gap. -/
theorem Unescaped.write {gap : Str} (hlen : gap'.length = gap.length + x.length)
    (hread : readQuoted (x ++ s) = c :: readQuoted s)
    (h : Unescaped (a ++ [c]) gap' s tail r) : Unescaped a (g :: gap) (x ++ s) tail r := by
  obtain ⟨junk, hjunk, hsum, rfl⟩ := h
  refine ⟨junk, hjunk, ?_, ?_⟩
  · rw [hread, List.length_cons, List.length_cons, List.length_append]
    omega
  · rw [hread, List.append_assoc, length_concat, List.length_cons, Nat.add_assoc,
      Nat.add_comm 1]
    rfl

theorem unescape_write (a gap x rest : Str) (g c : UInt8) (n : Nat) :
    ((window a (g :: gap ++ (x ++ rest))).set a.length c).unescape n
        (a.length + (g :: gap).length + x.length) (a.length + 1) =
      (window (a ++ [c]) (gap ++ x ++ rest)).unescape n
        ((a ++ [c]).length + (gap ++ x).length) (a ++ [c]).length := by
  rw [List.cons_append, window_set, window_cons, List.append_assoc, length_concat,
    List.length_cons, List.length_append]
  congr 1
  omega

theorem unescape_window (hgap : gap ≠ []) (hlf : LF ∉ gap) (hs : LF ∉ s) (htail : LineEnd tail)
    (a : Str) (hn : s.length + tail.length ≤ n) :
    Unescaped a gap s tail
      ((window a (gap ++ (s ++ tail))).unescape n (a.length + gap.length) a.length) := by
  induction n generalizing a gap s with
  | zero =>
    obtain rfl := List.length_eq_zero_iff.1 (Nat.le_zero.1 (Nat.le_trans (Nat.le_add_right ..) hn))
    exact .stop hlf hs rfl a tail
  | succ n ih =>
    rw [Ini.unescape, window_get_behind, window_stop]
    cases s with
    | nil =>
      rw [if_neg]
      · exact .stop hlf hs rfl a tail
      · rintro ⟨hlt, _, _, hne⟩
        rw [List.nil_append] at hlt hne
        cases tail with
        | nil =>
          rw [List.append_nil] at hlt
          exact Nat.lt_irrefl _ hlt
        | cons c tail => exact hne (htail c rfl)
    | cons c s =>
      have hclf : c ≠ LF := fun heq => hs (heq ▸ List.mem_cons_self)
      have hslf : LF ∉ s := fun hmem => hs (List.mem_cons_of_mem c hmem)
      have hlt : a.length + gap.length < a.length + (gap ++ (c :: s ++ tail)).length := by
        simp only [List.length_append, List.length_cons]
        omega
      by_cases hend : c = QUOTE ∨ c = CR
      · rw [if_neg]
        · exact .stop hlf hs (readQuoted_nil hend s) a tail
        · rintro ⟨_, hquote, hcr, _⟩
          exact hend.elim hquote hcr
      · obtain ⟨g, gap, rfl⟩ := List.exists_cons_of_ne_nil hgap
        rw [if_pos ⟨hlt, fun h => hend (.inl h), fun h => hend (.inr h), hclf⟩]
        rw [List.length_cons] at hn
        split
        case isTrue hback =>
          subst hback
          have hnext : (window a (g :: gap ++ (BACKSLASH :: s ++ tail))).get
              (a.length + (g :: gap).length + 1) = (s ++ tail).headD 0 :=
            window_get_next_behind a (g :: gap) BACKSLASH (s ++ tail)
          rw [hnext]
          cases s with
          | nil =>
            have hnone := escaped_lineEnd htail
            rw [List.nil_append, hnone]
            exact .stop hlf hs (readQuoted_none rfl) a tail
          | cons d s =>
            rw [List.cons_append, List.headD_cons]
            cases hesc : escaped d with
            | none => exact .stop hlf hs (readQuoted_none hesc) a tail
            | some e =>
              have hd : d ≠ LF := fun heq => hslf (heq ▸ List.mem_cons_self)
              have hgap' : LF ∉ gap ++ [BACKSLASH, d] := by
                intro hmem
                rcases List.mem_append.1 hmem with hmem | hmem
                · exact hlf (List.mem_cons_of_mem g hmem)
                · rcases List.mem_pair.1 hmem with heq | heq
                  · cases heq
                  · exact hd heq.symm
              have hrest := ih (by simp) hgap' (fun hmem => hslf (List.mem_cons_of_mem d hmem))
                (a ++ [e]) (by rw [List.length_cons] at hn; omega)
              dsimp only
              rw [← unescape_write] at hrest
              exact .write List.length_append (readQuoted_some hesc s) hrest
        case isFalse hback =>
          have hgap' : LF ∉ gap ++ [c] := by
            intro hmem
            rcases List.mem_append.1 hmem with hmem | hmem
            · exact hlf (List.mem_cons_of_mem g hmem)
            · exact hclf (List.mem_singleton.1 hmem).symm
          have hrest := ih (by simp) hgap' hslf (a ++ [c]) (by omega)
          rw [← unescape_write] at hrest
          exact .write List.length_append (readQuoted_plain hend hback s) hrest

end BigBox.IniConfig2
