import BigBox.Lib.CInt
import BigBox.Lib.CString
import BigBox.Lib.Loop
import BigBox.Lib.Numeral
import BigBox.Lib.Search

namespace BigBox.EHttp
open Loop Numeral
set_option autoImplicit true

def COLON : UInt8 := 58
def SLASH : UInt8 := 47

/-- The text `http://`. -/
def HTTP : List UInt8 := [104, 116, 116, 112, 58, 47, 47]

def hostnameMaxLen : Nat := 128
def pathMaxLen : Nat := 128

/-- `url_t`, with the texts its arrays hold. -/
structure UrlT where
  hostname : List UInt8
  path : List UInt8
  port : UInt16
  deriving DecidableEq, Repr

def isDigit (c : UInt8) : Bool := 48 ≤ c ∧ c ≤ 57

def digitValue (c : UInt8) : Nat := c.toNat - 48

/-- A round of the loop of `hander_port`. A character that is no digit is looked at again, and a
number that does not fit in an `int` has no result. -/
def portRound (s : List UInt8 × Int) : Option (Round (List UInt8 × Int) Int) :=
  match s.1 with
  | [] => some (.done s.2)
  | c :: str =>
    if isDigit c then (checkedInt (s.2 * 10 + digitValue c)).map fun sum => .next (str, sum)
    else some (.next (c :: str, s.2))

def handerPort (fuel : Nat) (str : List UInt8) : Option UInt16 :=
  (iterate portRound fuel (str.drop 1, 0)).map fun sum => UInt16.ofNat sum.toNat

/-- A text is written with a zero byte behind it, inside an array of this size. -/
def store (size : Nat) (text : List UInt8) : Option (List UInt8) :=
  if text.length + 1 ≤ size then some text else none

/-- The port in a host, or the one that was there. -/
def portOf (fuel : Nat) (hostname : List UInt8) (port : UInt16) : Option UInt16 :=
  match strstr [COLON] hostname with
  | some portIndex => handerPort fuel portIndex
  | none => some port

/-- `url_parser`, for at most so many rounds of the loop over the port. -/
def urlParser (fuel : Nat) (url : List UInt8) (output : UrlT) : Option (Int × UrlT) :=
  match strstr HTTP url with
  | none => some (-1, output)
  | some _ =>
    let url := url.drop 7
    match strstr [SLASH] url with
    | none => some (-1, output)
    | some tmp => do
      let hostname ← store hostnameMaxLen (between url tmp)
      let port ← portOf fuel hostname output.port
      let path ← store pathMaxLen tmp
      return (0, ⟨hostname, path, port⟩)

/-- The port of a URL with the colon before it. -/
def portText : Option (List UInt8) → List UInt8
  | none => []
  | some digits => COLON :: digits

/-- The parts of a URL `http://host[:port]/path`. -/
structure UrlParts where
  host : List UInt8
  port : Option (List UInt8)
  path : List UInt8
  host_plain : COLON ∉ host ∧ SLASH ∉ host
  port_digits : ∀ digits, port = some digits → ∀ c ∈ digits, isDigit c = true
  path_slash : path.head? = some SLASH

def UrlParts.text (u : UrlParts) : List UInt8 := HTTP ++ u.host ++ portText u.port ++ u.path

/-- What is put out for a URL of these parts. -/
def UrlT.Has (output : UrlT) (u : UrlParts) : Prop :=
  output.hostname = u.host ∧ output.path = u.path ∧
    ∀ digits, u.port = some digits → output.port.toNat = number 10 digitValue 0 digits

/-- The call ends, and puts out the parts of a URL that it accepts. -/
def Parses (url : List UInt8) (output : UrlT) : Prop :=
  ∃ fuel ret output', urlParser fuel url output = some (ret, output') ∧
    ∀ u : UrlParts, u.text = url → ret = 0 → output'.Has u

/-- The host and the port of a URL, behind its first seven characters. -/
def authority (url : List UInt8) : List UInt8 := (url.drop 7).takeWhile (· ≠ SLASH)

def pathOf (url : List UInt8) : List UInt8 := (url.drop 7).dropWhile (· ≠ SLASH)

/-- The characters behind a colon are the digits of an `int`. -/
def IntPort (s : List UInt8) : Prop :=
  (∀ c ∈ s, isDigit c = true) ∧ number 10 digitValue 0 s < 2147483648

/-- The host and the path fit in their arrays, and there is no colon in the host, or the URL does
not start with `http://` and the number behind the colon can be read. -/
def Readable (url : List UInt8) : Prop :=
  (authority url).length < hostnameMaxLen ∧ (pathOf url).length < pathMaxLen ∧
    (COLON ∉ authority url ∨
      ¬ HTTP <+: url ∧ IntPort (((authority url).dropWhile (· ≠ COLON)).drop 1))

/-- A round at a digit. -/
theorem portRound_digit (hc : isDigit c = true) (hfits : n * 10 + digitValue c < 2147483648) :
    portRound (c :: s, (n : Int)) = some (.next (s, ((n * 10 + digitValue c : Nat) : Int))) := by
  have hcast : (n : Int) * 10 + digitValue c = ((n * 10 + digitValue c : Nat) : Int) := by
    rw [Nat.cast_add, Nat.cast_mul]
    rfl
  rw [portRound]
  dsimp only
  rw [if_pos hc, hcast, checkedInt_of_lt (by omega) (by omega)]
  rfl

/-- The loop ends at nothing but the digits of an `int`. -/
theorem returns_port_iff {n : Nat} (hn : n < 2147483648) : Returns portRound (s, (n : Int)) sum ↔
    ((∀ c ∈ s, isDigit c = true) ∧ number 10 digitValue n s < 2147483648) ∧
      (number 10 digitValue n s : Nat) = sum := by
  induction s generalizing n with
  | nil =>
    rw [returns_done rfl]
    exact (and_iff_right ⟨fun c hc => (nomatch hc), hn⟩).symm
  | cons c s ih =>
    rw [List.forall_mem_cons, number_cons]
    cases hc : isDigit c with
    | false =>
      have hround : portRound (c :: s, (n : Int)) = some (.next (c :: s, (n : Int))) := by
        rw [portRound]
        exact if_neg (by rw [hc]; exact Bool.false_ne_true)
      exact iff_of_false (not_returns_of_same hround) fun h => absurd h.1.1.1 Bool.false_ne_true
    | true =>
      rcases Nat.lt_or_ge (n * 10 + digitValue c) 2147483648 with hlt | hge
      · rw [returns_next (portRound_digit hc hlt), ih hlt, and_iff_right rfl]
      · have hround : portRound (c :: s, (n : Int)) = none := by
          have hover : checkedInt ((n : Int) * 10 + digitValue c) = none := if_neg (by omega)
          rw [portRound]
          dsimp only
          rw [if_pos hc, hover]
          rfl
        have hle : n * 10 + digitValue c ≤ number 10 digitValue (n * 10 + digitValue c) s :=
          le_number (by decide)
        exact iff_of_false (not_returns_of_none hround) fun h =>
          absurd h.1.2 (Nat.not_lt.2 (Nat.le_trans hge hle))

/-- A URL without a host, or one that is refused. -/
theorem urlParser_refused (h : ¬ HTTP <:+: url ∨ SLASH ∉ url.drop 7) (fuel : Nat) (output : UrlT) :
    urlParser fuel url output = some (-1, output) := by
  rw [urlParser]
  cases hhttp : strstr HTTP url with
  | none => rfl
  | some r =>
    dsimp only
    rcases h with h | h
    · obtain ⟨a, t, rfl, rfl⟩ := strstr_some hhttp
      exact absurd (List.infix_append' a HTTP t) h
    · rw [strstr_none h]

theorem strstr_of_infix (h : pat <:+: s) : ∃ r, strstr (α := UInt8) pat s = some r := by
  obtain ⟨a, b, _, hfind⟩ := strstr_inside h
  have hnil := hfind []
  rw [List.append_nil] at hnil
  exact ⟨_, hnil⟩

theorem authority_append_pathOf (url : List UInt8) : authority url ++ pathOf url = url.drop 7 :=
  List.takeWhile_append_dropWhile

theorem slash_not_mem_authority (url : List UInt8) : SLASH ∉ authority url := by
  intro h
  have hne := List.mem_takeWhile_imp h
  rw [decide_eq_true_iff] at hne
  exact hne rfl

theorem dropWhile_ne {s : List UInt8} (h : c ∈ s) : ∃ t, s.dropWhile (· ≠ c) = c :: t := by
  obtain ⟨a, t, rfl, ha⟩ := List.eq_append_cons_of_mem h
  exact ⟨t, dropWhile_at ha t⟩

theorem exists_pathOf (h : SLASH ∈ url.drop 7) : ∃ t, pathOf url = SLASH :: t := dropWhile_ne h

/-- What the parser does with a host and a path. -/
theorem urlParser_found (hhttp : HTTP <:+: url) (hslash : SLASH ∈ url.drop 7) (fuel : Nat)
    (output : UrlT) :
    urlParser fuel url output = (store hostnameMaxLen (authority url)).bind fun hostname =>
      (portOf fuel hostname output.port).bind fun port =>
      (store pathMaxLen (pathOf url)).bind fun path => some (0, ⟨hostname, path, port⟩) := by
  obtain ⟨r, hr⟩ := strstr_of_infix hhttp
  obtain ⟨t, ht⟩ := exists_pathOf hslash
  have hfind : strstr [SLASH] (url.drop 7) = some (pathOf url) := by
    rw [← authority_append_pathOf, ht, strstr_append (slash_not_mem_authority url)]
    exact strstr_self [SLASH] t
  have hbetween : between (url.drop 7) (pathOf url) = authority url := by
    rw [← authority_append_pathOf, between_append]
  rw [urlParser, hr]
  dsimp only
  rw [hfind]
  dsimp only
  rw [hbetween]
  rfl

theorem UrlParts.not_slash (u : UrlParts) : SLASH ∉ u.host ++ portText u.port := by
  intro h
  rcases List.mem_append.1 h with h | h
  · exact u.host_plain.2 h
  · cases hport : u.port with
    | none =>
      rw [hport] at h
      cases h
    | some digits =>
      rw [hport] at h
      rcases List.mem_cons.1 h with h | h
      · exact absurd h (by decide)
      · exact absurd (u.port_digits digits hport SLASH h) (by decide)

/-- The parser finds the parts of a URL in their places. -/
theorem UrlParts.places (u : UrlParts) : HTTP <+: u.text ∧ SLASH ∈ u.text.drop 7 ∧
    authority u.text = u.host ++ portText u.port ∧ pathOf u.text = u.path := by
  obtain ⟨t, ht⟩ : ∃ t, u.path = SLASH :: t := List.head?_eq_some_iff.1 u.path_slash
  have hdrop : u.text.drop 7 = u.host ++ portText u.port ++ SLASH :: t := by
    rw [UrlParts.text, ht, List.append_assoc HTTP, List.append_assoc]
    rfl
  refine ⟨?_, ?_, ?_, ?_⟩
  · rw [UrlParts.text, List.append_assoc, List.append_assoc]
    exact List.prefix_append _ _
  · rw [hdrop]
    exact List.mem_append_right _ List.mem_cons_self
  · rw [authority, hdrop, takeWhile_at u.not_slash]
  · rw [pathOf, hdrop, dropWhile_at u.not_slash, ht]

theorem store_eq_some : store size s = some r ↔ s.length < size ∧ s = r := by
  rw [store]
  split
  case isTrue h => rw [Option.some_inj, and_iff_right (Nat.lt_of_succ_le h)]
  case isFalse h => exact iff_of_false nofun fun hlt => h hlt.1

/-- A host without a colon is put out as it is. -/
theorem parses_plain (hhttp : HTTP <:+: url) (hslash : SLASH ∈ url.drop 7)
    (hplain : COLON ∉ authority url) (output : UrlT) : Parses url output ↔
    (authority url).length < hostnameMaxLen ∧ (pathOf url).length < pathMaxLen := by
  have hrun : ∀ fuel, urlParser fuel url output =
      (store hostnameMaxLen (authority url)).bind fun hostname =>
        (store pathMaxLen (pathOf url)).bind fun path =>
          some (0, ⟨hostname, path, output.port⟩) := by
    intro fuel
    rw [urlParser_found hhttp hslash]
    apply Option.bind_congr
    intro hostname hstore
    rw [← (store_eq_some.1 hstore).2, portOf, strstr_none hplain]
    rfl
  constructor
  · rintro ⟨fuel, ret, output', hsome, _⟩
    rw [hrun] at hsome
    obtain ⟨hostname, hhost, hrest⟩ := Option.bind_eq_some_iff.1 hsome
    obtain ⟨path, hpath, _⟩ := Option.bind_eq_some_iff.1 hrest
    exact ⟨(store_eq_some.1 hhost).1, (store_eq_some.1 hpath).1⟩
  · rintro ⟨hhost, hpath⟩
    refine ⟨0, 0, ⟨authority url, pathOf url, output.port⟩, ?_, ?_⟩
    · rw [hrun, store_eq_some.2 ⟨hhost, rfl⟩, store_eq_some.2 ⟨hpath, rfl⟩]
      rfl
    · rintro u rfl _
      obtain ⟨_, _, hauthority, hpathOf⟩ := u.places
      rw [hauthority] at hplain
      cases hport : u.port with
      | none =>
        rw [hport] at hauthority
        exact ⟨hauthority.trans (List.append_nil _), hpathOf,
          fun digits hdigits => absurd (hport.symm.trans hdigits) (Option.some_ne_none digits).symm⟩
      | some digits =>
        rw [hport] at hplain
        exact absurd (List.mem_append_right _ List.mem_cons_self) hplain

/-- A host with a colon is put out with its port. -/
theorem parses_colon (hhttp : HTTP <:+: url) (hslash : SLASH ∈ url.drop 7)
    (hcolon : COLON ∈ authority url) (output : UrlT) : Parses url output ↔
    (authority url).length < hostnameMaxLen ∧ (pathOf url).length < pathMaxLen ∧
      ¬ HTTP <+: url ∧ IntPort (((authority url).dropWhile (· ≠ COLON)).drop 1) := by
  obtain ⟨digits, hdigits⟩ := dropWhile_ne hcolon
  have hsplit : (authority url).takeWhile (· ≠ COLON) ++ COLON :: digits = authority url := by
    rw [← hdigits]
    exact List.takeWhile_append_dropWhile
  have hnot : COLON ∉ (authority url).takeWhile (· ≠ COLON) := by
    intro h
    have hne := List.mem_takeWhile_imp h
    rw [decide_eq_true_iff] at hne
    exact hne rfl
  have hfind : strstr [COLON] (authority url) = some (COLON :: digits) := by
    rw [← hsplit, strstr_append hnot]
    exact strstr_self [COLON] digits
  have hrun : ∀ fuel, urlParser fuel url output =
      (store hostnameMaxLen (authority url)).bind fun hostname =>
        (handerPort fuel (COLON :: digits)).bind fun port =>
          (store pathMaxLen (pathOf url)).bind fun path => some (0, ⟨hostname, path, port⟩) := by
    intro fuel
    rw [urlParser_found hhttp hslash]
    apply Option.bind_congr
    intro hostname hstore
    rw [← (store_eq_some.1 hstore).2, portOf, hfind]
  rw [hdigits, List.drop_one, List.tail_cons]
  constructor
  · rintro ⟨fuel, ret, output', hsome, hhas⟩
    rw [hrun] at hsome
    obtain ⟨hostname, hhost, hrest⟩ := Option.bind_eq_some_iff.1 hsome
    obtain ⟨port, hport, hrest⟩ := Option.bind_eq_some_iff.1 hrest
    obtain ⟨path, hpath, hout⟩ := Option.bind_eq_some_iff.1 hrest
    obtain ⟨sum, hsum, _⟩ := Option.map_eq_some_iff.1 hport
    have hint : IntPort digits := ((returns_port_iff (by decide)).1 ⟨fuel, hsum⟩).1
    refine ⟨(store_eq_some.1 hhost).1, (store_eq_some.1 hpath).1, ?_, hint⟩
    rintro ⟨t, rfl⟩
    obtain ⟨p, hp⟩ := exists_pathOf hslash
    have hapart := authority_append_pathOf (HTTP ++ t)
    let u : UrlParts :=
      { host := (authority (HTTP ++ t)).takeWhile (· ≠ COLON)
        port := some digits
        path := pathOf (HTTP ++ t)
        host_plain := ⟨hnot, fun h =>
          slash_not_mem_authority (HTTP ++ t) ((List.takeWhile_prefix _).subset h)⟩
        port_digits := by
          rintro _ ⟨⟩
          exact hint.1
        path_slash := by rw [hp]; rfl }
    have htext : u.text = HTTP ++ t := by
      have hu : u.text = HTTP ++ (authority (HTTP ++ t)).takeWhile (· ≠ COLON) ++
        COLON :: digits ++ pathOf (HTTP ++ t) := rfl
      rw [hu, List.append_assoc HTTP, hsplit, List.append_assoc, hapart]
      rfl
    cases hout
    have hhost' := (hhas u htext rfl).1
    rw [← (store_eq_some.1 hhost).2] at hhost'
    apply hnot
    have hmem : COLON ∈ u.host := hhost' ▸ hcolon
    exact hmem
  · rintro ⟨hhost, hpath, hnohttp, hint⟩
    obtain ⟨fuel, hfuel⟩ := (returns_port_iff (n := 0) (by decide)).2 ⟨hint, rfl⟩
    refine ⟨fuel, 0, ⟨authority url, pathOf url,
      UInt16.ofNat ((number 10 digitValue 0 digits : Nat) : Int).toNat⟩, ?_, ?_⟩
    · have hport : handerPort fuel (COLON :: digits) =
          some (UInt16.ofNat ((number 10 digitValue 0 digits : Nat) : Int).toNat) := by
        rw [handerPort, List.drop_one, List.tail_cons]
        exact congrArg (Option.map _) hfuel
      rw [hrun, store_eq_some.2 ⟨hhost, rfl⟩, store_eq_some.2 ⟨hpath, rfl⟩, hport]
      rfl
    · rintro u rfl _
      exact absurd u.places.1 hnohttp

/-- A URL is refused, or the host and the path fit and no port has to be told from the host. -/
def Parsed (url : List UInt8) : Prop :=
  ¬ HTTP <:+: url ∨ SLASH ∉ url.drop 7 ∨ Readable url

/-- The parser ends with the parts of the URL exactly when it refuses the URL, or host and path
fit in their arrays and the host has no colon, or the URL does not start with `http://` and an
`int` follows the colon. -/
theorem parses_url_iff (url : Text) (output : UrlT) : Parses url.1 output ↔ Parsed url.1 := by
  by_cases hrefused : ¬ HTTP <:+: url.1 ∨ SLASH ∉ url.1.drop 7
  · refine iff_of_true ⟨0, -1, output, urlParser_refused hrefused 0 output, ?_⟩
      (or_assoc.1 (.inl hrefused))
    intro u _ hret
    exact absurd hret (by decide)
  · obtain ⟨hhttp, hslash⟩ := not_or.1 hrefused
    rw [not_not] at hhttp hslash
    rw [Parsed, or_iff_right (not_not.2 hhttp), or_iff_right (not_not.2 hslash), Readable]
    by_cases hcolon : COLON ∈ authority url.1
    · rw [parses_colon hhttp hslash hcolon, or_iff_right (not_not.2 hcolon)]
    · rw [parses_plain hhttp hslash hcolon]
      constructor
      · exact fun h => ⟨h.1, h.2, .inl hcolon⟩
      · exact fun h => ⟨h.1, h.2.1⟩

/-- The text `http://h:8/`. -/
def portUrl : Text := ⟨HTTP ++ [104, 58, 56, 47], by decide⟩

/-- The parts of it. -/
def portUrlParts : UrlParts :=
  ⟨[104], some [56], [47], by decide,
    fun _ h => Option.some.inj h ▸ List.forall_mem_singleton.2 rfl, rfl⟩

theorem not_parses_url : ¬ Parses portUrl.1 ⟨[], [], 0⟩ := by
  rintro ⟨fuel, ret, output', hrun, hhas⟩
  have hhost : output'.hostname = [104, 58, 56] ∧ ret = 0 := by
    match fuel with
    | 0 => cases hrun
    | 1 => cases hrun
    | fuel + 2 =>
      cases hrun
      exact ⟨rfl, rfl⟩
  have hbad := (hhas portUrlParts rfl hhost.2).1
  rw [hhost.1] at hbad
  exact absurd hbad (by decide)

end BigBox.EHttp
