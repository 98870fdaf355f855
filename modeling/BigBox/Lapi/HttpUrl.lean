import BigBox.Lapi.Http
import BigBox.Lib.Search
import Mathlib.Data.List.TakeWhile

namespace BigBox.Lapi.Http
set_option autoImplicit true

def HASH : UInt8 := 35

def SLASH : UInt8 := 47

def QUERY : UInt8 := 63

def AT : UInt8 := 64

def LBRACKET : UInt8 := 91

def RBRACKET : UInt8 := 93

/-- The port `80`. -/
def defaultPort : Str := [56, 48]

/-- `struct http_url`; `uri` is whether it points to the structure. -/
structure HttpUrl where
  uri : Bool
  scheme : Option Str
  host : Option Str
  ip : Option Str
  port : Option Str
  path : Option Str
  query : Option Str
  fragment : Option Str
  username : Option Str
  password : Option Str

def isSchemeChar (c : UInt8) : Bool :=
  65 ≤ c ∧ c ≤ 90 ∨ 97 ≤ c ∧ c ≤ 122 ∨ c = 43 ∨ c = 45 ∨ c = 46

/-- The copy of a text up to the first character that ends it, and what is from there on. -/
def readTo (ends : UInt8 → Bool) (curstr : Str) : Option (Str × Str) :=
  let tmpstr := curstr.dropWhile fun c => !ends c
  (copyText curstr (curstr.length - tmpstr.length)).map fun text => (text, tmpstr)

def readFragment (curstr : Str) (url : HttpUrl) : Option (Int × HttpUrl) :=
  match curstr with
  | [] => some (0, url)
  | c :: rest =>
    if c = HASH then
      (readTo (fun _ => false) rest).map fun (text, _) => (0, { url with fragment := some text })
    else some (0, url)

def readQuery (curstr : Str) (url : HttpUrl) : Option (Int × HttpUrl) :=
  match curstr with
  | [] => readFragment [] url
  | c :: rest =>
    if c = QUERY then
      (readTo (· = HASH) rest).bind fun (text, tmpstr) =>
        readFragment tmpstr { url with query := some text }
    else readFragment curstr url

def readPath (curstr : Str) (url : HttpUrl) : Option (Int × HttpUrl) :=
  (readTo (· = HASH) curstr).bind fun (text, tmpstr) =>
    readQuery tmpstr { url with path := some text }

/-- The address of the host is looked up, and what is left is the path. -/
def readIp (hostname2ip : Str → Option Str) (curstr : Str) (url : HttpUrl) :
    Option (Int × HttpUrl) :=
  let url := { url with ip := url.host.bind hostname2ip, uri := true }
  match curstr with
  | [] => some (0, url)
  | c :: rest => if c = SLASH then readPath rest url else some (-1, url)

def readPort (hostname2ip : Str → Option Str) (curstr : Str) (url : HttpUrl) :
    Option (Int × HttpUrl) :=
  match curstr with
  | [] => readIp hostname2ip [] { url with port := some defaultPort }
  | c :: rest =>
    if c = COLON then
      (readTo (· = SLASH) rest).bind fun (text, tmpstr) =>
        readIp hostname2ip tmpstr { url with port := some text }
    else readIp hostname2ip curstr { url with port := some defaultPort }

/-- Where a host ends: behind its bracket if it starts with one. -/
def hostEnd (curstr : Str) : Str :=
  if curstr.head? = some LBRACKET then ((strchr RBRACKET curstr).map List.tail).getD []
  else curstr.dropWhile fun c => !(c = COLON ∨ c = SLASH)

def readHost (hostname2ip : Str → Option Str) (curstr : Str) (url : HttpUrl) :
    Option (Int × HttpUrl) :=
  (copyText curstr (curstr.length - (hostEnd curstr).length)).bind fun text =>
    readPort hostname2ip (hostEnd curstr) { url with host := some text }

def skipAt (hostname2ip : Str → Option Str) (curstr : Str) (url : HttpUrl) :
    Option (Int × HttpUrl) :=
  match curstr with
  | [] => some (-1, url)
  | c :: rest => if c = AT then readHost hostname2ip rest url else some (-1, url)

def readPassword (hostname2ip : Str → Option Str) (curstr : Str) (url : HttpUrl) :
    Option (Int × HttpUrl) :=
  match curstr with
  | [] => skipAt hostname2ip [] url
  | c :: rest =>
    if c = COLON then
      (readTo (· = AT) rest).bind fun (text, tmpstr) =>
        skipAt hostname2ip tmpstr { url with password := some text }
    else skipAt hostname2ip curstr url

/-- An `@` stands in front of the first slash. -/
def userpassFlag : Str → Bool
  | [] => false
  | c :: rest => if c = AT then true else if c = SLASH then false else userpassFlag rest

def readUser (hostname2ip : Str → Option Str) (curstr : Str) (url : HttpUrl) :
    Option (Int × HttpUrl) :=
  if userpassFlag curstr then
    (readTo (fun c => c = COLON ∨ c = AT) curstr).bind fun (text, tmpstr) =>
      readPassword hostname2ip tmpstr { url with username := some text }
  else readHost hostname2ip curstr url

/-- No result is an overflow. -/
def httpParser (hostname2ip : Str → Option Str) (data : Str) (url : HttpUrl) :
    Option (Int × HttpUrl) :=
  match strchr COLON data with
  | none => some (-1, url)
  | some tmpstr =>
    let len := data.length - tmpstr.length
    if (data.take (toInt len).toNat).all isSchemeChar then
      (copyText data len).bind fun text =>
        let url := { url with scheme := some (lower text) }
        match tmpstr.tail with
        | [] => some (-1, url)
        | [_] => some (-1, url)
        | c :: d :: curstr =>
          if c = SLASH ∧ d = SLASH then readUser hostname2ip curstr url else some (-1, url)
    else some (-1, url)

/-- A text without some characters. -/
abbrev Part (without : List UInt8) := { s : Str // ∀ c ∈ without, c ∉ s }

structure User where
  name : Part [COLON, AT]
  password : Option (Part [AT])

/-- A host in brackets or without them. -/
inductive Host where
  | bracketed (address : Part [RBRACKET])
  | plain (name : Part [COLON, SLASH]) (h : name.1.head? ≠ some LBRACKET)

structure Path where
  path : Part [QUERY, HASH]
  query : Option (Part [HASH])
  fragment : Option Str

/-- A URL by its components. -/
structure Url where
  scheme : Part [COLON]
  user : Option User
  host : Host
  port : Option (Part [SLASH])
  path : Option Path

def User.text (user : User) : Str :=
  match user.password with
  | some password => user.name.1 ++ COLON :: password.1
  | none => user.name.1

def Host.text : Host → Str
  | .bracketed address => LBRACKET :: (address.1 ++ [RBRACKET])
  | .plain name _ => name.1

/-- A component that is there, behind the character in front of it. -/
def behind (c : UInt8) : Option Str → Str
  | some text => c :: text
  | none => []

def Path.text (path : Path) : Str :=
  path.path.1 ++ (behind QUERY (path.query.map Subtype.val) ++ behind HASH path.fragment)

/-- What is behind the host and its port. -/
def Url.pathText (u : Url) : Str := behind SLASH (u.path.map Path.text)

def Url.portText (u : Url) : Str := behind COLON (u.port.map Subtype.val)

def Url.userText (u : Url) : Str :=
  match u.user with
  | some user => user.text ++ [AT]
  | none => []

def Url.text (u : Url) : Str :=
  u.scheme.1 ++ COLON :: SLASH :: SLASH ::
    (u.userText ++ (u.host.text ++ (u.portText ++ u.pathText)))

/-- The parser returns 0 and has stored the components. -/
def Stores (u : Url) : Prop :=
  ∀ hostname2ip url, ∃ url', httpParser hostname2ip u.text url = some (0, url') ∧
    url'.scheme = some (lower u.scheme.1) ∧
    (∀ user, u.user = some user → url'.username = some user.name.1 ∧
      ∀ password, user.password = some password → url'.password = some password.1) ∧
    url'.host = some u.host.text ∧
    url'.port = some ((u.port.map Subtype.val).getD defaultPort) ∧
    ∀ path, u.path = some path → url'.path = some path.path.1 ∧
      (∀ query, path.query = some query → url'.query = some query.1) ∧
      ∀ fragment, path.fragment = some fragment → url'.fragment = some fragment

section stages
variable {hostname2ip : Str → Option Str} {ends : UInt8 → Bool} {a t z : Str} {url url' : HttpUrl}

/-- A text is empty or starts with a character that ends the text in front of it. -/
def Starts (ends : UInt8 → Bool) (t : Str) : Prop := t = [] ∨ ∃ c s, t = c :: s ∧ ends c = true

theorem dropWhile_stop (ha : ∀ c ∈ a, ends c = false) (ht : Starts ends t) :
    (a ++ t).dropWhile (fun c => !ends c) = t := by
  rw [List.dropWhile_append_of_pos fun c hc => by rw [ha c hc]; rfl]
  rcases ht with rfl | ⟨c, s, rfl, hc⟩
  · rfl
  · exact List.dropWhile_cons_of_neg (by rw [hc]; decide)

theorem length_sub (a t : Str) : (a ++ t).length - t.length = a.length := by
  rw [List.length_append, Nat.add_sub_cancel]

theorem readTo_append (ha : ∀ c ∈ a, ends c = false) (ht : Starts ends t) :
    readTo ends (a ++ t) = (copyText (a ++ t) a.length).map fun text => (text, t) := by
  rw [readTo, dropWhile_stop ha ht, length_sub]

/-- What is read is a part of the text in front of the rest. -/
theorem readTo_some (h : readTo ends s = some (text, t)) :
    ∃ a, s = a ++ t ∧ text <+: a ∧ (∀ c ∈ a, ends c = false) ∧ Starts ends t := by
  rw [readTo] at h
  obtain ⟨copy, hcopy, heq⟩ := Option.map_eq_some_iff.1 h
  cases heq
  have hs := List.takeWhile_append_dropWhile (p := fun c => !ends c) (l := s)
  have hlen : s.length - (s.dropWhile fun c => !ends c).length =
      (s.takeWhile fun c => !ends c).length := by
    have hsum := congrArg List.length hs
    rw [List.length_append] at hsum
    omega
  rw [hlen] at hcopy
  refine ⟨s.takeWhile fun c => !ends c, hs.symm, ?_, ?_, ?_⟩
  · apply isPrefix_of_copyText (t := s.dropWhile fun c => !ends c)
    rw [hs]
    exact hcopy
  · intro c hc
    have hno := List.mem_takeWhile_imp hc
    rwa [Bool.not_eq_true'] at hno
  · cases hrest : s.dropWhile fun c => !ends c with
    | nil => exact .inl rfl
    | cons c rest =>
      have hfirst := List.head?_dropWhile_not (fun c => !ends c) s
      rw [hrest] at hfirst
      refine .inr ⟨c, rest, rfl, ?_⟩
      simpa using hfirst

theorem starts_behind (ends : UInt8 → Bool) (hc : ends c = true) (text : Option Str) :
    Starts ends (behind c text) := by
  cases text with
  | none => exact .inl rfl
  | some text => exact .inr ⟨c, text, rfl, hc⟩

theorem ne_of_not_mem (h : c ∉ a) : ∀ d ∈ a, decide (d = c) = false := by
  intro d hd
  rw [decide_eq_false_iff_not]
  rintro rfl
  exact h hd

theorem readFragment_behind (fragment : Option Str) (url : HttpUrl) :
    readFragment (behind HASH fragment) url =
      match fragment with
      | none => some (0, url)
      | some fragment => (copyText fragment fragment.length).map fun text =>
          (0, { url with fragment := some text }) := by
  cases fragment with
  | none => rfl
  | some fragment =>
    have hread := @readTo_append (fun _ => false) fragment [] (fun _ _ => rfl) (.inl rfl)
    rw [List.append_nil] at hread
    rw [behind, readFragment]
    dsimp only
    rw [if_pos rfl, hread, Option.map_map]
    rfl

theorem readQuery_of_starts (h : Starts (· = HASH) t) (url : HttpUrl) :
    readQuery t url = readFragment t url := by
  rcases h with rfl | ⟨c, s, rfl, hc⟩
  · rfl
  · rw [decide_eq_true_iff] at hc
    subst hc
    have hne : HASH ≠ QUERY := by decide
    rw [readQuery]
    dsimp only
    rw [if_neg hne]

theorem readPath_behind (path : Part [QUERY, HASH]) (fragment : Option Str) (url : HttpUrl) :
    readPath (path.1 ++ behind HASH fragment) url =
      (copyText (path.1 ++ behind HASH fragment) path.1.length).bind fun text =>
        readFragment (behind HASH fragment) { url with path := some text } := by
  have hhash : HASH ∉ path.1 := path.2 HASH (List.mem_cons_of_mem _ (List.mem_singleton_self _))
  have hstarts := starts_behind (· = HASH) (decide_eq_true (rfl : HASH = HASH)) fragment
  rw [readPath, readTo_append (ne_of_not_mem hhash) hstarts, Option.bind_map]
  refine congrArg _ (funext fun text => ?_)
  exact readQuery_of_starts hstarts _

theorem readPort_behind (port : Option (Part [SLASH])) (path : Option Str) (url : HttpUrl) :
    readPort hostname2ip (behind COLON (port.map Subtype.val) ++ behind SLASH path) url =
      match port with
      | some port => (copyText (port.1 ++ behind SLASH path) port.1.length).bind fun text =>
          readIp hostname2ip (behind SLASH path) { url with port := some text }
      | none => readIp hostname2ip (behind SLASH path) { url with port := some defaultPort } := by
  cases port with
  | none =>
    cases path with
    | none => rfl
    | some path =>
      have hne : SLASH ≠ COLON := by decide
      rw [Option.map_none, behind, behind, List.nil_append, readPort]
      dsimp only
      rw [if_neg hne]
  | some port =>
    have hslash : SLASH ∉ port.1 := port.2 SLASH (List.mem_singleton_self _)
    have hstarts := starts_behind (· = SLASH) (decide_eq_true (rfl : SLASH = SLASH)) path
    rw [Option.map_some, behind, List.cons_append, readPort]
    dsimp only
    rw [if_pos rfl, readTo_append (ne_of_not_mem hslash) hstarts, Option.bind_map]
    rfl

/-- What may stand behind a host. -/
def hostStop (c : UInt8) : Bool := c = COLON ∨ c = SLASH

theorem starts_portText (port : Option Str) (path : Option Str) :
    Starts hostStop (behind COLON port ++ behind SLASH path) := by
  cases port with
  | some port => exact .inr ⟨COLON, _, rfl, by decide⟩
  | none => exact starts_behind hostStop (by decide) path

theorem hostEnd_plain (hname : ∀ c ∈ a, hostStop c = false) (ht : Starts hostStop t)
    (hhead : (a ++ t).head? ≠ some LBRACKET) : hostEnd (a ++ t) = t := by
  rw [hostEnd, if_neg hhead]
  exact dropWhile_stop hname ht

theorem hostEnd_bracketed (h : RBRACKET ∉ a) (t : Str) :
    hostEnd (LBRACKET :: (a ++ RBRACKET :: t)) = t := by
  have hmem : RBRACKET ∉ LBRACKET :: a := by
    rw [List.mem_cons, not_or]
    exact ⟨by decide, h⟩
  have hfind := strchr_at hmem t
  rw [List.cons_append] at hfind
  rw [hostEnd, List.head?_cons, if_pos rfl, hfind]
  rfl

theorem not_hostStop {name : Part [COLON, SLASH]} : ∀ c ∈ name.1, hostStop c = false := by
  intro c hc
  rw [hostStop, decide_eq_false_iff_not, not_or]
  refine ⟨?_, ?_⟩
  · rintro rfl
    exact name.2 COLON List.mem_cons_self hc
  · rintro rfl
    exact name.2 SLASH (List.mem_cons_of_mem _ (List.mem_singleton_self _)) hc

theorem Starts.head (h : Starts hostStop t) : t.head? ≠ some LBRACKET := by
  rcases h with rfl | ⟨c, s, rfl, hc⟩
  · exact fun h => Option.some_ne_none _ h.symm
  · rw [List.head?_cons]
    intro hcontra
    rw [Option.some.inj hcontra] at hc
    exact absurd hc (by decide)

theorem hostEnd_text (host : Host) (ht : Starts hostStop t) : hostEnd (host.text ++ t) = t := by
  cases host with
  | bracketed address =>
    rw [Host.text, List.cons_append, List.append_assoc]
    exact hostEnd_bracketed (address.2 RBRACKET (List.mem_singleton_self _)) t
  | plain name h =>
    refine hostEnd_plain not_hostStop ht ?_
    by_cases hnil : name.1 = []
    · rw [Host.text, hnil]
      exact ht.head
    · rw [Host.text, List.head?_append_of_ne_nil _ hnil]
      exact h

theorem readHost_text (host : Host) (ht : Starts hostStop t) (url : HttpUrl) :
    readHost hostname2ip (host.text ++ t) url =
      (copyText (host.text ++ t) host.text.length).bind fun text =>
        readPort hostname2ip t { url with host := some text } := by
  rw [readHost, hostEnd_text host ht, length_sub]

theorem userpassFlag_iff (s : Str) :
    userpassFlag s = true ↔ ∃ a r, s = a ++ AT :: r ∧ AT ∉ a ∧ SLASH ∉ a := by
  induction s with
  | nil =>
    refine iff_of_false Bool.false_ne_true ?_
    rintro ⟨a, r, h, _⟩
    cases (List.append_eq_nil_iff.1 h.symm).2
  | cons c s ih =>
    rw [userpassFlag]
    by_cases hat : c = AT
    · subst hat
      exact iff_of_true (if_pos rfl) ⟨[], s, rfl, List.not_mem_nil, List.not_mem_nil⟩
    · rw [if_neg hat]
      by_cases hslash : c = SLASH
      · rw [if_pos hslash]
        refine iff_of_false Bool.false_ne_true ?_
        rintro ⟨a, r, h, _, hno⟩
        cases a with
        | nil => exact hat (List.cons.inj h).1
        | cons d a =>
          apply hno
          rw [← (List.cons.inj h).1, hslash]
          exact List.mem_cons_self
      · rw [if_neg hslash, ih]
        constructor
        · rintro ⟨a, r, rfl, ha, hno⟩
          refine ⟨c :: a, r, rfl, ?_, ?_⟩
          · rw [List.mem_cons, not_or]
            exact ⟨fun he => hat he.symm, ha⟩
          · rw [List.mem_cons, not_or]
            exact ⟨fun he => hslash he.symm, hno⟩
        · rintro ⟨a, r, h, ha, hno⟩
          cases a with
          | nil => exact absurd (List.cons.inj h).1 hat
          | cons d a =>
            obtain ⟨rfl, hs⟩ := List.cons.inj h
            exact ⟨a, r, hs, fun h => ha (List.mem_cons_of_mem _ h),
              fun h => hno (List.mem_cons_of_mem _ h)⟩

theorem userpassFlag_slash (ha : AT ∉ a) (hslash : SLASH ∈ a) (t : Str) :
    userpassFlag (a ++ t) = false := by
  rw [← Bool.not_eq_true, userpassFlag_iff]
  rintro ⟨b, r, h, hb, hno⟩
  have hpre : b <+: a ++ t := ⟨AT :: r, h.symm⟩
  rcases List.prefix_or_prefix_of_prefix hpre (List.prefix_append a t) with hle | hle
  · obtain ⟨d, rfl⟩ := hle
    rw [List.append_assoc] at h
    have hrest := List.append_cancel_left h
    cases d with
    | nil =>
      rw [List.append_nil] at hslash
      exact hno hslash
    | cons c d =>
      rw [List.cons_append] at hrest
      apply ha
      rw [(List.cons.inj hrest).1]
      exact List.mem_append_right b List.mem_cons_self
  · exact hno (hle.subset hslash)

theorem User.at_not_mem (user : User) : AT ∉ user.text := by
  have hname : AT ∉ user.name.1 :=
    user.name.2 AT (List.mem_cons_of_mem _ (List.mem_singleton_self _))
  rw [User.text]
  cases user.password with
  | none => exact hname
  | some password =>
    dsimp only
    rw [List.mem_append, List.mem_cons, not_or, not_or]
    exact ⟨hname, by decide, password.2 AT (List.mem_singleton_self _)⟩

theorem User.text_name (user : User) : ∃ t, user.text = user.name.1 ++ t := by
  rw [User.text]
  cases user.password with
  | none => exact ⟨[], (List.append_nil _).symm⟩
  | some password => exact ⟨_, rfl⟩

/-- Every text without an `@` is that of a user. -/
theorem exists_user (h : AT ∉ a) : ∃ user : User, user.text = a := by
  by_cases hcolon : COLON ∈ a
  · obtain ⟨b, c, rfl, hb⟩ := List.eq_append_cons_of_mem hcolon
    have hat : AT ∉ b := fun hmem => h (List.mem_append_left _ hmem)
    have hc : AT ∉ c := fun hmem => h (List.mem_append_right b (List.mem_cons_of_mem _ hmem))
    exact ⟨⟨⟨b, List.forall_mem_cons.2 ⟨hb, List.forall_mem_singleton.2 hat⟩⟩,
      some ⟨c, List.forall_mem_singleton.2 hc⟩⟩, rfl⟩
  · exact ⟨⟨⟨a, List.forall_mem_cons.2 ⟨hcolon, List.forall_mem_singleton.2 h⟩⟩, none⟩, rfl⟩

theorem skipAt_at (z : Str) (url : HttpUrl) :
    skipAt hostname2ip (AT :: z) url = readHost hostname2ip z url := by
  rw [skipAt]
  exact if_pos rfl

theorem readPassword_at (z : Str) (url : HttpUrl) :
    readPassword hostname2ip (AT :: z) url = readHost hostname2ip z url := by
  have hne : AT ≠ COLON := by decide
  rw [readPassword]
  dsimp only
  rw [if_neg hne, skipAt_at]

theorem readPassword_colon (password : Part [AT]) (z : Str) (url : HttpUrl) :
    readPassword hostname2ip (COLON :: (password.1 ++ AT :: z)) url =
      (copyText (password.1 ++ AT :: z) password.1.length).bind fun text =>
        readHost hostname2ip z { url with password := some text } := by
  have hat : AT ∉ password.1 := password.2 AT (List.mem_singleton_self _)
  have hstarts : Starts (fun c => decide (c = AT)) (AT :: z) := .inr ⟨AT, z, rfl, by decide⟩
  rw [readPassword]
  dsimp only
  rw [if_pos rfl, readTo_append (ne_of_not_mem hat) hstarts, Option.bind_map]
  apply Option.bind_congr
  intro text _
  rw [Function.comp_apply, skipAt_at]

theorem name_stop (name : Part [COLON, AT]) :
    ∀ c ∈ name.1, decide (c = COLON ∨ c = AT) = false := by
  intro c hc
  rw [decide_eq_false_iff_not]
  rintro (rfl | rfl)
  · exact name.2 COLON List.mem_cons_self hc
  · exact name.2 AT (List.mem_cons_of_mem _ (List.mem_singleton_self _)) hc

theorem readUser_text (user : User) (hslash : SLASH ∉ user.text) (z : Str) (url : HttpUrl) :
    readUser hostname2ip (user.text ++ AT :: z) url =
      (copyText (user.text ++ AT :: z) user.name.1.length).bind fun name =>
        match user.password with
        | none => readHost hostname2ip z { url with username := some name }
        | some password =>
          (copyText (password.1 ++ AT :: z) password.1.length).bind fun text =>
            readHost hostname2ip z { url with username := some name, password := some text } := by
  have hflag : userpassFlag (user.text ++ AT :: z) = true :=
    (userpassFlag_iff _).2 ⟨_, _, rfl, user.at_not_mem, hslash⟩
  rw [readUser, if_pos hflag, User.text]
  cases user.password with
  | none =>
    have hstarts : Starts (fun c => decide (c = COLON ∨ c = AT)) (AT :: z) :=
      .inr ⟨AT, z, rfl, by decide⟩
    dsimp only
    rw [readTo_append (name_stop user.name) hstarts, Option.bind_map]
    apply Option.bind_congr
    intro name _
    rw [Function.comp_apply, readPassword_at]
  | some password =>
    have hstarts : Starts (fun c => decide (c = COLON ∨ c = AT))
        (COLON :: (password.1 ++ AT :: z)) := .inr ⟨COLON, _, rfl, by decide⟩
    have hcons : COLON :: password.1 ++ AT :: z = COLON :: (password.1 ++ AT :: z) := rfl
    dsimp only
    rw [List.append_assoc, hcons, readTo_append (name_stop user.name) hstarts, Option.bind_map]
    apply Option.bind_congr
    intro name _
    rw [Function.comp_apply, readPassword_colon]

theorem httpParser_text (u : Url) (url : HttpUrl) : httpParser hostname2ip u.text url =
    if (u.text.take (toInt u.scheme.1.length).toNat).all isSchemeChar then
      (copyText u.text u.scheme.1.length).bind fun text =>
        readUser hostname2ip (u.userText ++ (u.host.text ++ (u.portText ++ u.pathText)))
          { url with scheme := some (lower text) }
    else some (-1, url) := by
  have hcolon : COLON ∉ u.scheme.1 := u.scheme.2 COLON (List.mem_singleton_self _)
  rw [httpParser, Url.text, strchr_at hcolon]
  dsimp only
  rw [length_sub, List.tail_cons]
  dsimp only
  split
  · refine congrArg _ (funext fun text => ?_)
    exact if_pos ⟨rfl, rfl⟩
  · rfl

end stages

/-- How many characters the path and the fragment take in the text, with those in front of them. -/
def HttpUrl.pathCost (url : HttpUrl) : Nat :=
  (url.path.map fun path => path.length + 1).getD 0 +
    (url.fragment.map fun fragment => fragment.length + 1).getD 0

section frames
variable {hostname2ip : Str → Option Str} {s : Str} {url url' : HttpUrl} {ret : Int}

theorem readPath_frame (h : readPath s url = some (ret, url')) :
    ∃ path fragment, url' = { url with path := some path, fragment := fragment } ∧
      (url.fragment = none → url'.pathCost ≤ s.length + 1) := by
  obtain ⟨⟨text, t⟩, hread, hrest⟩ := Option.bind_eq_some_iff.1 h
  have hquery : readQuery t { url with path := some text } = some (ret, url') := hrest
  obtain ⟨a, rfl, htext, _, hstarts⟩ := readTo_some hread
  have hle := htext.length_le
  rw [readQuery_of_starts hstarts] at hquery
  rcases hstarts with rfl | ⟨c, z, rfl, hc⟩
  · cases hquery
    refine ⟨text, url.fragment, rfl, fun hnone => ?_⟩
    rw [HttpUrl.pathCost, hnone, List.append_nil]
    exact Nat.succ_le_succ hle
  · rw [decide_eq_true_iff] at hc
    rw [readFragment] at hquery
    dsimp only at hquery
    rw [if_pos hc] at hquery
    obtain ⟨⟨fragment, t⟩, hfragment, heq⟩ := Option.map_eq_some_iff.1 hquery
    obtain ⟨b, rfl, hb, _, _⟩ := readTo_some hfragment
    have hble := hb.length_le
    cases heq
    refine ⟨text, some fragment, rfl, fun _ => ?_⟩
    rw [HttpUrl.pathCost]
    simp only [Option.map_some, Option.getD_some, List.length_append, List.length_cons]
    omega

theorem readIp_frame (h : readIp hostname2ip s url = some (ret, url')) :
    ∃ ip uri path fragment,
      url' = { url with ip := ip, uri := uri, path := path, fragment := fragment } ∧
        (url.path = none → url.fragment = none → url'.pathCost ≤ s.length) := by
  cases s with
  | nil =>
    cases h
    refine ⟨_, _, url.path, url.fragment, rfl, fun hpath hfragment => ?_⟩
    rw [HttpUrl.pathCost, hpath, hfragment]
    exact Nat.le_refl 0
  | cons c s =>
    rw [readIp] at h
    split at h
    · obtain ⟨path, fragment, rfl, hcost⟩ := readPath_frame h
      exact ⟨_, _, _, _, rfl, fun _ hfragment => hcost hfragment⟩
    · cases h
      refine ⟨_, _, url.path, url.fragment, rfl, fun hpath hfragment => ?_⟩
      rw [HttpUrl.pathCost, hpath, hfragment]
      exact Nat.zero_le _

theorem readPort_frame (h : readPort hostname2ip s url = some (ret, url')) :
    ∃ port ip uri path fragment, url' = { url with
      port := some port, ip := ip, uri := uri, path := path, fragment := fragment } ∧
        (url.path = none → url.fragment = none → port = defaultPort ∨
          port.length + 1 + url'.pathCost ≤ s.length) := by
  cases s with
  | nil =>
    have hip : readIp hostname2ip [] { url with port := some defaultPort } = some (ret, url') := h
    obtain ⟨ip, uri, path, fragment, rfl, _⟩ := readIp_frame hip
    exact ⟨_, ip, uri, path, fragment, rfl, fun _ _ => .inl rfl⟩
  | cons c s =>
    rw [readPort] at h
    dsimp only at h
    split at h
    · obtain ⟨⟨text, t⟩, hread, hrest⟩ := Option.bind_eq_some_iff.1 h
      have hip : readIp hostname2ip t { url with port := some text } = some (ret, url') := hrest
      obtain ⟨a, rfl, htext, _, _⟩ := readTo_some hread
      have hle := htext.length_le
      obtain ⟨ip, uri, path, fragment, rfl, hcost⟩ := readIp_frame hip
      refine ⟨text, ip, uri, path, fragment, rfl, fun hpath hfragment => .inr ?_⟩
      have hrest := hcost hpath hfragment
      rw [List.length_cons, List.length_append]
      omega
    · obtain ⟨ip, uri, path, fragment, rfl, _⟩ := readIp_frame h
      exact ⟨_, ip, uri, path, fragment, rfl, fun _ _ => .inl rfl⟩

theorem hostEnd_suffix (s : Str) : ∃ a, s = a ++ hostEnd s := by
  have hsuffix : hostEnd s <:+ s := by
    rw [hostEnd]
    split
    · cases hfind : strchr RBRACKET s with
      | none => exact List.nil_suffix
      | some r =>
        obtain ⟨a, t, rfl, rfl, _⟩ := strchr_some hfind
        exact (List.suffix_cons RBRACKET t).trans (List.suffix_append a _)
    · exact List.dropWhile_suffix _
  obtain ⟨a, ha⟩ := hsuffix
  exact ⟨a, ha.symm⟩

theorem readHost_frame (h : readHost hostname2ip s url = some (ret, url')) :
    ∃ host port ip uri path fragment, url' = { url with
      host := some host, port := some port, ip := ip, uri := uri, path := path,
      fragment := fragment } ∧
        (∃ a, s = a ++ hostEnd s ∧ host <+: a) ∧
        (url.path = none → url.fragment = none → port = defaultPort ∨
          host.length + (port.length + 1 + url'.pathCost) ≤ s.length) := by
  obtain ⟨a, ha⟩ := hostEnd_suffix s
  have hlen : s.length - (hostEnd s).length = a.length := by
    have hsum := congrArg List.length ha
    rw [List.length_append] at hsum
    omega
  rw [readHost, hlen] at h
  obtain ⟨text, hcopy, h⟩ := Option.bind_eq_some_iff.1 h
  have htext : text <+: a := by
    apply isPrefix_of_copyText (t := hostEnd s)
    rw [← ha]
    exact hcopy
  have hle := htext.length_le
  obtain ⟨port, ip, uri, path, fragment, rfl, hcost⟩ := readPort_frame h
  refine ⟨text, port, ip, uri, path, fragment, rfl, ⟨a, ha, htext⟩, fun hpath hfragment => ?_⟩
  refine (hcost hpath hfragment).imp_right fun hrest => ?_
  have hsum := congrArg List.length ha
  rw [List.length_append] at hsum
  omega

end frames

/-- A path that is stored: it has no query, and its lengths do not overflow. -/
structure Path.Readable (path : Path) : Prop where
  noQuery : path.query = none
  length : path.path.1.length < 2147483647
  fragmentLength : ∀ fragment, path.fragment = some fragment → fragment.length < 2147483647

/-- What the parser stores right behind the scheme. -/
structure Url.RestReadable (u : Url) : Prop where
  user : ∀ user, u.user = some user → SLASH ∉ user.text ∧ user.name.1.length < 2147483647 ∧
    ∀ password, user.password = some password → password.1.length < 2147483647
  noUser : u.user = none → ∀ a b, u.host.text ++ u.portText = a ++ AT :: b → SLASH ∈ a
  host : u.host.text.length < 2147483647
  port : ∀ port, u.port = some port → port.1.length < 2147483647
  path : ∀ path, u.path = some path → path.Readable

/-- What the parser stores right. -/
structure Url.Readable (u : Url) : Prop extends u.RestReadable where
  scheme : ∀ c ∈ u.scheme.1, isSchemeChar c = true
  schemeLength : u.scheme.1.length < 2147483647

def StoredPath (path : Option Path) (url : HttpUrl) : Prop :=
  ∀ p, path = some p → url.path = some p.path.1 ∧
    (∀ query, p.query = some query → url.query = some query.1) ∧
      ∀ fragment, p.fragment = some fragment → url.fragment = some fragment

section parts
variable {hostname2ip : Str → Option Str} {url url' : HttpUrl} {path : Option Path}

theorem readIp_slash (t : Str) (url : HttpUrl) : readIp hostname2ip (SLASH :: t) url =
    readPath t { url with ip := url.host.bind hostname2ip, uri := true } := by
  rw [readIp]
  exact if_pos rfl

theorem Path.text_of_query (p : Path) (h : p.query = none) :
    p.text = p.path.1 ++ behind HASH p.fragment := by
  rw [Path.text, h]
  rfl

theorem readIp_stores (hostname2ip : Str → Option Str) (h : ∀ p, path = some p → p.Readable)
    (url : HttpUrl) :
    ∃ url', readIp hostname2ip (behind SLASH (path.map Path.text)) url = some (0, url') ∧
      StoredPath path url' := by
  cases path with
  | none =>
    refine ⟨_, rfl, fun p hp => ?_⟩
    cases hp
  | some p =>
    have hp := h p rfl
    rw [Option.map_some, behind, readIp_slash, p.text_of_query hp.noQuery, readPath_behind,
      copyText_append hp.length, Option.bind_some, readFragment_behind]
    have hquery : ∀ (url' : HttpUrl) query, p.query = some query → url'.query = some query.1 := by
      intro url' query hsome
      rw [hp.noQuery] at hsome
      cases hsome
    cases hfragment : p.fragment with
    | none =>
      refine ⟨_, rfl, fun p' hp' => ?_⟩
      cases hp'
      refine ⟨rfl, hquery _, fun f hf => ?_⟩
      rw [hfragment] at hf
      cases hf
    | some fragment =>
      have hcopy := copyText_append (hp.fragmentLength fragment hfragment) []
      rw [List.append_nil] at hcopy
      dsimp only
      rw [hcopy]
      refine ⟨_, rfl, fun p' hp' => ?_⟩
      cases hp'
      refine ⟨rfl, hquery _, fun f hf => ?_⟩
      rw [hfragment] at hf
      cases hf
      rfl

theorem readIp_needs
    (h : readIp hostname2ip (behind SLASH (path.map Path.text)) url = some (0, url'))
    (hquery : url.query = none) (hstored : StoredPath path url') :
    ∀ p, path = some p → p.Readable := by
  rintro p rfl
  obtain ⟨hpath, hq, hfragment⟩ := hstored p rfl
  have hnone : p.query = none := by
    obtain ⟨ip, uri, path, fragment, rfl, _⟩ := readIp_frame h
    cases hp : p.query with
    | none => rfl
    | some query =>
      have hsome := hq query hp
      dsimp only at hsome
      rw [hquery] at hsome
      cases hsome
  rw [Option.map_some, behind, readIp_slash, p.text_of_query hnone, readPath_behind] at h
  obtain ⟨text, hcopy, h⟩ := Option.bind_eq_some_iff.1 h
  rw [readFragment_behind] at h
  cases hf : p.fragment with
  | none =>
    rw [hf] at h
    cases h
    cases hpath
    refine ⟨hnone, (copyText_eq_some_iff _ _).1 hcopy, fun fragment hsome => ?_⟩
    rw [hf] at hsome
    cases hsome
  | some fragment =>
    rw [hf] at h
    obtain ⟨ftext, hfcopy, heq⟩ := Option.map_eq_some_iff.1 h
    cases heq
    cases hpath
    refine ⟨hnone, (copyText_eq_some_iff _ _).1 hcopy, fun f hsome => ?_⟩
    have hstore := hfragment f hsome
    rw [hf] at hsome
    cases hsome
    cases hstore
    apply (copyText_eq_some_iff fragment []).1
    rw [List.append_nil]
    exact hfcopy

theorem StoredPath.noQuery (hstored : StoredPath path url) (hquery : url.query = none) :
    ∀ p, path = some p → p.query = none := by
  intro p hp
  obtain ⟨_, hq, _⟩ := hstored p hp
  cases hsome : p.query with
  | none => rfl
  | some query =>
    have hstore := hq query hsome
    rw [hquery] at hstore
    cases hstore

/-- A path that is stored takes all of its text. -/
theorem StoredPath.length_le (hstored : StoredPath path url) (hquery : url.query = none) :
    (behind SLASH (path.map Path.text)).length ≤ url.pathCost := by
  cases path with
  | none => exact Nat.zero_le _
  | some p =>
    obtain ⟨hpath, _, hfragment⟩ := hstored p rfl
    rw [Option.map_some, behind, p.text_of_query (hstored.noQuery hquery p rfl),
      HttpUrl.pathCost, hpath]
    simp only [Option.map_some, Option.getD_some, List.length_append, List.length_cons]
    cases hf : p.fragment with
    | none =>
      rw [behind, List.length_nil]
      omega
    | some fragment =>
      rw [hfragment fragment hf, behind]
      simp only [Option.map_some, Option.getD_some, List.length_cons]
      omega

end parts

/-- The host, the port and the path are stored. -/
structure StoredHost (u : Url) (url : HttpUrl) : Prop where
  host : url.host = some u.host.text
  port : url.port = some ((u.port.map Subtype.val).getD defaultPort)
  path : StoredPath u.path url

section hosts
variable {hostname2ip : Str → Option Str} {url url' : HttpUrl} {u : Url}

theorem starts_rest (u : Url) : Starts hostStop (u.portText ++ u.pathText) :=
  starts_portText _ _

theorem readHost_stores (hostname2ip : Str → Option Str) (h : u.RestReadable) (url : HttpUrl) :
    ∃ url', readHost hostname2ip (u.host.text ++ (u.portText ++ u.pathText)) url =
        some (0, url') ∧ StoredHost u url' ∧ url'.scheme = url.scheme ∧
          url'.username = url.username ∧ url'.password = url.password := by
  have hport : ∃ url', readPort hostname2ip (u.portText ++ u.pathText)
      { url with host := some u.host.text } = some (0, url') ∧
        url'.port = some ((u.port.map Subtype.val).getD defaultPort) ∧
          StoredPath u.path url' := by
    rw [Url.portText, Url.pathText, readPort_behind]
    cases hp : u.port with
    | none =>
      obtain ⟨url', hip, hpath⟩ := readIp_stores hostname2ip h.path
        { url with host := some u.host.text, port := some defaultPort }
      refine ⟨url', hip, ?_, hpath⟩
      obtain ⟨ip, uri, path, fragment, rfl, _⟩ := readIp_frame hip
      rfl
    | some port =>
      dsimp only
      rw [copyText_append (h.port port hp), Option.bind_some]
      obtain ⟨url', hip, hpath⟩ := readIp_stores hostname2ip h.path
        { url with host := some u.host.text, port := some port.1 }
      refine ⟨url', hip, ?_, hpath⟩
      obtain ⟨ip, uri, path, fragment, rfl, _⟩ := readIp_frame hip
      rfl
  obtain ⟨url', hread, hstored, hpath⟩ := hport
  rw [readHost_text u.host (starts_rest u), copyText_append h.host, Option.bind_some]
  refine ⟨url', hread, ?_⟩
  obtain ⟨port, ip, uri, path, fragment, rfl, _⟩ := readPort_frame hread
  exact ⟨⟨rfl, hstored, hpath⟩, rfl, rfl, rfl⟩

theorem readHost_needs
    (h : readHost hostname2ip (u.host.text ++ (u.portText ++ u.pathText)) url = some (0, url'))
    (hquery : url.query = none) (hstored : StoredHost u url') :
    u.host.text.length < 2147483647 ∧ (∀ port, u.port = some port → port.1.length < 2147483647) ∧
      ∀ path, u.path = some path → path.Readable := by
  rw [readHost_text u.host (starts_rest u)] at h
  obtain ⟨text, hcopy, hread⟩ := Option.bind_eq_some_iff.1 h
  have htext : text = u.host.text := by
    obtain ⟨port, ip, uri, path, fragment, rfl, _⟩ := readPort_frame hread
    exact Option.some.inj hstored.host
  rw [htext] at hcopy
  refine ⟨(copyText_eq_some_iff _ _).1 hcopy, ?_⟩
  rw [Url.portText, Url.pathText, readPort_behind] at hread
  cases hp : u.port with
  | none =>
    rw [hp] at hread
    dsimp only at hread
    refine ⟨fun port hsome => ?_, readIp_needs hread hquery hstored.path⟩
    cases hsome
  | some port =>
    rw [hp] at hread
    obtain ⟨ptext, hpcopy, hip⟩ := Option.bind_eq_some_iff.1 hread
    have hptext : ptext = port.1 := by
      have hport := hstored.port
      obtain ⟨ip, uri, path, fragment, rfl, _⟩ := readIp_frame hip
      rw [hp] at hport
      exact Option.some.inj hport
    rw [hptext] at hpcopy
    refine ⟨fun port' hsome => ?_, readIp_needs hip hquery hstored.path⟩
    cases hsome
    exact (copyText_eq_some_iff _ _).1 hpcopy

/-- Behind an `@` of a host, a text that starts as the host does ends where the host ends. -/
theorem hostEnd_behind_at {host : Host} {a b t : Str} (hsplit : host.text = a ++ AT :: b)
    (ht : Starts hostStop t) (hhead : (b ++ t).head? = host.text.head?) :
    hostEnd (b ++ t) = t := by
  cases host with
  | plain name h =>
    refine hostEnd_plain (fun c hc => ?_) ht ?_
    · apply not_hostStop c
      have hmem : c ∈ a ++ AT :: b := List.mem_append_right a (List.mem_cons_of_mem _ hc)
      rwa [← hsplit] at hmem
    · rw [hhead]
      exact h
  | bracketed address =>
    rw [Host.text, List.head?_cons] at hhead
    rw [Host.text, ← List.cons_append] at hsplit
    rcases List.eq_nil_or_concat b with rfl | ⟨c, d, rfl⟩
    · have hlast := congrArg List.getLast? hsplit
      rw [List.getLast?_concat, List.getLast?_concat] at hlast
      exact absurd (Option.some.inj hlast) (by decide)
    · rw [List.concat_eq_append, ← List.cons_append, ← List.append_assoc] at hsplit
      rw [List.concat_eq_append] at hhead ⊢
      obtain ⟨haddress, hd⟩ := List.append_inj' hsplit rfl
      cases hd
      cases c with
      | nil => exact absurd (Option.some.inj hhead) (by decide)
      | cons e c =>
        cases Option.some.inj hhead
        rw [List.append_assoc, List.cons_append]
        apply hostEnd_bracketed
        have hmem : RBRACKET ∉ LBRACKET :: address.1 := by
          rw [List.mem_cons, not_or]
          exact ⟨by decide, address.2 RBRACKET (List.mem_singleton_self _)⟩
        intro hc
        apply hmem
        rw [haddress]
        exact List.mem_append_right a (List.mem_cons_of_mem _ (List.mem_cons_of_mem _ hc))

theorem head?_of_isPrefix {a b : Str} (h : a <+: b) (hne : a ≠ []) : b.head? = a.head? := by
  obtain ⟨t, rfl⟩ := h
  exact List.head?_append_of_ne_nil _ hne

theorem at_not_starts {r t : Str} (ht : Starts hostStop t) : AT :: r ≠ t := by
  rintro rfl
  rcases ht with h | ⟨c, s, h, hc⟩
  · cases h
  · cases h
    exact absurd hc (by decide)

/-- An `@` without a slash in front of it is in front of the path. -/
theorem at_front {b r t : Str} (h : t ++ u.pathText = b ++ AT :: r) (hno : SLASH ∉ b) :
    ∃ c, t = b ++ AT :: c ∧ r = c ++ u.pathText := by
  have hpath : Starts hostStop u.pathText := starts_behind hostStop (by decide) _
  rcases List.append_eq_append_iff.1 h with ⟨c, rfl, hc⟩ | ⟨c, hc, hr⟩
  · exfalso
    cases c with
    | nil => exact at_not_starts hpath hc.symm
    | cons d c =>
      apply hno
      rw [Url.pathText] at hc
      cases hp : u.path with
      | none =>
        rw [hp] at hc
        cases hc
      | some p =>
        rw [hp, Option.map_some, behind] at hc
        rw [(List.cons.inj hc).1]
        exact List.mem_append_right _ List.mem_cons_self
  · cases c with
    | nil => exact absurd hr (at_not_starts hpath)
    | cons d c =>
      obtain ⟨rfl, rfl⟩ := List.cons.inj hr
      exact ⟨c, hc, rfl⟩

theorem portText_of_at {b c : Str} (h : u.portText = b ++ AT :: c) :
    ∃ port, u.port = some port ∧ port.1 ≠ defaultPort ∧ port.1.length = b.length + c.length := by
  rw [Url.portText] at h
  cases hp : u.port with
  | none =>
    rw [hp] at h
    exact absurd h.symm (List.append_ne_nil_of_right_ne_nil b (List.cons_ne_nil _ _))
  | some port =>
    rw [hp, Option.map_some, behind] at h
    refine ⟨port, rfl, ?_, ?_⟩
    · intro hdefault
      rw [hdefault] at h
      have hmem : AT ∈ COLON :: defaultPort := by
        rw [h]
        exact List.mem_append_right b List.mem_cons_self
      exact absurd hmem (by decide)
    · have hlen := congrArg List.length h
      rw [List.length_cons, List.length_append, List.length_cons, ← Nat.add_assoc] at hlen
      exact Nat.succ.inj hlen

/-- Where the text behind an `@` gives the host of the URL, the `@` is behind a slash. -/
theorem slash_of_stored {a r : Str}
    (hsplit : u.host.text ++ (u.portText ++ u.pathText) = a ++ AT :: r)
    (h : readHost hostname2ip r url = some (0, url')) (hstored : StoredHost u url')
    (hpathNone : url.path = none) (hqueryNone : url.query = none)
    (hfragmentNone : url.fragment = none) : SLASH ∈ a := by
  obtain ⟨host, port, ip, uri, path, fragment, rfl, ⟨x, hx, hhost⟩, hcost⟩ := readHost_frame h
  cases Option.some.inj hstored.host
  by_contra hno
  have hle := hstored.path.length_le hqueryNone
  rcases List.append_eq_append_iff.1 hsplit with ⟨b, rfl, hb⟩ | ⟨b, hb, hr⟩
  · obtain ⟨c, hport, rfl⟩ := at_front hb fun hmem => hno (List.mem_append_right _ hmem)
    obtain ⟨text, htext, hne, hlen⟩ := portText_of_at hport
    have hstore := Option.some.inj hstored.port
    rw [htext, Option.map_some, Option.getD_some] at hstore
    have hlong := (hcost hpathNone hfragmentNone).resolve_left (hstore.trans_ne hne)
    have hport := congrArg List.length hstore
    rw [List.length_append, Url.pathText] at hlong
    omega
  · cases b with
    | nil => exact absurd hr (at_not_starts (starts_rest u))
    | cons d b =>
      obtain ⟨rfl, htail⟩ := List.cons.inj hr
      have hr : r = b ++ (u.portText ++ u.pathText) := htail
      subst hr
      have hne : u.host.text ≠ [] := by
        rw [hb]
        exact List.append_ne_nil_of_right_ne_nil a (List.cons_ne_nil _ _)
      have hpre : u.host.text <+: b ++ (u.portText ++ u.pathText) := by
        rw [hx]
        exact hhost.trans (List.prefix_append x _)
      have hend := hostEnd_behind_at hb (starts_rest u) (head?_of_isPrefix hpre hne)
      rw [hend] at hx
      have hlen := hhost.length_le
      rw [← List.append_cancel_right hx, hb, List.length_append, List.length_cons] at hlen
      omega

theorem userpassFlag_of {a b : Str} (hno : SLASH ∉ a) : userpassFlag (a ++ AT :: b) = true := by
  by_cases hat : AT ∈ a
  · obtain ⟨c, d, rfl, hc⟩ := List.eq_append_cons_of_mem hat
    rw [List.append_assoc]
    exact (userpassFlag_iff _).2 ⟨c, _, rfl, hc, fun h => hno (List.mem_append_left _ h)⟩
  · exact (userpassFlag_iff _).2 ⟨a, b, rfl, hat, hno⟩

end hosts

def StoredUser (user : Option User) (url : HttpUrl) : Prop :=
  ∀ u, user = some u → url.username = some u.name.1 ∧
    ∀ password, u.password = some password → url.password = some password.1

section users
variable {hostname2ip : Str → Option Str} {url url' : HttpUrl} {u : Url}

/-- What the parser reads behind the scheme and its slashes. -/
def Url.rest (u : Url) : Str := u.userText ++ (u.host.text ++ (u.portText ++ u.pathText))

theorem rest_of_noUser (h : u.user = none) :
    u.rest = u.host.text ++ (u.portText ++ u.pathText) := by
  rw [Url.rest, Url.userText, h]
  rfl

theorem rest_of_user {user : User} (h : u.user = some user) :
    u.rest = user.text ++ AT :: (u.host.text ++ (u.portText ++ u.pathText)) := by
  rw [Url.rest, Url.userText, h]
  exact List.append_assoc _ _ _

theorem readUser_stores (hostname2ip : Str → Option Str) (h : u.RestReadable) (url : HttpUrl) :
    ∃ url', readUser hostname2ip u.rest url = some (0, url') ∧ StoredHost u url' ∧
      url'.scheme = url.scheme ∧ StoredUser u.user url' := by
  cases huser : u.user with
  | none =>
    have hflag : userpassFlag u.rest = false := by
      rw [← Bool.not_eq_true, userpassFlag_iff, rest_of_noUser huser]
      rintro ⟨a, r, hsplit, _, hno⟩
      rw [← List.append_assoc] at hsplit
      obtain ⟨c, hc, _⟩ := at_front hsplit hno
      exact hno (h.noUser huser a c hc)
    rw [readUser, hflag, rest_of_noUser huser]
    obtain ⟨url', hread, hstored, hscheme, _⟩ := readHost_stores hostname2ip h url
    refine ⟨url', hread, hstored, hscheme, fun user hsome => ?_⟩
    cases hsome
  | some user =>
    obtain ⟨hslash, hname, hpassword⟩ := h.user user huser
    obtain ⟨t, ht⟩ := user.text_name
    have hnameCopy : copyText (user.text ++ AT :: (u.host.text ++ (u.portText ++ u.pathText)))
        user.name.1.length = some user.name.1 := by
      rw [ht, List.append_assoc]
      exact copyText_append hname _
    rw [rest_of_user huser, readUser_text user hslash, hnameCopy, Option.bind_some]
    cases hp : user.password with
    | none =>
      obtain ⟨url', hread, hstored, hscheme, hstore, _⟩ := readHost_stores
        hostname2ip h { url with username := some user.name.1 }
      refine ⟨url', hread, hstored, hscheme, fun user' hsome => ?_⟩
      cases hsome
      refine ⟨hstore, fun password hpsome => ?_⟩
      rw [hp] at hpsome
      cases hpsome
    | some password =>
      dsimp only
      rw [copyText_append (hpassword password hp), Option.bind_some]
      obtain ⟨url', hread, hstored, hscheme, hstore, hpstore⟩ := readHost_stores
        hostname2ip h
        { url with username := some user.name.1, password := some password.1 }
      refine ⟨url', hread, hstored, hscheme, fun user' hsome => ?_⟩
      cases hsome
      refine ⟨hstore, fun password' hpsome => ?_⟩
      rw [hp] at hpsome
      cases hpsome
      exact hpstore

/-- Nothing but the scheme is stored yet. -/
structure HttpUrl.Blank (url : HttpUrl) : Prop where
  username : url.username = none
  path : url.path = none
  query : url.query = none
  fragment : url.fragment = none

theorem not_storedHost_of_flag (hurl : url.Blank)
    (hflag : userpassFlag (u.host.text ++ (u.portText ++ u.pathText)) = true)
    (h : readUser hostname2ip (u.host.text ++ (u.portText ++ u.pathText)) url = some (0, url')) :
    ¬StoredHost u url' := by
  intro hstored
  obtain ⟨a, r, hsplit, hat, hno⟩ := (userpassFlag_iff _).1 hflag
  obtain ⟨user, rfl⟩ := exists_user hat
  rw [hsplit, readUser_text user hno] at h
  obtain ⟨name, _, hread⟩ := Option.bind_eq_some_iff.1 h
  apply hno
  cases hp : user.password with
  | none =>
    rw [hp] at hread
    exact slash_of_stored hsplit hread hstored hurl.path hurl.query hurl.fragment
  | some password =>
    rw [hp] at hread
    obtain ⟨text, _, hhost⟩ := Option.bind_eq_some_iff.1 hread
    exact slash_of_stored hsplit hhost hstored hurl.path hurl.query hurl.fragment

theorem readHost_keeps {s : Str} (h : readHost hostname2ip s url = some (ret, url')) :
    url'.scheme = url.scheme ∧ url'.username = url.username ∧ url'.password = url.password := by
  obtain ⟨host, port, ip, uri, path, fragment, rfl, _⟩ := readHost_frame h
  exact ⟨rfl, rfl, rfl⟩

theorem readUser_noUser (hurl : url.Blank) (hu : u.user = none)
    (h : readUser hostname2ip u.rest url = some (0, url')) (hstored : StoredHost u url') :
    url'.scheme = url.scheme ∧ u.RestReadable := by
  rw [rest_of_noUser hu] at h
  have hflag : userpassFlag (u.host.text ++ (u.portText ++ u.pathText)) = false := by
    rw [← Bool.not_eq_true]
    exact fun hflag => not_storedHost_of_flag hurl hflag h hstored
  rw [readUser, hflag] at h
  obtain ⟨hhost, hport, hpath⟩ := readHost_needs h hurl.query hstored
  refine ⟨(readHost_keeps h).1, ⟨fun user hsome => ?_, fun _ a b hsplit => ?_, hhost, hport, hpath⟩⟩
  · rw [hu] at hsome
    cases hsome
  · by_contra hno
    rw [← List.append_assoc, hsplit, List.append_assoc, List.cons_append,
      userpassFlag_of hno] at hflag
    cases hflag

theorem readUser_user {user : User} (hurl : url.Blank) (hu : u.user = some user)
    (h : readUser hostname2ip u.rest url = some (0, url')) (hstored : StoredHost u url')
    (huser : StoredUser u.user url') : url'.scheme = url.scheme ∧ u.RestReadable := by
  obtain ⟨hname, hpassword⟩ := huser user hu
  rw [rest_of_user hu] at h
  have hslash : SLASH ∉ user.text := by
    intro hmem
    rw [readUser, userpassFlag_slash user.at_not_mem hmem] at h
    have hnone := (readHost_keeps h).2.1
    rw [hname, hurl.username] at hnone
    cases hnone
  rw [readUser_text user hslash] at h
  obtain ⟨name, hcopy, hread⟩ := Option.bind_eq_some_iff.1 h
  obtain ⟨t, ht⟩ := user.text_name
  rw [ht, List.append_assoc] at hcopy
  cases hp : user.password with
  | none =>
    rw [hp] at hread
    obtain ⟨hscheme, hstore, _⟩ := readHost_keeps hread
    obtain ⟨hhost, hport, hpath⟩ := readHost_needs hread hurl.query hstored
    cases Option.some.inj (hname.symm.trans hstore)
    have hnameLength := (copyText_eq_some_iff _ _).1 hcopy
    refine ⟨hscheme, ⟨fun user' hsome => ?_, fun hnone => ?_, hhost, hport, hpath⟩⟩
    · rw [hu] at hsome
      cases hsome
      refine ⟨hslash, hnameLength, fun password hpsome => ?_⟩
      rw [hp] at hpsome
      cases hpsome
    · rw [hu] at hnone
      cases hnone
  | some password =>
    rw [hp] at hread
    obtain ⟨text, hpcopy, hhostRead⟩ := Option.bind_eq_some_iff.1 hread
    obtain ⟨hscheme, hstore, hpstore⟩ := readHost_keeps hhostRead
    obtain ⟨hhost, hport, hpath⟩ := readHost_needs hhostRead hurl.query hstored
    cases Option.some.inj (hname.symm.trans hstore)
    have hnameLength := (copyText_eq_some_iff _ _).1 hcopy
    cases Option.some.inj ((hpassword password hp).symm.trans hpstore)
    refine ⟨hscheme, ⟨fun user' hsome => ?_, fun hnone => ?_, hhost, hport, hpath⟩⟩
    · rw [hu] at hsome
      cases hsome
      refine ⟨hslash, hnameLength, fun password' hpsome => ?_⟩
      rw [hp] at hpsome
      cases hpsome
      exact (copyText_eq_some_iff _ _).1 hpcopy
    · rw [hu] at hnone
      cases hnone

theorem readUser_needs (h : readUser hostname2ip u.rest url = some (0, url'))
    (hstored : StoredHost u url') (huser : StoredUser u.user url') (hurl : url.Blank) :
    url'.scheme = url.scheme ∧ u.RestReadable := by
  cases hu : u.user with
  | none => exact readUser_noUser hurl hu h hstored
  | some user => exact readUser_user hurl hu h hstored huser

theorem scheme_of_copyText {text : Str} (hcopy : copyText u.text u.scheme.1.length = some text)
    (hlower : lower text = lower u.scheme.1) : u.scheme.1.length < 2147483647 := by
  have hpre : text <+: u.scheme.1 := isPrefix_of_copyText hcopy
  have hlen := congrArg List.length hlower
  rw [lower, lower, List.length_map, List.length_map] at hlen
  rw [hpre.eq_of_length hlen] at hcopy
  exact (copyText_eq_some_iff _ _).1 hcopy

theorem take_scheme (h : u.scheme.1.length < 2147483647) :
    u.text.take (toInt u.scheme.1.length).toNat = u.scheme.1 := by
  have hlen : toInt u.scheme.1.length = (u.scheme.1.length : Int) :=
    toInt_of_lt (Nat.lt_succ_of_lt h)
  rw [hlen, Int.toNat_natCast, Url.text]
  exact List.take_left

/-- Nothing is stored yet. -/
def HttpUrl.empty : HttpUrl :=
  { uri := false, scheme := none, host := none, ip := none, port := none, path := none,
    query := none, fragment := none, username := none, password := none }

theorem readable_of_stores (h : Stores u) : u.Readable := by
  obtain ⟨url', hparse, hscheme, huser, hhost, hport, hpath⟩ := h (fun _ => none) HttpUrl.empty
  rw [httpParser_text] at hparse
  split at hparse
  case isTrue hall =>
    obtain ⟨text, hcopy, hread⟩ := Option.bind_eq_some_iff.1 hparse
    obtain ⟨hkeep, hrest⟩ := readUser_needs hread ⟨hhost, hport, hpath⟩ huser ⟨rfl, rfl, rfl, rfl⟩
    have hlen := scheme_of_copyText hcopy (Option.some.inj (hkeep.symm.trans hscheme))
    rw [take_scheme hlen, List.all_eq_true] at hall
    exact ⟨hrest, hall, hlen⟩
  case isFalse => cases hparse

end users

/-- A URL is stored exactly when it has no query, its scheme is of the characters the parser
takes, no slash is in its user and, without one, no `@` in its host and port, and its lengths are
no overflow. -/
theorem stores_iff (u : Url) : Stores u ↔ u.Readable := by
  constructor
  · exact readable_of_stores
  · intro h hostname2ip url
    have hall : (u.text.take (toInt u.scheme.1.length).toNat).all isSchemeChar = true := by
      rw [take_scheme h.schemeLength, List.all_eq_true]
      exact h.scheme
    rw [httpParser_text, if_pos hall]
    obtain ⟨url', hread, hhost, hscheme, huser⟩ := readUser_stores hostname2ip h.toRestReadable
      { url with scheme := some (lower u.scheme.1) }
    refine ⟨url', ?_, hscheme, huser, hhost.host, hhost.port, hhost.path⟩
    rw [Url.text, copyText_append h.schemeLength]
    exact hread

/-- `http://h/p?q`: the query stays in the path. -/
theorem not_stores : ¬∀ u, Stores u := by
  intro h
  have hread := readable_of_stores (h
    { scheme := ⟨[104, 116, 116, 112], List.forall_mem_singleton.2 (by decide)⟩
      user := none
      host := .plain ⟨[104], List.forall_mem_cons.2
        ⟨by decide, List.forall_mem_singleton.2 (by decide)⟩⟩ (by decide)
      port := none
      path := some ⟨⟨[112], List.forall_mem_cons.2
        ⟨by decide, List.forall_mem_singleton.2 (by decide)⟩⟩,
        some ⟨[113], List.forall_mem_singleton.2 (by decide)⟩, none⟩ })
  cases (hread.path _ rfl).noQuery

end BigBox.Lapi.Http
