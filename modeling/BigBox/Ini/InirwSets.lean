import BigBox.Ini.InirwLookup
import BigBox.Lib.TryRun

namespace BigBox.Inirw
open Function
set_option autoImplicit true

/-- A call of `iniSetString` with a value. -/
structure Assignment where
  name : Option (List UInt8)
  key : List UInt8
  value : List UInt8

/-- The values the format can hold bare: no quotes, comment marks, line ends or blanks around. -/
def Assignment.Legal (a : Assignment) : Prop :=
  a.value ≠ [] ∧ strStrip a.value = a.value ∧
    ∀ c ∈ a.value, Plain c ∧ c ≠ QUOTE1 ∧ c ≠ QUOTE2 ∧ c ≠ SEMICOLON ∧ c ≠ HASH

/-- The assignment is to this section and key. -/
def Assignment.To (a : Assignment) (name : Option (List UInt8)) (key : List UInt8) : Prop :=
  SameSection a.name name ∧ SameName a.key key

instance (name name' : Option (List UInt8)) : Decidable (SameSection name name') :=
  match name, name' with
  | none, none => isTrue trivial
  | some s, some t => inferInstanceAs (Decidable (striCmp s t = 0))
  | none, some _ => isFalse id
  | some _, none => isFalse id

instance (a : Assignment) (name : Option (List UInt8)) (key : List UInt8) :
    Decidable (a.To name key) :=
  inferInstanceAs (Decidable (_ ∧ striCmp a.key key = 0))

/-- An object, as it was loaded and as it is, with the files and the sets that returned 1. -/
structure Session where
  loaded : Ini
  ini : Ini
  files : Files
  sets : List Assignment

def Session.step (s : Session) (a : Assignment) (opens : Bool) : Option Session :=
  (iniSetString s.ini a.name a.key (some a.value) opens s.files).map fun (ret, files) =>
    { s with files, sets := if ret = 1 then a :: s.sets else s.sets }

/-- What `iniGetString` has to return: the value last set, else what it returned at first. -/
def Session.expected (s : Session) (name : Option (List UInt8)) (key : List UInt8) (maxlen : Nat)
    (defvalue : Option (List UInt8)) : Option (Int × List UInt8) :=
  match s.sets.find? fun a => a.To name key with
  | some a => some (1, a.value)
  | none => iniGetString s.loaded name key maxlen defvalue

/-- The object and one freshly loaded from its file yield what is expected. -/
def Session.Kept (s : Session) : Prop :=
  ∀ name key maxlen defvalue, SIZE_LINE ≤ maxlen →
    iniGetString s.ini name key maxlen defvalue = s.expected name key maxlen defvalue ∧
    ∃ fresh, parserIniLoad s.ini.gFileName s.files = some fresh ∧
      iniGetString fresh name key maxlen defvalue = s.expected name key maxlen defvalue

/-- The object already yields the value, and the line written for it reads like the line it
replaces. -/
structure Session.Clean (s : Session) (a : Assignment) : Prop where
  yields : iniGetString s.ini a.name a.key SIZE_LINE none = some (1, a.value)
  alike : ∃ buf p line, s.ini.gBuffer = some buf ∧ Located buf a.name a.key p line ∧
    Alike (buf.drop p) (assignment a.key a.value ++ buf.drop (p + line.rem1).toNat) a.key a.value

/-- The sessions on an object from `parser_ini_load` whose sets are legal and meet `C`. -/
def Session.Possible (C : Session → Assignment → Prop) : Session → Prop :=
  Reachable
    (fun s => parserIniLoad s.ini.gFileName s.files = some s.ini ∧ s.loaded = s.ini ∧ s.sets = [])
    fun s s' => ∃ a opens, a.Legal ∧ C s a ∧ s.step a opens = some s'

/-- The object is as it was loaded, its file yields the same values, and so do the sets. -/
structure Session.Inv (s : Session) (buf : List UInt8) : Prop where
  same : s.ini = s.loaded
  buffer : s.ini.gBuffer = some buf
  name_lt : s.ini.gFileName.length < SIZE_FILENAME
  file : ∃ content, s.files s.ini.gFileName = some content ∧
    ∀ name key, lookup content name key = lookup buf name key
  sets : ∀ a ∈ s.sets, lookup buf a.name a.key = some (some a.value)

namespace Session
variable {s s' : Session}

theorem Inv.init (h : parserIniLoad s.ini.gFileName s.files = some s.ini)
    (hloaded : s.loaded = s.ini) (hsets : s.sets = []) : ∃ buf, s.Inv buf := by
  rw [parserIniLoad] at h
  split at h
  case isTrue => cases h
  case isFalse hlt =>
    obtain ⟨content, hfile, hini⟩ := Option.map_eq_some_iff.1 h
    refine ⟨content, hloaded.symm, ?_, Nat.not_le.1 hlt, ⟨content, hfile, fun _ _ => rfl⟩, ?_⟩
    · rw [← hini]
    · rw [hsets]
      nofun

theorem Inv.expected (h : s.Inv buf) (hmax : SIZE_LINE ≤ maxlen) :
    s.expected name key maxlen defvalue = (lookup buf name key).map (answer maxlen defvalue) := by
  rw [Session.expected]
  split
  case h_1 a ha =>
    have hto : a.To name key := by simpa using List.find?_some ha
    rw [← lookup_same hto.1 hto.2, h.sets a (List.mem_of_find?_eq_some ha)]
    rfl
  case h_2 => rw [← h.same, iniGetString_eq h.buffer hmax]

theorem Inv.kept (h : s.Inv buf) : s.Kept := by
  intro name key maxlen defvalue hmax
  obtain ⟨content, hfile, hsame⟩ := h.file
  refine ⟨(iniGetString_eq h.buffer hmax).trans (h.expected hmax).symm,
    ⟨s.ini.gFileName, some content⟩, ?_, ?_⟩
  · rw [parserIniLoad, if_neg (Nat.not_le.2 h.name_lt), hfile]
    rfl
  · rw [iniGetString_eq rfl hmax, h.expected hmax, hsame]

theorem Inv.step (h : s.Inv buf) (hlegal : a.Legal) (hclean : s.Clean a)
    (hs : s.step a opens = some s') : s'.Inv buf := by
  obtain ⟨hyields, buf', p, line, hbuf, ⟨found, hsection, hkey⟩, halike⟩ := hclean
  rw [h.buffer, Option.some.injEq] at hbuf
  subst hbuf
  have hlocated : Located buf a.name a.key p line := ⟨found, hsection, hkey⟩
  have hvalue : lookup buf a.name a.key = some (some a.value) := by
    rw [iniGetString_eq h.buffer (Nat.le_refl _)] at hyields
    obtain ⟨found', hfound, hanswer⟩ := Option.map_eq_some_iff.1 hyields
    cases found' with
    | none => cases hanswer
    | some value =>
      cases hanswer
      exact hfound
  obtain ⟨⟨ret, files⟩, hset, rfl⟩ := Option.map_eq_some_iff.1 hs
  rw [iniSetString, h.buffer] at hset
  dsimp only at hset
  rw [hsection, Option.bind_some] at hset
  dsimp only at hset
  rw [hkey, Option.bind_some] at hset
  dsimp only at hset
  split at hset
  case isTrue =>
    obtain ⟨rfl, rfl⟩ := Prod.mk.inj (Option.some.inj hset)
    exact ⟨h.same, h.buffer, h.name_lt, h.file, h.sets⟩
  case isFalse =>
    obtain ⟨rfl, rfl⟩ := Prod.mk.inj (Option.some.inj hset)
    refine ⟨h.same, h.buffer, h.name_lt, ⟨_, update_self .., ?_⟩, ?_⟩
    · exact lookup_splice hlocated.reaches halike hlegal.1
    · intro b hb
      rcases List.mem_cons.1 hb with rfl | hb
      · exact hvalue
      · exact h.sets b hb

/-- Over every run of clean sets the object and its file yield the values last set. -/
theorem possible_kept (h : Possible Clean s) : s.Kept := by
  have hinv : ∃ buf, s.Inv buf := by
    apply h.invariant
    · rintro s ⟨hload, hloaded, hsets⟩
      exact Inv.init hload hloaded hsets
    · rintro s s' ⟨buf, h⟩ ⟨a, opens, hlegal, hclean, hs⟩
      exact ⟨buf, h.step hlegal hclean hs⟩
  obtain ⟨buf, h⟩ := hinv
  exact h.kept

/-- A session on an object whose file holds `text`. -/
def ofText (text : List UInt8) : Session :=
  ⟨⟨[102], some text⟩, ⟨[102], some text⟩, fun _ => some text, []⟩

theorem ofText_possible (C : Session → Assignment → Prop) (text : List UInt8) :
    Possible C (ofText text) := .init ⟨rfl, rfl, rfl⟩

/-- The assignment of one character to the key `k` in the section `s`. -/
def setK (c : UInt8) : Assignment := ⟨some [115], [107], [c]⟩

theorem setK_clean : (ofText [91, 115, 93, 10, 107, 61, 97, 10]).Clean (setK 97) where
  yields := by rfl
  alike := ⟨_, _, _, rfl, ⟨_, rfl, rfl⟩, _, _, rfl, rfl, rfl, rfl, rfl, rfl, rfl, rfl, rfl⟩

theorem setK_legal (h : Plain c ∧ c ≠ QUOTE1 ∧ c ≠ QUOTE2 ∧ c ≠ SEMICOLON ∧ c ≠ HASH)
    (hstrip : strStrip [c] = [c]) : (setK c).Legal := by
  refine ⟨List.cons_ne_nil c [], hstrip, ?_⟩
  intro d hd
  rcases List.mem_singleton.1 hd with rfl
  exact h

/-- Setting the value that is there rewrites its line. -/
theorem possible_kept_once : ∃ s, Possible Clean s ∧
    s.files [102] = some [91, 115, 93, 10, 107, 32, 61, 32, 97, 10] ∧ s.Kept := by
  have hset := (ofText_possible Clean _).step
    ⟨setK 97, true, setK_legal (by decide) (by decide), setK_clean, rfl⟩
  exact ⟨_, hset, rfl, possible_kept hset⟩

/-- A value that is set is not the one the object yields afterwards. -/
theorem kept_fails_set : ¬∀ s, Possible (fun _ _ => True) s → s.Kept := by
  intro hall
  have hset := (ofText_possible (fun _ _ => True) [91, 115, 93, 10, 107, 61, 97, 10]).step
    ⟨setK 98, true, setK_legal (by decide) (by decide), trivial, rfl⟩
  have hget := (hall _ hset (some [115]) [107] SIZE_LINE none (Nat.le_refl _)).1
  exact absurd hget (by decide)

end Session

end BigBox.Inirw
