import BigBox.Lib.CString
import BigBox.Lib.Fields
import Mathlib.Data.List.GetD

namespace BigBox.Estrtok
open Fields
set_option autoImplicit true

/-- The place of the first of some characters. -/
def strpbrk (s delims : List UInt8) : Option Nat := s.findIdx? (· ∈ delims)

/-- The memory of the string and the two variables of the caller. -/
structure State where
  buf : List UInt8
  savePtr : Option Nat
  delimFound : UInt8

def estrtokR (str : Option Nat) (delims : List UInt8) (t : State) :
    Option (State × Option Nat) :=
  match str.or t.savePtr with
  | none => some (t, none)
  | some start =>
    match stringAt t.buf start with
    | none => none
    | some text =>
      if text = [] then
        if t.delimFound ≠ 0 then some ({ t with delimFound := 0, savePtr := none }, some start)
        else some (t, none)
      else
        match strpbrk text delims with
        | none => some ({ t with delimFound := 0, savePtr := none }, some start)
        | some n =>
          some (⟨t.buf.set (start + n) 0, some (start + n + 1), t.buf.getD (start + n) 0⟩,
            some start)

/-- A token with its text and the delimiter when it is returned. -/
structure Token where
  start : Nat
  text : List UInt8
  delim : UInt8

/-- The tokens up to the first call that returns `NULL`, in at most so many calls. Only the first
call gets the string. -/
def tokens (delims : List UInt8) : Nat → Option Nat → State → Option (List Token × State)
  | 0, _, _ => none
  | fuel + 1, str, t =>
    (estrtokR str delims t).bind fun (t, tok) =>
      match tok with
      | none => some ([], t)
      | some start =>
        (stringAt t.buf start).bind fun text =>
          (tokens delims fuel none t).map fun (toks, t') =>
            (⟨start, text, t.delimFound⟩ :: toks, t')

/-- The field of a string that a token stands for. -/
def Token.field (k : Token) : List UInt8 × Option UInt8 :=
  (k.text, if k.delim = 0 then none else some k.delim)

section estrtokR
variable {before rest after delims a s : List UInt8} {str save : Option Nat} {d : UInt8}

/-- A string without a delimiter is the last token. -/
theorem estrtokR_last (hstart : str.or save = some before.length) (hzero : 0 ∉ rest)
    (hmore : rest ≠ [] ∨ d ≠ 0) (hnone : ∀ c ∈ rest, decide (c ∈ delims) = false)
    (after : List UInt8) :
    estrtokR str delims ⟨before ++ (rest ++ 0 :: after), save, d⟩ =
      some (⟨before ++ (rest ++ 0 :: after), none, 0⟩, some before.length) := by
  have hbrk : strpbrk rest delims = none := List.findIdx?_eq_none_iff.2 hnone
  unfold estrtokR
  rw [hstart]
  dsimp only
  rw [stringAt_middle _ _ hzero]
  dsimp only
  by_cases hnil : rest = []
  · rw [if_pos hnil, if_pos (hmore.resolve_left (not_not_intro hnil))]
  · rw [if_neg hnil, hbrk]

/-- The first delimiter is replaced by a zero. -/
theorem estrtokR_cut (hstart : str.or save = some before.length)
    (hzero : 0 ∉ a ++ c :: s) (hnone : ∀ c ∈ a, decide (c ∈ delims) = false)
    (hc : decide (c ∈ delims) = true) (after : List UInt8) :
    estrtokR str delims ⟨before ++ (a ++ c :: s ++ 0 :: after), save, d⟩ =
      some (⟨(before ++ a ++ [0]) ++ (s ++ 0 :: after), some (before ++ a ++ [0]).length, c⟩,
        some before.length) := by
  have hbrk : strpbrk (a ++ c :: s) delims = some a.length := by
    rw [strpbrk, List.findIdx?_append, List.findIdx?_eq_none_iff.2 hnone, List.findIdx?_cons, hc]
    exact congrArg some (Nat.zero_add _)
  have hlen : before.length + a.length = (before ++ a).length := List.length_append.symm
  have hbuf : before ++ (a ++ c :: s ++ 0 :: after) = (before ++ a) ++ c :: (s ++ 0 :: after) := by
    simp only [List.append_assoc, List.cons_append]
  have hne : a ++ c :: s ≠ [] := List.append_ne_nil_of_right_ne_nil _ (List.cons_ne_nil _ _)
  unfold estrtokR
  rw [hstart]
  dsimp only
  rw [stringAt_middle _ _ hzero]
  dsimp only
  rw [if_neg hne, hbrk]
  dsimp only
  rw [hlen, hbuf, List.getD_append_right _ _ _ _ (Nat.le_refl _), Nat.sub_self,
    List.set_append_right _ _ (Nat.le_refl _), Nat.sub_self, @List.length_append _ _ [0]]
  simp only [List.set_cons_zero, List.getD_cons_zero, List.append_assoc, List.cons_append,
    List.nil_append, List.length_singleton]

/-- The calls split what is left of the string and leave the memory in front of it. -/
theorem tokens_eq (hstart : str.or save = some before.length) (hzero : 0 ∉ rest)
    (hmore : rest ≠ [] ∨ d ≠ 0) (after : List UInt8)
    (hfuel : rest.countP (· ∈ delims) + 2 ≤ fuel) :
    ∃ toks cells,
      tokens delims fuel str ⟨before ++ (rest ++ 0 :: after), save, d⟩ =
        some (toks, ⟨before ++ cells, none, 0⟩) ∧
      toks.map Token.field = fields (· ∈ delims) rest ∧
      ∀ k ∈ toks, stringAt (before ++ cells) k.start = some k.text := by
  induction rest using fields_induction (p := (· ∈ delims)) generalizing before str save d fuel with
  | piece rest hnone =>
    rw [countP_piece hnone] at hfuel
    obtain ⟨fuel, rfl⟩ := Nat.exists_eq_add_of_le' hfuel
    refine ⟨[⟨before.length, rest, 0⟩], rest ++ 0 :: after, ?_, ?_, ?_⟩
    · rw [tokens, estrtokR_last hstart hzero hmore hnone, Option.bind_some]
      dsimp only
      rw [stringAt_middle _ _ hzero, Option.bind_some]
      rfl
    · rw [fields_piece hnone]
      rfl
    · intro k hk
      rw [List.mem_singleton.1 hk]
      exact stringAt_middle before after hzero
  | cut a c s hnone hc ih =>
    rw [countP_cut hnone hc] at hfuel
    obtain ⟨fuel, rfl⟩ := Nat.exists_eq_add_of_le' (Nat.le_trans (Nat.le_add_left 1 _) hfuel)
    have ha : (0 : UInt8) ∉ a := fun h => hzero (List.mem_append_left _ h)
    have hs : (0 : UInt8) ∉ c :: s := fun h => hzero (List.mem_append_right _ h)
    have hcne : c ≠ 0 := fun h => hs (h ▸ List.mem_cons_self)
    obtain ⟨toks, cells, hrun, hfields, hkeeps⟩ :=
      @ih (before ++ a ++ [0]) none (some (before ++ a ++ [0]).length) c fuel rfl
        (fun h => hs (List.mem_cons_of_mem _ h)) (.inr hcne) (Nat.le_of_succ_le_succ hfuel)
    have htext : ∀ t, stringAt ((before ++ a ++ [0]) ++ t) before.length = some a := by
      intro t
      rw [List.append_assoc, List.append_assoc]
      exact stringAt_middle before _ ha
    refine ⟨⟨before.length, a, c⟩ :: toks, a ++ 0 :: cells, ?_, ?_, ?_⟩
    · rw [tokens, estrtokR_cut hstart hzero hnone hc, Option.bind_some]
      dsimp only
      rw [htext, Option.bind_some, hrun, Option.map_some]
      simp only [List.append_assoc, List.singleton_append]
    · rw [List.map_cons, fields_cut hnone hc, hfields, Token.field, if_neg hcne]
    · have hcells : before ++ (a ++ 0 :: cells) = (before ++ a ++ [0]) ++ cells := by
        simp only [List.append_assoc, List.singleton_append]
      rw [hcells]
      intro k hk
      rcases List.mem_cons.1 hk with rfl | hk
      · exact htext cells
      · exact hkeeps k hk

/-- The tokens split the string at every delimiter, with one call more than there are tokens. -/
theorem tokens_split (hs : s ≠ []) (hzero : 0 ∉ s) (delims after : List UInt8) (save : Option Nat)
    (hfuel : s.countP (· ∈ delims) + 2 ≤ fuel) :
    ∃ toks t, tokens delims fuel (some 0) ⟨s ++ 0 :: after, save, 0⟩ = some (toks, t) ∧
      toks.length = s.countP (· ∈ delims) + 1 ∧
      (∀ k ∈ toks, stringAt t.buf k.start = some k.text ∧ ∀ c ∈ k.text, c ∉ delims) ∧
      toks.flatMap (fun k => k.text ++ if k.delim = 0 then [] else [k.delim]) = s := by
  obtain ⟨toks, cells, hrun, hfields, hkeeps⟩ :=
    @tokens_eq [] s delims (some 0) save 0 fuel rfl hzero (.inl hs) after hfuel
  refine ⟨toks, _, hrun, ?_, fun k hk => ⟨hkeeps k hk, fun c hc => ?_⟩, ?_⟩
  · rw [← length_fields, ← hfields, List.length_map]
  · have hmem : k.field ∈ fields (· ∈ delims) s := hfields ▸ List.mem_map_of_mem hk
    exact of_decide_eq_false (not_of_mem_fields hmem c hc)
  · have hfield : ∀ k ∈ toks, (k.text ++ if k.delim = 0 then [] else [k.delim]) =
        k.field.1 ++ k.field.2.toList := by
      intro k _
      unfold Token.field
      split
      · rfl
      · rfl
    rw [List.flatMap_congr hfield,
      ← List.flatMap_map (f := Token.field) (g := fun f => f.1 ++ f.2.toList), hfields,
      flatMap_fields]

/-- `,a` is split at its comma. -/
theorem tokens_split_comma :
    ∃ toks t, tokens [44] 3 (some 0) ⟨[44, 97] ++ 0 :: [], none, 0⟩ = some (toks, t) ∧
      toks.length = [44, 97].countP (· ∈ [(44 : UInt8)]) + 1 ∧
      (∀ k ∈ toks, stringAt t.buf k.start = some k.text ∧ ∀ c ∈ k.text, c ∉ [(44 : UInt8)]) ∧
      toks.flatMap (fun k => k.text ++ if k.delim = 0 then [] else [k.delim]) = [44, 97] :=
  tokens_split (by decide) (by decide) [44] [] none (by decide)

end estrtokR

end BigBox.Estrtok
