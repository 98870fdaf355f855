import BigBox.StrOpt.StrParse

namespace BigBox.StrOpt
open Loop
set_option autoImplicit true

/-- The loops over slashes. -/
def skipSlashes (path : List UInt8) (an_dir : Int) : Option Int :=
  skipSep path 47 (toInt path.length - an_dir).toNat an_dir

/-- An element that is returned, decoded where that is asked for. -/
def element (decode : Bool) (fuel : Nat) (el : List UInt8) : Option (List UInt8) :=
  if decode then strDecode (fun _ => none) fuel el .PathEl [] else some el

/-- A round of the loop of `pathLev`. -/
def pathLevRound (fuel : Nat) (path : List UInt8) (level : Int) (decode : Bool) :
    Int × Int → Option (Round (Int × Int) (List UInt8 × Int))
  | (an_dir, t_lev) =>
    match findSep path [47] (sizeOfInt an_dir) with
    | none => do
      let el ← if t_lev = level then
          (substrFrom path (sizeOfInt an_dir)).bind (element decode fuel) else some []
      return .done (el, toInt path.length)
    | some (t_dir, _) =>
      if t_lev = level then do
        let rest ← substrFrom path (sizeOfInt an_dir)
        let el ← element decode fuel (rest.take (t_dir - sizeOfInt an_dir))
        return .done (el, toInt t_dir)
      else do
        let t_lev ← checkedInt (t_lev + 1)
        let an_dir ← skipSlashes path (toInt t_dir)
        return .next (an_dir, t_lev)

/-- `StrOpt::pathLev`. -/
def pathLev (fuel : Nat) (path : List UInt8) (level : Int) (decode : Bool) (off : Option Int) :
    Option (List UInt8 × Option Int) := do
  let an_dir ← skipSlashes path (off.getD 0)
  if toInt path.length ≤ an_dir then return ([], off)
  else
    let (el, behind) ← iterate (pathLevRound fuel path level decode) fuel (an_dir, 0)
    return (el, off.map fun _ => behind)

def path2sepstrRound (fuel : Nat) (path : List UInt8) (sep : UInt8) :
    Option Int × List UInt8 → Option (Round (Option Int × List UInt8) (List UInt8))
  | (off, rez) => do
    let (curv, off) ← pathLev fuel path 0 false off
    if curv = [] then return .done rez.dropLast
    else return .next (off, rez ++ (curv ++ [sep]))

/-- `StrOpt::path2sepstr`, up to so many rounds of each loop. -/
def path2sepstr (fuel : Nat) (path : List UInt8) (sep : UInt8) : Option (List UInt8) :=
  iterate (path2sepstrRound fuel path sep) fuel (some 0, [])

def sepstr2pathRound (fuel : Nat) (str : List UInt8) (sep : UInt8) :
    Option Int × List UInt8 → Option (Round (Option Int × List UInt8) (List UInt8))
  | (off, rez) => do
    let (curv, off) ← strSepParse fuel str 0 sep off
    if curv = [] then return .done rez
    else return .next (off, rez ++ 47 :: curv)

/-- `StrOpt::sepstr2path`, up to so many rounds of each loop. -/
def sepstr2path (fuel : Nat) (str : List UInt8) (sep : UInt8) : Option (List UInt8) :=
  iterate (sepstr2pathRound fuel str sep) fuel (some 0, [])

/-- A path made of elements, with any number of slashes between them and at the ends. -/
def Made : List (List UInt8) → List UInt8 → Prop
  | [], path => ∃ n, path = List.replicate n 47
  | e :: els, path => ∃ n rest, path = List.replicate n 47 ++ (e ++ rest) ∧ Made els rest ∧
      (els ≠ [] → ∃ r, rest = 47 :: r)

/-- The path with one slash in front of each element. -/
def normalised (els : List (List UInt8)) : List UInt8 := els.flatMap fun e => 47 :: e

/-- Non-empty elements without a slash and a separator. -/
def Elements (els : List (List UInt8)) (sep : UInt8) : Prop :=
  ∀ e ∈ els, e ≠ [] ∧ 47 ∉ e ∧ sep ∉ e

/-- A path is converted to the join of its elements, the join to the normalised path, and that
back to the join. -/
def Converts (els : List (List UInt8)) (sep : UInt8) (path : List UInt8) : Prop :=
  (∃ fuel, path2sepstr fuel path sep = some ([sep].intercalate els)) ∧
    (∃ fuel, sepstr2path fuel ([sep].intercalate els) sep = some (normalised els)) ∧
    ∃ fuel, path2sepstr fuel (normalised els) sep = some ([sep].intercalate els)

section Find
variable {path e rest : List UInt8} {c : UInt8} {pos : Nat}

/-- The search for a separator finds the end of the first element. -/
theorem findSep_element (hdrop : path.drop pos = e ++ rest) (he : c ∉ e)
    (hrest : rest = [] ∨ ∃ r, rest = c :: r) :
    findSep path [c] pos = if rest = [] then none else some (pos + e.length, 1) := by
  rcases findSep_char path c pos with ⟨hfound, hnone⟩ | ⟨a, r, hsplit, ha, hfound, -⟩
  · rcases hrest with rfl | ⟨r, rfl⟩
    · rw [hfound, if_pos rfl]
    · rw [hdrop] at hnone
      exact absurd (List.mem_append_right e List.mem_cons_self) hnone
  · rcases hrest with rfl | ⟨r', rfl⟩
    · rw [List.append_nil] at hdrop
      rw [← hdrop, hsplit] at he
      exact absurd (List.mem_append_right a List.mem_cons_self) he
    · rw [hfound, if_neg (List.cons_ne_nil _ _)]
      have hsame := congrArg (List.takeWhile (· ≠ c)) (hsplit.symm.trans hdrop)
      rw [takeWhile_at ha, takeWhile_at he] at hsame
      rw [hsame]

theorem dropWhile_slashes (n : Nat) (he : e ≠ []) (hslash : 47 ∉ e) (rest : List UInt8) :
    (List.replicate n 47 ++ (e ++ rest)).dropWhile (· = (47 : UInt8)) = e ++ rest := by
  obtain ⟨x, t, rfl⟩ := List.exists_cons_of_ne_nil he
  rw [List.dropWhile_append_of_pos]
  · apply List.dropWhile_cons_of_neg
    rw [decide_eq_true_iff]
    rintro rfl
    exact hslash List.mem_cons_self
  · exact fun x hx => decide_eq_true (List.eq_of_mem_replicate hx)

theorem length_of_drop {l : List UInt8} (h : path.drop pos = l) (hpos : pos ≤ path.length) :
    path.length = pos + l.length := by
  rw [← h, List.length_drop]
  omega

theorem drop_behind {n : Nat} (hdrop : path.drop pos = List.replicate n 47 ++ (e ++ rest)) :
    path.drop (pos + n) = e ++ rest ∧ path.drop (pos + n + e.length) = rest := by
  constructor
  · rw [← List.drop_drop, hdrop]
    exact List.drop_left' List.length_replicate
  · rw [← List.drop_drop, ← List.drop_drop, hdrop, List.drop_left' List.length_replicate,
      List.drop_left]

end Find

section PathLev
variable {path e rest : List UInt8} {sep : UInt8} {pos : Nat} {els : List (List UInt8)}

theorem skipSlashes_eq (hlen : path.length < 2147483648) (hpos : pos ≤ path.length) :
    skipSlashes path pos =
      some ((path.length - ((path.drop pos).dropWhile (· = 47)).length : Nat) : Int) := by
  have hcount : ((path.length : Int) - pos).toNat = path.length - pos := by
    omega
  rw [skipSlashes, toInt_of_lt hlen, hcount, skipSep_eq hlen hpos]

/-- The next element, and the place behind it. -/
theorem pathLev_element {n : Nat} (hlen : path.length < 2147483648) (hpos : pos ≤ path.length)
    (hdrop : path.drop pos = List.replicate n 47 ++ (e ++ rest)) (he : e ≠ []) (hslash : 47 ∉ e)
    (hrest : rest = [] ∨ ∃ r, rest = 47 :: r) (fuel : Nat) :
    pathLev (fuel + 1) path 0 false (some pos) =
      some (e, some ((pos + n + e.length : Nat) : Int)) := by
  have hall := length_of_drop hdrop hpos
  rw [List.length_append, List.length_append, List.length_replicate] at hall
  have hel := List.length_pos_iff.2 he
  have hskip : skipSlashes path pos = some ((pos + n : Nat) : Int) := by
    rw [skipSlashes_eq hlen hpos, hdrop, dropWhile_slashes n he hslash, List.length_append]
    have hplace : path.length - (e.length + rest.length) = pos + n := by
      omega
    rw [hplace]
  have hint := toInt_of_lt hlen
  have hsize : sizeOfInt ((pos + n : Nat) : Int) = pos + n := sizeOfInt_natCast (by omega)
  obtain ⟨hstart, -⟩ := drop_behind hdrop
  have hsub : substrFrom path (pos + n) = some (e ++ rest) := by
    rw [substrFrom_of_le (by omega), hstart]
  have hround : pathLevRound (fuel + 1) path 0 false (((pos + n : Nat) : Int), 0) =
      some (.done (e, ((pos + n + e.length : Nat) : Int))) := by
    rw [pathLevRound, hsize, findSep_element hstart hslash hrest]
    rcases hrest with rfl | ⟨r, rfl⟩
    · rw [List.length_nil] at hall
      have hend : path.length = pos + n + e.length := by
        omega
      rw [if_pos rfl, hsub, hint, hend, List.append_nil]
      rfl
    · rw [if_neg (List.cons_ne_nil _ _), hsub]
      dsimp only
      rw [if_pos rfl, Nat.add_sub_cancel_left, toInt_of_lt (by omega), Option.bind_eq_bind,
        Option.bind_some, List.take_left]
      rfl
  have hnot : ¬toInt path.length ≤ ((pos + n : Nat) : Int) := by
    rw [hint]
    omega
  rw [pathLev, Option.getD_some, hskip, Option.bind_eq_bind, Option.bind_some, if_neg hnot,
    iterate_done hround]
  rfl

/-- Where only slashes are left there is no element. -/
theorem pathLev_slashes {n : Nat} (hlen : path.length < 2147483648) (hpos : pos ≤ path.length)
    (hdrop : path.drop pos = List.replicate n 47) (fuel : Nat) :
    pathLev fuel path 0 false (some pos) = some ([], some (pos : Int)) := by
  have hnone : (path.drop pos).dropWhile (· = (47 : UInt8)) = [] := by
    rw [hdrop, List.dropWhile_eq_nil_iff]
    exact fun x hx => decide_eq_true (List.eq_of_mem_replicate hx)
  rw [pathLev, Option.getD_some, skipSlashes_eq hlen hpos, hnone, List.length_nil, Nat.sub_zero,
    toInt_of_lt hlen, Option.bind_eq_bind, Option.bind_some, if_pos (Int.le_refl _)]
  rfl

/-- A path of which an `int` sees nothing has no elements. -/
theorem pathLev_of_toInt (h : toInt path.length ≤ 0) (fuel : Nat) :
    pathLev fuel path 0 false (some 0) = some ([], some 0) := by
  have hskip : skipSlashes path 0 = some 0 := by
    have hcount : (toInt path.length - 0).toNat = 0 := by
      omega
    rw [skipSlashes, hcount, skipSep]
  rw [pathLev, Option.getD_some, hskip, Option.bind_eq_bind, Option.bind_some, if_pos h]
  rfl

end PathLev

section Join
variable {path str e rest : List UInt8} {sep : UInt8} {pos : Nat} {els : List (List UInt8)}

theorem Made.behind (h : Made els rest) (hnext : els ≠ [] → ∃ r, rest = 47 :: r) :
    rest = [] ∨ ∃ r, rest = 47 :: r := by
  by_cases hels : els = []
  · subst hels
    obtain ⟨n, rfl⟩ := h
    cases n with
    | zero => exact Or.inl rfl
    | succ n => exact Or.inr ⟨_, rfl⟩
  · exact Or.inr (hnext hels)

/-- The loop appends each element with a separator. -/
theorem path2sepstr_loop (hlen : path.length < 2147483648) (hpos : pos ≤ path.length)
    (hels : Elements els sep) (hmade : Made els (path.drop pos)) (fuel : Nat) (rez : List UInt8) :
    iterate (path2sepstrRound (fuel + 1) path sep) (els.length + 1) (some (pos : Int), rez) =
      some (rez ++ els.flatMap fun e => e ++ [sep]).dropLast := by
  induction els generalizing pos rez with
  | nil =>
    obtain ⟨n, hdrop⟩ := hmade
    apply iterate_done
    rw [path2sepstrRound, pathLev_slashes hlen hpos hdrop, Option.bind_eq_bind, Option.bind_some,
      List.flatMap_nil, List.append_nil]
    rfl
  | cons e els ih =>
    obtain ⟨n, rest, hdrop, hrest, hnext⟩ := hmade
    obtain ⟨⟨he, hslash, -⟩, hels⟩ := List.forall_mem_cons.1 hels
    obtain ⟨-, hbehind⟩ := drop_behind hdrop
    have hall := length_of_drop hdrop hpos
    rw [List.length_append, List.length_append, List.length_replicate] at hall
    have hround : path2sepstrRound (fuel + 1) path sep (some (pos : Int), rez) =
        some (.next (some ((pos + n + e.length : Nat) : Int), rez ++ (e ++ [sep]))) := by
      rw [path2sepstrRound, pathLev_element hlen hpos hdrop he hslash (hrest.behind hnext),
        Option.bind_eq_bind, Option.bind_some]
      exact if_neg he
    rw [List.length_cons, iterate_next hround, ih (by omega) hels (hbehind ▸ hrest),
      List.flatMap_cons, List.append_assoc rez]

/-- Without its last separator the text is the join. -/
theorem dropLast_flatMap (sep : UInt8) (els : List (List UInt8)) :
    (els.flatMap fun e => e ++ [sep]).dropLast = [sep].intercalate els := by
  induction els with
  | nil => rfl
  | cons e els ih =>
    cases els with
    | nil =>
      rw [List.flatMap_cons, List.flatMap_nil, List.append_nil, List.dropLast_concat,
        List.intercalate_singleton]
    | cons e' els =>
      have hne : ((e' :: els).flatMap fun e => e ++ [sep]) ≠ [] := by
        rw [List.flatMap_cons]
        exact List.append_ne_nil_of_left_ne_nil
          (List.append_ne_nil_of_right_ne_nil _ (List.cons_ne_nil _ _)) _
      rw [List.flatMap_cons, List.dropLast_append_of_ne_nil hne, ih, List.intercalate_cons_cons]

theorem path2sepstr_made (hlen : path.length < 2147483648) (hels : Elements els sep)
    (hmade : Made els path) :
    ∃ fuel, path2sepstr fuel path sep = some ([sep].intercalate els) := by
  have hrun := path2sepstr_loop hlen (Nat.zero_le _) hels hmade els.length []
  rw [List.nil_append, dropLast_flatMap] at hrun
  exact ⟨_, hrun⟩

theorem path2sepstr_of_toInt (h : toInt path.length ≤ 0) {fuel : Nat} {out : List UInt8}
    (hrun : path2sepstr fuel path sep = some out) : out = [] := by
  cases fuel with
  | zero => cases hrun
  | succ fuel =>
    have hround : path2sepstrRound (fuel + 1) path sep (some 0, []) = some (.done []) := by
      rw [path2sepstrRound, pathLev_of_toInt h]
      rfl
    rw [path2sepstr, iterate_done hround] at hrun
    exact (Option.some.inj hrun).symm

/-- The next field of the join, and the place behind its separator. -/
theorem strSepParse_element (hlen : str.length < 2147483648) (hpos : pos ≤ str.length)
    (hdrop : str.drop pos = e ++ rest) (he : e ≠ []) (hsep : sep ∉ e)
    (hrest : rest = [] ∨ ∃ r, rest = sep :: r) (fuel : Nat) :
    strSepParse (fuel + 1) str 0 sep (some pos) =
      some (e, some ((if rest = [] then str.length else pos + e.length + 1 : Nat) : Int)) := by
  have hall := length_of_drop hdrop hpos
  rw [List.length_append] at hall
  have hel := List.length_pos_iff.2 he
  have hint := toInt_of_lt hlen
  have hsize : sizeOfInt (pos : Int) = pos := sizeOfInt_natCast (by omega)
  have hsub : substrFrom str pos = some (e ++ rest) := by
    rw [substrFrom_of_le hpos, hdrop]
  have hround : levelRound str (findSep str [sep]) nextField 0 ((pos : Int), 0) =
      some (.done (e, ((if rest = [] then str.length else pos + e.length + 1 : Nat) : Int))) := by
    rw [levelRound, hsize, findSep_element hdrop hsep hrest]
    rcases hrest with rfl | ⟨r, rfl⟩
    · rw [if_pos rfl, if_pos rfl, hsub, hint, List.append_nil]
      rfl
    · rw [if_neg (List.cons_ne_nil _ _), if_neg (List.cons_ne_nil _ _), hsub]
      rw [List.length_cons] at hall
      dsimp only
      rw [if_pos rfl, Nat.add_sub_cancel_left, toInt_of_lt (by omega), Option.bind_eq_bind,
        Option.bind_some, List.take_left]
      rfl
  have hnot : ¬toInt str.length ≤ (pos : Int) := by
    rw [hint]
    omega
  rw [strSepParse, levelParse, Option.getD_some, if_neg hnot, iterate_done hround]
  rfl

/-- The loop appends each field behind a slash. -/
theorem sepstr2path_loop (hlen : str.length < 2147483648) (hpos : pos ≤ str.length)
    (hels : Elements els sep) (hdrop : str.drop pos = [sep].intercalate els) (fuel : Nat)
    (rez : List UInt8) :
    iterate (sepstr2pathRound (fuel + 1) str sep) (els.length + 1) (some (pos : Int), rez) =
      some (rez ++ normalised els) := by
  induction els generalizing pos rez with
  | nil =>
    have hall := length_of_drop hdrop hpos
    have hend : toInt str.length ≤ (pos : Int) := by
      rw [toInt_of_lt hlen, hall]
      exact Int.le_refl _
    have hnone : strSepParse (fuel + 1) str 0 sep (some (pos : Int)) =
        some ([], some (pos : Int)) := if_pos hend
    apply iterate_done
    rw [sepstr2pathRound, hnone, normalised, List.flatMap_nil, List.append_nil]
    rfl
  | cons e els ih =>
    obtain ⟨⟨he, -, hsep⟩, hels⟩ := List.forall_mem_cons.1 hels
    obtain ⟨rest, hrest, heq, hbehind⟩ : ∃ rest, (rest = [] ∨ ∃ r, rest = sep :: r) ∧
        str.drop pos = e ++ rest ∧
          str.drop (if rest = [] then str.length else pos + e.length + 1) =
            [sep].intercalate els := by
      cases els with
      | nil =>
        refine ⟨[], Or.inl rfl, ?_, ?_⟩
        · rw [hdrop, List.intercalate_singleton, List.append_nil]
        · rw [if_pos rfl, List.drop_length, List.intercalate_nil]
      | cons e' els =>
        rw [List.intercalate_cons_cons, List.append_assoc, List.singleton_append] at hdrop
        refine ⟨sep :: [sep].intercalate (e' :: els), Or.inr ⟨_, rfl⟩, hdrop, ?_⟩
        have hnil : ¬sep :: [sep].intercalate (e' :: els) = [] := List.cons_ne_nil _ _
        have hplace : pos + e.length + 1 = pos + (e.length + 1) := Nat.add_assoc _ _ _
        rw [if_neg hnil, hplace, ← List.drop_drop, hdrop, ← List.drop_drop, List.drop_left]
        rfl
    have hall := length_of_drop heq hpos
    have hround : sepstr2pathRound (fuel + 1) str sep (some (pos : Int), rez) =
        some (.next (some ((if rest = [] then str.length else pos + e.length + 1 : Nat) : Int),
          rez ++ 47 :: e)) := by
      rw [sepstr2pathRound, strSepParse_element hlen hpos heq he hsep hrest, Option.bind_eq_bind,
        Option.bind_some]
      exact if_neg he
    have hplace : (if rest = [] then str.length else pos + e.length + 1) ≤ str.length := by
      rw [List.length_append] at hall
      rcases hrest with rfl | ⟨r, rfl⟩
      · rw [if_pos rfl]
      · rw [List.length_cons] at hall
        rw [if_neg (List.cons_ne_nil _ _)]
        omega
    rw [List.length_cons, iterate_next hround, ih hplace hels hbehind, normalised, normalised,
      List.flatMap_cons, List.append_assoc]

theorem sepstr2path_join (hlen : ([sep].intercalate els).length < 2147483648)
    (hels : Elements els sep) :
    ∃ fuel, sepstr2path fuel ([sep].intercalate els) sep = some (normalised els) :=
  ⟨_, sepstr2path_loop hlen (Nat.zero_le _) hels rfl els.length []⟩

theorem made_normalised (els : List (List UInt8)) : Made els (normalised els) := by
  induction els with
  | nil => exact ⟨0, rfl⟩
  | cons e els ih =>
    refine ⟨1, normalised els, rfl, ih, fun hels => ?_⟩
    obtain ⟨e', els, rfl⟩ := List.exists_cons_of_ne_nil hels
    exact ⟨_, rfl⟩

theorem length_normalised (sep : UInt8) (hels : els ≠ []) :
    (normalised els).length = ([sep].intercalate els).length + 1 := by
  induction els with
  | nil => exact absurd rfl hels
  | cons e els ih =>
    cases els with
    | nil =>
      rw [normalised, List.flatMap_cons, List.flatMap_nil, List.append_nil,
        List.intercalate_singleton, List.length_cons]
    | cons e' els =>
      have hlen := ih (List.cons_ne_nil _ _)
      rw [normalised] at hlen ⊢
      rw [List.flatMap_cons, List.length_append, hlen, List.length_cons, List.intercalate_cons_cons,
        List.length_append, List.length_append, List.length_singleton]
      omega

theorem join_ne_nil (hels : Elements els sep) (hne : els ≠ []) : [sep].intercalate els ≠ [] := by
  obtain ⟨e, els, rfl⟩ := List.exists_cons_of_ne_nil hne
  obtain ⟨⟨he, -, -⟩, -⟩ := List.forall_mem_cons.1 hels
  cases els with
  | nil => rwa [List.intercalate_singleton]
  | cons e' els =>
    rw [List.intercalate_cons_cons, List.append_assoc]
    exact List.append_ne_nil_of_left_ne_nil he _

end Join

section Slashes
variable {n : Nat} {sep : UInt8}

theorem skipSep_replicate (k : Nat) {i : Nat} (h : i + k ≤ n) (hint : i + k < 2147483648) :
    skipSep (List.replicate n 47) 47 k i = some ((i + k : Nat) : Int) := by
  induction k generalizing i with
  | zero => rfl
  | succ k ih =>
    have hsize : sizeOfInt (i : Int) = i := sizeOfInt_natCast (by omega)
    have hlt : i < n := by
      omega
    have hchar : charAt (List.replicate n 47) i = some 47 := by
      have hrange : i < (List.replicate n (47 : UInt8)).length := by
        rwa [List.length_replicate]
      rw [charAt, if_pos hrange, List.getD_eq_getElem _ _ hrange, List.getElem_replicate]
    have hcount : i + (k + 1) = i + 1 + k := by
      omega
    have hrest := ih (i := i + 1) (by omega) (by omega)
    rw [skipSep, hsize, hchar, Option.bind_eq_bind, Option.bind_some, if_pos rfl, hcount]
    exact hrest

/-- However many they are, slashes alone have no elements. -/
theorem path2sepstr_slashes (n : Nat) (sep : UInt8) :
    ∃ fuel, path2sepstr fuel (List.replicate n 47) sep = some [] := by
  have hnone : pathLev 1 (List.replicate n 47) 0 false (some 0) = some ([], some 0) := by
    by_cases hint : toInt (List.replicate n (47 : UInt8)).length ≤ 0
    · exact pathLev_of_toInt hint 1
    · obtain ⟨m, hm⟩ := Int.eq_ofNat_of_zero_le (Int.le_of_lt (Int.not_le.1 hint))
      have hle := toInt_le (List.replicate n (47 : UInt8)).length
      have hlt := toInt_lt (List.replicate n (47 : UInt8)).length
      rw [hm, List.length_replicate] at hle
      rw [hm] at hlt
      have hskip : skipSlashes (List.replicate n 47) 0 = some (m : Int) := by
        have hall := @skipSep_replicate n m 0 (by omega) (by omega)
        rw [Nat.zero_add] at hall
        have hcount : ((m : Int) - 0).toNat = m := by
          omega
        rw [skipSlashes, hm, hcount]
        exact hall
      rw [pathLev, Option.getD_some, hskip, Option.bind_eq_bind, Option.bind_some,
        if_pos (Int.le_of_eq hm)]
      rfl
  refine ⟨1, iterate_done ?_ 0⟩
  rw [path2sepstrRound, hnone]
  rfl

theorem converts_nil (n : Nat) (sep : UInt8) : Converts [] sep (List.replicate n 47) := by
  refine ⟨path2sepstr_slashes n sep, ?_, path2sepstr_slashes 0 sep⟩
  exact sepstr2path_join (Nat.zero_lt_succ _) (List.forall_mem_nil _)

end Slashes

section Converts
variable {els : List (List UInt8)} {sep : UInt8} {path : List UInt8}

/-- The sizes fit in an `int`, or there is nothing to convert. -/
def Fits (els : List (List UInt8)) (path : List UInt8) : Prop :=
  els = [] ∨ path.length < 2147483648 ∧ (normalised els).length < 2147483648

/-- No path has fewer characters than the normalised one, but for its first slash. -/
theorem length_normalised_le (hels : Elements els sep) (hmade : Made els path) :
    (normalised els).length ≤ path.length + 1 ∧
      ((∃ r, path = 47 :: r) → (normalised els).length ≤ path.length) := by
  induction els generalizing path with
  | nil => exact ⟨Nat.zero_le _, fun _ => Nat.zero_le _⟩
  | cons e els ih =>
    obtain ⟨⟨he, hslash, -⟩, hels⟩ := List.forall_mem_cons.1 hels
    obtain ⟨n, rest, rfl, hrest, hnext⟩ := hmade
    have hle : (normalised els).length ≤ rest.length := by
      by_cases hnil : els = []
      · subst hnil
        exact Nat.zero_le _
      · exact (ih hels hrest).2 (hnext hnil)
    have hsum : (normalised (e :: els)).length = e.length + 1 + (normalised els).length := by
      rw [normalised, List.flatMap_cons, List.length_append, List.length_cons, normalised]
    rw [hsum, List.length_append, List.length_append, List.length_replicate]
    refine ⟨by omega, ?_⟩
    rintro ⟨r, hr⟩
    cases n with
    | zero =>
      obtain ⟨x, t, rfl⟩ := List.exists_cons_of_ne_nil he
      obtain ⟨rfl, -⟩ := List.cons.inj hr
      exact absurd List.mem_cons_self hslash
    | succ n => omega

/-- A path whose size an `int` takes for negative is not converted. -/
theorem not_path2sepstr (hels : Elements els sep) (hne : els ≠ [])
    (hlow : 2147483648 ≤ path.length) (hhigh : path.length ≤ 4294967296) :
    ¬∃ fuel, path2sepstr fuel path sep = some ([sep].intercalate els) := by
  rintro ⟨fuel, hrun⟩
  have hint : toInt path.length ≤ 0 := by
    unfold toInt
    rw [Int.bmod_def]
    omega
  exact join_ne_nil hels hne (path2sepstr_of_toInt hint hrun)

/-- Both conversions are right for sizes that fit, up to 2^32 characters only then. -/
theorem pathConverts_iff (hels : Elements els sep) (hmade : Made els path) :
    (Fits els path → Converts els sep path) ∧
      (path.length ≤ 4294967296 → Converts els sep path → Fits els path) := by
  constructor
  · rintro (rfl | ⟨hpath, hnormal⟩)
    · obtain ⟨n, rfl⟩ := hmade
      exact converts_nil n sep
    · by_cases hne : els = []
      · subst hne
        obtain ⟨n, rfl⟩ := hmade
        exact converts_nil n sep
      · have hjoin := length_normalised sep hne
        refine ⟨path2sepstr_made hpath hels hmade, sepstr2path_join (by omega) hels, ?_⟩
        exact path2sepstr_made hnormal hels (made_normalised els)
  · rintro hle ⟨hpath, hstr, hnormal⟩
    by_cases hne : els = []
    · exact Or.inl hne
    · right
      have hlt : path.length < 2147483648 := by
        rw [← Nat.not_le]
        exact fun hlow => not_path2sepstr hels hne hlow hle hpath
      have hshort := (length_normalised_le hels hmade).1
      refine ⟨hlt, ?_⟩
      rw [← Nat.not_le]
      exact fun hlow => not_path2sepstr hels hne hlow (by omega) hnormal

/-- The path `//a/b` and its join `a,b`. -/
theorem pathConverts_iff_two : Converts [[97], [98]] 44 [47, 47, 97, 47, 98] := by
  have hels : Elements [[97], [98]] 44 := by
    simp only [Elements, List.forall_mem_cons]
    decide
  have hmade : Made [[97], [98]] [47, 47, 97, 47, 98] :=
    ⟨2, [47, 98], rfl, ⟨1, [], rfl, ⟨0, rfl⟩, fun h => absurd rfl h⟩, fun _ => ⟨_, rfl⟩⟩
  apply (pathConverts_iff hels hmade).1
  exact Or.inr ⟨by decide, by decide⟩

/-- A path that is one element of 2^31 letters is converted to the empty text. -/
theorem not_pathConverts :
    ∃ els sep path, Elements els sep ∧ Made els path ∧ ¬Converts els sep path := by
  have hels : Elements [List.replicate 2147483648 97] 44 := by
    intro e he
    rw [List.mem_singleton] at he
    subst he
    refine ⟨?_, ?_, ?_⟩
    · rw [Ne, List.replicate_eq_nil_iff]
      exact Nat.succ_ne_zero _
    · rw [List.mem_replicate]
      exact fun h => absurd h.2 (by decide)
    · rw [List.mem_replicate]
      exact fun h => absurd h.2 (by decide)
  have hmade : Made [List.replicate 2147483648 97] (List.replicate 2147483648 97) :=
    ⟨0, [], (List.append_nil _).symm, ⟨0, rfl⟩, fun h => absurd rfl h⟩
  refine ⟨_, _, _, hels, hmade, fun h => ?_⟩
  refine not_path2sepstr hels (List.cons_ne_nil _ _) ?_ ?_ h.1
  · rw [List.length_replicate]
  · rw [List.length_replicate]
    omega

end Converts

end BigBox.StrOpt
