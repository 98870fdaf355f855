import BigBox.Xml.XmlConfig

namespace BigBox.Xml
set_option autoImplicit true

/-- A node by the way to it from the root: which child is taken at each step. -/
abbrev Place := List Nat

/-- What both searches read off the front of a path. -/
structure Step where
  pfx : Option Str
  name : Str
  rear : Option Str

/-- The prefix, the name and the rest behind a slash. -/
def readStep (front : Str) : Option Step :=
  match strchr SLASH front, strchr COLON front with
  | some rear, some prefixChar =>
    if rear.length < prefixChar.length then
      (copyText front (front.length - prefixChar.length)).bind fun pfx =>
        (copyText prefixChar.tail (prefixChar.tail.length - rear.length)).map fun name =>
          ⟨some pfx, name, some rear⟩
    else (copyText front (front.length - rear.length)).map fun name => ⟨none, name, some rear⟩
  | some rear, none =>
    (copyText front (front.length - rear.length)).map fun name => ⟨none, name, some rear⟩
  | none, some prefixChar =>
    (copyText front (front.length - prefixChar.length)).bind fun pfx =>
      (copyText prefixChar.tail prefixChar.tail.length).map fun name => ⟨some pfx, name, none⟩
  | none, none => (copyText front front.length).map fun name => ⟨none, name, none⟩

/-- What both searches do at an element. -/
def visit (found : σ → Option σ) (children : Str → σ → Option σ) (tag : Tag) (path : Str) (s : σ) :
    Option σ :=
  match strchr SLASH path with
  | none => some s
  | some slash => (readStep slash.tail).bind fun step =>
    if step.pfx = tag.pfx ∧ step.name = tag.name then
      match step.rear with
      | some rear => children rear s
      | none => found s
    else some s

/-- The loop of both searches over the children from a place on. -/
def visitChildren : Nodes → (Place → σ → Option σ) → Nat → Str → σ → Option σ
  | .nil, _, _, _, s => some s
  | .text _ next, found, i, path, s => visitChildren next found (i + 1) path s
  | .element tag child next, found, i, path, s =>
    (visit (found [i]) (visitChildren child (fun p => found (i :: p)) 0) tag path s).bind fun s =>
      visitChildren next found (i + 1) path s

def visitTree (root : Tree) (found : Place → σ → Option σ) (path : Str) (s : σ) : Option σ :=
  match root with
  | .text _ => some s
  | .element e => visit (found []) (visitChildren e.child found 0) e.tag path s

/-- `_xml_path_count` from 0 on. -/
def xmlPathCount (root : Tree) (path : Str) : Option Int :=
  visitTree root (fun _ count => checkedInt (count + 1)) path 0

/-- A pointer becomes the next entry in memory of so many bytes. -/
def store (bytes : Nat) (p : Place) (node : List Place) : Option (List Place) :=
  if 8 * (node.length + 1) ≤ bytes then some (node ++ [p]) else none

/-- The entries of the set. -/
def xmlFindPath (root : Tree) (path : Str) : Option (List Place) :=
  (xmlPathCount root path).bind fun nodeCount =>
    let bytes := if nodeCount ≠ 0 then unsigned (nodeCount.toNat * 8) else 0
    visitTree root (store bytes) path []

/-- A name without the characters that end one. -/
abbrev PathName := { s : Str // SLASH ∉ s ∧ COLON ∉ s }

structure Component where
  pfx : Option PathName
  name : PathName

def Component.text (c : Component) : Str :=
  match c.pfx with
  | some pfx => pfx.1 ++ COLON :: c.name.1
  | none => c.name.1

def pathText : List Component → Str
  | [] => []
  | c :: rest => SLASH :: (c.text ++ pathText rest)

/-- The element has the prefix, or none, and the name. -/
def Component.Names (c : Component) (tag : Tag) : Prop :=
  c.pfx.map Subtype.val = tag.pfx ∧ c.name.1 = tag.name

instance (c : Component) (tag : Tag) : Decidable (c.Names tag) :=
  inferInstanceAs (Decidable (_ ∧ _))

def Nodes.nth : Nodes → Nat → Option Tree
  | .nil, _ => none
  | .text s _, 0 => some (.text s)
  | .element tag child _, 0 => some (.element ⟨tag, child⟩)
  | .text _ next, i + 1 => next.nth i
  | .element _ _ next, i + 1 => next.nth i

/-- A chain of parent and child elements from the root on, named by the components one by one, ends
at the place. -/
inductive Chain : Tree → List Component → Place → Prop
  | last (h : c.Names e.tag) : Chain (.element e) [c] []
  | child (h : c.Names e.tag) (ht : e.child.nth i = some t) (hchain : Chain t rest p) :
    Chain (.element e) (c :: rest) (i :: p)

/-- What is left of a name whose length went through an `int`. -/
def PathName.cut (s : PathName) : PathName :=
  ⟨s.1.take (toInt s.1.length).toNat, fun h => s.2.1 (List.mem_of_mem_take h),
    fun h => s.2.2 (List.mem_of_mem_take h)⟩

def PathName.Fits (s : PathName) : Prop :=
  0 ≤ toInt s.1.length ∧ toInt s.1.length + 1 < 2147483648

def Component.cut (c : Component) : Component := ⟨c.pfx.map PathName.cut, c.name.cut⟩

def Component.Fits (c : Component) : Prop := (∀ pfx ∈ c.pfx, pfx.Fits) ∧ c.name.Fits

section readStep
variable {c : Component} {rest : List Component} {s : PathName} {t : Str}

theorem copyText_of_fits (h : s.Fits) : copyText (s.1 ++ t) s.1.length = some s.cut.1 := by
  have hcopy : copyText (s.1 ++ t) s.1.length =
      some ((s.1 ++ t).take (toInt s.1.length).toNat) := if_pos h
  rw [hcopy, List.take_append_of_le_length (toNat_toInt_le _)]
  rfl

theorem copyText_of_not_fits (h : ¬ s.Fits) : copyText (s.1 ++ t) s.1.length = none := if_neg h

/-- Behind the last component there is nothing. -/
def rearText (rest : List Component) : Option Str :=
  if rest = [] then none else some (pathText rest)

theorem strchr_text (c : Component) (rest : List Component) :
    strchr SLASH (c.text ++ pathText rest) = rearText rest := by
  have hslash : SLASH ∉ c.text := by
    intro h
    rw [Component.text] at h
    cases hp : c.pfx with
    | none =>
      rw [hp] at h
      exact c.name.2.1 h
    | some pfx =>
      rw [hp] at h
      rcases List.mem_append.1 h with h | h
      · exact pfx.2.1 h
      · rcases List.mem_cons.1 h with h | h
        · exact absurd h (by decide)
        · exact c.name.2.1 h
  rw [strchr_append hslash]
  cases rest with
  | nil => rfl
  | cons d rest => exact strchr_self _ _

theorem length_sub_length (s t : Str) : (s ++ t).length - t.length = s.length := by
  rw [List.length_append, Nat.add_sub_cancel]

theorem readStep_pfx (pfx name : PathName) (rest : List Component) :
    readStep (pfx.1 ++ COLON :: name.1 ++ pathText rest) =
      (copyText (pfx.1 ++ (COLON :: (name.1 ++ pathText rest))) pfx.1.length).bind fun p =>
        (copyText (name.1 ++ pathText rest) name.1.length).map fun n =>
          ⟨some p, n, rearText rest⟩ := by
  have hslash := strchr_text ⟨some pfx, name⟩ rest
  have hcolon : strchr COLON (pfx.1 ++ COLON :: name.1 ++ pathText rest) =
      some (COLON :: (name.1 ++ pathText rest)) := by
    rw [List.append_assoc]
    exact strchr_at pfx.2.2 _
  have hpfx : (pfx.1 ++ COLON :: name.1 ++ pathText rest).length -
      (COLON :: (name.1 ++ pathText rest)).length = pfx.1.length := by
    rw [List.append_assoc]
    exact length_sub_length _ _
  rw [readStep, hcolon]
  cases rest with
  | nil =>
    have hnone : strchr SLASH (pfx.1 ++ COLON :: name.1 ++ pathText []) = none := hslash
    rw [hnone]
    dsimp only
    rw [hpfx, List.append_assoc]
    have hname : (name.1 ++ pathText []).length = name.1.length := by
      rw [pathText, List.append_nil]
    rw [List.tail_cons, hname]
    rfl
  | cons d rest =>
    have hsome : strchr SLASH (pfx.1 ++ COLON :: name.1 ++ pathText (d :: rest)) =
        some (pathText (d :: rest)) := hslash
    rw [hsome]
    dsimp only
    have hlt : (pathText (d :: rest)).length <
        (COLON :: (name.1 ++ pathText (d :: rest))).length := by
      rw [List.length_cons, List.length_append]
      omega
    rw [if_pos hlt, hpfx, List.append_assoc, List.tail_cons, length_sub_length]
    rfl

theorem readStep_name (name : PathName) (rest : List Component) :
    readStep (name.1 ++ pathText rest) =
      (copyText (name.1 ++ pathText rest) name.1.length).map fun n => ⟨none, n, rearText rest⟩ := by
  have hslash := strchr_text ⟨none, name⟩ rest
  have hcolon := strchr_append name.2.2 (pathText rest)
  cases rest with
  | nil =>
    have hnone : strchr SLASH (name.1 ++ pathText []) = none := hslash
    rw [readStep, hnone, hcolon]
    dsimp only [pathText, strchr]
    rw [List.append_nil]
    rfl
  | cons d rest =>
    have hsome : strchr SLASH (name.1 ++ pathText (d :: rest)) = some (pathText (d :: rest)) :=
      hslash
    rw [readStep, hsome, hcolon]
    cases hc : strchr COLON (pathText (d :: rest)) with
    | none =>
      dsimp only
      rw [length_sub_length]
      rfl
    | some prefixChar =>
      dsimp only
      obtain ⟨a, b, hpath, rfl, _⟩ := strchr_some hc
      have hle : ¬ (pathText (d :: rest)).length < (COLON :: b).length := by
        rw [hpath, List.length_append]
        omega
      rw [if_neg hle, length_sub_length]
      rfl

theorem readStep_of_fits (h : c.Fits) : readStep (c.text ++ pathText rest) =
    some ⟨c.cut.pfx.map Subtype.val, c.cut.name.1, rearText rest⟩ := by
  obtain ⟨pfx, name⟩ := c
  cases pfx with
  | none =>
    rw [Component.text, readStep_name, copyText_of_fits h.2]
    rfl
  | some pfx =>
    rw [Component.text, readStep_pfx, copyText_of_fits (h.1 pfx rfl), Option.bind_some,
      copyText_of_fits h.2]
    rfl

theorem readStep_of_not_fits (h : ¬ c.Fits) : readStep (c.text ++ pathText rest) = none := by
  obtain ⟨pfx, name⟩ := c
  cases pfx with
  | none =>
    have hname : ¬ name.Fits := fun hn => h ⟨fun _ hp => (Option.some_ne_none _ hp.symm).elim, hn⟩
    rw [Component.text, readStep_name, copyText_of_not_fits hname]
    rfl
  | some pfx =>
    rw [Component.text, readStep_pfx]
    by_cases hpfx : pfx.Fits
    · have hname : ¬ name.Fits := by
        intro hn
        refine h ⟨?_, hn⟩
        intro p hp
        cases hp
        exact hpfx
      rw [copyText_of_not_fits hname]
      cases copyText (pfx.1 ++ COLON :: (name.1 ++ pathText rest)) pfx.1.length <;> rfl
    · rw [copyText_of_not_fits hpfx]
      rfl

end readStep

section visit
variable {found : σ → Option σ} {children : Str → σ → Option σ} {tag : Tag} {s : σ}

theorem visit_of_not_fits (h : ¬ c.Fits) (rest : List Component) :
    visit found children tag (pathText (c :: rest)) s = none := by
  rw [visit, pathText, strchr_self]
  dsimp only
  rw [List.tail_cons, readStep_of_not_fits h]
  rfl

theorem visit_of_fits (h : c.Fits) (rest : List Component) :
    visit found children tag (pathText (c :: rest)) s =
      if c.cut.Names tag then (if rest = [] then found s else children (pathText rest) s)
      else some s := by
  rw [visit, pathText, strchr_self]
  dsimp only
  rw [List.tail_cons, readStep_of_fits h, Option.bind_some]
  cases rest <;> rfl

end visit

/-- The places below an element at which a chain from it ends, when those from its children are
known. -/
def endsAt (tag : Tag) (below : List Component → List Place) : List Component → List Place
  | [] => []
  | [c] => if c.Names tag then [[]] else []
  | c :: rest => if c.Names tag then below rest else []

def Nodes.ends : Nodes → Nat → List Component → List Place
  | .nil, _, _ => []
  | .text _ next, i, path => next.ends (i + 1) path
  | .element tag child next, i, path =>
    (endsAt tag (child.ends 0) path).map (i :: ·) ++ next.ends (i + 1) path

def Tree.ends : Tree → List Component → List Place
  | .text _, _ => []
  | .element e, path => endsAt e.tag (e.child.ends 0) path

/-- Every component that is compared with an element can be copied. -/
def fitsAt (tag : Tag) (below : List Component → Prop) : List Component → Prop
  | [] => True
  | [c] => c.Fits
  | c :: rest => c.Fits ∧ (c.cut.Names tag → below rest)

def Nodes.Fits : Nodes → List Component → Prop
  | .nil, _ => True
  | .text _ next, path => next.Fits path
  | .element tag child next, path => fitsAt tag child.Fits path ∧ next.Fits path

def Tree.Fits : Tree → List Component → Prop
  | .text _, _ => True
  | .element e, path => fitsAt e.tag e.child.Fits path

section visits
variable {c : Component} {rest : List Component}

theorem visit_eq {child : Nodes} (found : Place → σ → Option σ) {s : σ}
    (hchild : ∀ d rest, child.Fits (d :: rest) →
      visitChildren child found 0 (pathText (d :: rest)) s =
        (child.ends 0 ((d :: rest).map Component.cut)).foldlM (fun s p => found p s) s)
    (h : fitsAt tag child.Fits (c :: rest)) :
    visit (found []) (visitChildren child found 0) tag (pathText (c :: rest)) s =
      (endsAt tag (child.ends 0) ((c :: rest).map Component.cut)).foldlM
        (fun s p => found p s) s := by
  cases rest with
  | nil =>
    have hfits : c.Fits := h
    rw [List.map_singleton, endsAt]
    by_cases hnames : c.cut.Names tag
    · rw [visit_of_fits hfits, if_pos hnames, if_pos rfl, if_pos hnames, List.foldlM_cons]
      exact (bind_pure (found [] s)).symm
    · rw [visit_of_fits hfits, if_neg hnames, if_neg hnames]
      rfl
  | cons d rest =>
    obtain ⟨hfits, hbelow⟩ := h
    rw [List.map_cons, List.map_cons, endsAt]
    · by_cases hnames : c.cut.Names tag
      · rw [visit_of_fits hfits, if_pos hnames, if_neg (List.cons_ne_nil d rest), if_pos hnames]
        exact hchild d rest (hbelow hnames)
      · rw [visit_of_fits hfits, if_neg hnames, if_neg hnames]
        rfl
    · intro hnil
      exact List.cons_ne_nil _ _ hnil

theorem visitChildren_eq (nodes : Nodes) : ∀ (found : Place → σ → Option σ) (i : Nat) (s : σ)
    (c : Component) (rest : List Component), nodes.Fits (c :: rest) →
      visitChildren nodes found i (pathText (c :: rest)) s =
        (nodes.ends i ((c :: rest).map Component.cut)).foldlM (fun s p => found p s) s := by
  induction nodes with
  | nil =>
    intro found i s c rest _
    rfl
  | text t next ih =>
    intro found i s c rest h
    exact ih found (i + 1) s c rest h
  | element tag child next ihchild ihnext =>
    intro found i s c rest h
    obtain ⟨hat, hnext⟩ := h
    rw [visitChildren, Nodes.ends, List.foldlM_append, List.foldlM_map]
    have hvisit := visit_eq (fun p => found (i :: p)) (s := s)
      (fun d rest hd => ihchild _ 0 s d rest hd) hat
    rw [hvisit]
    refine congrArg _ (funext fun s => ?_)
    exact ihnext found (i + 1) s c rest hnext

theorem visit_none {child : Nodes} (found : Place → σ → Option σ) {s : σ}
    (hchild : ∀ d rest, ¬ child.Fits (d :: rest) →
      visitChildren child found 0 (pathText (d :: rest)) s = none)
    (h : ¬ fitsAt tag child.Fits (c :: rest)) :
    visit (found []) (visitChildren child found 0) tag (pathText (c :: rest)) s = none := by
  by_cases hfits : c.Fits
  · cases rest with
    | nil => exact absurd hfits h
    | cons d rest =>
      obtain ⟨hnames, hbelow⟩ := Classical.not_imp.1 fun hbelow => h ⟨hfits, hbelow⟩
      rw [visit_of_fits hfits, if_pos hnames, if_neg (List.cons_ne_nil d rest)]
      exact hchild d rest hbelow
  · exact visit_of_not_fits hfits rest

theorem visitChildren_none (nodes : Nodes) : ∀ (found : Place → σ → Option σ) (i : Nat) (s : σ)
    (c : Component) (rest : List Component), ¬ nodes.Fits (c :: rest) →
      visitChildren nodes found i (pathText (c :: rest)) s = none := by
  induction nodes with
  | nil =>
    intro found i s c rest h
    exact absurd trivial h
  | text t next ih =>
    intro found i s c rest h
    exact ih found (i + 1) s c rest h
  | element tag child next ihchild ihnext =>
    intro found i s c rest h
    rw [visitChildren]
    by_cases hat : fitsAt tag child.Fits (c :: rest)
    · cases visit (found [i]) (visitChildren child (fun p => found (i :: p)) 0) tag
          (pathText (c :: rest)) s with
      | none => rfl
      | some s => exact ihnext found (i + 1) s c rest fun hnext => h ⟨hat, hnext⟩
    · have hvisit := visit_none (fun p => found (i :: p)) (s := s)
        (fun d rest hd => ihchild _ 0 s d rest hd) hat
      rw [hvisit]
      rfl

variable {root : Tree} {found : Place → σ → Option σ} {s : σ}

theorem visitTree_eq (h : root.Fits (c :: rest)) :
    visitTree root found (pathText (c :: rest)) s =
      (root.ends ((c :: rest).map Component.cut)).foldlM (fun s p => found p s) s := by
  cases root with
  | text t => rfl
  | element e =>
    exact visit_eq found (fun d rest hd => visitChildren_eq e.child found 0 s d rest hd) h

theorem visitTree_none (h : ¬ root.Fits (c :: rest)) :
    visitTree root found (pathText (c :: rest)) s = none := by
  cases root with
  | text t => exact absurd trivial h
  | element e =>
    exact visit_none found (fun d rest hd => visitChildren_none e.child found 0 s d rest hd) h

end visits

section passes

theorem foldlM_count (l : List Place) (n : Nat) :
    l.foldlM (fun (count : Int) _ => checkedInt (count + 1)) (n : Int) =
      if l = [] ∨ n + l.length < 2147483648 then some ((n + l.length : Nat) : Int) else none := by
  induction l generalizing n with
  | nil => rfl
  | cons p l ih =>
    rw [List.foldlM_cons]
    by_cases hn : n + 1 < 2147483648
    · rw [checkedInt_of_lt (by omega) (by omega)]
      have hl := ih (n + 1)
      rw [Int.natCast_succ] at hl
      refine hl.trans ?_
      rw [List.length_cons, Nat.add_right_comm, Nat.add_assoc n]
      by_cases hlen : n + (l.length + 1) < 2147483648
      · rw [if_pos (.inr hlen), if_pos (.inr hlen)]
      · have hne : l ≠ [] := by
          rintro rfl
          exact hlen hn
        rw [if_neg (not_or.2 ⟨hne, hlen⟩), if_neg (not_or.2 ⟨List.cons_ne_nil p l, hlen⟩)]
    · have hnone : checkedInt ((n : Int) + 1) = none := if_neg (by omega)
      have hlen : ¬ n + (p :: l).length < 2147483648 := by
        rw [List.length_cons]
        omega
      rw [hnone, if_neg (not_or.2 ⟨List.cons_ne_nil p l, hlen⟩)]
      rfl

theorem foldlM_store (bytes : Nat) (l node : List Place) :
    l.foldlM (fun node p => store bytes p node) node =
      if l = [] ∨ 8 * (node.length + l.length) ≤ bytes then some (node ++ l) else none := by
  induction l generalizing node with
  | nil =>
    rw [List.append_nil]
    rfl
  | cons p l ih =>
    rw [List.foldlM_cons, store]
    split
    · next hroom =>
      refine (ih (node ++ [p])).trans ?_
      rw [List.append_assoc, List.singleton_append, List.length_append, List.length_singleton,
        List.length_cons, Nat.add_right_comm, Nat.add_assoc node.length]
      by_cases hlen : 8 * (node.length + (l.length + 1)) ≤ bytes
      · rw [if_pos (.inr hlen), if_pos (.inr hlen)]
      · have hne : l ≠ [] := by
          rintro rfl
          exact hlen hroom
        rw [if_neg (not_or.2 ⟨hne, hlen⟩), if_neg (not_or.2 ⟨List.cons_ne_nil p l, hlen⟩)]
    · next hroom =>
      have hlen : ¬ 8 * (node.length + (p :: l).length) ≤ bytes := by
        rw [List.length_cons]
        omega
      rw [if_neg (not_or.2 ⟨List.cons_ne_nil p l, hlen⟩)]
      rfl

variable {c : Component} {rest : List Component} {root : Tree}

theorem xmlPathCount_eq (h : root.Fits (c :: rest)) (nodes : List Place)
    (hnodes : root.ends ((c :: rest).map Component.cut) = nodes) :
    xmlPathCount root (pathText (c :: rest)) =
      if nodes = [] ∨ nodes.length < 2147483648 then some (nodes.length : Int) else none := by
  have hcount := foldlM_count nodes 0
  rw [Nat.zero_add] at hcount
  rw [xmlPathCount, visitTree_eq h, hnodes]
  exact hcount

theorem xmlFindPath_eq (h : root.Fits (c :: rest)) (nodes : List Place)
    (hnodes : root.ends ((c :: rest).map Component.cut) = nodes) :
    xmlFindPath root (pathText (c :: rest)) =
      if nodes.length < 536870912 then some nodes else none := by
  rw [xmlFindPath, xmlPathCount_eq h nodes hnodes]
  cases nodes with
  | nil =>
    rw [if_pos (.inl rfl), Option.bind_some]
    dsimp only
    rw [visitTree_eq h, hnodes]
    rfl
  | cons p nodes =>
    have hpos : ((p :: nodes).length : Int) ≠ 0 := by
      rw [List.length_cons]
      omega
    have hbytes := unsigned_lt ((p :: nodes).length * 8)
    by_cases hfew : (p :: nodes).length < 536870912
    · rw [if_pos (.inr (by omega)), Option.bind_some, if_pos hfew]
      dsimp only
      rw [if_pos hpos, visitTree_eq h, hnodes, foldlM_store, Int.toNat_natCast,
        unsigned_of_lt (by omega), List.length_nil, List.nil_append,
        if_pos (.inr (by omega))]
    · rw [if_neg hfew]
      split
      · rw [Option.bind_some]
        dsimp only
        rw [if_pos hpos, visitTree_eq h, hnodes, foldlM_store, Int.toNat_natCast, List.length_nil]
        refine if_neg (not_or.2 ⟨List.cons_ne_nil p nodes, ?_⟩)
        omega
      · rfl

theorem xmlFindPath_none (h : ¬ root.Fits (c :: rest)) :
    xmlFindPath root (pathText (c :: rest)) = none := by
  rw [xmlFindPath, xmlPathCount, visitTree_none h]
  rfl

end passes

section ends
variable {tag : Tag} {child nodes : Nodes} {path : List Component} {p q : Place}

theorem mem_endsAt (hchild : ∀ path p, p ∈ child.ends 0 path ↔
      ∃ j t q, child.nth j = some t ∧ p = j :: q ∧ Chain t path q) :
    p ∈ endsAt tag (child.ends 0) path ↔ Chain (.element ⟨tag, child⟩) path p := by
  constructor
  · intro h
    match path, h with
    | [c], h =>
      rw [endsAt] at h
      split at h
      · next hnames =>
        rw [List.mem_singleton.1 h]
        exact .last hnames
      · exact absurd h List.not_mem_nil
    | c :: d :: rest, h =>
      rw [endsAt] at h
      · split at h
        · next hnames =>
          obtain ⟨j, t, q, ht, rfl, hchain⟩ := (hchild _ _).1 h
          exact .child hnames ht hchain
        · exact absurd h List.not_mem_nil
      · exact List.cons_ne_nil d rest
  · intro h
    cases h with
    | last hnames =>
      rw [endsAt, if_pos hnames]
      exact List.mem_singleton_self []
    | @child t rest q _ c i hnames ht hchain =>
      have hrest : rest ≠ [] := by
        rintro rfl
        cases hchain
      rw [endsAt.eq_3 _ _ _ _ hrest, if_pos hnames]
      exact (hchild _ _).2 ⟨i, t, q, ht, rfl, hchain⟩

theorem Nodes.mem_ends (nodes : Nodes) : ∀ i path p, p ∈ nodes.ends i path ↔
    ∃ j t q, nodes.nth j = some t ∧ p = (i + j) :: q ∧ Chain t path q := by
  induction nodes with
  | nil =>
    intro i path p
    refine iff_of_false List.not_mem_nil ?_
    rintro ⟨j, t, q, ht, _⟩
    cases ht
  | text s next ih =>
    intro i path p
    rw [Nodes.ends, ih]
    constructor
    · rintro ⟨j, t, q, ht, rfl, hchain⟩
      exact ⟨j + 1, t, q, ht, by rw [Nat.add_right_comm, Nat.add_assoc], hchain⟩
    · rintro ⟨j, t, q, ht, rfl, hchain⟩
      cases j with
      | zero =>
        cases ht
        cases hchain
      | succ j => exact ⟨j, t, q, ht, by rw [Nat.add_right_comm, Nat.add_assoc], hchain⟩
  | element tag child next ihchild ihnext =>
    intro i path p
    have hat : ∀ q, q ∈ endsAt tag (child.ends 0) path ↔ Chain (.element ⟨tag, child⟩) path q := by
      intro q
      refine mem_endsAt fun path p => ?_
      rw [ihchild]
      refine exists_congr fun j => ?_
      rw [Nat.zero_add]
    rw [Nodes.ends, List.mem_append, ihnext, List.mem_map]
    constructor
    · rintro (⟨q, hq, rfl⟩ | ⟨j, t, q, ht, rfl, hchain⟩)
      · exact ⟨0, _, q, rfl, rfl, (hat q).1 hq⟩
      · exact ⟨j + 1, t, q, ht, by rw [Nat.add_right_comm, Nat.add_assoc], hchain⟩
    · rintro ⟨j, t, q, ht, rfl, hchain⟩
      cases j with
      | zero =>
        cases ht
        exact .inl ⟨q, (hat q).2 hchain, rfl⟩
      | succ j => exact .inr ⟨j, t, q, ht, by rw [Nat.add_right_comm, Nat.add_assoc], hchain⟩

theorem Tree.mem_ends (root : Tree) : p ∈ root.ends path ↔ Chain root path p := by
  cases root with
  | text s =>
    refine iff_of_false List.not_mem_nil ?_
    intro h
    cases h
  | element e =>
    refine mem_endsAt fun path p => ?_
    rw [e.child.mem_ends]
    refine exists_congr fun j => ?_
    rw [Nat.zero_add]

theorem endsAt_sorted (hchild : ∀ path, (child.ends 0 path).Pairwise (· < ·)) :
    (endsAt tag (child.ends 0) path).Pairwise (· < ·) := by
  match path with
  | [] => exact .nil
  | [c] =>
    rw [endsAt]
    split
    · exact List.pairwise_singleton _ _
    · exact .nil
  | c :: d :: rest =>
    rw [endsAt]
    · split
      · exact hchild _
      · exact .nil
    · exact List.cons_ne_nil d rest

theorem Nodes.ends_sorted (nodes : Nodes) :
    ∀ i path, (nodes.ends i path).Pairwise (· < ·) := by
  induction nodes with
  | nil => exact fun _ _ => .nil
  | text s next ih => exact fun i path => ih (i + 1) path
  | element tag child next ihchild ihnext =>
    intro i path
    rw [Nodes.ends, List.pairwise_append]
    refine ⟨?_, ihnext (i + 1) path, ?_⟩
    · refine List.pairwise_map.2 ((endsAt_sorted (ihchild 0)).imp ?_)
      exact fun h => List.cons_lt_cons_iff.2 (.inr ⟨rfl, h⟩)
    · intro p hp q hq
      obtain ⟨r, _, rfl⟩ := List.mem_map.1 hp
      obtain ⟨j, t, r', _, rfl, _⟩ := (next.mem_ends _ _ _).1 hq
      exact List.cons_lt_cons_iff.2 (.inl (by omega))

theorem Tree.ends_sorted (root : Tree) (path : List Component) :
    (root.ends path).Pairwise (· < ·) := by
  cases root with
  | text s => exact .nil
  | element e => exact endsAt_sorted (e.child.ends_sorted 0)

end ends

/-- The search gives the elements that end a chain, each once and in document order, and counts as
many. -/
def Finds (root : Tree) (path : List Component) : Prop :=
  ∃ nodes, xmlFindPath root (pathText path) = some nodes ∧
    (∀ p, p ∈ nodes ↔ Chain root path p) ∧ nodes.Pairwise (· < ·) ∧
    xmlPathCount root (pathText path) = some (nodes.length : Int)

/-- The names that are compared can be copied, what their copies lose makes no difference, and the
size of the set is an `unsigned int`. -/
structure PathFits (root : Tree) (path : List Component) : Prop where
  fits : root.Fits path
  same : ∀ p, Chain root (path.map Component.cut) p ↔ Chain root path p
  few : (root.ends path).length < 536870912

theorem nodup_of_sorted {l : List Place} (h : l.Pairwise (· < ·)) : l.Nodup := by
  refine h.imp ?_
  rintro p _ hlt rfl
  exact List.lt_irrefl p hlt

/-- Names are copied by lengths that are `int`s, and the memory for the set has a size that is an
`unsigned int`. -/
theorem finds_iff (root : Tree) (c : Component) (rest : List Component) :
    Finds root (c :: rest) ↔ PathFits root (c :: rest) := by
  have hsorted := root.ends_sorted ((c :: rest).map Component.cut)
  have hends : (∀ p, Chain root ((c :: rest).map Component.cut) p ↔ Chain root (c :: rest) p) →
      (root.ends ((c :: rest).map Component.cut)).length = (root.ends (c :: rest)).length := by
    intro hsame
    refine List.Perm.length_eq ((List.perm_ext_iff_of_nodup (nodup_of_sorted hsorted)
      (nodup_of_sorted (root.ends_sorted _))).2 fun p => ?_)
    rw [root.mem_ends, root.mem_ends, hsame]
  constructor
  · rintro ⟨nodes, hfind, hchain, _, _⟩
    by_cases hfits : root.Fits (c :: rest)
    · rw [xmlFindPath_eq hfits _ rfl] at hfind
      split at hfind
      · next hfew =>
        cases hfind
        have hsame : ∀ p, Chain root ((c :: rest).map Component.cut) p ↔
            Chain root (c :: rest) p := by
          intro p
          rw [← hchain, root.mem_ends]
        rw [hends hsame] at hfew
        exact ⟨hfits, hsame, hfew⟩
      · cases hfind
    · rw [xmlFindPath_none hfits] at hfind
      cases hfind
  · intro h
    have hfew := h.few
    rw [← hends h.same] at hfew
    refine ⟨root.ends ((c :: rest).map Component.cut), ?_, ?_, hsorted, ?_⟩
    · rw [xmlFindPath_eq h.fits _ rfl, if_pos hfew]
    · exact fun p => root.mem_ends.trans (h.same p)
    · rw [xmlPathCount_eq h.fits _ rfl]
      exact if_pos (.inr (by omega))

/-- So many elements `b`. -/
def copies : Nat → Nodes
  | 0 => .nil
  | n + 1 => .element ⟨none, [98], none, none⟩ .nil (copies n)

/-- An element `a` with so many children `b`. -/
def wide (n : Nat) : Tree := .element ⟨⟨none, [97], none, none⟩, copies n⟩

/-- The path `/a/b`. -/
def letters : List Component := [⟨none, [97], by decide⟩, ⟨none, [98], by decide⟩]

theorem PathName.cut_of_lt (s : PathName) (h : s.1.length < 2147483648) : s.cut = s := by
  have hlen : (toInt s.1.length).toNat = s.1.length := by
    rw [toInt_of_lt (n := s.1.length) h, Int.toNat_natCast]
  refine Subtype.ext ?_
  exact (congrArg (List.take · s.1) hlen).trans List.take_length

theorem ends_wide (n : Nat) : ((wide n).ends letters).length = n := by
  have hcopies : ∀ i, ((copies n).ends i [⟨none, [98], by decide⟩]).length = n := by
    induction n with
    | zero => exact fun _ => rfl
    | succ n ih =>
      intro i
      rw [copies, Nodes.ends, List.length_append, ih, Nat.add_comm]
      rfl
  exact hcopies 0

theorem not_finds_wide (h : 536870912 ≤ n) : ¬ Finds (wide n) letters := by
  have hcut : letters.map Component.cut = letters := by
    rw [letters, List.map_cons, List.map_singleton, Component.cut, Component.cut]
    dsimp only
    rw [PathName.cut_of_lt _ (by decide), PathName.cut_of_lt _ (by decide)]
    rfl
  rintro ⟨nodes, hfind, _⟩
  by_cases hfits : (wide n).Fits letters
  · rw [letters, xmlFindPath_eq hfits _ rfl, ← letters, hcut, ends_wide,
      if_neg (Nat.not_lt.2 h)] at hfind
    cases hfind
  · rw [letters, xmlFindPath_none hfits] at hfind
    cases hfind

/-- The memory for 2 ^ 29 pointers is none at all. -/
theorem not_finds : ¬ Finds (wide 536870912) letters := by
  refine not_finds_wide ?_
  omega

end BigBox.Xml
