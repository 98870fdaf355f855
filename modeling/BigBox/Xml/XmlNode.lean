import BigBox.Lib.Forest
import BigBox.Xml.XmlConfig

namespace BigBox.Xml
open Forest
set_option autoImplicit true

/-- A string of a node. `xml_malloc` was asked for its bytes and the zero byte behind them. -/
abbrev XmlString := { s : Str // s.length + 1 < 4294967296 }

/-- The strings of a node. -/
inductive Content where
  | text (text : XmlString)
  | element (pfx : Option XmlString) (name : XmlString) (uri attr : Option XmlString)
  deriving DecidableEq

/-- `struct xml_node`. -/
abbrev XmlNode (α : Type) := Cell α Content

/-- The nodes in memory, by their addresses. -/
abbrev Heap (α : Type) := α → Option (XmlNode α)

def xmlIsElement (c : Content) : Bool :=
  match c with
  | .text _ => false
  | .element .. => true

/-- `strcpy` to what `xml_malloc` gives for the string; no result is an overflow. -/
def copyString (s : XmlString) : Option XmlString :=
  if s.1.length < unsigned (s.1.length + 1) then some s else none

/-- `copyString`, for a string that may be a null pointer. -/
def copyIf (s : Option XmlString) : Option (Option XmlString) :=
  match s with
  | some s => (copyString s).map some
  | none => some none

section
variable [DecidableEq α]

/-- No result is a link that leads to no node. -/
def modify (h : Heap α) (a : α) (f : XmlNode α → XmlNode α) : Option (Heap α) :=
  (h a).map fun n => Function.update h a (some (f n))

/-- A node with its strings, at the next address that `malloc` gives. -/
def xmlNewNode (h : Heap α) (new : List α) (c : Content) : Option (α × Heap α × List α) :=
  match new with
  | a :: new => some (a, Function.update h a (some ⟨c, none, none, none, none⟩), new)
  | [] => none

def xmlNewText (h : Heap α) (new : List α) (text : XmlString) : Option (α × Heap α × List α) := do
  let text ← copyString text
  xmlNewNode h new (.text text)

def xmlNewElement (h : Heap α) (new : List α) (pfx : Option XmlString) (name : XmlString)
    (uri attr : Option XmlString) : Option (α × Heap α × List α) := do
  let name ← copyString name
  let pfx ← copyIf pfx
  let uri ← copyIf uri
  let attr ← copyIf attr
  xmlNewNode h new (.element pfx name uri attr)

/-- The loop to the last of the children, with a bound on its rounds. -/
def lastChild : Nat → Heap α → α → Option α
  | 0, _, _ => none
  | n + 1, h, last => (h last).bind fun l =>
    match l.next with
    | some next => lastChild n h next
    | none => some last

def xmlAddChild (fuel : Nat) (h : Heap α) (node child : α) : Option (Heap α) :=
  (h node).bind fun n =>
    if xmlIsElement n.content then
      match n.child with
      | some first => do
        let last ← lastChild fuel h first
        let h ← modify h last fun l => { l with next := some child }
        let h ← modify h child fun c => { c with prev := some last }
        modify h child fun c => { c with parent := some node }
      | none => do
        let h ← modify h node fun n => { n with child := some child }
        modify h child fun c => { c with parent := some node }
    else some h

/-- The node behind a deleted one gets what was in front of it. -/
def linkNext (h : Heap α) (next prev : Option α) : Option (Heap α) :=
  match next with
  | some next => modify h next fun n => { n with prev := prev }
  | none => some h

/-- The end of `xml_delete_tree`: the nodes next to the root are linked, the root is freed. -/
def unlinkRoot (h : Heap α) (root : α) : Option (Heap α) :=
  (h root).bind fun r =>
    (match r.prev, r.parent with
      | some prev, _ => (modify h prev fun p => { p with next := r.next }).bind fun h =>
        linkNext h r.next (some prev)
      | none, some parent => (modify h parent fun p => { p with child := r.next }).bind fun h =>
        linkNext h r.next none
      | none, none => some h).map fun h => Function.update h root none

mutual

def xmlDeleteTree : Nat → Heap α → α → Option (Heap α)
  | 0, _, _ => none
  | n + 1, h, root => (deleteChildren n h root).bind fun h => unlinkRoot h root

/-- The loop that deletes the first child until there is none. -/
def deleteChildren : Nat → Heap α → α → Option (Heap α)
  | 0, _, _ => none
  | n + 1, h, root => (h root).bind fun r =>
    match r.child with
    | some child => (xmlDeleteTree n h child).bind fun h => deleteChildren n h root
    | none => some h

end

mutual

def xmlCopyTree : Nat → Heap α → List α → α → Option (α × Heap α × List α)
  | 0, _, _, _ => none
  | n + 1, h, new, root => (h root).bind fun r =>
    match r.content with
    | .text text => xmlNewText h new text
    | .element pfx name uri attr =>
      (xmlNewElement h new pfx name uri attr).bind fun (copy, h, new) =>
        (copyChildren n h new r.child copy).map fun (h, new) => (copy, h, new)

/-- The loop over the children. `_xml_copy_tree` copies a child as `xml_copy_tree` does and adds the
copy to the parent. -/
def copyChildren : Nat → Heap α → List α → Option α → α → Option (Heap α × List α)
  | 0, _, _, _, _ => none
  | _ + 1, h, new, none, _ => some (h, new)
  | n + 1, h, new, some child, parent => (xmlCopyTree n h new child).bind fun (copy, h, new) =>
    (xmlAddChild n h parent copy).bind fun h =>
      (h child).bind fun c => copyChildren n h new c.next parent

end

end

section
variable [DecidableEq α] {h : Heap α} {n : XmlNode α} {a b s : α} {p q : Option α}
  {f t : Forest α Content} {new : List α}

omit [DecidableEq α] in
theorem lastChild_eq (hf : Rep h (some b) q f) (hroot : f.root = some a)
    (hfuel : f.addrs.length ≤ fuel) : lastChild fuel h a = f.last := by
  induction f generalizing a q fuel with
  | nil => cases hroot
  | node c d child next _ ih =>
    cases hroot
    obtain ⟨ha, _, hnext⟩ := hf
    rw [addrs, List.length_cons, List.length_append] at hfuel
    cases fuel with
    | zero => exact absurd hfuel (Nat.not_succ_le_zero _)
    | succ fuel =>
      rw [lastChild, ha]
      cases next with
      | nil => rfl
      | node e d' ch next => exact ih hnext rfl (by omega)

theorem modify_eq (ha : h a = some n) (g : XmlNode α → XmlNode α) :
    modify h a g = some (Function.update h a (some (g n))) := by
  rw [modify, ha, Option.map_some]

theorem copyString_eq (s : XmlString) : copyString s = some s := by
  rw [copyString, unsigned_of_lt s.2, if_pos (Nat.lt_succ_self _)]

theorem copyIf_eq (s : Option XmlString) : copyIf s = some s := by
  cases s with
  | none => rfl
  | some s => rw [copyIf, copyString_eq, Option.map_some]

theorem xmlNewText_eq (text : XmlString) : xmlNewText h (a :: new) text =
    some (a, Function.update h a (some ⟨.text text, none, none, none, none⟩), new) := by
  rw [xmlNewText, copyString_eq]
  rfl

theorem xmlNewElement_eq (pfx : Option XmlString) (name : XmlString)
    (uri attr : Option XmlString) : xmlNewElement h (a :: new) pfx name uri attr =
      some (a, Function.update h a (some ⟨.element pfx name uri attr, none, none, none, none⟩),
        new) := by
  rw [xmlNewElement, copyString_eq, copyIf_eq, copyIf_eq, copyIf_eq]
  rfl

/-- The children of an element with others behind them, all else as before. -/
structure Added (h h' : Heap α) (b : α) (n : XmlNode α) (f t : Forest α Content) : Prop where
  node : h' b = some { n with child := (f.append t).root }
  children : Rep h' (some b) none (f.append t)
  other : ∀ y, y ∉ b :: (f.addrs ++ t.addrs) → h' y = h y

omit [DecidableEq α] in
theorem added_of {c : Content} (hf : Rep h (some b) none f) (ht : Rep h (some s) none t)
    (hnd : (b :: (f.addrs ++ s :: t.addrs)).Nodup)
    (hb : h' b = some { n with child := (f.append (node s c t nil)).root })
    (hs : h' s = some ⟨c, some b, t.root, f.last, none⟩)
    (hlast : ∀ l, f.last = some l → h' l = (h l).map fun n => { n with next := some s })
    (hother : ∀ y, y ≠ s → y ≠ b → f.last ≠ some y → h' y = h y) :
    Added h h' b n f (node s c t nil) := by
  obtain ⟨hbmem, hndAll⟩ := List.nodup_cons.1 hnd
  obtain ⟨_, hndt, hboth⟩ := List.nodup_append'.1 hndAll
  refine ⟨hb, ?_, fun y hy => ?_⟩
  · apply hf.append ht hndAll
    · rw [hs, Option.or_none]
    · exact hlast
    · intro y hy hyl
      rcases List.mem_append.1 hy with hmem | hmem
      · apply hother y ?_ ?_ hyl
        · rintro rfl
          exact hboth hmem List.mem_cons_self
        · rintro rfl
          exact hbmem (List.mem_append_left _ hmem)
      · apply hother y ?_ ?_ hyl
        · rintro rfl
          exact (List.nodup_cons.1 hndt).1 hmem
        · rintro rfl
          exact hbmem (List.mem_append_right _ (List.mem_cons_of_mem _ hmem))
  · rw [List.mem_cons, List.mem_append, not_or, not_or] at hy
    apply hother y ?_ hy.1 fun hl => hy.2.1 (last_mem hl)
    rintro rfl
    exact hy.2.2 List.mem_cons_self

theorem xmlAddChild_eq (fuel : Nat) {c : Content} (hb : h b = some n)
    (helement : xmlIsElement n.content = true) (hroot : n.child = f.root)
    (hf : Rep h (some b) none f)
    (ht : Rep h none q (node s c t nil)) (hnd : (b :: (f.addrs ++ s :: t.addrs)).Nodup)
    (hfuel : f.addrs.length ≤ fuel) : ∃ h', xmlAddChild fuel h b s = some h' ∧
      Added h h' b n f (node s c t nil) := by
  obtain ⟨hs, htree, _⟩ := ht
  obtain ⟨hbmem, hndAll⟩ := List.nodup_cons.1 hnd
  rw [List.mem_append, List.mem_cons, not_or, not_or] at hbmem
  obtain ⟨hbf, hbs, hbt⟩ := hbmem
  have hsf : s ∉ f.addrs := fun hmem => (List.nodup_append'.1 hndAll).2.2 hmem List.mem_cons_self
  rw [xmlAddChild, hb, Option.bind_some, if_pos helement, hroot]
  cases f with
  | nil =>
    have hs' : Function.update h b (some { n with child := some s }) s =
        some ⟨c, none, t.root, none, none⟩ := by
      rw [Function.update_of_ne (Ne.symm hbs), hs]
      rfl
    dsimp only [root]
    rw [modify_eq hb, Option.bind_eq_bind, Option.bind_some, modify_eq hs']
    refine ⟨_, rfl, added_of hf htree hnd ?_ ?_ (fun l hl => ?_) fun y hys hyb _ => ?_⟩
    · rw [Function.update_of_ne hbs, Function.update_self]
      rfl
    · rw [Function.update_self]
      rfl
    · cases hl
    · rw [Function.update_of_ne hys, Function.update_of_ne hyb]
  | node a d child next =>
    obtain ⟨l, hl⟩ : ∃ l, (node a d child next).last = some l := exists_last
    have hlast : lastChild fuel h a = some l := (lastChild_eq hf rfl hfuel).trans hl
    have hlmem := last_mem hl
    have hls : l ≠ s := fun he => hsf (he ▸ hlmem)
    have hlb : l ≠ b := fun he => hbf (he ▸ hlmem)
    obtain ⟨m, hm⟩ := hf.live hlmem
    have hs' : Function.update h l (some { m with next := some s }) s =
        some ⟨c, none, t.root, none, none⟩ := by
      rw [Function.update_of_ne (Ne.symm hls), hs]
      rfl
    dsimp only [root]
    rw [hlast, Option.bind_eq_bind, Option.bind_some, modify_eq hm, Option.bind_eq_bind,
      Option.bind_some, modify_eq hs', Option.bind_some, modify_eq (Function.update_self ..)]
    refine ⟨_, rfl, added_of hf htree hnd ?_ ?_ (fun l' hl' => ?_) fun y hys hyb hyl => ?_⟩
    · rw [Function.update_of_ne hbs, Function.update_of_ne hbs, Function.update_of_ne hlb.symm, hb]
      exact congrArg some (Cell.ext rfl rfl hroot rfl rfl)
    · rw [Function.update_self, hl]
    · rw [hl] at hl'
      cases hl'
      rw [Function.update_of_ne hls, Function.update_of_ne hls, Function.update_self, hm]
      rfl
    · rw [Function.update_of_ne hys, Function.update_of_ne hys, Function.update_of_ne ?_]
      rintro rfl
      exact hyl hl

/-- The copies of trees are linked behind the children of a node, at new addresses. -/
def CopiesChildren (f : Forest α Content) : Prop :=
  ∀ (h : Heap α) (x b : α) (q : Option α) (n : XmlNode α) (done f' : Forest α Content)
    (rest : List α) (fuel : Nat), Rep h (some x) q f → f'.shape = f.shape →
    (∀ y ∈ f'.addrs, h y = none) → h b = some n → xmlIsElement n.content = true →
    n.child = done.root → Rep h (some b) none done → (b :: (done.addrs ++ f'.addrs)).Nodup →
    (∀ y ∈ f.addrs, y ∉ b :: done.addrs) → 2 * f.addrs.length + done.addrs.length < fuel →
    ∃ h', copyChildren fuel h (f'.addrs ++ rest) f.root b = some (h', rest) ∧
      Added h h' b n done f'

theorem newRoot (c : Content) (a : α) (h : Heap α) :
    Function.update h a (some ⟨c, none, none, none, none⟩) a =
      some ⟨c, none, none, none, none⟩ :=
  Function.update_self ..

theorem xmlCopyTree_eq (new : List α) (fuel : Nat) {r : XmlNode α}
    {child child' : Forest α Content} {a' : α} (hchild : CopiesChildren child) (ha : h a = some r)
    (hroot : r.child = child.root)
    (hf : Rep h (some a) none child) (hleaf : xmlIsElement r.content = false → child = nil)
    (hshape : child'.shape = child.shape) (hfresh : ∀ y ∈ a' :: child'.addrs, h y = none)
    (hnd : (a' :: child'.addrs).Nodup) (hfuel : 2 * child.addrs.length + 1 < fuel) :
    ∃ h', xmlCopyTree fuel h (a' :: (child'.addrs ++ new)) a = some (a', h', new) ∧
      Rep h' none none (node a' r.content child' nil) ∧
        ∀ y, y ∉ a' :: child'.addrs → h' y = h y := by
  cases fuel with
  | zero => exact absurd hfuel (Nat.not_lt_zero _)
  | succ fuel =>
    have hne : a ≠ a' := by
      rintro rfl
      rw [hfresh a List.mem_cons_self] at ha
      cases ha
    rw [xmlCopyTree, ha, Option.bind_some]
    cases hc : r.content with
    | text s =>
      rw [hc] at hleaf
      cases hleaf rfl
      cases child' with
      | node => cases hshape
      | nil =>
        dsimp only
        rw [addrs, List.nil_append, xmlNewText_eq]
        refine ⟨_, rfl, ⟨newRoot _ _ _, trivial, trivial⟩, fun y hy => ?_⟩
        exact Function.update_of_ne (List.ne_of_not_mem_cons hy) _ _
    | element pfx name uri attr =>
      dsimp only
      rw [xmlNewElement_eq, Option.bind_some, hroot]
      dsimp only
      have hapart : ∀ y ∈ child.addrs, y ≠ a' := by
        rintro y hy rfl
        obtain ⟨m, hm⟩ := hf.live hy
        rw [hfresh y List.mem_cons_self] at hm
        cases hm
      have hother : ∀ y, y ≠ a' → Function.update h a'
          (some ⟨.element pfx name uri attr, none, none, none, none⟩) y = h y :=
        fun y hy => Function.update_of_ne hy _ _
      have hfreshChild : ∀ y ∈ child'.addrs, Function.update h a'
          (some ⟨.element pfx name uri attr, none, none, none, none⟩) y = none := by
        intro y hy
        rw [hother y fun he => (List.nodup_cons.1 hnd).1 (he ▸ hy)]
        exact hfresh y (List.mem_cons_of_mem _ hy)
      have houtside : ∀ y ∈ child.addrs, y ∉ a' :: (nil : Forest α Content).addrs := by
        intro y hy
        rw [addrs, List.mem_singleton]
        exact hapart y hy
      obtain ⟨h', hcopy, hadded⟩ := hchild _ a a' none _ nil child' new fuel
        (hf.congr fun y hy => hother y (hapart y hy)) hshape hfreshChild (newRoot _ a' h) rfl
        rfl trivial hnd houtside (by rw [addrs, List.length_nil]; omega)
      rw [hcopy]
      refine ⟨h', rfl, ⟨hadded.node, hadded.children, trivial⟩, fun y hy => ?_⟩
      rw [hadded.other y hy]
      exact hother y (List.ne_of_not_mem_cons hy)

/-- Every forest is copied: the rounds that are counted suffice. -/
theorem copiesChildren {f : Forest α Content} (hf : f.addrs.Nodup)
    (hleaf : f.Leaves fun c => xmlIsElement c = false) : CopiesChildren f := by
  induction f with
  | nil =>
    intro h x b q n done f' rest fuel _ hshape _ hb _ hroot hdone _ _ hfuel
    cases f' with
    | node => cases hshape
    | nil =>
      cases fuel with
      | zero => exact absurd hfuel (Nat.not_lt_zero _)
      | succ fuel =>
        refine ⟨h, rfl, ⟨?_, ?_, fun y _ => rfl⟩⟩
        · rw [append_nil, ← hroot]
          exact hb
        · rw [append_nil]
          exact hdone
  | node a c child next ihc ihn =>
    intro h x b q n done f' rest fuel hrep hshape hfresh hb helement hroot hdone hnd hapart hfuel
    obtain ⟨hach, hanext, hndc, hndn, hboth⟩ := addrs_nodup hf
    cases f' with
    | nil => cases hshape
    | node a' c' child' next' =>
      have houtside : ∀ y ∈ (node a c child next).addrs,
          y ∉ b :: (done.addrs ++ (node a' c' child' next').addrs) := by
        intro y hy hno
        rw [← List.cons_append, List.mem_append] at hno
        obtain ⟨m, hm⟩ := hrep.live hy
        rcases hno with hno | hno
        · exact hapart y hy hno
        · rw [hfresh y hno] at hm
          cases hm
      obtain ⟨ha, hchild, hnext⟩ := hrep
      obtain ⟨_, rfl, hshapeChild, hshapeNext⟩ := node.inj hshape
      have hlen := length_of_shape hshapeChild
      have htree : (node a' c' child' nil).addrs = a' :: child'.addrs := by
        rw [addrs, addrs, List.append_nil]
      have hcopies : (node a' c' child' next').addrs =
          (node a' c' child' nil).addrs ++ next'.addrs := by
        rw [htree]
        rfl
      rw [hcopies] at hnd houtside hfresh
      rw [← List.append_assoc] at hnd houtside
      have hndTree : (b :: (done.addrs ++ (node a' c' child' nil).addrs)).Nodup :=
        hnd.sublist ((List.sublist_append_left _ _).cons_cons b)
      obtain ⟨hbmem, hndCopies⟩ := List.nodup_cons.1 hndTree
      obtain ⟨_, hndCopy, hdoneApart⟩ := List.nodup_append'.1 hndCopies
      cases fuel with
      | zero => exact absurd hfuel (Nat.not_lt_zero _)
      | succ fuel =>
        rw [addrs, List.length_cons, List.length_append] at hfuel
        rw [htree] at hndCopy
        obtain ⟨h₁, hcopy, hrep₁, hother₁⟩ := xmlCopyTree_eq (next'.addrs ++ rest) fuel
          (ihc hndc hleaf.2.1) ha rfl hchild hleaf.1 hshapeChild (fun y hy => hfresh y
            (List.mem_append_left _ (htree ▸ hy))) hndCopy (by omega)
        rw [← htree] at hother₁
        have hb₁ : h₁ b = some n := by
          rw [hother₁ b fun hmem => hbmem (List.mem_append_right _ hmem)]
          exact hb
        have hdone₁ : Rep h₁ (some b) none done :=
          hdone.congr fun y hy => hother₁ y (hdoneApart hy)
        obtain ⟨h₂, hadd, hadded⟩ := xmlAddChild_eq fuel hb₁ helement hroot hdone₁ hrep₁
          (htree ▸ hndTree) (by omega)
        have hsame : ∀ y, y ∉ b :: (done.addrs ++ (node a' c' child' nil).addrs) →
            h₂ y = h y := by
          intro y hy
          rw [hadded.other y hy, hother₁ y fun hmem => hy
            (List.mem_cons_of_mem _ (List.mem_append_right _ hmem))]
        have hinside : ∀ y, y ∉ b :: (done.addrs ++ (node a' c' child' nil).addrs ++ next'.addrs) →
            y ∉ b :: (done.addrs ++ (node a' c' child' nil).addrs) := by
          intro y hy hno
          rw [List.mem_cons] at hno
          exact hy (List.mem_cons.2 (hno.imp_right (List.mem_append_left _)))
        have ha₂ : h₂ a = h a := hsame a (hinside a (houtside a List.mem_cons_self))
        have hnextOutside : ∀ y ∈ next.addrs,
            y ∉ b :: (done.append (node a' c' child' nil)).addrs := by
          intro y hy
          rw [addrs_append]
          exact hinside y (houtside y (List.mem_cons_of_mem _ (List.mem_append_right _ hy)))
        have hnext₂ : Rep h₂ (some x) (some a) next := by
          apply hnext.congr
          intro y hy
          apply hsame y
          rw [← addrs_append]
          exact hnextOutside y hy
        have hfresh₂ : ∀ y ∈ next'.addrs, h₂ y = none := by
          intro y hy
          rw [hsame y fun hno => ?_]
          · exact hfresh y (List.mem_append_right _ hy)
          · rw [← List.cons_append] at hnd
            exact (List.nodup_append'.1 hnd).2.2 hno hy
        rw [← addrs_append] at hnd
        obtain ⟨h₃, hrun, hrest⟩ := ihn hndn hleaf.2.2 h₂ x b (some a) _ _ next' rest fuel hnext₂
          hshapeNext hfresh₂ hadded.node helement rfl hadded.children hnd hnextOutside (by
            rw [addrs_append, htree, List.length_append, List.length_cons]
            omega)
        have hassoc : (done.append (node a' c' child' nil)).append next' =
            done.append (node a' c' child' next') := append_assoc _ _ _
        refine ⟨h₃, ?_, ?_, ?_, fun y hy => ?_⟩
        · rw [hcopies, htree, List.cons_append, List.cons_append, List.append_assoc, root,
            copyChildren, hcopy, Option.bind_some]
          dsimp only
          rw [hadd, Option.bind_some, ha₂, ha, Option.bind_some]
          exact hrun
        · rw [hrest.node, hassoc]
        · rw [← hassoc]
          exact hrest.children
        · rw [hcopies, ← List.append_assoc] at hy
          rw [hrest.other y ?_]
          · exact hsame y (hinside y hy)
          · rw [addrs_append]
            exact hy

theorem modify_map (ha : ∃ n, h a = some n) (g : XmlNode α → XmlNode α) :
    modify h a g = some fun y => if y = a then (h y).map g else h y := by
  obtain ⟨n, hn⟩ := ha
  rw [modify_eq hn]
  refine congrArg some (funext fun y => ?_)
  by_cases hy : y = a
  · rw [hy, Function.update_self, if_pos rfl, hn, Option.map_some]
  · rw [Function.update_of_ne hy, if_neg hy]

/-- The nodes next to a node are there, apart from some. A node that has none in front of it and no
parent has none behind it. -/
structure Beside (h : Heap α) (r : XmlNode α) (gone : List α) : Prop where
  before : ∀ y, r.before = some y → y ∉ gone ∧ ∃ n, h y = some n
  next : ∀ y, r.next = some y → y ∉ gone ∧ ∃ n, h y = some n
  alone : r.prev = none → r.parent = none → r.next = none

theorem linkNext_eq {next : Option α} (hnext : ∀ y, next = some y → ∃ n, h y = some n)
    (prev : Option α) : linkNext h next prev =
      some fun y => if next = some y then (h y).map fun n => { n with prev := prev } else h y := by
  cases next with
  | none => rfl
  | some next =>
    rw [linkNext, modify_map (hnext next rfl)]
    simp only [Option.some.injEq, eq_comm]

theorem live_map (g : XmlNode α → XmlNode α) (hb : ∃ n, h b = some n) :
    ∃ n, (if b = a then (h b).map g else h b) = some n := by
  obtain ⟨n, hn⟩ := hb
  rw [hn]
  split
  · exact ⟨g n, rfl⟩
  · exact ⟨n, rfl⟩

theorem ite_map (c : Prop) [Decidable c] (g : β → β) (o : Option β) :
    (if c then o.map g else o) = o.map fun n => if c then g n else n := by
  split
  · rfl
  · exact Option.map_id'.symm

theorem unlinkRoot_eq (hx : h x = some r) (hr : Beside h r [x]) :
    unlinkRoot h x = some (removed h r [x]) := by
  have hnext : ∀ y, r.next = some y → ∃ n, h y = some n := fun y hy => (hr.next y hy).2
  have hbefore := hr.before
  rw [Cell.before] at hbefore
  have hgone : ∀ g : Heap α, (∀ y, y ≠ x → g y = removed h r [x] y) →
      Function.update g x none = removed h r [x] := by
    intro g hg
    funext y
    by_cases hy : y = x
    · rw [hy, Function.update_self, removed_of_mem (List.mem_singleton_self x)]
    · rw [Function.update_of_ne hy, hg y hy]
  rw [unlinkRoot, hx, Option.bind_some]
  cases hprev : r.prev with
  | some p =>
    rw [hprev] at hbefore
    dsimp only
    rw [modify_map (hbefore p rfl).2, Option.bind_some,
      linkNext_eq fun y hy => live_map _ (hnext y hy), Option.map_some]
    refine congrArg some (hgone _ fun y hy => ?_)
    have hno : ¬(some p = none ∧ r.parent = some y) := fun hno => Option.some_ne_none p hno.1
    rw [removed, if_neg fun hmem => hy (List.mem_singleton.1 hmem), hprev, ite_map, ite_map,
      Option.map_map]
    refine congrArg (fun g => (h y).map g) (funext fun n => ?_)
    rw [Function.comp_apply, if_neg hno]
    by_cases hyp : y = p
    · rw [if_pos hyp, if_pos (congrArg some hyp.symm)]
      split <;> rfl
    · rw [if_neg hyp, if_neg fun he => hyp (Option.some.inj he).symm]
      split <;> rfl
  | none =>
    rw [hprev] at hbefore
    cases hparent : r.parent with
    | some parent =>
      rw [hparent] at hbefore
      dsimp only
      rw [modify_map (hbefore parent rfl).2, Option.bind_some,
        linkNext_eq fun y hy => live_map _ (hnext y hy), Option.map_some]
      refine congrArg some (hgone _ fun y hy => ?_)
      rw [removed, if_neg fun hmem => hy (List.mem_singleton.1 hmem), hprev, hparent, ite_map,
        ite_map, Option.map_map]
      refine congrArg (fun g => (h y).map g) (funext fun n => ?_)
      have hno : ¬(none : Option α) = some y := fun he => Option.some_ne_none y he.symm
      rw [Function.comp_apply, if_neg hno]
      by_cases hyp : y = parent
      · have hyes : (none : Option α) = none ∧ some parent = some y := ⟨rfl, congrArg some hyp.symm⟩
        rw [if_pos hyp, if_pos hyes]
        split <;> rfl
      · have hother : ¬((none : Option α) = none ∧ some parent = some y) :=
          fun he => hyp (Option.some.inj he.2).symm
        rw [if_neg hyp, if_neg hother]
        split <;> rfl
    | none =>
      refine congrArg some (hgone _ fun y hy => ?_)
      rw [removed_of_ne (fun hmem => hy (List.mem_singleton.1 hmem))]
      · rw [Cell.before, hprev, hparent]
        rintro ⟨⟩
      · rw [hr.alone hprev hparent]
        rintro ⟨⟩

/-- The memory without the trees below a node. -/
def cleared (h : Heap α) (x : α) (r : XmlNode α) (gone : List α) : Heap α := fun y =>
  if y = x then some { r with child := none } else if y ∈ gone then none else h y

theorem cleared_of_not_mem (hy : y ∉ x :: gone) : cleared h x r gone y = h y := by
  rw [List.mem_cons, not_or] at hy
  rw [cleared, if_neg hy.1, if_neg hy.2]

theorem xmlDeleteTree_eq (hclear : deleteChildren fuel h x = some (cleared h x r gone))
    (hr : Beside h r (x :: gone)) :
    xmlDeleteTree (fuel + 1) h x = some (removed h r (x :: gone)) := by
  have hx : cleared h x r gone x = some { r with child := none } := if_pos rfl
  have hbeside : Beside (cleared h x r gone) { r with child := none } [x] := by
    refine ⟨fun y hy => ?_, fun y hy => ?_, hr.alone⟩
    · obtain ⟨hmem, hlive⟩ := hr.before y hy
      rw [cleared_of_not_mem hmem]
      exact ⟨fun he => hmem (List.mem_singleton.1 he ▸ List.mem_cons_self), hlive⟩
    · obtain ⟨hmem, hlive⟩ := hr.next y hy
      rw [cleared_of_not_mem hmem]
      exact ⟨fun he => hmem (List.mem_singleton.1 he ▸ List.mem_cons_self), hlive⟩
  rw [xmlDeleteTree, hclear, Option.bind_some, unlinkRoot_eq hx hbeside]
  refine congrArg some (funext fun y => ?_)
  by_cases hy : y ∈ x :: gone
  · rw [removed_of_mem hy]
    by_cases hyx : y = x
    · exact removed_of_mem (List.mem_singleton.2 hyx)
    · have hgone : cleared h x r gone y = none := by
        rw [cleared, if_neg hyx, if_pos ((List.mem_cons.1 hy).resolve_left hyx)]
      rw [removed, hgone]
      exact ite_self none
  · have hyx : y ∉ [x] := fun he => hy (List.mem_singleton.1 he ▸ List.mem_cons_self)
    rw [removed, removed, if_neg hy, if_neg hyx, cleared_of_not_mem hy]

/-- The children are deleted one after the other, the first each time. -/
theorem deleteChildren_eq {f : Forest α Content} (hx : h x = some r) (hroot : r.child = f.root)
    (hf : Rep h (some x) none f) (hnd : (x :: f.addrs).Nodup)
    (hfuel : 2 * f.addrs.length < fuel) :
    deleteChildren fuel h x = some (cleared h x r f.addrs) := by
  induction f generalizing h x r fuel with
  | nil =>
    cases fuel with
    | zero => exact absurd hfuel (Nat.not_lt_zero _)
    | succ fuel =>
      rw [deleteChildren, hx, Option.bind_some, hroot]
      refine congrArg some (funext fun y => ?_)
      by_cases hyx : y = x
      · rw [hyx, cleared, if_pos rfl, hx]
        exact congrArg some (Cell.ext rfl rfl hroot rfl rfl)
      · rw [cleared, if_neg hyx]
        rfl
  | node b c child next ihc ihn =>
    obtain ⟨hb, hchild, hnext⟩ := hf
    obtain ⟨hxf, hndf⟩ := List.nodup_cons.1 hnd
    obtain ⟨hbchild, hbnext, hndc, hndn, hboth⟩ := addrs_nodup hndf
    rw [addrs, List.mem_cons, List.mem_append, not_or, not_or] at hxf
    obtain ⟨hxb, hxchild, hxnext⟩ := hxf
    rw [addrs, List.length_cons, List.length_append] at hfuel
    obtain ⟨fuel, rfl⟩ : ∃ k, fuel = k + 2 := ⟨fuel - 2, by omega⟩
    obtain ⟨rb, hprev, hparent, hrbNext, hrb⟩ : ∃ rb : XmlNode α, rb.prev = none ∧
        rb.parent = some x ∧ rb.next = next.root ∧ h b = some rb ∧ rb.child = child.root :=
      ⟨_, rfl, rfl, rfl, hb, rfl⟩
    have hbefore : ∀ y, rb.before = some y → y = x := by
      intro y hy
      rw [Cell.before, hprev, hparent] at hy
      exact (Option.some.inj hy).symm
    have hnextRoot : ∀ y, rb.next = some y → y ∈ next.addrs := by
      intro y hy
      rw [hrbNext] at hy
      exact root_mem hy
    have hgone : x ∉ b :: child.addrs := by
      rw [List.mem_cons, not_or]
      exact ⟨hxb, hxchild⟩
    have hgoneNext : ∀ y ∈ next.addrs, y ∉ b :: child.addrs := by
      intro y hy
      rw [List.mem_cons, not_or]
      exact ⟨fun he => hbnext (he ▸ hy), fun hc => hboth y hc hy⟩
    have hbelow : deleteChildren fuel h b = some (cleared h b rb child.addrs) :=
      ihc hrb.1 hrb.2 hchild (List.nodup_cons.2 ⟨hbchild, hndc⟩) (by omega)
    have hbeside : Beside h rb (b :: child.addrs) := by
      refine ⟨fun y hy => ?_, fun y hy => ?_, fun _ hno => ?_⟩
      · rw [hbefore y hy]
        exact ⟨hgone, r, hx⟩
      · exact ⟨hgoneNext y (hnextRoot y hy), hnext.live (hnextRoot y hy)⟩
      · rw [hparent] at hno
        cases hno
    have hx₂ : removed h rb (b :: child.addrs) x = some { r with child := next.root } := by
      have hnot : rb.next ≠ some x := fun he => hxnext (hnextRoot x he)
      rw [removed_of_not_mem rb hgone hx, if_pos ⟨hprev, hparent⟩, if_neg hnot, hprev, hrbNext]
      rfl
    have hrep₂ : Rep (removed h rb (b :: child.addrs)) (some x) none next := by
      apply hnext.removed_head hndn hgoneNext
      · exact fun y hy he => hxnext (Option.some.inj he ▸ hy)
      · exact fun y _ he => Option.some_ne_none y he.symm
      · exact ⟨hprev, hparent⟩
      · exact hrbNext
    have hrest : deleteChildren (fuel + 1) (removed h rb (b :: child.addrs)) x = some (cleared
        (removed h rb (b :: child.addrs)) x { r with child := next.root } next.addrs) :=
      ihn hx₂ rfl hrep₂ (List.nodup_cons.2 ⟨hxnext, hndn⟩) (by omega)
    rw [deleteChildren, hx, Option.bind_some, hroot, root]
    dsimp only
    rw [xmlDeleteTree_eq hbelow hbeside, Option.bind_some, hrest]
    refine congrArg some (funext fun y => ?_)
    rw [cleared, cleared]
    by_cases hyx : y = x
    · rw [if_pos hyx, if_pos hyx]
    · rw [if_neg hyx, if_neg hyx]
      by_cases hyn : y ∈ next.addrs
      · have hmem : y ∈ (node b c child next).addrs :=
          List.mem_cons_of_mem _ (List.mem_append_right _ hyn)
        rw [if_pos hyn, if_pos hmem]
      · have hiff : y ∈ (node b c child next).addrs ↔ y ∈ b :: child.addrs := by
          rw [addrs, ← List.cons_append, List.mem_append]
          exact or_iff_left hyn
        rw [if_neg hyn]
        by_cases hyb : y ∈ b :: child.addrs
        · rw [removed_of_mem hyb, if_pos (hiff.2 hyb)]
        · rw [removed_of_ne hyb (fun he => hyx (hbefore y he)) fun he => hyn (hnextRoot y he),
            if_neg fun hmem => hyb (hiff.1 hmem)]

end

/-- The calls, a copy with what `malloc` gives for it. -/
inductive Call (α : Type) where
  | addChild (parent child : α)
  | deleteTree (root : α)
  | copyTree (root : α) (new : List α)

/-- The memory holds trees and nothing else. -/
structure HoldsTrees (h : Heap α) (w : Forest α Content) : Prop where
  rep : Rep h none none w
  nodup : w.addrs.Nodup
  leaves : w.Leaves fun c => xmlIsElement c = false
  live : ∀ a n, h a = some n → a ∈ w.addrs

/-- The links agree: the children of a node are found from its first one, each once, and are the
nodes with that parent; neighbours know one another. -/
structure Linked (h : Heap α) : Prop where
  children : ∀ a n, h a = some n → ∃ l, Follow h n.child l ∧ l.Nodup ∧
    ∀ b, b ∈ l ↔ ∃ m, h b = some m ∧ m.parent = some a
  next : ∀ a n b, h a = some n → n.next = some b → ∃ m, h b = some m ∧ m.prev = some a
  prev : ∀ a n b, h a = some n → n.prev = some b → ∃ m, h b = some m ∧ m.next = some a

section
variable [DecidableEq α]

/-- The node is an element of the trees. -/
def elementAt (x : α) (w : Forest α Content) : Bool :=
  match w.subtree x with
  | .nil => false
  | .node _ c _ _ => xmlIsElement c

/-- The trees after a call. -/
def Call.after : Call α → Forest α Content → Forest α Content
  | .addChild parent child, w =>
    if elementAt parent (w.erase child) then (w.erase child).graft parent (w.subtree child) else w
  | .deleteTree root, w => w.erase root
  | .copyTree root new, w => ((w.subtree root).relabel new).append w

/-- A root of its own is added to a node of another tree; there is memory for a copy. -/
def Call.Allowed : Call α → Forest α Content → Prop
  | .addChild parent child, w => child ∈ w.roots ∧ parent ∈ (w.erase child).addrs
  | .deleteTree root, w => root ∈ w.addrs
  | .copyTree root new, w => root ∈ w.addrs ∧ new.Nodup ∧ (∀ a ∈ new, a ∉ w.addrs) ∧
    (w.subtree root).addrs.length ≤ new.length

/-- The memory after a call, and the node that it returns. -/
def Call.run (fuel : Nat) : Call α → Heap α → Option (Heap α × Option α)
  | .addChild parent child, h => (xmlAddChild fuel h parent child).map fun h => (h, none)
  | .deleteTree root, h => (xmlDeleteTree fuel h root).map fun h => (h, none)
  | .copyTree root new, h => (xmlCopyTree fuel h new root).map fun (copy, h, _) => (h, some copy)

/-- What a deletion leaves and what a copy is. -/
def Call.Meets : Call α → Forest α Content → Option α → Forest α Content → Prop
  | .addChild _ _, _, _, _ => True
  | .deleteTree root, w, _, w' => w'.addrs = w.addrs.filter (· ∉ (w.subtree root).addrs) ∧
    ∀ a ∈ w'.addrs, w'.children a = (w.children a).filter (· ≠ root)
  | .copyTree root _, w, ret, w' => ∃ copy : Forest α Content, w' = copy.append w ∧
    copy.root = ret ∧ copy.shape = (w.subtree root).shape ∧ ∀ a ∈ copy.addrs, a ∉ w.addrs

/-- In every state of a run the links agree, and every call returns with what is asked of it. -/
def KeepsTrees (fuel : Nat) : List (Call α) → Heap α → Forest α Content → Prop
  | [], h, w => HoldsTrees h w ∧ Linked h
  | call :: calls, h, w => HoldsTrees h w ∧ Linked h ∧ ∃ h' ret, call.run fuel h = some (h', ret) ∧
    call.Meets w ret (call.after w) ∧ KeepsTrees fuel calls h' (call.after w)

def AllowedAll : List (Call α) → Forest α Content → Prop
  | [], _ => True
  | call :: calls, w => call.Allowed w ∧ AllowedAll calls (call.after w)

end

section
variable [DecidableEq α] {h : Heap α} {w : Forest α Content} {x : α}

theorem HoldsTrees.linked (hold : HoldsTrees h w) : Linked h := by
  refine ⟨fun a n ha => ?_, fun a n b ha hb => ?_, fun a n b ha hb => ?_⟩
  · have hmem := hold.live a n ha
    obtain ⟨r, child, hr, hsub, hroot, hrep, _⟩ := hold.rep.find hold.nodup hmem
    rw [ha] at hr
    cases hr
    have hsublist := subtree_sublist w a
    rw [hsub, addrs, addrs, List.append_nil] at hsublist
    refine ⟨child.roots, ?_, ?_, fun b => ⟨fun hb => ?_, ?_⟩⟩
    · rw [hroot]
      exact hrep.follow
    · exact ((roots_sublist child).trans ((List.sublist_cons_self _ _).trans hsublist)).nodup
        hold.nodup
    · exact hrep.parent_of_root hb
    · rintro ⟨m, hm, hparent⟩
      have hin := hold.rep.mem_children (hold.live b m hm) hm hparent
      rw [← children_of_subtree hold.nodup hsub]
      exact (hin.resolve_left fun hno => Option.some_ne_none a hno.1.symm).2 hold.nodup
  · exact hold.rep.next_prev (hold.live a n ha) ha hb
  · refine (hold.rep.prev_next (hold.live a n ha) ha hb).resolve_left ?_
    rintro ⟨_, ⟨⟩, _⟩

theorem HoldsTrees.delete (hold : HoldsTrees h w) (hx : x ∈ w.addrs)
    (hfuel : 2 * w.addrs.length < fuel) :
    ∃ h', xmlDeleteTree fuel h x = some h' ∧ HoldsTrees h' (w.erase x) := by
  obtain ⟨r, child, hr, hsub, hroot, hrep, hnext, hplace⟩ := hold.rep.find hold.nodup hx
  have htree : (w.subtree x).addrs = x :: child.addrs := by
    rw [hsub, addrs, addrs, List.append_nil]
  have hsublist := subtree_sublist w x
  rw [htree] at hsublist
  have hlen := hsublist.length_le
  rw [List.length_cons] at hlen
  have hnone : ∀ y : α, none ≠ some y := fun y he => Option.some_ne_none y he.symm
  have houtside : ∀ y, r.before = some y ∨ r.next = some y → y ∉ x :: child.addrs := by
    intro y hy
    rw [← htree]
    exact hold.rep.outside hold.nodup (fun y _ => hnone y) (fun y _ => hnone y) hx hr hy
  have hbeside : Beside h r (x :: child.addrs) := by
    refine ⟨fun y hy => ⟨houtside y (.inl hy), ?_⟩, fun y hy => ⟨houtside y (.inr hy), ?_⟩,
      fun _ hparent => hold.rep.alone hx hr hparent⟩
    · rcases hplace with ⟨_, hprev, hparent, _⟩ | ⟨_, hbefore⟩
      · rw [Cell.before, hprev, hparent] at hy
        cases hy
      · exact hold.rep.live (hbefore y hy)
    · exact hold.rep.live (hnext y hy)
  obtain ⟨fuel, rfl⟩ : ∃ k, fuel = k + 1 := ⟨fuel - 1, by omega⟩
  have hclear := deleteChildren_eq hr hroot hrep (hsublist.nodup hold.nodup)
    (by omega : 2 * child.addrs.length < fuel)
  refine ⟨_, xmlDeleteTree_eq hclear hbeside, ?_, ?_, ?_, fun a n ha => ?_⟩
  · rw [← htree]
    exact hold.rep.erase hold.nodup (fun y _ => hnone y) (fun y _ => hnone y) hx hr
  · exact (erase_sublist w x).nodup hold.nodup
  · exact leaves_erase hold.leaves x
  · by_cases hmem : a ∈ x :: child.addrs
    · rw [removed_of_mem hmem] at ha
      cases ha
    · rw [removed, if_neg hmem] at ha
      obtain ⟨m, hm, _⟩ := Option.map_eq_some_iff.1 ha
      have hin := (perm_erase w x).mem_iff.1 (hold.live a m hm)
      rw [htree, List.mem_append] at hin
      exact hin.resolve_left hmem

theorem HoldsTrees.add {parent child : α} (hold : HoldsTrees h w) (hchild : child ∈ w.roots)
    (hparent : parent ∈ (w.erase child).addrs) (hfuel : w.addrs.length < fuel) :
    ∃ h', xmlAddChild fuel h parent child = some h' ∧
      HoldsTrees h' ((Call.addChild parent child).after w) := by
  have hperm := perm_erase w child
  have hndBoth := hperm.nodup_iff.1 hold.nodup
  obtain ⟨_, hndRest, hapart⟩ := List.nodup_append'.1 hndBoth
  have hrest := hold.rep.erase_root hold.nodup hchild
  obtain ⟨c, t, htree, hrepTree⟩ := hold.rep.root_tree hold.nodup hchild
  obtain ⟨n, f, hn, hsub, hroot, hrepChildren, _⟩ := hrest.find hndRest hparent
  have hleavesTree := leaves_subtree hold.leaves child
  have hleavesRest := leaves_erase hold.leaves child
  rw [Call.after, elementAt, hsub]
  dsimp only
  by_cases helement : xmlIsElement n.content = true
  · have hsublist := subtree_sublist (w.erase child) parent
    rw [hsub, addrs, addrs, List.append_nil] at hsublist
    rw [htree, addrs, addrs, List.append_nil] at hapart hperm
    rw [htree] at hleavesTree
    have hnd : (parent :: (f.addrs ++ child :: t.addrs)).Nodup := by
      rw [← List.cons_append, List.nodup_append']
      refine ⟨hsublist.nodup hndRest, ?_, fun y hy hno => hapart hno (hsublist.subset hy)⟩
      rw [htree, addrs, addrs, List.append_nil] at hndBoth
      exact (List.nodup_append'.1 hndBoth).1
    have hlen := hsublist.length_le
    have hlenRest := (erase_sublist w child).length_le
    rw [List.length_cons] at hlen
    obtain ⟨h', hadd, hadded⟩ := xmlAddChild_eq fuel hn helement hroot hrepChildren hrepTree hnd
      (by omega)
    rw [if_pos helement, htree]
    refine ⟨h', hadd, ?_, ?_, ?_, fun a m ha => ?_⟩
    · apply hrest.graft hndRest hsub hn hadded.node hadded.children
      intro y hy hno
      apply hadded.other y
      rw [← List.cons_append, List.mem_append, addrs, addrs, List.append_nil]
      exact fun hmem => hmem.elim hno fun hmem => hapart hmem hy
    · rw [(perm_graft hparent hndRest _).nodup_iff]
      rw [htree] at hndBoth
      exact List.perm_append_comm.nodup_iff.1 hndBoth
    · apply leaves_graft hndRest hleavesRest hsub _ hleavesTree
      rw [helement]
      exact Bool.noConfusion
    · rw [(perm_graft hparent hndRest _).mem_iff, addrs, addrs, List.append_nil]
      by_cases hmem : a ∈ parent :: (f.addrs ++ (node child c t nil).addrs)
      · rw [← List.cons_append, List.mem_append, addrs, addrs, List.append_nil] at hmem
        exact List.mem_append.2 (hmem.imp_left fun hin => hsublist.subset hin)
      · rw [hadded.other a hmem] at ha
        have hin := hperm.mem_iff.1 (hold.live a m ha)
        exact List.perm_append_comm.mem_iff.1 hin
  · refine ⟨h, ?_, ?_⟩
    · rw [xmlAddChild, hn, Option.bind_some, if_neg helement]
    · rw [if_neg helement]
      exact hold

theorem HoldsTrees.copy {root : α} {new : List α} (hold : HoldsTrees h w) (hx : root ∈ w.addrs)
    (hnew : new.Nodup) (hfresh : ∀ a ∈ new, a ∉ w.addrs)
    (hlen : (w.subtree root).addrs.length ≤ new.length) (hfuel : 2 * w.addrs.length < fuel) :
    ∃ h' copy rest, xmlCopyTree fuel h new root = some (copy, h', rest) ∧
      ((w.subtree root).relabel new).root = some copy ∧
        HoldsTrees h' (((w.subtree root).relabel new).append w) := by
  obtain ⟨r, child, hr, hsub, hroot, hrep, _⟩ := hold.rep.find hold.nodup hx
  have hsublist := subtree_sublist w root
  have hleaves := leaves_subtree hold.leaves root
  have hshape := shape_relabel (w.subtree root) hlen
  rw [hsub] at hsublist hleaves hlen ⊢
  rw [addrs, addrs, List.append_nil] at hsublist hlen
  have hlenTree := hsublist.length_le
  rw [List.length_cons] at hlen hlenTree
  cases new with
  | nil => exact absurd hlen (Nat.not_succ_le_zero _)
  | cons a l =>
    rw [List.length_cons] at hlen
    have hlenChild : child.addrs.length ≤ l.length := Nat.le_of_succ_le_succ hlen
    have haddrs := addrs_relabel child hlenChild
    have hlist : a :: l = a :: ((child.relabel l).addrs ++ l.drop child.addrs.length) := by
      rw [haddrs, List.take_append_drop]
    have hcopySub : (a :: (child.relabel l).addrs).Sublist (a :: l) := by
      rw [haddrs]
      exact (List.take_sublist _ l).cons_cons a
    have hcopyFresh : ∀ y ∈ a :: (child.relabel l).addrs, h y = none := by
      intro y hy
      cases hy' : h y with
      | none => rfl
      | some n => exact absurd (hold.live y n hy') (hfresh y (hcopySub.subset hy))
    obtain ⟨h', hcopy, hrepCopy, hother⟩ := xmlCopyTree_eq (l.drop child.addrs.length) fuel
      (copiesChildren (hsublist.nodup hold.nodup).of_cons hleaves.2.1) hr hroot hrep hleaves.1
      (shape_relabel child hlenChild) hcopyFresh (hcopySub.nodup hnew) (by omega)
    rw [← hlist] at hcopy
    have htree : ((node root r.content child nil).relabel (a :: l)).append w =
        node a r.content (child.relabel l) w := by
      rw [relabel]
      cases l.drop child.addrs.length <;> rfl
    have hw : Rep h' none (some a) w := by
      apply (hold.rep.root_prev (some a)).congr
      intro y hy
      exact hother y fun hmem => hfresh y (hcopySub.subset hmem) hy
    rw [htree]
    refine ⟨h', a, _, hcopy, rfl, ⟨hrepCopy.1, hrepCopy.2.1, hw⟩, ?_, ?_, fun y n hy => ?_⟩
    · rw [addrs, ← List.cons_append, List.nodup_append']
      exact ⟨hcopySub.nodup hnew, hold.nodup, fun y hy => hfresh y (hcopySub.subset hy)⟩
    · refine ⟨fun hleaf => ?_, ?_, hold.leaves⟩
      · rw [hleaves.1 hleaf]
        cases l <;> rfl
      · exact leaves_of_shape (shape_relabel child hlenChild) hleaves.2.1
    · rw [addrs, ← List.cons_append, List.mem_append]
      by_cases hmem : y ∈ a :: (child.relabel l).addrs
      · exact .inl hmem
      · rw [hother y hmem] at hy
        exact .inr (hold.live y n hy)

theorem run_holds (call : Call α) (hold : HoldsTrees h w) (hallowed : call.Allowed w)
    (hfuel : 2 * w.addrs.length < fuel) : ∃ h' ret, call.run fuel h = some (h', ret) ∧
      call.Meets w ret (call.after w) ∧ HoldsTrees h' (call.after w) := by
  cases call with
  | addChild parent child =>
    obtain ⟨h', hrun, hold'⟩ := hold.add hallowed.1 hallowed.2 (by omega : w.addrs.length < fuel)
    refine ⟨h', none, ?_, trivial, hold'⟩
    rw [Call.run, hrun]
    rfl
  | deleteTree root =>
    obtain ⟨h', hrun, hold'⟩ := hold.delete hallowed hfuel
    refine ⟨h', none, ?_, ⟨addrs_erase hold.nodup, fun a ha => ?_⟩, hold'⟩
    · rw [Call.run, hrun]
      rfl
    · apply children_erase hold.nodup
      rw [Call.after, addrs_erase hold.nodup, List.mem_filter, decide_eq_true_iff] at ha
      exact ha.2
  | copyTree root new =>
    obtain ⟨hroot, hnew, hfresh, hlen⟩ := hallowed
    obtain ⟨h', copy, rest, hrun, hret, hold'⟩ := hold.copy hroot hnew hfresh hlen hfuel
    refine ⟨h', some copy, ?_, ⟨_, rfl, hret, shape_relabel _ hlen, fun a ha => ?_⟩, hold'⟩
    · rw [Call.run, hrun]
      rfl
    · rw [addrs_relabel _ hlen] at ha
      exact hfresh a (List.mem_of_mem_take ha)

end

/-- In every run of allowed calls on trees the links stay in agreement, a deletion leaves all other
nodes in order and a copy has the shape of its tree and no node of another. -/
theorem calls_keep [DecidableEq α] (calls : List (Call α)) (w : Forest α Content)
    (allowed : AllowedAll calls w) :
    ∃ n, ∀ fuel, n ≤ fuel → ∀ h, HoldsTrees h w → KeepsTrees fuel calls h w := by
  induction calls generalizing w with
  | nil => exact ⟨0, fun fuel _ h hold => ⟨hold, hold.linked⟩⟩
  | cons call calls ih =>
    obtain ⟨n, hn⟩ := ih (call.after w) allowed.2
    refine ⟨max (2 * w.addrs.length + 1) n, fun fuel hfuel h hold => ?_⟩
    rw [max_le_iff] at hfuel
    obtain ⟨h', ret, hrun, hmeets, hold'⟩ := run_holds call hold allowed.1 hfuel.1
    exact ⟨hold, hold.linked, h', ret, hrun, hmeets, hn fuel hfuel.2 h' hold'⟩

/-- An element and a text apart: the text is added, the tree copied, the text deleted. -/
theorem calls_keep_two : ∃ h : Heap Nat, ∃ n, ∀ fuel, n ≤ fuel →
    KeepsTrees fuel [.addChild 0 1, .copyTree 0 [2, 3], .deleteTree 1] h
      (node 0 (.element none ⟨[97], by decide⟩ none none) nil
        (node 1 (.text ⟨[98], by decide⟩) nil nil)) := by
  obtain ⟨n, hn⟩ := calls_keep
    (w := node 0 (.element none ⟨[97], by decide⟩ none none) nil
      (node 1 (.text ⟨[98], by decide⟩) nil nil))
    [.addChild 0 1, .copyTree 0 [2, 3], .deleteTree 1]
    ⟨by unfold Call.Allowed; decide, by unfold Call.Allowed; decide,
      by unfold Call.Allowed; decide, trivial⟩
  refine ⟨fun a => if a = 0 then
    some ⟨.element none ⟨[97], by decide⟩ none none, none, none, none, none⟩
    else if a = 1 then some ⟨.text ⟨[98], by decide⟩, none, none, none, none⟩ else none, n,
    fun fuel hfuel => hn fuel hfuel _ ⟨⟨rfl, trivial, rfl, trivial, trivial⟩, by decide,
      ⟨fun _ => rfl, trivial, fun _ => rfl, trivial, trivial⟩, fun a m ha => ?_⟩⟩
  split at ha
  case isTrue ha₀ =>
    subst ha₀
    exact List.mem_cons_self
  case isFalse =>
    split at ha
    case isTrue ha₁ =>
      subst ha₁
      exact List.mem_cons_of_mem _ List.mem_cons_self
    case isFalse => cases ha

end BigBox.Xml
