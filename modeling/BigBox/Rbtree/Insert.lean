import BigBox.Rbtree.Linked

namespace BigBox.Rbtree
open RedBlack
set_option autoImplicit true

/-- The memory holds a red-black tree with these nodes in order. -/
def Holds (m : Mem) (nodes : List Ptr) : Prop :=
  ∃ t n, Represents m t ∧ WellColored t .black n ∧ t.toList = nodes

theorem Node.side_of (h : near ≠ far) :
    (if (Node.of d par c near far).lchild = near then Side.left else .right) = d := by
  cases d with
  | left => exact if_pos rfl
  | right => exact if_neg h.symm

theorem isBlack_root {m : Mem} (h : Linked m.node par t) (hb : WellColored t c n) :
    m.isBlack t.root = decide (c = .black) := by
  cases hb with
  | nil => rfl
  | red _ _ => simp [Mem.isBlack, RBTree.root, h.1]
  | black _ _ => simp [Mem.isBlack, RBTree.root, h.1]

theorem setRootBlack_holds (h : Represents m t) (hb : WellColored t c n) (hr : t.root ≠ none) :
    ∃ m', setRootBlack m = some m' ∧ Holds m' t.toList := by
  cases t with
  | nil => exact (hr rfl).elim
  | node c' l a r =>
    obtain ⟨k, hk⟩ := hb.blacken
    have hrun : setRootBlack m = some (rbtreeSetBlack a m) := by
      rw [setRootBlack, h.root]
      rfl
    have hrep : Represents (rbtreeSetBlack a m) (.node .black l a r) :=
      Represents.setColor (d := .left) (p := []) h .black
    exact ⟨_, hrun, _, k, hrep, hk, rfl⟩

theorem root_plug_ne (hx : t.root = some x) (p : List (Frame Ptr)) : (plug t p).root ≠ none := by
  induction p generalizing t x with
  | nil => exact hx ▸ Option.some_ne_none x
  | cons f p ih => exact ih (RBTree.root_join _)

/-- The loop ends at a node whose parent is black. -/
theorem insertColor_black (n : Nat) (h : Represents m (plug (.join d .black t a s) p))
    (hx : t.root = some x) (hb : WellColored (plug (.join d .black t a s) p) c k) :
    ∃ m', rbtreeInsertColor (n + 1) x m = some m' ∧
      Holds m' (plug (.join d .black t a s) p).toList := by
  have hparent : (m.node x).parent = some a := h.parent (p := ⟨d, .black, a, s⟩ :: p) hx
  obtain ⟨m', hrun, hm'⟩ := setRootBlack_holds h hb (root_plug_ne (RBTree.root_join d) p)
  refine ⟨m', ?_, hm'⟩
  simp only [rbtreeInsertColor, hparent, h.node, Node.color_of, ↓reduceIte, hrun]

/-- The recolouring of a red parent and a red uncle. -/
theorem Represents.recolor
    (h : Represents m (plug (.join e .black (.join d .red t a s) g (.join f .red l u r)) p)) :
    Represents (rbtreeSetRed g (rbtreeSetBlack a (rbtreeSetBlack u m)))
      (plug (.join e .red (.join d .black t a s) g (.join f .black l u r)) p) :=
  ((h.setColorFar .black).setColorNear .black).setColor .red

/-- The last rotation, with the parent recoloured to black and the grandparent to red. -/
theorem Represents.rotateUp
    (h : Represents m (plug (.join e .black (.join e .red t a s) g u) p)) :
    ∃ m', rbtreeRotate e.other g (rbtreeSetRed g (rbtreeSetBlack a m)) = some m' ∧
      Represents m' (plug (.join e .black t a (.join e.other .red u g s)) p) := by
  have hg := (h.setColorNear .black).setColor .red
  rw [← RBTree.join_other, ← RBTree.join_other e] at hg
  obtain ⟨m', hrun, hm'⟩ := hg.rotate
  rw [RBTree.join_other] at hm'
  exact ⟨m', hrun, hm'⟩

/-- The loop ends behind the last rotation. -/
theorem insertColor_rotateUp (n : Nat)
    (h : Represents m (plug (.join e .black (.join e .red t a s) g u) p))
    (hx : t.root = some x) (ht : WellColored t .red k) (hs : WellColored s .black k)
    (hu : WellColored u .black k) (hp : Expects p .black (k + 1)) :
    ∃ m₁ m', rbtreeRotate e.other g (rbtreeSetRed g (rbtreeSetBlack a m)) = some m₁ ∧
      rbtreeInsertColor (n + 1) x m₁ = some m' ∧
      Holds m' (plug (.join e .black (.join e .red t a s) g u) p).toList := by
  obtain ⟨m₁, hrot, h₁⟩ := h.rotateUp
  obtain ⟨k', hb⟩ := hp.plug (ht.join_black (hu.join_red hs))
  obtain ⟨m', hrun, hm'⟩ := insertColor_black n h₁ hx hb
  refine ⟨m₁, m', hrot, hrun, ?_⟩
  have hlist : (RBTree.join e .black t a (.join e.other .red u g s)).toList =
      (RBTree.join e .black (.join e .red t a s) g u).toList := by
    rw [RBTree.join_other]
    exact (RBTree.toList_rotate e t s u).symm
  rw [toList_plug_congr hlist p] at hm'
  exact hm'

/-- A red parent with a black uncle: one or two rotations end the repair. -/
theorem insertColor_rotate (n : Nat)
    (h : Represents m (plug (.join e .black (.join d .red t a s) g u) p))
    (hx : t.root = some x) (ht : WellColored t .red k) (hs : WellColored s .black k)
    (hu : WellColored u .black k) (hp : Expects p .black (k + 1)) :
    ∃ m', rbtreeInsertColor (n + 2) x m = some m' ∧
      Holds m' (plug (.join e .black (.join d .red t a s) g u) p).toList := by
  have ha' : Represents m (plug (.join d .red t a s) (⟨e, .black, g, u⟩ :: p)) := h
  have hx' : Represents m (plug t (⟨d, .red, a, s⟩ :: ⟨e, .black, g, u⟩ :: p)) := h
  have hparent : (m.node x).parent = some a := hx'.parent hx
  have ha : m.node a = Node.of d (some g) .red (some x) s.root := hx ▸ ha'.node
  have hg : m.node g = Node.of e (top none p) .black (some a) u.root :=
    h.node.trans (by rw [RBTree.root_join])
  have hside := h.roots_ne (RBTree.root_join d)
  have huncle : m.isBlack u.root = true := (isBlack_root h.far hu).trans (decide_eq_true rfl)
  simp only [rbtreeInsertColor, hparent, ha, Node.color_of, Node.parent_of, hg,
    Node.side_of hside, huncle, Option.bind_eq_bind, Option.bind_some, Node.child_other_of,
    reduceCtorEq, ↓reduceIte]
  by_cases hd : d = e
  · subst hd
    obtain ⟨m₁, m', hrot, hrun, hm'⟩ := insertColor_rotateUp n h hx ht hs hu hp
    have hinner : s.root ≠ some x := (ha'.roots_ne hx).symm
    simp only [Node.child_other_of, if_neg hinner, Option.bind_some, hrot]
    exact ⟨m', hrun, hm'⟩
  · have hd' : d = e.other := by
      revert hd
      cases d <;> cases e <;> simp [Side.other]
    subst hd'
    obtain ⟨v, y, w, rfl, hv, hw⟩ := ht.red_cases e
    rw [RBTree.root_join, Option.some.injEq] at hx
    subst hx
    rw [RBTree.join_other] at ha'
    obtain ⟨m₀, hrot₀, h₀⟩ := ha'.rotate
    have h₁ : Represents m₀ (plug (.join e .black (.join e .red (.join e .red s a v) y w) g u) p) :=
      h₀
    obtain ⟨m₁, m', hrot, hrun, hm'⟩ :=
      insertColor_rotateUp n h₁ (RBTree.root_join e) (hs.join_red hv) hw hu hp
    simp only [Node.child_of, if_true, hrot₀, Option.map_some, Option.bind_some, hrot]
    refine ⟨m', hrun, ?_⟩
    have hlist : (RBTree.join e .red (.join e .red s a v) y w).toList =
        (RBTree.join e.other .red (.join e .red v y w) a s).toList := by
      rw [RBTree.join_other]
      exact RBTree.toList_rotate e s v w
    have hplug : (plug (.join e .black (.join e .red (.join e .red s a v) y w) g u) p).toList =
        (plug (.join e .black (.join e.other .red (.join e .red v y w) a s) g u) p).toList :=
      toList_plug_congr hlist (⟨e, .black, g, u⟩ :: p)
    rw [← hplug]
    exact hm'

/-- A red parent with a red uncle: the repair goes on at the grandparent. -/
theorem insertColor_recolor (n : Nat)
    (h : Represents m (plug (.join e .black (.join d .red t a s) g (.join f .red l v r)) p))
    (hx : t.root = some x) (hl : WellColored l .black k) (hr : WellColored r .black k)
    (ih : Represents (rbtreeSetRed g (rbtreeSetBlack a (rbtreeSetBlack v m)))
        (plug (.join e .red (.join d .black t a s) g (.join f .black l v r)) p) →
      ∃ m', rbtreeInsertColor n g (rbtreeSetRed g (rbtreeSetBlack a (rbtreeSetBlack v m))) =
        some m' ∧
      Holds m' (plug (.join e .red (.join d .black t a s) g (.join f .black l v r)) p).toList) :
    ∃ m', rbtreeInsertColor (n + 1) x m = some m' ∧
      Holds m' (plug (.join e .black (.join d .red t a s) g (.join f .red l v r)) p).toList := by
  obtain ⟨m', hrun, hm'⟩ := ih h.recolor
  refine ⟨m', ?_, ?_⟩
  · have hx' : Represents m
        (plug t (⟨d, .red, a, s⟩ :: ⟨e, .black, g, .join f .red l v r⟩ :: p)) := h
    have ha' : Represents m (plug (.join d .red t a s) (⟨e, .black, g, .join f .red l v r⟩ :: p)) :=
      h
    have hparent : (m.node x).parent = some a := hx'.parent hx
    have ha : m.node a = Node.of d (some g) .red (some x) s.root := hx ▸ ha'.node
    have hg : m.node g = Node.of e (top none p) .black (some a) (some v) :=
      h.node.trans (by rw [RBTree.root_join, RBTree.root_join])
    have hside := h.roots_ne (RBTree.root_join d)
    rw [RBTree.root_join] at hside
    have huncle : m.isBlack (some v) = false :=
      RBTree.root_join f ▸ (isBlack_root h.far (hl.join_red hr)).trans (decide_eq_false nofun)
    simp only [rbtreeInsertColor, hparent, ha, Node.color_of, Node.parent_of, hg,
      Node.side_of hside, huncle, Option.bind_eq_bind, Option.bind_some, Node.child_other_of,
      reduceCtorEq, ↓reduceIte, hrun]
  · have hlist : (RBTree.join e .red (.join d .black t a s) g (.join f .black l v r)).toList =
        (RBTree.join e .black (.join d .red t a s) g (.join f .red l v r)).toList := by
      cases d <;> cases e <;> cases f <;> rfl
    rw [← toList_plug_congr hlist p]
    exact hm'

/-- The repair loop completes the tree around a red node whose place takes a black one. -/
theorem insertColor_holds (hn : p.length < n) (h : Represents m (plug t p))
    (hx : t.root = some x) (ht : WellColored t .red k) (hp : Expects p .black k) :
    ∃ m', rbtreeInsertColor n x m = some m' ∧ Holds m' (plug t p).toList := by
  induction n generalizing m t p x k with
  | zero => exact (Nat.not_lt_zero _ hn).elim
  | succ n ih =>
    cases hp with
    | root =>
      obtain ⟨m', hrun, hm'⟩ := setRootBlack_holds h ht (root_plug_ne hx [])
      refine ⟨m', ?_, hm'⟩
      have hparent : (m.node x).parent = none := h.parent hx
      simp only [rbtreeInsertColor, hparent, hrun]
    | black hs hp =>
      obtain ⟨k', hb⟩ := hp.plug (ht.join_black hs)
      exact insertColor_black n h hx hb
    | @red s _ p d a hs hp =>
      cases hp with
      | @black u c _ p e g _ hu hp =>
        cases hu with
        | nil =>
          obtain ⟨n, rfl⟩ : ∃ n', n = n' + 1 := ⟨n - 1, by simp at hn; omega⟩
          exact insertColor_rotate n h hx ht hs .nil hp
        | black hl hr =>
          obtain ⟨n, rfl⟩ : ∃ n', n = n' + 1 := ⟨n - 1, by simp at hn; omega⟩
          exact insertColor_rotate n h hx ht hs (.black hl hr) hp
        | @red l _ r v hl hr =>
          have hlen : p.length < n := by
            simp only [List.length_cons] at hn
            omega
          exact insertColor_recolor (f := .left) n h hx hl hr fun h₁ =>
            ih hlen h₁ (RBTree.root_join e) ((ht.join_black hs).join_red (hl.join_black hr)) hp

/-- The link at the end of a path. -/
def linkOf : List (Frame Ptr) → Option (Ptr × Side)
  | [] => none
  | f :: _ => some (f.elem, f.side)

/-- The loop ends at a missing child, on the way the key demands. -/
theorem findLink_path (goes : Ptr → Side) (h : Represents m (plug t p))
    (hp : ∀ f ∈ p, f.side = goes f.elem) (hn : t.toList.length ≤ n) :
    ∃ q, plug t p = plug .nil q ∧ (∀ f ∈ q, f.side = goes f.elem) ∧
      findLink goes n t.root (linkOf p) m = some (linkOf q) := by
  induction n generalizing t p with
  | zero =>
    cases t with
    | nil => exact ⟨p, rfl, hp, rfl⟩
    | node c l a r =>
      rw [RBTree.toList, List.length_append, List.length_cons] at hn
      omega
  | succ n ih =>
    cases ht : t.root with
    | none =>
      cases t with
      | nil => exact ⟨p, rfl, hp, rfl⟩
      | node c l a r => cases ht
    | some a =>
      obtain ⟨c, near, far, rfl⟩ := RBTree.exists_join (goes a) ht
      have hchild : (m.node a).child (goes a) = near.root := by rw [h.node, Node.child_of]
      have hlen : near.toList.length ≤ n := by
        rw [(toList_join_perm ..).length_eq, List.length_append, List.length_cons] at hn
        omega
      have hp' : ∀ f ∈ (⟨goes a, c, a, far⟩ : Frame Ptr) :: p, f.side = goes f.elem := by
        intro f hf
        rcases List.mem_cons.1 hf with rfl | hf
        · rfl
        · exact hp f hf
      obtain ⟨q, hq, hside, hrun⟩ := ih (p := ⟨goes a, c, a, far⟩ :: p) h hp' hlen
      refine ⟨q, hq, hside, ?_⟩
      rw [findLink, hchild]
      exact hrun

/-- A node is linked at a missing child. -/
theorem linkNode_represents (h : Represents m (plug .nil q)) (hx : x ∉ elems q) :
    Represents (rbtreeLinkNode x (linkOf q) m) (plug (.node .red .nil x .nil) q) := by
  obtain ⟨hroot, _, hpath, _, hnq, _⟩ := represents_plug.1 h
  let fresh : Node := ⟨(linkOf q).map Prod.fst, .red, none, none⟩
  have hpath₁ : LinkedPath (m.modify x fun _ => fresh).node none none q := hpath.modify hx
  have hfresh : (m.modify x fun _ => fresh).node x = fresh := node_modify m x fun _ => fresh
  have hnx : (RBTree.node .red .nil x .nil).toList.Nodup := List.nodup_singleton x
  have hd : ∀ v ∈ (RBTree.node .red .nil x .nil).toList, v ∉ elems q := fun v hv =>
    List.mem_singleton.1 hv ▸ hx
  cases q with
  | nil =>
    exact represents_plug.2 ⟨rfl, ⟨hfresh, trivial, trivial⟩, trivial, hnx, hnq, hd⟩
  | cons f q =>
    refine represents_plug.2 ⟨hroot, ⟨?_, trivial, trivial⟩, ?_, hnx, hnq, hd⟩
    · have hxf : x ≠ f.elem := fun he => hx (he ▸ List.mem_cons_self)
      exact (node_modify_ne _ (fun n => n.setChild f.side (some x)) hxf).trans hfresh
    · exact hpath₁.setChild (List.nodup_cons.1 hnq).1 (some x)

/-- A node linked at a missing child becomes part of a red-black tree. -/
theorem linkNode_holds (hn : q.length < n) (h : Represents m (plug .nil q))
    (hb : WellColored (plug .nil q) .black k) (hx : x ∉ elems q) :
    ∃ m', rbtreeInsertColor n x (rbtreeLinkNode x (linkOf q) m) = some m' ∧
      Holds m' (before q ++ x :: behind q) := by
  obtain ⟨c, k', hnil, hp⟩ := hb.unplug
  cases hnil
  obtain ⟨m', hrun, hm'⟩ := insertColor_holds hn (linkNode_represents h hx) rfl
    (.red .nil .nil) hp
  refine ⟨m', hrun, ?_⟩
  rw [toList_plug] at hm'
  simpa only [RBTree.toList, List.nil_append, List.append_assoc, List.singleton_append] using hm'

theorem toList_plug_nil (q : List (Frame Ptr)) :
    (plug .nil q).toList = before q ++ behind q := by
  rw [toList_plug, RBTree.toList, List.append_nil]

/-- `insert` puts a new node where its key demands. -/
theorem insert_holds (hn : nodes.length < n) (goes : Ptr → Side) (h : Holds m nodes)
    (hx : x ∉ nodes) :
    ∃ m' q, insert n goes x m = some m' ∧ nodes = before q ++ behind q ∧
      (∀ f ∈ q, f.side = goes f.elem) ∧ Holds m' (before q ++ x :: behind q) := by
  obtain ⟨t, k, hrep, hb, rfl⟩ := h
  obtain ⟨q, hq, hside, hrun⟩ := findLink_path (p := []) goes hrep nofun (Nat.le_of_lt hn)
  rw [plug] at hq
  subst hq
  have hlen : q.length < n := by
    have := length_path .nil q
    omega
  obtain ⟨m', hrun', hm'⟩ := linkNode_holds hlen hrep hb fun hv => hx (mem_plug.2 (.inr hv))
  refine ⟨m', q, ?_, toList_plug_nil q, hside, hm'⟩
  rw [insert, hrep.root]
  exact (congrArg (Option.bind · _) hrun).trans hrun'

end BigBox.Rbtree
