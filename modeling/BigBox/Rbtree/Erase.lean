import BigBox.Rbtree.EraseColor

namespace BigBox.Rbtree
open RedBlack
set_option autoImplicit true

/-- What is left to repair after a node of this color has left its place to `t`. -/
theorem eraseFix_holds (hn : p.length < n) (h : Represents m (plug t p)) (ht : WellColored t c' k)
    (hp : Expects p c (k + c.height)) (hc : c = .red → c' = .black) :
    ∃ m', eraseFix n c t.root (top none p) m = some m' ∧ Holds m' (plug t p).toList := by
  cases c with
  | black => exact eraseColor_holds hn h ht hp
  | red =>
    obtain rfl := hc rfl
    obtain ⟨k', hb⟩ := hp.weaken.plug ht
    exact ⟨m, rfl, _, k', h, hb, rfl⟩

/-- A node without a child on side `d` is taken out. -/
theorem eraseLeaf_holds (hn : p.length < n) (h : Represents m (plug (.join d c .nil x t) p))
    (hb : WellColored (plug (.join d c .nil x t) p) .black k) :
    ∃ m', eraseLeaf n x t.root m = some m' ∧ Holds m' (plug t p).toList := by
  obtain ⟨hroot, htree, hpath, hnt, hnp, hd⟩ := represents_plug.1 h
  obtain ⟨hx, _, ht⟩ := (linked_join d).1 htree
  obtain ⟨_, hnt', _, _, _⟩ := (nodup_join d).1 hnt
  rw [RBTree.root_join] at hroot hpath
  have hxp : x ∉ elems p := hd x ((mem_join d).2 (.inl rfl))
  have htp : ∀ q ∈ t.toList, q ∉ elems p := fun q hq => hd q ((mem_join d).2 (.inr (.inr hq)))
  let m₁ := setParentIf t.root (top none p) m
  have hrep : Represents (replaceChild .left (top none p) x t.root m₁) (plug t p) := by
    refine represents_plug.2 ⟨?_, ?_, ?_, hnt', hnp, htp⟩
    · exact rbNode_replaceChild .left x ((rbNode_setParentIf _ _ m).trans hroot)
    · exact (ht.setParentIf hnt').replaceChild_apart fun q hq => top_ne (htp q hq)
    · have hpath₁ : LinkedPath m₁.node none (some x) p :=
        hpath.setParentIf_apart fun q hq => root_ne fun hqt => htp q hqt hq
      exact hpath₁.replaceChild hnp hxp
  have hrun : eraseLeaf n x t.root m =
      eraseFix n c t.root (top none p) (replaceChild .left (top none p) x t.root m₁) := by
    rw [eraseLeaf, hx, Node.parent_of, Node.color_of]
  obtain ⟨c', k', hb', hp⟩ := hb.unplug
  obtain ⟨rfl, _, _, ct, rfl, hnil, ht, hc⟩ := hb'.of_join
  rw [hrun]
  exact eraseFix_holds hn hrep ht hp fun hred => (hc hred).2

/-- The last node of a tree on side `d`, with the path to it, and that `descend` finds it. -/
def EndsIn (d : Side) (m : Mem) (t : RBTree Ptr) (a : Ptr) : Prop :=
  ∃ c y s q, t = plug (.join d c .nil y s) q ∧ (∀ f ∈ q, f.side = d) ∧
    ∀ n, q.length < n → descend d n a m = some y

theorem endsIn_join (d : Side) (h : Linked m.node par (.join d c s a t))
    (ih : ∀ b, s.root = some b → EndsIn d m s b) : EndsIn d m (.join d c s a t) a := by
  have ha : (m.node a).child d = s.root := by rw [((linked_join d).1 h).1, Node.child_of]
  cases s with
  | nil =>
    refine ⟨c, a, t, [], rfl, nofun, fun n hn => ?_⟩
    cases n with
    | zero => exact (Nat.not_lt_zero _ hn).elim
    | succ n =>
      rw [descend, ha]
      rfl
  | node c' l b r =>
    obtain ⟨c₀, y, u, q, hq, hside, hrun⟩ := ih b rfl
    refine ⟨c₀, y, u, q ++ [⟨d, c, a, t⟩], ?_, ?_, fun n hn => ?_⟩
    · rw [plug_append, ← hq]
      rfl
    · intro f hf
      rcases List.mem_append.1 hf with hf | hf
      · exact hside f hf
      · rw [List.mem_singleton.1 hf]
    · cases n with
      | zero => exact (Nat.not_lt_zero _ hn).elim
      | succ n =>
        rw [List.length_append] at hn
        rw [descend, ha]
        exact hrun n (Nat.lt_of_succ_lt_succ hn)

/-- A tree that is not empty has a last node on each side. -/
theorem endsIn (d : Side) (h : Linked m.node par t) (ht : t.root = some a) : EndsIn d m t a := by
  induction t generalizing par a with
  | nil => cases ht
  | node c l b r ihl ihr =>
    cases ht
    obtain ⟨_, hl, hr⟩ := id h
    cases d with
    | left => exact endsIn_join .left h fun b hb => ihl hl hb
    | right => exact endsIn_join .right h fun b hb => ihr hr hb

/-- The memory after the successor `y` of `x` has left its place in the right subtree, which is
`r` then. -/
structure Unlinked (m : Mem) (x y : Ptr) (c : Color) (l : RBTree Ptr)
    (r₀ : Option Ptr) (r : RBTree Ptr) (p : List (Frame Ptr)) : Prop where
  root : m.rbNode = rootOf (some y) p
  old : m.node x = ⟨top none p, c, r₀, l.root⟩
  rchild : (m.node y).rchild = r.root
  left : Linked m.node (some x) l
  right : Linked m.node (some y) r
  path : LinkedPath m.node none (some y) p

theorem node_takeFields (m : Mem) (y : Ptr) (par : Option Ptr) (c : Color) (l : Option Ptr) :
    ((rbtreeSetColor y c (rbtreeSetParent y par m)).setChild y .left l).node y =
      ⟨par, c, (m.node y).rchild, l⟩ := by
  simp only [rbtreeSetColor, rbtreeSetParent, Mem.setChild, node_modify, Node.setChild]

theorem takePlace_represents (h : Unlinked m x y c l r₀ r p)
    (hn : (plug (.node c l y r) p).toList.Nodup) (hxy : x ≠ y) (hl : l.root = some b) :
    ∃ m', takePlace x y m = some m' ∧ Represents m' (plug (.node c l y r) p) := by
  obtain ⟨hnt, hnp, hd⟩ := (nodup_plug _ p).1 hn
  obtain ⟨hnl, hnr, hyl, hyr, hlr⟩ := nodup_node.1 hnt
  have hyp : y ∉ elems p := hd y (mem_node.2 (.inl rfl))
  have hlp : ∀ q ∈ l.toList, q ∉ elems p := fun q hq => hd q (mem_node.2 (.inr (.inl hq)))
  let m₁ := rbtreeSetParent y (m.node x).parent m
  let m₂ := rbtreeSetColor y (m₁.node x).color m₁
  let m₃ := m₂.setChild y .left (m₂.node x).lchild
  have hx₁ : m₁.node x = m.node x := node_modify_ne m _ hxy
  have hx₂ : m₂.node x = m.node x := (node_modify_ne m₁ _ hxy).trans hx₁
  have hx₃ : m₃.node x = m.node x := (node_modify_ne m₂ _ hxy).trans hx₂
  have hrun : takePlace x y m = some (setParentIf l.root (some y) m₃) := by
    have hchild : (m₃.node x).lchild = some b := by rw [hx₃, h.old, hl]
    rw [hl]
    exact congrArg (Option.bind · fun lchild => some (rbtreeSetParent lchild (some y) m₃)) hchild
  have hy₃ : m₃.node y =
      ⟨(m.node x).parent, (m₁.node x).color, (m.node y).rchild, (m₂.node x).lchild⟩ :=
    node_takeFields m y _ _ _
  refine ⟨_, hrun, represents_plug.2 ⟨?_, ⟨?_, ?_, ?_⟩, ?_, hnt, hnp, hd⟩⟩
  · exact (rbNode_setParentIf _ _ m₃).trans h.root
  · rw [node_setParentIf_ne _ _ (root_ne hyl), hy₃, hx₂, hx₁, h.old, h.rchild]
  · exact (((h.left.modify hyl).modify hyl).modify hyl).setParentIf hnl
  · exact (((h.right.modify hyr).modify hyr).modify hyr).setParentIf_apart fun q hq =>
      root_ne fun hql => hlr q hql hq
  · exact (((h.path.modify hyp).modify hyp).modify hyp).setParentIf_apart fun q hq =>
      root_ne fun hql => hlp q hql hq

/-- The successor is the right child itself. -/
theorem unlinkSuccessor_child (h : Represents m (plug (.node c l x (.node cy .nil y r)) p))
    (hm₁ : m₁ = replaceChild .left (top none p) x (some y) m) :
    unlinkSuccessor x y m₁ = some (y, m₁) ∧ Unlinked m₁ x y c l (some y) r p := by
  obtain ⟨hroot, ⟨hx, hl, hy, _, hr⟩, hpath, hnt, hnp, hd⟩ := represents_plug.1 h
  simp only [mem_node] at hd
  have hxp : x ∉ elems p := hd x (.inl rfl)
  have hyp : y ∉ elems p := hd y (.inr (.inr (.inl rfl)))
  have hx₁ : m₁.node x = m.node x := hm₁ ▸ node_replaceChild_ne m _ _ _ (top_ne hxp)
  have hy₁ : m₁.node y = m.node y := hm₁ ▸ node_replaceChild_ne m _ _ _ (top_ne hyp)
  refine ⟨?_, ?_, hx₁.trans hx, by rw [hy₁, hy], ?_, ?_, ?_⟩
  · simp only [unlinkSuccessor, hy₁, hy, if_true]
  · exact hm₁ ▸ rbNode_replaceChild .left x hroot
  · exact hm₁ ▸ hl.replaceChild_apart fun q hq => top_ne (hd q (.inr (.inl hq)))
  · exact hm₁ ▸ hr.replaceChild_apart fun q hq => top_ne (hd q (.inr (.inr (.inr (.inr hq)))))
  · exact hm₁ ▸ hpath.replaceChild hnp hxp

/-- The successor is further down: it leaves its place to its right child. -/
theorem unlinkSuccessor_inner
    (h : Represents m (plug (.node c l x (plug (.node cy .nil y r) (f :: q))) p))
    (hside : f.side = .left) (hm₁ : m₁ = replaceChild .left (top none p) x (some y) m) :
    ∃ m', unlinkSuccessor x y m₁ = some (f.elem, m') ∧
      Unlinked m' x y c l (plug r (f :: q)).root (plug r (f :: q)) p := by
  obtain ⟨hroot, ⟨hx, hl, hright⟩, hpath, hnt, hnp, hd⟩ := represents_plug.1 h
  obtain ⟨_, hnright, hxl, hxr, hlr⟩ := nodup_node.1 hnt
  obtain ⟨⟨hy, _, hr⟩, hq⟩ := (linked_plug _ _).1 hright
  obtain ⟨hny, hnq, hyq⟩ := (nodup_plug _ _).1 hnright
  obtain ⟨_, hnr, _, hyr, _⟩ := nodup_node.1 hny
  simp only [mem_node, mem_plug] at hd hlr hxr hyq
  have hxp : x ∉ elems p := hd x (.inl rfl)
  have hlp : ∀ v ∈ l.toList, v ∉ elems p := fun v hv => hd v (.inr (.inl hv))
  have hrp : ∀ v ∈ r.toList, v ∉ elems p := fun v hv =>
    hd v (.inr (.inr (.inl (.inr (.inr hv)))))
  have hqp : ∀ v ∈ elems (f :: q), v ∉ elems p := fun v hv => hd v (.inr (.inr (.inr hv)))
  have hyp : y ∉ elems p := hd y (.inr (.inr (.inl (.inl rfl))))
  have hyq' : y ∉ elems (f :: q) := hyq y (.inl rfl)
  have hrq : ∀ v ∈ r.toList, v ∉ elems (f :: q) := fun v hv => hyq v (.inr (.inr hv))
  have hz : f.elem ∈ elems (f :: q) := List.mem_cons_self
  have hxz : x ≠ f.elem := fun he => hxr (.inr (he ▸ hz))
  have hxy : x ≠ y := fun he => hxr (.inl (.inl he))
  have hlz : f.elem ∉ l.toList := fun hv => hlr f.elem hv (.inr hz)
  have hly : y ∉ l.toList := fun hv => hlr y hv (.inl (.inl rfl))
  have hrz : f.elem ∉ r.toList := fun hv => hrq f.elem hv hz
  obtain ⟨b, hb⟩ : ∃ b, (plug r (f :: q)).root = some b :=
    Option.ne_none_iff_exists'.1 (root_plug_ne (RBTree.root_join f.side) q)
  have hroots : (plug (.node cy .nil y r) (f :: q)).root = some b := by
    rw [← hb, root_plug, root_plug]
    rfl
  have hbr : b ∈ (plug r (f :: q)).toList := RBTree.root_mem hb
  have hb' : b ∈ r.toList ∨ b ∈ elems (f :: q) := mem_plug.1 hbr
  let m₂ := setParentIf r.root (some f.elem) m₁
  let m₃ := m₂.setChild f.elem .left r.root
  let m₄ := m₃.setChild y .right (m₃.node x).rchild
  have hx₃ : m₃.node x = m.node x :=
    calc m₃.node x = m₂.node x := node_modify_ne m₂ _ hxz
      _ = m₁.node x := node_setParentIf_ne m₁ _ (root_ne fun hv => hxr (.inl (.inr (.inr hv))))
      _ = m.node x := hm₁ ▸ node_replaceChild_ne m _ _ _ (top_ne hxp)
  have hx₄ : m₄.node x = m.node x := (node_modify_ne m₃ _ hxy).trans hx₃
  have hy₁ : m₁.node y = ⟨some f.elem, cy, r.root, none⟩ := by
    rw [hm₁, node_replaceChild_ne m _ _ _ (top_ne hyp), hy]
    rfl
  have hrun : unlinkSuccessor x y m₁ = some (f.elem, setParentIf (some b) (some y) m₄) := by
    have hchild : (m₄.node x).rchild = some b := by rw [hx₄, hx, hroots]
    have hne : some f.elem ≠ some x := fun he => hxz (Option.some.inj he).symm
    simp only [unlinkSuccessor, hy₁, if_neg hne, Option.bind_eq_bind, Option.bind_some]
    exact congrArg (Option.bind · fun rchild => some (f.elem, rbtreeSetParent rchild (some y) m₄))
      hchild
  have hr₄ : Linked m₄.node (some f.elem) r := by
    have hr₁ : Linked m₁.node (some y) r :=
      hm₁ ▸ hr.replaceChild_apart fun v hv => top_ne (hrp v hv)
    exact ((hr₁.setParentIf hnr).modify hrz).modify hyr
  have hq₄ : LinkedPath m₄.node (some x) r.root (f :: q) := by
    have hq₁ : LinkedPath m₁.node (some x) (some y) (f :: q) :=
      hm₁ ▸ hq.replaceChild_apart fun v hv => top_ne (hqp v hv)
    have hq₂ : LinkedPath m₂.node (some x) (some y) (f :: q) :=
      hq₁.setParentIf_apart fun v hv => root_ne fun hvr => hrq v hvr hv
    have hq₃ : LinkedPath m₃.node (some x) r.root (f :: q) := by
      have hset := hq₂.setChild (List.nodup_cons.1 hnq).1 r.root
      rw [hside] at hset
      exact hset
    exact hq₃.modify hyq'
  have hplug : Linked m₄.node (some x) (plug r (f :: q)) := (linked_plug _ _).2 ⟨hr₄, hq₄⟩
  have hnplug : (plug r (f :: q)).toList.Nodup := (nodup_plug _ _).2 ⟨hnr, hnq, hrq⟩
  have hyb : some b ≠ some y := fun he => by
    rcases hb' with hv | hv
    · exact hyr (Option.some.inj he ▸ hv)
    · exact hyq' (Option.some.inj he ▸ hv)
  have hxb : some b ≠ some x := fun he => by
    rcases hb' with hv | hv
    · exact hxr (.inl (.inr (.inr (Option.some.inj he ▸ hv))))
    · exact hxr (.inr (Option.some.inj he ▸ hv))
  refine ⟨_, hrun, ?_, ?_, ?_, ?_, hb ▸ hplug.setParentIf hnplug, ?_⟩
  · exact (rbNode_setParentIf _ _ m₄).trans ((rbNode_setParentIf _ _ m₁).trans
      (hm₁ ▸ rbNode_replaceChild .left x hroot))
  · exact (node_setParentIf_ne m₄ _ hxb).trans (hx₄.trans (by rw [hx, hroots, hb]))
  · have hy₄ : m₄.node y = (m₃.node y).setChild .right (m₃.node x).rchild := node_modify m₃ y _
    rw [node_setParentIf_ne m₄ _ hyb, hy₄, hx₃, hx, hroots, hb]
    rfl
  · have hl₂ : Linked m₂.node (some x) l :=
      Linked.setParentIf_apart (hm₁ ▸ hl.replaceChild_apart fun v hv => top_ne (hlp v hv))
        fun v hv => root_ne fun hvr => hlr v hv (.inl (.inr (.inr hvr)))
    exact ((hl₂.modify hlz).modify hly).setParentIf_apart fun v hv he =>
      hlr v hv (Option.some.inj he ▸ hb'.imp_left fun h => .inr (.inr h))
  · have hp₂ : LinkedPath m₂.node none (some y) p :=
      LinkedPath.setParentIf_apart (hm₁ ▸ hpath.replaceChild hnp hxp)
        fun v hv => root_ne fun hvr => hrp v hvr hv
    have hbp : ∀ v ∈ elems p, some b ≠ some v := fun v hv he => by
      rcases hb' with hbr | hbq
      · exact hrp b hbr (Option.some.inj he ▸ hv)
      · exact hqp b hbq (Option.some.inj he ▸ hv)
    exact ((hp₂.modify (hqp f.elem hz)).modify hyp).setParentIf_apart hbp

/-- The successor leaves its place in the right subtree. -/
theorem unlinkSuccessor_unlinked
    (h : Represents m (plug (.node c l x (plug (.node cy .nil y r) q)) p))
    (hside : ∀ f ∈ q, f.side = .left) (hm₁ : m₁ = replaceChild .left (top none p) x (some y) m) :
    ∃ parent m' r₀, unlinkSuccessor x y m₁ = some (parent, m') ∧
      top none (q ++ ⟨.right, c, y, l⟩ :: p) = some parent ∧
      Unlinked m' x y c l r₀ (plug r q) p := by
  cases q with
  | nil =>
    obtain ⟨hrun, hunlinked⟩ := unlinkSuccessor_child h hm₁
    exact ⟨y, m₁, some y, hrun, rfl, hunlinked⟩
  | cons f q =>
    obtain ⟨m', hrun, hunlinked⟩ := unlinkSuccessor_inner h (hside f List.mem_cons_self) hm₁
    exact ⟨f.elem, m', _, hrun, rfl, hunlinked⟩

/-- A node with two children is taken out. -/
theorem eraseInner_holds (hn : (plug (.node c l x r) p).toList.length < n)
    (h : Represents m (plug (.node c l x r) p))
    (hb : WellColored (plug (.node c l x r) p) .black k)
    (hl : l.root = some a) (hr : r.root = some b) :
    ∃ m', eraseInner n x m = some m' ∧
      Holds m' (before p ++ (l.toList ++ r.toList) ++ behind p) := by
  obtain ⟨_, ⟨hx, _, hright⟩, _, _, _, hd⟩ := represents_plug.1 h
  obtain ⟨cy, y, s, q, rfl, hside, hrun⟩ := endsIn .left hright hr
  have hsplit : ∀ v u, plug (.node c l v (plug u q)) p = plug u (q ++ ⟨.right, c, v, l⟩ :: p) :=
    fun v u => by
      rw [plug_append]
      rfl
  have hlist : (plug (.join .left cy .nil y s) q).toList = y :: (plug s q).toList := by
    rw [toList_plug, toList_plug, before_left hside]
    rfl
  have hy : m.node y = Node.of .left (top none (q ++ ⟨.right, c, x, l⟩ :: p)) cy none s.root := by
    rw [hsplit] at h
    exact h.node
  have hyp : y ∉ elems p :=
    hd y (mem_node.2 (.inr (.inr (hlist ▸ List.mem_cons_self))))
  obtain ⟨parent, m₂, r₀, hunlink, htop, hunlinked⟩ :=
    unlinkSuccessor_unlinked h hside rfl
  have hnode := h.nodup
  have hnew : (plug (.node c l y (plug s q)) p).toList =
      before p ++ (l.toList ++ y :: (plug s q).toList) ++ behind p := toList_plug _ _
  have hold : (plug (.node c l x (plug (.join .left cy .nil y s) q)) p).toList =
      before p ++ (l.toList ++ x :: y :: (plug s q).toList) ++ behind p := by
    rw [← hlist]
    exact toList_plug _ _
  have hsub : (plug (.node c l y (plug s q)) p).toList.Sublist
      (plug (.node c l x (plug (.join .left cy .nil y s) q)) p).toList := by
    rw [hnew, hold]
    exact (((List.sublist_cons_self x _).append_left _).append_left _).append_right _
  have hxy : x ≠ y := by
    have hx' := (nodup_node.1 ((nodup_plug _ p).1 h.nodup).1).2.2.2.1
    rw [hlist] at hx'
    exact fun he => hx' (he ▸ List.mem_cons_self)
  obtain ⟨m₃, htake, hrep⟩ := takePlace_represents hunlinked (h.nodup.sublist hsub) hxy hl
  have hlen : (q ++ ⟨.right, c, x, l⟩ :: p).length < n := by
    have := length_path (.join .left cy .nil y s) (q ++ ⟨.right, c, x, l⟩ :: p)
    rw [← hsplit] at this
    omega
  rw [hsplit] at hrep hb hnew
  obtain ⟨c', k', hb', hp⟩ := hb.unplug
  obtain ⟨rfl, _, _, ct, rfl, hnil, hs, hc⟩ := hb'.of_join
  have hlen' : (q ++ ⟨.right, c, y, l⟩ :: p).length < n := by
    rw [List.length_append] at hlen ⊢
    exact hlen
  obtain ⟨m', hfix, hm'⟩ := eraseFix_holds hlen' hrep hs (hp.replace y) fun hred => (hc hred).2
  refine ⟨m', ?_, ?_⟩
  · have hqn : q.length < n := by
      rw [List.length_append] at hlen
      omega
    have hy₁ := node_replaceChild_ne m .left x (some y) (top_ne hyp)
    simp only [eraseInner, hx, hr, Option.bind_eq_bind, Option.bind_some, hrun n hqn, hy₁, hy,
      hunlink, htake]
    rw [← htop]
    exact hfix
  · rw [hlist, ← hnew]
    exact hm'

/-- `rbtree_erase` takes a node out of its tree. -/
theorem rbtreeErase_holds (hn : nodes.length < n) (h : Holds m nodes) (hx : x ∈ nodes) :
    ∃ m', rbtreeErase n x m = some m' ∧ Holds m' (nodes.erase x) := by
  obtain ⟨t, k, hrep, hb, rfl⟩ := h
  obtain ⟨c, l, r, p, rfl⟩ := exists_plug hx
  have hlen : p.length < n := by
    have := length_path (.node c l x r) p
    omega
  have hnode : m.node x = ⟨top none p, c, r.root, l.root⟩ := (represents_plug.1 hrep).2.1.1
  have hlist : (plug (.node c l x r) p).toList.erase x =
      before p ++ (l.toList ++ r.toList) ++ behind p := by
    have hn := hrep.nodup
    have hsplit : (plug (.node c l x r) p).toList =
        (before p ++ l.toList) ++ x :: (r.toList ++ behind p) := by
      rw [toList_plug]
      simp only [RBTree.toList, List.append_assoc, List.cons_append]
    rw [hsplit] at hn ⊢
    have hx : x ∉ before p ++ l.toList := fun hx =>
      (List.nodup_append.1 hn).2.2 x hx x List.mem_cons_self rfl
    rw [List.erase_append_right _ hx, List.erase_cons_head]
    simp only [List.append_assoc]
  rw [hlist]
  cases l with
  | nil =>
    obtain ⟨m', hrun, hm'⟩ := eraseLeaf_holds (d := .left) hlen hrep hb
    rw [toList_plug] at hm'
    refine ⟨m', ?_, hm'⟩
    have hl : (RBTree.nil : RBTree Ptr).root = none := rfl
    simp only [rbtreeErase, hnode, hl, hrun]
  | node cl ll a rl =>
    cases r with
    | nil =>
      obtain ⟨m', hrun, hm'⟩ := eraseLeaf_holds (d := .right) hlen hrep hb
      rw [toList_plug] at hm'
      refine ⟨m', ?_, ?_⟩
      · rw [RBTree.root] at hrun
        simp only [rbtreeErase, hnode, RBTree.root, hrun]
      · rw [RBTree.toList.eq_def .nil, List.append_nil]
        exact hm'
    | node cr lr b rr =>
      obtain ⟨m', hrun, hm'⟩ := eraseInner_holds hn hrep hb rfl rfl
      exact ⟨m', by simp only [rbtreeErase, hnode, RBTree.root, hrun], hm'⟩

end BigBox.Rbtree
