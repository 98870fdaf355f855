import BigBox.Rbtree.Insert

namespace BigBox.Rbtree
open RedBlack
set_option autoImplicit true

/-- A black root stays as it is. -/
theorem Holds.setBlackIf (h : Holds m nodes) : Holds (setBlackIf m.rbNode m) nodes := by
  obtain ⟨t, n, hrep, hb, hlist⟩ := h
  rw [hrep.root]
  cases hb with
  | nil => exact ⟨_, _, hrep, .nil, hlist⟩
  | black hl hr =>
    exact ⟨_, _, Represents.setColor (d := .left) (p := []) hrep .black, .black hl hr, hlist⟩

/-- The last rotation gives back the missing black node. -/
theorem Represents.lastRotation
    (h : Represents m (plug (.join d c t a (.join d .black v b (.join d .red w y u))) p))
    (ht : WellColored t .black k) (hv : WellColored v cv k) (hw : WellColored w .black k)
    (hu : WellColored u .black k) (hp : Expects p c (k + 1 + c.height)) :
    ∃ m', rbtreeRotate d a (rbtreeSetBlack y (rbtreeSetBlack a (rbtreeSetColor b c m))) = some m' ∧
      Holds m' (plug (.join d c t a (.join d .black v b (.join d .red w y u))) p).toList := by
  have ha := ((h.setColorFar c).setColor .black)
  rw [plug_far] at ha
  have hy := ha.setColorFar .black
  rw [← plug_far] at hy
  obtain ⟨m', hrun, hm'⟩ := hy.rotate
  obtain ⟨n, hb⟩ := hp.plug ((ht.join_black hv).join (hw.join_black hu))
  refine ⟨m', hrun, _, n, hm', hb, toList_plug_congr ?_ p⟩
  cases d <;> simp [RBTree.join, RBTree.toList]

/-- The color and the far child the last rotation reads. -/
theorem lastRotation_reads
    (h : Represents m (plug (.join d c t a (.join d .black v b (.join d .red w y u))) p)) :
    (m.node a).color = c ∧ ((rbtreeSetBlack a (rbtreeSetColor b c m)).node b).child d.other =
      some y := by
  have ha := (h.setColorFar c).setColor .black
  rw [plug_far] at ha
  have hb := ha.node
  exact ⟨by rw [h.node, Node.color_of], by
    rw [rbtreeSetBlack, hb, Node.child_other_of, RBTree.root_join]⟩

/-- The rotation at the sibling makes its child on the far side red. -/
theorem redFarChild_rotate
    (h : Represents m (plug (.join d c t a (.join d .black (.join d .red v y u) b w)) p))
    (hw : WellColored w .black k) :
    ∃ m', redFarChild d a b m = some (y, m') ∧
      Represents m' (plug (.join d c t a (.join d .black v y (.join d .red u b w))) p) := by
  rw [plug_far] at h
  have hb := h.node
  have hfar : m.isBlack w.root = true := isBlack_root h.far hw
  have hred := (h.setColorNear .black).setColor .red
  rw [← RBTree.join_other d, ← RBTree.join_other d .black] at hred
  obtain ⟨m', hrun, hm'⟩ := hred.rotate
  rw [RBTree.join_other, RBTree.join_other, ← plug_far] at hm'
  have hchild : (m'.node a).child d.other = some y := by
    rw [hm'.node, Node.child_other_of, RBTree.root_join]
  refine ⟨m', ?_, hm'⟩
  rw [RBTree.root_join] at hb
  simp only [redFarChild, hb, Node.child_other_of, hfar, if_true, Node.child_of,
    Option.bind_eq_bind, Option.bind_some, rbtreeSetRed, rbtreeSetBlack, hrun, hchild]
  rfl

/-- A sibling with a red child: one or two rotations end the repair. -/
theorem lastRotation_holds (h : Represents m (plug (.join d c t a (.join d .black v b w)) p))
    (ht : WellColored t .black k) (hv : WellColored v cv k) (hw : WellColored w cw k)
    (hp : Expects p c (k + 1 + c.height)) (hred : ¬ (cv = .black ∧ cw = .black)) :
    ∃ m', Rbtree.lastRotation d a b m = some m' ∧
      Holds m' (plug (.join d c t a (.join d .black v b w)) p).toList := by
  have hb' := h
  rw [plug_far] at hb'
  have hb := hb'.node
  have hfar : m.isBlack w.root = decide (cw = .black) := isBlack_root hb'.far hw
  cases cw with
  | red =>
    obtain ⟨w₁, y, w₂, rfl, hw₁, hw₂⟩ := hw.red_cases d
    obtain ⟨m', hrun, hm'⟩ := h.lastRotation ht hv hw₁ hw₂ hp
    obtain ⟨hcolor, hchild⟩ := lastRotation_reads h
    refine ⟨m', ?_, hm'⟩
    rw [RBTree.root_join] at hfar hb
    simp only [Rbtree.lastRotation, redFarChild, hb, Node.child_other_of, hfar, reduceCtorEq,
      decide_false, Bool.false_eq_true, ↓reduceIte, Option.bind_eq_bind, Option.bind_some, hcolor,
      hchild, hrun]
  | black =>
    cases cv with
    | black => exact (hred ⟨rfl, rfl⟩).elim
    | red =>
      obtain ⟨v₁, y, v₂, rfl, hv₁, hv₂⟩ := hv.red_cases d
      obtain ⟨m₁, hrun₁, h₁⟩ := redFarChild_rotate h hw
      obtain ⟨m', hrun, hm'⟩ := h₁.lastRotation ht hv₁ hv₂ hw hp
      obtain ⟨hcolor, hchild⟩ := lastRotation_reads h₁
      refine ⟨m', ?_, ?_⟩
      · simp only [Rbtree.lastRotation, hrun₁, Option.bind_eq_bind, Option.bind_some, hcolor,
          hchild, hrun]
      · have hlist : (RBTree.join d c t a (.join d .black v₁ y (.join d .red v₂ b w))).toList =
            (RBTree.join d c t a (.join d .black (.join d .red v₁ y v₂) b w)).toList := by
          cases d <;> simp [RBTree.join, RBTree.toList]
        rw [← toList_plug_congr hlist p]
        exact hm'

/-- The round of the loop for a black sibling with black children, or with a red child. -/
theorem eraseColor_sibling (n : Nat)
    (h : Represents m (plug (.join d c t a (.join d .black v b w)) p))
    (ht : WellColored t .black k) (hv : WellColored v cv k) (hw : WellColored w cw k)
    (hp : Expects p c (k + 1 + c.height))
    (ih : ∀ m', Represents m' (plug (.join d c t a (.join d .red v b w)) p) →
      WellColored v .black k → WellColored w .black k →
      ∃ m'', rbtreeEraseColor n (some a) (top none p) m' = some m'' ∧
        Holds m'' (plug (.join d c t a (.join d .red v b w)) p).toList) :
    ∃ m', (if m.isBlack ((m.node b).child d) ∧ m.isBlack ((m.node b).child d.other) then
        rbtreeEraseColor n (some a) ((rbtreeSetRed b m).node a).parent (rbtreeSetRed b m)
      else (Rbtree.lastRotation d a b m).map fun m => setBlackIf m.rbNode m) = some m' ∧
      Holds m' (plug (.join d c t a (.join d .black v b w)) p).toList := by
  have hb' := h
  rw [plug_far] at hb'
  have hnear : m.isBlack v.root = decide (cv = .black) := isBlack_root hb'.near hv
  have hfar : m.isBlack w.root = decide (cw = .black) := isBlack_root hb'.far hw
  simp only [hb'.node, Node.child_of, Node.child_other_of, hnear, hfar, decide_eq_true_iff]
  by_cases hblack : cv = .black ∧ cw = .black
  · obtain ⟨rfl, rfl⟩ := hblack
    have hred := h.setColorFar .red
    obtain ⟨m', hrun, hm'⟩ := ih _ hred hv hw
    refine ⟨m', ?_, ?_⟩
    · have hparent : ((rbtreeSetRed b m).node a).parent = top none p := by
        rw [rbtreeSetRed, hred.node, Node.parent_of]
      rw [if_pos ⟨rfl, rfl⟩, hparent]
      exact hrun
    · have hlist : (RBTree.join d c t a (.join d .red v b w)).toList =
          (RBTree.join d c t a (.join d .black v b w)).toList := by
        cases d <;> rfl
      rw [← toList_plug_congr hlist p]
      exact hm'
  · rw [if_neg hblack]
    obtain ⟨m', hrun, hm'⟩ := lastRotation_holds h ht hv hw hp hblack
    exact ⟨_, by rw [hrun]; rfl, hm'.setBlackIf⟩

/-- The loop ends at a red node, which becomes black. -/
theorem eraseColor_red (n : Nat) (h : Represents m (plug (.join d .red s a t) p))
    (hb : WellColored (plug (.join d .black s a t) p) .black k) (par : Option Ptr) :
    ∃ m', rbtreeEraseColor (n + 1) (some a) par m = some m' ∧
      Holds m' (plug (.join d .red s a t) p).toList := by
  refine ⟨rbtreeSetBlack a m, ?_, _, _, h.setColor .black, hb, ?_⟩
  · have hred : m.isBlack (some a) = false := by
      rw [Mem.isBlack, Option.all_some, h.node, Node.color_of]
      rfl
    simp only [rbtreeEraseColor, hred, Bool.false_eq_true, false_and, ↓reduceIte]
    rfl
  · exact toList_plug_congr (RBTree.toList_recolor ..) p

theorem rootOf_mem (h : rootOf (some a) p = some x) : x = a ∨ x ∈ elems p := by
  induction p generalizing a with
  | nil => exact .inl (Option.some.inj h).symm
  | cons f p ih =>
    rcases ih h with rfl | hx
    · exact .inr List.mem_cons_self
    · exact .inr (List.mem_cons_of_mem _ (List.mem_append_right _ hx))

theorem rootOf_ne_none (a : Ptr) (p : List (Frame Ptr)) : rootOf (some a) p ≠ none := by
  induction p generalizing a with
  | nil => exact nofun
  | cons f p ih => exact ih f.elem

/-- A subtree on a side is not the whole tree. -/
theorem Represents.ne_rbNode (h : Represents m (plug (.join d c t a s) p)) : t.root ≠ m.rbNode := by
  obtain ⟨hroot, _, _, hnt, _, hd⟩ := represents_plug.1 h
  rw [hroot, RBTree.root_join]
  intro he
  cases ht : t.root with
  | none => exact rootOf_ne_none a p (he ▸ ht)
  | some x =>
    have hx : x ∈ t.toList := RBTree.root_mem ht
    rcases rootOf_mem (he ▸ ht) with rfl | hxp
    · exact ((nodup_join d).1 hnt).2.2.1 hx
    · exact hd x ((mem_join d).2 (.inr (.inl hx))) hxp

/-- A sibling that is higher than the subtree next to it is not missing. -/
theorem Represents.sides_ne (h : Represents m (plug (.join d c t a s) p))
    (hs : WellColored s c' (k + 1)) : t.root ≠ s.root := by
  cases ht : t.root with
  | some x => exact h.roots_ne ht
  | none =>
    cases hs with
    | red _ _ => exact nofun
    | black _ _ => exact nofun

/-- The first round of the loop for a black node that is not the root. -/
theorem eraseColor_round (n : Nat) (h : Represents m (plug (.join d c t a s) p))
    (ht : WellColored t .black k) (hs : WellColored s c' (k + 1)) (hb : s.root = some b) :
    rbtreeEraseColor (n + 1) t.root (some a) m =
      (blackSibling d a b m).bind fun (other, m) =>
        if m.isBlack ((m.node other).child d) ∧ m.isBlack ((m.node other).child d.other) then
          rbtreeEraseColor n (some a) ((rbtreeSetRed other m).node a).parent (rbtreeSetRed other m)
        else (Rbtree.lastRotation d a other m).map fun m => setBlackIf m.rbNode m := by
  have hblack : m.isBlack t.root = true := isBlack_root h.near ht
  have hside : (if (m.node a).lchild = t.root then Side.left else .right) = d := by
    rw [h.node]
    exact Node.side_of (h.sides_ne hs)
  have hother : (m.node a).child d.other = some b := by rw [h.node, Node.child_other_of, hb]
  simp only [rbtreeEraseColor, hblack, h.ne_rbNode, ne_eq, not_false_eq_true, and_self, if_true,
    Option.bind_eq_bind, Option.bind_some, hside, hother]

theorem blackSibling_black (h : Represents m (plug (.join d c t a (.join d .black v b w)) p)) :
    blackSibling d a b m = some (b, m) := by
  rw [plug_far] at h
  have hcolor : (m.node b).color ≠ .red := by
    rw [h.node, Node.color_of]
    exact nofun
  rw [blackSibling, if_neg hcolor]

/-- A red sibling goes up, its child takes its place. -/
theorem blackSibling_rotate
    (h : Represents m (plug (.join d .black t a (.join d .red v b w)) p)) (hv : v.root = some x) :
    ∃ m', blackSibling d a b m = some (x, m') ∧
      Represents m' (plug (.join d .red t a v) (⟨d, .black, b, w⟩ :: p)) := by
  obtain ⟨m', hrun, hm'⟩ := ((h.setColorFar .black).setColor .red).rotate
  refine ⟨m', ?_, hm'⟩
  rw [plug_far] at h
  have hcolor : (m.node b).color = .red := by rw [h.node, Node.color_of]
  have ha : Represents m' (plug (.join d .red t a v) (⟨d, .black, b, w⟩ :: p)) := hm'
  have hchild : (m'.node a).child d.other = some x := by rw [ha.node, Node.child_other_of, hv]
  simp only [blackSibling, if_pos hcolor, rbtreeSetRed, rbtreeSetBlack, Option.bind_eq_bind, hrun,
    Option.bind_some, hchild]
  rfl

/-- A round whose sibling is black, with what the next round does. -/
theorem eraseColor_blackSibling (n : Nat) (h : Represents m (plug (.join d c t a s) p))
    (ht : WellColored t .black k) (hs : WellColored s .black (k + 1))
    (hp : Expects p c (k + 1 + c.height))
    (ih : ∀ m' s', WellColored s' .red k → Represents m' (plug (.join d c t a s') p) →
      ∃ m'', rbtreeEraseColor n (some a) (top none p) m' = some m'' ∧
        Holds m'' (plug (.join d c t a s') p).toList) :
    ∃ m', rbtreeEraseColor (n + 1) t.root (some a) m = some m' ∧
      Holds m' (plug (.join d c t a s) p).toList := by
  obtain ⟨v, b, w, cv, cw, rfl, hv, hw⟩ := hs.black_cases d
  rw [eraseColor_round n h ht hs (RBTree.root_join d), blackSibling_black h, Option.bind_some]
  exact eraseColor_sibling n h ht hv hw hp fun m' hm' hv hw => ih m' _ (hv.join_red hw) hm'

/-- The repair loop completes the tree around a subtree that lacks one black node. -/
theorem eraseColor_holds (hn : p.length < n) (h : Represents m (plug t p))
    (ht : WellColored t c k) (hp : Expects p .black (k + 1)) :
    ∃ m', rbtreeEraseColor n t.root (top none p) m = some m' ∧ Holds m' (plug t p).toList := by
  induction n generalizing m t p c k with
  | zero => exact (Nat.not_lt_zero _ hn).elim
  | succ n ih =>
    cases c with
    | red =>
      obtain ⟨s, a, u, rfl, hs, hu⟩ := ht.red_cases .left
      obtain ⟨k', hb⟩ := hp.plug (hs.join_black (d := .left) hu)
      rw [RBTree.root_join]
      exact eraseColor_red n h hb _
    | black =>
      cases hp with
      | root =>
        have hroot : t.root = m.rbNode := h.root.symm
        have hholds : Holds m t.toList := ⟨t, k, h, ht, rfl⟩
        refine ⟨setBlackIf m.rbNode m, ?_, hholds.setBlackIf⟩
        simp only [rbtreeEraseColor, hroot, ne_eq, not_true_eq_false, and_false, if_false]
      | @red s _ p d a hs hp =>
        cases n with
        | zero => simp at hn
        | succ n =>
          refine eraseColor_blackSibling (n + 1) h ht hs hp fun m' s' hs' hm' => ?_
          obtain ⟨k', hb⟩ := hp.weaken.plug (ht.join_black hs')
          exact eraseColor_red n hm' hb _
      | @black s cs _ p d a _ hs hp =>
        have hlen : p.length < n := Nat.lt_of_succ_lt_succ hn
        cases cs with
        | black =>
          refine eraseColor_blackSibling n h ht hs hp fun m' s' hs' hm' => ?_
          have hx := ih hlen hm' (ht.join_black hs') hp
          rw [RBTree.root_join] at hx
          exact hx
        | red =>
          obtain ⟨v, b, w, rfl, hv, hw⟩ := hs.red_cases d
          obtain ⟨v₁, x, v₂, c₁, c₂, rfl, hv₁, hv₂⟩ := hv.black_cases d
          obtain ⟨m₁, hrun₁, h₁⟩ := blackSibling_rotate h (RBTree.root_join d)
          rw [top, eraseColor_round n h ht hs (RBTree.root_join d), hrun₁, Option.bind_some]
          cases n with
          | zero => exact (Nat.not_lt_zero _ hlen).elim
          | succ n =>
            have hp₁ : Expects (⟨d, .black, b, w⟩ :: p) .red (k + 1) := .black hw hp
            have hlist : (plug (.join d .red t a (.join d .black v₁ x v₂))
                  (⟨d, .black, b, w⟩ :: p)).toList =
                (plug (.join d .black t a (.join d .red (.join d .black v₁ x v₂) b w)) p).toList :=
              toList_plug_congr (RBTree.toList_rotate d ..) p
            have hround := eraseColor_sibling (n + 1) h₁ ht hv₁ hv₂ hp₁ fun m' hm' hv hw => by
              obtain ⟨k', hb⟩ := hp₁.weaken.plug (ht.join_black (d := d) (a := a) (hv.join_red hw))
              exact eraseColor_red n hm' hb _
            rw [hlist] at hround
            exact hround

end BigBox.Rbtree
