import Mathlib.Algebra.Order.Ring.Int
import Mathlib.Data.List.Nodup

namespace BigBox.RedBlack
set_option autoImplicit true

inductive Color where
  | red
  | black
  deriving DecidableEq, Repr

/-- What a node of this color adds to the height of its children. -/
def Color.height : Color → Nat
  | .red => 0
  | .black => 1

inductive Side where
  | left
  | right
  deriving DecidableEq, Repr

def Side.other : Side → Side
  | .left => .right
  | .right => .left

@[simp] theorem Side.other_other (d : Side) : d.other.other = d := by cases d <;> rfl

inductive RBTree (α : Type) where
  | nil
  | node (c : Color) (l : RBTree α) (a : α) (r : RBTree α)

/-- A node whose subtree on side `d` is `near`. -/
def RBTree.join (d : Side) (c : Color) (near : RBTree α) (a : α) (far : RBTree α) : RBTree α :=
  match d with
  | .left => .node c near a far
  | .right => .node c far a near

theorem RBTree.join_other (d : Side) (c : Color) (s : RBTree α) (a : α) (t : RBTree α) :
    join d.other c s a t = join d c t a s := by
  cases d <;> rfl

def RBTree.toList : RBTree α → List α
  | .nil => []
  | .node _ l a r => l.toList ++ a :: r.toList

def RBTree.root : RBTree α → Option α
  | .nil => none
  | .node _ _ a _ => some a

@[simp] theorem RBTree.root_join (d : Side) : (RBTree.join d c s a t).root = some a := by
  cases d <;> rfl

/-- A tree that is not empty, seen from either side. -/
theorem RBTree.exists_join (d : Side) {t : RBTree α} (h : t.root = some a) :
    ∃ c near far, t = join d c near a far := by
  cases t with
  | nil => cases h
  | node c l b r =>
    cases h
    cases d with
    | left => exact ⟨c, l, r, rfl⟩
    | right => exact ⟨c, r, l, rfl⟩

theorem RBTree.root_mem {t : RBTree α} (h : t.root = some a) : a ∈ t.toList := by
  cases t with
  | nil => cases h
  | node c l b r =>
    cases h
    exact List.mem_append_right _ List.mem_cons_self

theorem RBTree.toList_recolor (d : Side) (c c' : Color) (s : RBTree α) (a : α) (t : RBTree α) :
    (join d c s a t).toList = (join d c' s a t).toList := by
  cases d <;> rfl

def RBTree.blacken : RBTree α → RBTree α
  | .nil => .nil
  | .node _ l a r => .node .black l a r

/-- A rotation keeps the order of the elements. -/
theorem RBTree.toList_rotate (d : Side) (s t u : RBTree α) :
    (join d c' (join d c s a t) b u).toList = (join d c₁ s a (join d c₂ t b u)).toList := by
  cases d <;> simp [join, toList]

/-- One step of the way from a subtree to the root. The subtree lies on side `side`. -/
structure Frame (α : Type) where
  side : Side
  color : Color
  elem : α
  sibling : RBTree α

/-- The tree with `t` at the end of a path. -/
def plug : RBTree α → List (Frame α) → RBTree α
  | t, [] => t
  | t, f :: p => plug (.join f.side f.color t f.elem f.sibling) p

/-- A tree is reached from its subtree on the far side as well. -/
theorem plug_far (d : Side) (c : Color) (s : RBTree α) (a : α) (t : RBTree α) (p : List (Frame α)) :
    plug (.join d c s a t) p = plug t (⟨d.other, c, a, s⟩ :: p) := by
  rw [plug, RBTree.join_other]

theorem plug_append (t : RBTree α) (p q : List (Frame α)) :
    plug t (p ++ q) = plug (plug t p) q := by
  induction p generalizing t with
  | nil => rfl
  | cons f p ih => exact ih _

/-- The elements before the end of a path. -/
def before : List (Frame α) → List α
  | [] => []
  | ⟨.left, _, _, _⟩ :: p => before p
  | ⟨.right, _, a, s⟩ :: p => before p ++ s.toList ++ [a]

/-- The elements behind the end of a path. -/
def behind : List (Frame α) → List α
  | [] => []
  | ⟨.left, _, a, s⟩ :: p => a :: s.toList ++ behind p
  | ⟨.right, _, _, _⟩ :: p => behind p

theorem toList_plug (t : RBTree α) (p : List (Frame α)) :
    (plug t p).toList = before p ++ t.toList ++ behind p := by
  induction p generalizing t with
  | nil => simp only [plug, before, behind, List.nil_append, List.append_nil]
  | cons f p ih =>
    obtain ⟨d, c, a, s⟩ := f
    cases d with
    | left => simp [plug, ih, RBTree.join, RBTree.toList, before, behind]
    | right => simp [plug, ih, RBTree.join, RBTree.toList, before, behind]

/-- Nothing comes before the end of a path down the left side. -/
theorem before_left {q : List (Frame α)} (h : ∀ f ∈ q, f.side = .left) : before q = [] := by
  induction q with
  | nil => rfl
  | cons f q ih =>
    obtain ⟨d, c, a, s⟩ := f
    cases d with
    | left => exact ih fun f hf => h f (List.mem_cons_of_mem _ hf)
    | right => exact absurd (h _ List.mem_cons_self) nofun

/-- Every element has a place in the tree. -/
theorem exists_plug {t : RBTree α} (h : a ∈ t.toList) : ∃ c l r p, t = plug (.node c l a r) p := by
  induction t with
  | nil => cases h
  | node c l b r ihl ihr =>
    rcases List.mem_append.1 h with h | h
    · obtain ⟨c', l', r', p, rfl⟩ := ihl h
      exact ⟨c', l', r', p ++ [⟨.left, c, b, r⟩], by rw [plug_append]; rfl⟩
    · rcases List.mem_cons.1 h with rfl | h
      · exact ⟨c, l, r, [], rfl⟩
      · obtain ⟨c', l', r', p, rfl⟩ := ihr h
        exact ⟨c', l', r', p ++ [⟨.right, c, b, l⟩], by rw [plug_append]; rfl⟩

theorem toList_plug_congr (h : t.toList = t'.toList) (p : List (Frame α)) :
    (plug t p).toList = (plug t' p).toList := by
  rw [toList_plug, toList_plug, h]

/-- The elements of a path and of the subtrees next to it. -/
def elems : List (Frame α) → List α
  | [] => []
  | f :: p => f.elem :: (f.sibling.toList ++ elems p)

theorem toList_join_perm (d : Side) (s t : RBTree α) :
    (RBTree.join d c s a t).toList.Perm (s.toList ++ a :: t.toList) := by
  cases d with
  | left => exact .refl _
  | right =>
    exact List.perm_append_comm.trans List.perm_middle.symm

theorem toList_plug_perm (t : RBTree α) (p : List (Frame α)) :
    (plug t p).toList.Perm (t.toList ++ elems p) := by
  induction p generalizing t with
  | nil => rw [elems, List.append_nil]; exact .refl _
  | cons f p ih =>
    refine (ih _).trans (((toList_join_perm ..).append_right _).trans ?_)
    rw [List.append_assoc]
    exact .refl _

theorem nodup_plug (t : RBTree α) (p : List (Frame α)) : (plug t p).toList.Nodup ↔
    t.toList.Nodup ∧ (elems p).Nodup ∧ ∀ q ∈ t.toList, q ∉ elems p := by
  rw [(toList_plug_perm t p).nodup_iff, List.nodup_append']
  exact Iff.rfl

theorem nodup_join (d : Side) {s t : RBTree α} : (RBTree.join d c s a t).toList.Nodup ↔
    s.toList.Nodup ∧ t.toList.Nodup ∧ a ∉ s.toList ∧ a ∉ t.toList ∧
      ∀ q ∈ s.toList, q ∉ t.toList := by
  rw [(toList_join_perm d s t).nodup_iff, List.nodup_append', List.nodup_cons]
  simp only [List.Disjoint, List.mem_cons]
  grind

theorem mem_join (d : Side) {s t : RBTree α} : q ∈ (RBTree.join d c s a t).toList ↔
    q = a ∨ q ∈ s.toList ∨ q ∈ t.toList := by
  rw [(toList_join_perm d s t).mem_iff, List.mem_append, List.mem_cons]
  tauto

theorem mem_plug {t : RBTree α} : q ∈ (plug t p).toList ↔ q ∈ t.toList ∨ q ∈ elems p := by
  rw [(toList_plug_perm t p).mem_iff, List.mem_append]

theorem mem_node {l r : RBTree α} : q ∈ (RBTree.node c l a r).toList ↔
    q = a ∨ q ∈ l.toList ∨ q ∈ r.toList := mem_join .left

theorem nodup_node {l r : RBTree α} : (RBTree.node c l a r).toList.Nodup ↔
    l.toList.Nodup ∧ r.toList.Nodup ∧ a ∉ l.toList ∧ a ∉ r.toList ∧
      ∀ q ∈ l.toList, q ∉ r.toList := nodup_join .left

theorem elem_mem (h : f ∈ p) : Frame.elem f ∈ elems p := by
  induction p with
  | nil => cases h
  | cons g p ih =>
    rcases List.mem_cons.1 h with rfl | h
    · exact List.mem_cons_self
    · exact List.mem_cons_of_mem _ (List.mem_append_right _ (ih h))

theorem mem_elems {p : List (Frame α)} : q ∈ elems p ↔ q ∈ before p ++ behind p := by
  have h := (toList_plug_perm .nil p).mem_iff (a := q)
  rw [toList_plug] at h
  simpa only [RBTree.toList, List.append_nil, List.nil_append] using h.symm

section Order
variable {R : α → α → Prop} {p : List (Frame α)}

/-- What the nodes passed on the right side have holds before the place. -/
theorem before_closed {P : α → Prop} (hs : (before p ++ behind p).Pairwise R)
    (hP : ∀ a b, R a b → P b → P a) (hx : ∀ f ∈ p, f.side = .right → P f.elem) :
    ∀ b ∈ before p, P b := by
  induction p with
  | nil => exact nofun
  | cons f p ih =>
    obtain ⟨d, c, a, s⟩ := f
    cases d with
    | left =>
      have hsub : (before p ++ behind p).Sublist (before p ++ (a :: s.toList ++ behind p)) :=
        (List.sublist_append_right _ _).append_left _
      exact ih (hs.sublist hsub) fun f hf => hx f (List.mem_cons_of_mem _ hf)
    | right =>
      intro b hb
      have ha : P a := hx _ List.mem_cons_self rfl
      rcases List.mem_append.1 hb with hb | hb
      · have hba := (List.pairwise_append.1 (List.pairwise_append.1 hs).1).2.2 b hb a
          List.mem_cons_self
        exact hP _ _ hba ha
      · exact List.mem_singleton.1 hb ▸ ha

/-- What the nodes passed on the left side have holds behind the place. -/
theorem behind_closed {P : α → Prop} (hs : (before p ++ behind p).Pairwise R)
    (hP : ∀ a b, R a b → P a → P b) (hx : ∀ f ∈ p, f.side = .left → P f.elem) :
    ∀ b ∈ behind p, P b := by
  induction p with
  | nil => exact nofun
  | cons f p ih =>
    obtain ⟨d, c, a, s⟩ := f
    cases d with
    | right =>
      have hsub : (before p ++ behind p).Sublist (before p ++ s.toList ++ [a] ++ behind p) := by
        rw [List.append_assoc, List.append_assoc]
        exact ((List.sublist_append_right _ _).trans (List.sublist_append_right _ _)).append_left _
      exact ih (hs.sublist hsub) fun f hf => hx f (List.mem_cons_of_mem _ hf)
    | left =>
      intro b hb
      have ha : P a := hx _ List.mem_cons_self rfl
      rcases List.mem_cons.1 hb with rfl | hb
      · exact ha
      · have hab := (List.pairwise_cons.1 (List.pairwise_append.1 hs).2.1).1 b hb
        exact hP _ _ hab ha

/-- An element put at its place keeps the order. -/
theorem pairwise_place [IsTrans α R] (hs : (before p ++ behind p).Pairwise R)
    (hl : ∀ f ∈ p, f.side = .left → R x f.elem) (hr : ∀ f ∈ p, f.side = .right → R f.elem x) :
    (before p ++ x :: behind p).Pairwise R := by
  obtain ⟨hbefore, hbehind, hacross⟩ := List.pairwise_append.1 hs
  refine List.pairwise_append.2 ⟨hbefore, List.pairwise_cons.2 ⟨?_, hbehind⟩, ?_⟩
  · exact behind_closed hs (fun _ _ hab ha => IsTrans.trans _ _ _ ha hab) hl
  · intro b hb v hv
    rcases List.mem_cons.1 hv with rfl | hv
    · exact before_closed hs (fun _ _ hab hb => IsTrans.trans _ _ _ hab hb) hr b hb
    · exact hacross b hb v hv

end Order

/-- Red nodes have black children and all paths down hold the same number of black nodes. -/
inductive WellColored : RBTree α → Color → Nat → Prop where
  | nil : WellColored .nil .black 0
  | red : WellColored l .black n → WellColored r .black n → WellColored (.node .red l a r) .red n
  | black : WellColored l c n → WellColored r c' n → WellColored (.node .black l a r) .black (n + 1)

theorem WellColored.join_red (hs : WellColored s .black n) (ht : WellColored t .black n) :
    WellColored (.join d .red s a t) .red n := by
  cases d with
  | left => exact .red hs ht
  | right => exact .red ht hs

theorem WellColored.join_black (hs : WellColored s c n) (ht : WellColored t c' n) :
    WellColored (.join d .black s a t) .black (n + 1) := by
  cases d with
  | left => exact .black hs ht
  | right => exact .black ht hs

theorem WellColored.join (hs : WellColored s .black n) (ht : WellColored t .black n) :
    WellColored (.join d c s a t) c (n + c.height) := by
  cases c with
  | red => exact hs.join_red ht
  | black => exact hs.join_black ht

/-- A balanced tree with a red root, seen from either side. -/
theorem WellColored.red_cases (h : WellColored t .red n) (d : Side) :
    ∃ s a u, t = .join d .red s a u ∧ WellColored s .black n ∧ WellColored u .black n := by
  cases h with
  | red hl hr =>
    cases d with
    | left => exact ⟨_, _, _, rfl, hl, hr⟩
    | right => exact ⟨_, _, _, rfl, hr, hl⟩

/-- A balanced tree with a black node at its root, seen from either side. -/
theorem WellColored.black_cases (h : WellColored t .black (n + 1)) (d : Side) :
    ∃ s a u c c', t = .join d .black s a u ∧ WellColored s c n ∧ WellColored u c' n := by
  cases h with
  | black hl hr =>
    cases d with
    | left => exact ⟨_, _, _, _, _, rfl, hl, hr⟩
    | right => exact ⟨_, _, _, _, _, rfl, hr, hl⟩

theorem WellColored.blacken (h : WellColored t c n) : ∃ m, WellColored t.blacken .black m := by
  cases h with
  | nil => exact ⟨_, .nil⟩
  | red hl hr => exact ⟨_, .black hl hr⟩
  | black hl hr => exact ⟨_, .black hl hr⟩

/-- A balanced node, seen from either side. -/
theorem WellColored.of_join (h : WellColored (.join d c s a t) c' n) : c' = c ∧
    ∃ k cs ct, n = k + c.height ∧ WellColored s cs k ∧ WellColored t ct k ∧
      (c = .red → cs = .black ∧ ct = .black) := by
  cases d with
  | left =>
    cases h with
    | red hl hr => exact ⟨rfl, _, _, _, rfl, hl, hr, fun _ => ⟨rfl, rfl⟩⟩
    | black hl hr => exact ⟨rfl, _, _, _, rfl, hl, hr, nofun⟩
  | right =>
    cases h with
    | red hl hr => exact ⟨rfl, _, _, _, rfl, hr, hl, fun _ => ⟨rfl, rfl⟩⟩
    | black hl hr => exact ⟨rfl, _, _, _, rfl, hr, hl, nofun⟩

/-- What a path expects at its end: a balanced tree of this height, and of a black root if
the color is black. -/
inductive Expects : List (Frame α) → Color → Nat → Prop where
  | root : Expects [] .black n
  | red : WellColored s .black n → Expects p .red n → Expects (⟨d, .red, a, s⟩ :: p) .black n
  | black : WellColored s c n → Expects p .black (n + 1) → Expects (⟨d, .black, a, s⟩ :: p) c' n

/-- A place for a red root takes a black one as well. -/
theorem Expects.weaken (h : Expects p .red n) : Expects p .black n := by
  cases h with
  | black hs hp => exact .black hs hp

/-- What is expected completes the tree. -/
theorem Expects.plug (h : Expects p c n) (ht : WellColored t c n) :
    ∃ m, WellColored (plug t p) .black m := by
  induction h generalizing t with
  | root => exact ⟨_, ht⟩
  | red hs _ ih => exact ih (ht.join_red hs)
  | black hs _ ih => exact ih (ht.join_black hs)

/-- A complete tree expects at every place what is there. -/
theorem WellColored.unplug (h : WellColored (RedBlack.plug t p) .black n) :
    ∃ c k, WellColored t c k ∧ Expects p c k := by
  induction p generalizing t with
  | nil => exact ⟨_, _, h, .root⟩
  | cons f p ih =>
    obtain ⟨c', _, hb, hp⟩ := ih h
    obtain ⟨rfl, k, cs, ct, rfl, hs, ht, hc⟩ := hb.of_join
    obtain ⟨d, c, a, s⟩ := f
    cases c with
    | red =>
      obtain ⟨rfl, rfl⟩ := hc rfl
      exact ⟨_, _, hs, .red ht hp⟩
    | black => exact ⟨_, _, hs, .black ht hp⟩

/-- The elements on a path do not matter. -/
theorem Expects.replace {q p : List (Frame α)} (h : Expects (q ++ ⟨d, c, a, s⟩ :: p) c' k) (b : α) :
    Expects (q ++ ⟨d, c, b, s⟩ :: p) c' k := by
  induction q generalizing c' k with
  | nil =>
    cases h with
    | red hs hp => exact .red hs hp
    | black hs hp => exact .black hs hp
  | cons f q ih =>
    cases h with
    | red hs hp => exact .red hs (ih hp)
    | black hs hp => exact .black hs (ih hp)

theorem length_elems (p : List (Frame α)) : p.length ≤ (elems p).length := by
  induction p with
  | nil => exact Nat.zero_le _
  | cons f p ih =>
    simp only [elems, List.length_cons, List.length_append]
    omega

/-- A path is no longer than its tree has elements. -/
theorem length_path (t : RBTree α) (p : List (Frame α)) :
    t.toList.length + p.length ≤ (plug t p).toList.length := by
  have := length_elems p
  rw [(toList_plug_perm t p).length_eq, List.length_append]
  omega

end BigBox.RedBlack
