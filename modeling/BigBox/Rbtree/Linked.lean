import BigBox.Lib.RedBlack
import Mathlib.Logic.Function.Basic

namespace BigBox.Rbtree
open RedBlack
set_option autoImplicit true

abbrev Ptr := Nat

/-- `struct rbtree_node`, with the two parts of its word `parent_color` as fields. -/
structure Node where
  parent : Option Ptr
  color : Color
  rchild : Option Ptr
  lchild : Option Ptr
  deriving DecidableEq, Repr

def Node.child (n : Node) : Side → Option Ptr
  | .left => n.lchild
  | .right => n.rchild

def Node.setChild (n : Node) (d : Side) (p : Option Ptr) : Node :=
  match d with
  | .left => { n with lchild := p }
  | .right => { n with rchild := p }

/-- The nodes in memory and the field of `struct rbtree_root`. -/
structure Mem where
  node : Ptr → Node
  rbNode : Option Ptr

def Mem.modify (m : Mem) (p : Ptr) (f : Node → Node) : Mem :=
  { m with node := Function.update m.node p (f (m.node p)) }

def Mem.setChild (m : Mem) (p : Ptr) (d : Side) (q : Option Ptr) : Mem :=
  m.modify p fun n => n.setChild d q

def rbtreeSetParent (rb : Ptr) (p : Option Ptr) (m : Mem) : Mem :=
  m.modify rb fun n => { n with parent := p }

def rbtreeSetColor (rb : Ptr) (color : Color) (m : Mem) : Mem :=
  m.modify rb fun n => { n with color := color }

def rbtreeSetRed (rb : Ptr) (m : Mem) : Mem := rbtreeSetColor rb .red m
def rbtreeSetBlack (rb : Ptr) (m : Mem) : Mem := rbtreeSetColor rb .black m

/-- A missing node counts as black. -/
def Mem.isBlack (m : Mem) (p : Option Ptr) : Bool := p.all fun q => (m.node q).color = .black

/-- The statement `if (child) rbtree_set_parent(child, parent)`. -/
def setParentIf (child parent : Option Ptr) (m : Mem) : Mem :=
  match child with
  | some c => rbtreeSetParent c parent m
  | none => m

/-- The pointer to `node` in its parent, looked for on side `d` first, or in the root becomes
`child`. -/
def replaceChild (d : Side) (parent : Option Ptr) (node : Ptr) (child : Option Ptr) (m : Mem) :
    Mem :=
  match parent with
  | some q =>
    if (m.node q).child d = some node then m.setChild q d child else m.setChild q d.other child
  | none => { m with rbNode := child }

/-- The node moves down to side `d`, its child on the other side takes its place. Reading
through a missing pointer has no result. -/
def rbtreeRotate (d : Side) (node : Ptr) (m : Mem) : Option Mem := do
  let child ← (m.node node).child d.other
  let parent := (m.node node).parent
  let inner := (m.node child).child d
  let m := m.setChild node d.other inner
  let m := setParentIf inner (some node) m
  let m := m.setChild child d (some node)
  let m := rbtreeSetParent child parent m
  let m := replaceChild d parent node (some child) m
  return rbtreeSetParent node (some child) m

def rbtreeRotateLeft (node : Ptr) (m : Mem) : Option Mem := rbtreeRotate .left node m
def rbtreeRotateRight (node : Ptr) (m : Mem) : Option Mem := rbtreeRotate .right node m

def setRootBlack (m : Mem) : Option Mem := m.rbNode.map fun root => rbtreeSetBlack root m

/-- `rbtree_insert_color`, for at most this many rounds of its loop. Its two branches mirror
each other: `d` is the side of the parent. -/
def rbtreeInsertColor : Nat → Ptr → Mem → Option Mem
  | 0, _, _ => none
  | n + 1, node, m =>
    match (m.node node).parent with
    | none => setRootBlack m
    | some parent =>
      if (m.node parent).color = .black then setRootBlack m
      else do
        let gparent ← (m.node parent).parent
        let d : Side := if (m.node gparent).lchild = some parent then .left else .right
        let uncle := (m.node gparent).child d.other
        if m.isBlack uncle then
          let (m, parent, node) ←
            if (m.node parent).child d.other = some node then
              (rbtreeRotate d parent m).map (·, node, parent)
            else some (m, parent, node)
          let m ← rbtreeRotate d.other gparent (rbtreeSetRed gparent (rbtreeSetBlack parent m))
          rbtreeInsertColor n node m
        else
          let uncle ← uncle
          rbtreeInsertColor n gparent
            (rbtreeSetRed gparent (rbtreeSetBlack parent (rbtreeSetBlack uncle m)))

/-- What `__rbtree_erase_color` does behind its loop. -/
def setBlackIf (node : Option Ptr) (m : Mem) : Mem :=
  match node with
  | some p => rbtreeSetBlack p m
  | none => m

/-- The first branch of the loop of `__rbtree_erase_color`: a red sibling is rotated away. It
returns the sibling then. -/
def blackSibling (d : Side) (parent other : Ptr) (m : Mem) : Option (Ptr × Mem) :=
  if (m.node other).color = .red then do
    let m ← rbtreeRotate d parent (rbtreeSetRed parent (rbtreeSetBlack other m))
    let other ← (m.node parent).child d.other
    return (other, m)
  else some (other, m)

/-- The branch of the loop that makes the child of the sibling on the far side red. -/
def redFarChild (d : Side) (parent other : Ptr) (m : Mem) : Option (Ptr × Mem) :=
  if m.isBlack ((m.node other).child d.other) then do
    let near ← (m.node other).child d
    let m ← rbtreeRotate d.other other (rbtreeSetRed other (rbtreeSetBlack near m))
    let other ← (m.node parent).child d.other
    return (other, m)
  else some (other, m)

/-- The branch of the loop for a sibling with a red child, up to its `break`. -/
def lastRotation (d : Side) (parent other : Ptr) (m : Mem) : Option Mem := do
  let (other, m) ← redFarChild d parent other m
  let m := rbtreeSetBlack parent (rbtreeSetColor other (m.node parent).color m)
  let far ← (m.node other).child d.other
  rbtreeRotate d parent (rbtreeSetBlack far m)

/-- `__rbtree_erase_color`, for at most this many rounds of its loop. Its two branches mirror
each other: `d` is the side of the node. -/
def rbtreeEraseColor : Nat → Option Ptr → Option Ptr → Mem → Option Mem
  | 0, _, _, _ => none
  | n + 1, node, parent, m =>
    if m.isBlack node ∧ node ≠ m.rbNode then do
      let parent ← parent
      let d : Side := if (m.node parent).lchild = node then .left else .right
      let other ← (m.node parent).child d.other
      let (other, m) ← blackSibling d parent other m
      if m.isBlack ((m.node other).child d) ∧ m.isBlack ((m.node other).child d.other) then
        let m := rbtreeSetRed other m
        rbtreeEraseColor n (some parent) (m.node parent).parent m
      else (lastRotation d parent other m).map fun m => setBlackIf m.rbNode m
    else some (setBlackIf node m)

/-- The loop that runs down to the last node on side `d`. -/
def descend (d : Side) : Nat → Ptr → Mem → Option Ptr
  | 0, _, _ => none
  | n + 1, node, m =>
    match (m.node node).child d with
    | some child => descend d n child m
    | none => some node

/-- The end of `rbtree_erase`, after a node of this color has left its place to `child`. -/
def eraseFix (n : Nat) (color : Color) (child parent : Option Ptr) (m : Mem) : Option Mem :=
  if color = .black then rbtreeEraseColor n child parent m else some m

/-- The part of `rbtree_erase` for a node with at most one child. -/
def eraseLeaf (n : Nat) (node : Ptr) (child : Option Ptr) (m : Mem) : Option Mem :=
  let parent := (m.node node).parent
  let color := (m.node node).color
  let m := setParentIf child parent m
  let m := replaceChild .left parent node child m
  eraseFix n color child parent m

/-- In `rbtree_erase`, the successor of `old` leaves its place to its child. It returns the
parent of that place. -/
def unlinkSuccessor (old node : Ptr) (m : Mem) : Option (Ptr × Mem) :=
  let child := (m.node node).rchild
  if (m.node node).parent = some old then some (node, m)
  else do
    let parent ← (m.node node).parent
    let m := setParentIf child (some parent) m
    let m := m.setChild parent .left child
    let m := m.setChild node .right (m.node old).rchild
    let rchild ← (m.node old).rchild
    return (parent, rbtreeSetParent rchild (some node) m)

/-- In `rbtree_erase`, the successor takes over the parent, the color and the left child of
`old`. -/
def takePlace (old node : Ptr) (m : Mem) : Option Mem := do
  let m := rbtreeSetParent node (m.node old).parent m
  let m := rbtreeSetColor node (m.node old).color m
  let m := m.setChild node .left (m.node old).lchild
  let lchild ← (m.node old).lchild
  return rbtreeSetParent lchild (some node) m

/-- The part of `rbtree_erase` for a node with two children: its successor takes its place. -/
def eraseInner (n : Nat) (old : Ptr) (m : Mem) : Option Mem := do
  let rchild ← (m.node old).rchild
  let node ← descend .left n rchild m
  let m := replaceChild .left (m.node old).parent old (some node) m
  let child := (m.node node).rchild
  let color := (m.node node).color
  let (parent, m) ← unlinkSuccessor old node m
  let m ← takePlace old node m
  eraseFix n color child (some parent) m

/-- `rbtree_erase`, for at most this many rounds of each of its loops. -/
def rbtreeErase (n : Nat) (node : Ptr) (m : Mem) : Option Mem :=
  match (m.node node).lchild, (m.node node).rchild with
  | none, child => eraseLeaf n node child m
  | some lchild, none => eraseLeaf n node (some lchild) m
  | some _, some _ => eraseInner n node m

/-- `rbtree_first`. The inner result is the pointer returned. -/
def rbtreeFirst (n : Nat) (m : Mem) : Option (Option Ptr) :=
  match m.rbNode with
  | none => some none
  | some root => (descend .left n root m).map some

/-- The loop of `rbtree_next` that climbs while the node is a right child. -/
def climb : Nat → Ptr → Mem → Option (Option Ptr)
  | 0, _, _ => none
  | n + 1, node, m =>
    match (m.node node).parent with
    | none => some none
    | some parent =>
      if (m.node parent).rchild = some node then climb n parent m else some (some parent)

def rbtreeNext (n : Nat) (node : Ptr) (m : Mem) : Option (Option Ptr) :=
  if (m.node node).parent = some node then some none
  else
    match (m.node node).rchild with
    | some child => (descend .left n child m).map some
    | none => climb n node m

/-- `rbtree_link_node`, where the link is the root or the child pointer of `parent` on side
`d`. -/
def rbtreeLinkNode (node : Ptr) (link : Option (Ptr × Side)) (m : Mem) : Mem :=
  let m := m.modify node fun _ => ⟨link.map Prod.fst, .red, none, none⟩
  match link with
  | some (parent, d) => m.setChild parent d (some node)
  | none => { m with rbNode := some node }

/-- The loop that looks for the link of a new node. `goes` is the side its key demands at the
nodes on the way. -/
def findLink (goes : Ptr → Side) : Nat → Option Ptr → Option (Ptr × Side) → Mem →
    Option (Option (Ptr × Side))
  | _, none, link, _ => some link
  | 0, some _, _, _ => none
  | n + 1, some p, _, m => findLink goes n ((m.node p).child (goes p)) (some (p, goes p)) m

/-- A node is linked where its key demands and the tree is repaired. -/
def insert (n : Nat) (goes : Ptr → Side) (node : Ptr) (m : Mem) : Option Mem := do
  let link ← findLink goes n m.rbNode none m
  rbtreeInsertColor n node (rbtreeLinkNode node link m)

/-- The nodes met from `node` on by repeated calls of `rbtree_next`, with the rounds still to
go. -/
def visit (n : Nat) : Nat → Option Ptr → Mem → Option (List Ptr)
  | _, none, _ => some []
  | 0, some _, _ => none
  | k + 1, some p, m => do
    let next ← rbtreeNext n p m
    let nodes ← visit n k next m
    return p :: nodes

/-- The nodes met from `rbtree_first` on. -/
def traverse (n : Nat) (m : Mem) : Option (List Ptr) := do
  let first ← rbtreeFirst n m
  visit n n first m

/-- The node whose child on side `d` is `near`. -/
def Node.of (d : Side) (par : Option Ptr) (color : Color) (near far : Option Ptr) : Node :=
  match d with
  | .left => ⟨par, color, far, near⟩
  | .right => ⟨par, color, near, far⟩

@[simp] theorem Node.parent_of (d : Side) : (Node.of d par c near far).parent = par := by
  cases d <;> rfl

@[simp] theorem Node.color_of (d : Side) : (Node.of d par c near far).color = c := by
  cases d <;> rfl

@[simp] theorem Node.child_of (d : Side) : (Node.of d par c near far).child d = near := by
  cases d <;> rfl

@[simp] theorem Node.child_other_of (d : Side) :
    (Node.of d par c near far).child d.other = far := by
  cases d <;> rfl

@[simp] theorem Node.setChild_of (d : Side) :
    (Node.of d par c near far).setChild d q = Node.of d par c q far := by
  cases d <;> rfl

@[simp] theorem Node.setChild_other_of (d : Side) :
    (Node.of d par c near far).setChild d.other q = Node.of d par c near q := by
  cases d <;> rfl

theorem Node.setParent_of (d : Side) :
    { Node.of d par c near far with parent := par' } = Node.of d par' c near far := by
  cases d <;> rfl

theorem Node.setColor_of (d : Side) :
    { Node.of d par c near far with color := c' } = Node.of d par c' near far := by
  cases d <;> rfl

/-- The nodes of a tree in memory: each points to its children and its parent. -/
def Linked (node : Ptr → Node) (par : Option Ptr) : RBTree Ptr → Prop
  | .nil => True
  | .node c l p r =>
    node p = ⟨par, c, r.root, l.root⟩ ∧ Linked node (some p) l ∧ Linked node (some p) r

theorem linked_join (d : Side) : Linked node par (.join d c s a t) ↔
    node a = Node.of d par c s.root t.root ∧ Linked node (some a) s ∧ Linked node (some a) t := by
  cases d with
  | left => exact Iff.rfl
  | right => exact and_congr_right fun _ => and_comm

/-- The node at the end of a path, or what is above its root. -/
def top (par : Option Ptr) : List (Frame Ptr) → Option Ptr
  | [] => par
  | f :: _ => some f.elem

def LinkedPath (node : Ptr → Node) (par : Option Ptr) : Option Ptr → List (Frame Ptr) → Prop
  | _, [] => True
  | child, f :: p =>
    node f.elem = Node.of f.side (top par p) f.color child f.sibling.root ∧
      Linked node (some f.elem) f.sibling ∧ LinkedPath node par (some f.elem) p

theorem linked_plug (t : RBTree Ptr) (p : List (Frame Ptr)) : Linked node par (plug t p) ↔
    Linked node (top par p) t ∧ LinkedPath node par t.root p := by
  induction p generalizing t with
  | nil => exact (and_true (Linked node par t)).to_iff.symm
  | cons f p ih =>
    rw [plug, ih, linked_join, RBTree.root_join, LinkedPath]
    tauto

/-- The root of a tree, from a subtree and the path to it. -/
def rootOf (child : Option Ptr) : List (Frame Ptr) → Option Ptr
  | [] => child
  | f :: p => rootOf (some f.elem) p

theorem root_plug (t : RBTree Ptr) (p : List (Frame Ptr)) : (plug t p).root = rootOf t.root p := by
  induction p generalizing t with
  | nil => rfl
  | cons f p ih => rw [plug, ih, RBTree.root_join, rootOf]

theorem Linked.congr (h : Linked node par t) (he : ∀ q ∈ t.toList, node' q = node q) :
    Linked node' par t := by
  induction t generalizing par with
  | nil => trivial
  | node c l a r ihl ihr =>
    obtain ⟨ha, hl, hr⟩ := h
    refine ⟨?_, ihl hl fun q hq => ?_, ihr hr fun q hq => ?_⟩
    · rw [he a (List.mem_append_right _ List.mem_cons_self), ha]
    · exact he q (List.mem_append_left _ hq)
    · exact he q (List.mem_append_right _ (List.mem_cons_of_mem _ hq))

theorem LinkedPath.congr (h : LinkedPath node par child p)
    (he : ∀ q ∈ elems p, node' q = node q) : LinkedPath node' par child p := by
  induction p generalizing child with
  | nil => trivial
  | cons f p ih =>
    obtain ⟨ha, hs, hp⟩ := h
    refine ⟨?_, hs.congr fun q hq => ?_, ih hp fun q hq => ?_⟩
    · rw [he f.elem List.mem_cons_self, ha]
    · exact he q (List.mem_cons_of_mem _ (List.mem_append_left _ hq))
    · exact he q (List.mem_cons_of_mem _ (List.mem_append_right _ hq))

@[simp] theorem node_modify (m : Mem) (p : Ptr) (f : Node → Node) :
    (m.modify p f).node p = f (m.node p) := Function.update_self ..

theorem node_modify_ne (m : Mem) (f : Node → Node) (h : q ≠ p) :
    (m.modify p f).node q = m.node q := Function.update_of_ne h ..

theorem node_setParentIf_ne (m : Mem) (par : Option Ptr) (h : child ≠ some q) :
    (setParentIf child par m).node q = m.node q := by
  cases child with
  | none => rfl
  | some c =>
    have hq : q ≠ c := fun he => h (congrArg some he.symm)
    exact node_modify_ne m (fun n => { n with parent := par }) hq

theorem node_replaceChild_ne (m : Mem) (d : Side) (a : Ptr) (child : Option Ptr)
    (h : par ≠ some q) : (replaceChild d par a child m).node q = m.node q := by
  cases par with
  | none => rfl
  | some c =>
    have hq : q ≠ c := fun he => h (congrArg some he.symm)
    rw [replaceChild]
    split
    · exact node_modify_ne m _ hq
    · exact node_modify_ne m _ hq

theorem Linked.modify (h : Linked m.node par t) (hq : q ∉ t.toList) :
    Linked (Mem.modify m q f).node par t :=
  h.congr fun _ hq' => node_modify_ne m f fun he => hq (he ▸ hq')

theorem LinkedPath.modify (h : LinkedPath m.node par child p) (hq : q ∉ elems p) :
    LinkedPath (Mem.modify m q f).node par child p :=
  h.congr fun _ hq' => node_modify_ne m f fun he => hq (he ▸ hq')

theorem Linked.setParentIf_apart (h : Linked m.node par t)
    (hs : ∀ q ∈ t.toList, child ≠ some q) : Linked (setParentIf child par' m).node par t :=
  h.congr fun q hq => node_setParentIf_ne m par' (hs q hq)

theorem LinkedPath.setParentIf_apart (h : LinkedPath m.node par child p)
    (hs : ∀ q ∈ elems p, child' ≠ some q) :
    LinkedPath (setParentIf child' par' m).node par child p :=
  h.congr fun q hq => node_setParentIf_ne m par' (hs q hq)

/-- A subtree gets a new parent. -/
theorem Linked.setParentIf (h : Linked m.node par t) (hn : t.toList.Nodup) :
    Linked (setParentIf t.root par' m).node par' t := by
  cases t with
  | nil => trivial
  | node c l a r =>
    obtain ⟨ha, hl, hr⟩ := h
    have hn' := List.nodup_append.1 hn
    refine ⟨?_, hl.modify ?_, hr.modify ?_⟩
    · exact (node_modify m a fun n => { n with parent := par' }).trans (by rw [ha])
    · exact fun hal => hn'.2.2 a hal a List.mem_cons_self rfl
    · exact (List.nodup_cons.1 hn'.2.1).1

theorem Linked.replaceChild_apart (h : Linked m.node par t)
    (hs : ∀ q ∈ t.toList, par' ≠ some q) :
    Linked (replaceChild d par' a child m).node par t :=
  h.congr fun q hq => node_replaceChild_ne m d a child (hs q hq)

theorem LinkedPath.replaceChild_apart (h : LinkedPath m.node par child p)
    (hs : ∀ q ∈ elems p, par' ≠ some q) :
    LinkedPath (replaceChild d par' a child' m).node par child p :=
  h.congr fun q hq => node_replaceChild_ne m d a child' (hs q hq)

/-- The last node of a path gets another child. -/
theorem LinkedPath.setChild (h : LinkedPath m.node par child (f :: p))
    (hn : f.elem ∉ f.sibling.toList ++ elems p) (child' : Option Ptr) :
    LinkedPath (Mem.setChild m f.elem f.side child').node par child' (f :: p) := by
  obtain ⟨hf, hs, hp⟩ := h
  rw [List.mem_append, not_or] at hn
  refine ⟨?_, hs.modify hn.1, hp.modify hn.2⟩
  rw [Mem.setChild, node_modify, hf, Node.setChild_of]

/-- The pointer to the subtree at the end of a path is replaced. -/
theorem LinkedPath.replaceChild (h : LinkedPath m.node none (some a) p)
    (hn : (elems p).Nodup) (ha : a ∉ elems p) :
    LinkedPath (replaceChild d (top none p) a q m).node none q p := by
  cases p with
  | nil => trivial
  | cons f p =>
    obtain ⟨hf, hs, hp⟩ := h
    obtain ⟨hfp, hn⟩ := List.nodup_cons.1 hn
    rw [List.mem_append, not_or] at hfp
    have hsib : f.sibling.root ≠ some a := fun he =>
      ha (List.mem_cons_of_mem _ (List.mem_append_left _ (RBTree.root_mem he)))
    have hnode : (Rbtree.replaceChild d (top none (f :: p)) a q m).node f.elem =
        Node.of f.side (top none p) f.color q f.sibling.root := by
      rw [top, Rbtree.replaceChild]
      by_cases hd : d = f.side
      · rw [hd, hf, Node.child_of, if_pos rfl, Mem.setChild, node_modify, hf, Node.setChild_of]
      · have hd' : d = f.side.other := by
          revert hd
          cases d <;> cases f.side <;> simp [Side.other]
        rw [hd', hf, Node.child_other_of, if_neg hsib, Side.other_other, Mem.setChild,
          node_modify, hf, Node.setChild_of]
    refine ⟨hnode, hs.replaceChild_apart fun b hb he => ?_, hp.congr fun b hb => ?_⟩
    · exact hfp.1 (Option.some.inj he ▸ hb)
    · exact node_replaceChild_ne m d a q fun he => hfp.2 (Option.some.inj he ▸ hb)

/-- The memory holds this tree. -/
structure Represents (m : Mem) (t : RBTree Ptr) : Prop where
  root : m.rbNode = t.root
  linked : Linked m.node none t
  nodup : t.toList.Nodup

/-- A tree in memory, taken apart at a subtree. -/
theorem represents_plug : Represents m (plug t p) ↔
    m.rbNode = rootOf t.root p ∧ Linked m.node (top none p) t ∧ LinkedPath m.node none t.root p ∧
      t.toList.Nodup ∧ (elems p).Nodup ∧ ∀ q ∈ t.toList, q ∉ elems p := by
  constructor
  · rintro ⟨hroot, hlinked, hn⟩
    rw [root_plug] at hroot
    rw [linked_plug] at hlinked
    exact ⟨hroot, hlinked.1, hlinked.2, (nodup_plug t p).1 hn⟩
  · rintro ⟨hroot, htree, hpath, hn⟩
    exact ⟨by rw [root_plug, hroot], (linked_plug t p).2 ⟨htree, hpath⟩, (nodup_plug t p).2 hn⟩

/-- What is read at a node. -/
theorem Represents.node (h : Represents m (plug (.join d c s a t) p)) :
    m.node a = Node.of d (top none p) c s.root t.root :=
  ((linked_join d).1 (represents_plug.1 h).2.1).1

theorem Represents.near (h : Represents m (plug (.join d c s a t) p)) :
    Linked m.node (some a) s := ((linked_join d).1 (represents_plug.1 h).2.1).2.1

theorem Represents.far (h : Represents m (plug (.join d c s a t) p)) :
    Linked m.node (some a) t := ((linked_join d).1 (represents_plug.1 h).2.1).2.2

theorem Represents.parent (h : Represents m (plug t p)) (hx : t.root = some x) :
    (m.node x).parent = top none p := by
  cases t with
  | nil => cases hx
  | node c l a r =>
    cases hx
    exact congrArg Node.parent (represents_plug.1 h).2.1.1

/-- Two subtrees of a node have different roots. -/
theorem Represents.roots_ne (h : Represents m (plug (.join d c s a t) p)) (hs : s.root = some x) :
    some x ≠ t.root := by
  obtain ⟨_, _, _, _, hst⟩ := (nodup_join d).1 (represents_plug.1 h).2.2.2.1
  intro he
  exact hst x (RBTree.root_mem hs) (RBTree.root_mem he.symm)

theorem Represents.setColor (h : Represents m (plug (.join d c s a t) p)) (c' : Color) :
    Represents (rbtreeSetColor a c' m) (plug (.join d c' s a t) p) := by
  obtain ⟨hroot, htree, hpath, hnt, hnp, hd⟩ := represents_plug.1 h
  obtain ⟨ha, hs, ht⟩ := (linked_join d).1 htree
  obtain ⟨_, _, has, hat, _⟩ := (nodup_join d).1 hnt
  rw [RBTree.root_join] at hroot hpath
  rw [represents_plug, RBTree.root_join, linked_join, RBTree.toList_recolor d c' c]
  refine ⟨hroot, ⟨?_, hs.modify has, ht.modify hat⟩, hpath.modify ?_, hnt, hnp, hd⟩
  · rw [rbtreeSetColor, node_modify, ha, Node.setColor_of]
  · exact hd a ((mem_join d).2 (.inl rfl))

theorem Represents.setColorNear (h : Represents m (plug (.join d c (.join e c₁ s b t) a u) p))
    (c' : Color) : Represents (rbtreeSetColor b c' m) (plug (.join d c (.join e c' s b t) a u) p) :=
  Represents.setColor (p := ⟨d, c, a, u⟩ :: p) h c'

theorem Represents.setColorFar (h : Represents m (plug (.join d c s a (.join e c₁ t b u)) p))
    (c' : Color) :
    Represents (rbtreeSetColor b c' m) (plug (.join d c s a (.join e c' t b u)) p) := by
  rw [plug_far] at h ⊢
  exact h.setColor c'

theorem rbNode_setParentIf (child par : Option Ptr) (m : Mem) :
    (setParentIf child par m).rbNode = m.rbNode := by
  cases child <;> rfl

theorem rbNode_replaceChild (d : Side) (a : Ptr) (h : m.rbNode = rootOf (some a) p) :
    (replaceChild d (top none p) a q m).rbNode = rootOf q p := by
  cases p with
  | nil => rfl
  | cons f p =>
    rw [top, replaceChild]
    split
    · exact h
    · exact h

theorem top_ne (h : q ∉ elems p) : top none p ≠ some q := by
  cases p with
  | nil => exact nofun
  | cons f p =>
    intro he
    exact h (Option.some.inj he ▸ List.mem_cons_self)

theorem root_ne (h : q ∉ t.toList) : RBTree.root t ≠ some q := fun he => h (RBTree.root_mem he)

/-- A rotation in memory is a rotation of the tree. -/
theorem Represents.rotate (h : Represents m (plug (.join d c s a (.join d c' t b u)) p)) :
    ∃ m', rbtreeRotate d a m = some m' ∧
      Represents m' (plug (.join d c' (.join d c s a t) b u) p) := by
  obtain ⟨hroot, htree, hpath, hnt, hnp, hd⟩ := represents_plug.1 h
  obtain ⟨ha, hs, hbtree⟩ := (linked_join d).1 htree
  obtain ⟨hb, ht, hu⟩ := (linked_join d).1 hbtree
  obtain ⟨hns, hnb, has, hab, hsb⟩ := (nodup_join d).1 hnt
  obtain ⟨hnt', hnu, hbt, hbu, htu⟩ := (nodup_join d).1 hnb
  simp only [mem_join, not_or] at hab hsb hd
  rw [RBTree.root_join] at hroot hpath ha
  have haq : a ∉ elems p := hd a (.inl rfl)
  have hbq : b ∉ elems p := hd b (.inr (.inr (.inl rfl)))
  have hab' : a ≠ b := hab.1
  let m₁ := m.setChild a d.other t.root
  let m₂ := setParentIf t.root (some a) m₁
  let m₃ := m₂.setChild b d (some a)
  let m₄ := rbtreeSetParent b (top none p) m₃
  let m₅ := replaceChild d (top none p) a (some b) m₄
  have hrun : rbtreeRotate d a m = some (rbtreeSetParent a (some b) m₅) := by
    simp only [rbtreeRotate, ha, hb, Node.child_other_of, Node.child_of, Node.parent_of,
      Option.bind_eq_bind, Option.bind_some]
    rfl
  have ha₁ : m₁.node a = Node.of d (top none p) c s.root t.root :=
    (node_modify m a _).trans (by rw [ha, Node.setChild_other_of])
  have hb₂ : m₂.node b = Node.of d (some a) c' t.root u.root :=
    calc m₂.node b = m₁.node b := node_setParentIf_ne m₁ _ (root_ne hbt)
      _ = m.node b := node_modify_ne m _ hab'.symm
      _ = _ := hb
  have ha₅ : m₅.node a = Node.of d (top none p) c s.root t.root :=
    calc m₅.node a = m₄.node a := node_replaceChild_ne m₄ _ _ _ (top_ne haq)
      _ = m₃.node a := node_modify_ne m₃ _ hab'
      _ = m₂.node a := node_modify_ne m₂ _ hab'
      _ = m₁.node a := node_setParentIf_ne m₁ _ (root_ne hab.2.1)
      _ = _ := ha₁
  have hb₄ : m₄.node b = Node.of d (top none p) c' (some a) u.root :=
    calc m₄.node b = { m₃.node b with parent := top none p } := node_modify m₃ b _
      _ = { (m₂.node b).setChild d (some a) with parent := top none p } := by
        rw [show m₃.node b = (m₂.node b).setChild d (some a) from node_modify m₂ b _]
      _ = _ := by rw [hb₂, Node.setChild_of, Node.setParent_of]
  refine ⟨_, hrun, represents_plug.2 ?_⟩
  rw [RBTree.root_join]
  have hlist : (RBTree.join d c' (.join d c s a t) b u).toList =
      (RBTree.join d c s a (.join d c' t b u)).toList := RBTree.toList_rotate d s t u
  have hmem : ∀ q ∈ (RBTree.join d c s a (.join d c' t b u)).toList, q ∉ elems p := by
    simpa only [mem_join, not_or] using hd
  have hapart : ∀ v : RBTree Ptr, (∀ q ∈ v.toList, q ∉ elems p) →
      ∀ q ∈ v.toList, top none p ≠ some q := fun v hv q hq => top_ne (hv q hq)
  refine ⟨?_, (linked_join d).2 ⟨?_, (linked_join d).2 ⟨?_, ?_, ?_⟩, ?_⟩, ?_, hlist ▸ hnt, hnp,
    hlist ▸ hmem⟩
  · exact rbNode_replaceChild d a ((rbNode_setParentIf _ _ m₁).trans hroot)
  · calc _ = m₅.node b := node_modify_ne m₅ _ hab'.symm
      _ = m₄.node b := node_replaceChild_ne m₄ _ _ _ (top_ne hbq)
      _ = _ := by rw [hb₄, RBTree.root_join]
  · exact (node_modify m₅ a _).trans (by rw [ha₅, Node.setParent_of])
  · have hst : ∀ q ∈ s.toList, t.root ≠ some q := fun q hq => root_ne (hsb q hq).2.1
    have hbs : b ∉ s.toList := fun hb => (hsb b hb).1 rfl
    have hs₂ : Linked m₂.node (some a) s := (hs.modify has).setParentIf_apart hst
    have hs₄ : Linked m₄.node (some a) s := (hs₂.modify hbs).modify hbs
    exact (hs₄.replaceChild_apart
      (hapart s fun q hq => hd q (.inr (.inl hq)))).modify has
  · have ht₂ : Linked m₂.node (some a) t := (ht.modify hab.2.1).setParentIf hnt'
    have ht₄ : Linked m₄.node (some a) t := (ht₂.modify hbt).modify hbt
    exact (ht₄.replaceChild_apart
      (hapart t fun q hq => hd q (.inr (.inr (.inr (.inl hq)))))).modify hab.2.1
  · have hut : ∀ q ∈ u.toList, t.root ≠ some q := fun q hq => root_ne fun hqt => htu q hqt hq
    have hu₂ : Linked m₂.node (some b) u := (hu.modify hab.2.2).setParentIf_apart hut
    have hu₄ : Linked m₄.node (some b) u := (hu₂.modify hbu).modify hbu
    exact (hu₄.replaceChild_apart
      (hapart u fun q hq => hd q (.inr (.inr (.inr (.inr hq)))))).modify hab.2.2
  · have htp : ∀ q ∈ elems p, t.root ≠ some q := fun q hq =>
      root_ne fun hqt => hd q (.inr (.inr (.inr (.inl hqt)))) hq
    have hp₂ : LinkedPath m₂.node none (some a) p := (hpath.modify haq).setParentIf_apart htp
    have hp₄ : LinkedPath m₄.node none (some a) p := (hp₂.modify hbq).modify hbq
    exact (hp₄.replaceChild hnp haq).modify haq

end BigBox.Rbtree
