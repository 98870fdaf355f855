import BigBox.Lib.Memory
import BigBox.Rbtree.Erase
import BigBox.Rbtree.Insert

namespace BigBox.Cstl
open RedBlack Rbtree
set_option autoImplicit true

/-- The entries of a container by their blocks of memory, which the nodes of a red-black tree
are part of. -/
structure Tree (E : Type) where
  mem : Mem
  entry : Ptr → E
  blocks : List Ptr

def Tree.empty (node : Ptr → Node) (entry : Ptr → E) : Tree E := ⟨⟨node, none⟩, entry, []⟩

/-- No loop over a tree takes more rounds than this. -/
def Tree.rounds (t : Tree E) : Nat := t.blocks.length + 1

/-- `lookup`. `order` is what `compare_key` returns for the key looked up and the key of a
node. -/
def lookup (order : Ptr → Int) : Nat → Option Ptr → Mem → Option (Option Ptr)
  | _, none, _ => some none
  | 0, some _, _ => none
  | n + 1, some node, m =>
    let ret := order node
    if ret < 0 then lookup order n (m.node node).lchild m
    else if 0 < ret then lookup order n (m.node node).rchild m
    else some (some node)

/-- What the loop at the start of an insertion finds. -/
inductive Place where
  | node (p : Ptr)
  | link (link : Option (Ptr × Side))

/-- The loop at the start of an insertion. -/
def findPlace (order : Ptr → Int) : Nat → Option Ptr → Option (Ptr × Side) → Mem → Option Place
  | _, none, link, _ => some (.link link)
  | 0, some _, _, _ => none
  | n + 1, some node, _, m =>
    let result := order node
    if result < 0 then findPlace order n (m.node node).lchild (some (node, .left)) m
    else if 0 < result then findPlace order n (m.node node).rchild (some (node, .right)) m
    else some (.node node)

def Place.found : Place → Option Ptr
  | .node p => some p
  | .link _ => none

/-- `clear_helper`, with the blocks in the order it frees them. -/
def clearHelper : Nat → Option Ptr → Mem → Option (List Ptr × Mem)
  | _, none, m => some ([], m)
  | 0, some _, _ => none
  | n + 1, some node, m => do
    let (freed, m) ← clearHelper n (m.node node).lchild m
    let m := m.setChild node .left none
    let (freed', m) ← clearHelper n (m.node node).rchild m
    let m := m.setChild node .right none
    return (freed ++ freed' ++ [node], m)

def Tree.lookup (t : Tree E) (order : E → Int) : Option (Option Ptr) :=
  Cstl.lookup (fun p => order (t.entry p)) t.rounds t.mem.rbNode t.mem

def Tree.findPlace (t : Tree E) (order : E → Int) : Option Place :=
  Cstl.findPlace (fun p => order (t.entry p)) t.rounds t.mem.rbNode none t.mem

/-- A new block is linked into the tree. -/
def Tree.link (t : Tree E) (a : Allocator) (link : Option (Ptr × Side)) (e : E) :
    Option (Tree E) :=
  let node := a.pick t.blocks
  (rbtreeInsertColor t.rounds node (rbtreeLinkNode node link t.mem)).map fun mem =>
    ⟨mem, Function.update t.entry node e, node :: t.blocks⟩

/-- A block is taken out of the tree and freed. -/
def Tree.remove (t : Tree E) (node : Ptr) : Option (Tree E) :=
  (rbtreeErase t.rounds node t.mem).map fun mem =>
    { t with mem := mem, blocks := t.blocks.erase node }

def Tree.set (t : Tree E) (node : Ptr) (e : E) : Tree E :=
  { t with entry := Function.update t.entry node e }

@[simp] theorem Tree.entry_set (t : Tree E) (node : Ptr) (e : E) : (t.set node e).entry node = e :=
  Function.update_self ..

theorem Tree.entry_set_ne (t : Tree E) (e : E) (h : p ≠ node) :
    (t.set node e).entry p = t.entry p := Function.update_of_ne h ..

/-- All blocks are freed. -/
def Tree.clear (t : Tree E) : Option (Tree E) :=
  (clearHelper t.rounds t.mem.rbNode t.mem).map fun r =>
    ⟨{ r.2 with rbNode := none }, t.entry, t.blocks.diff r.1⟩

/-- What the keys hold is ordered the way `compare_key` says. -/
structure Compares [LinearOrder Q] (compareKey : K → K → Int) (content : K → Q) : Prop where
  neg : compareKey a b < 0 ↔ content a < content b
  pos : 0 < compareKey a b ↔ content b < content a

theorem lookup_eq_found (order : Ptr → Int) (n : Nat) (node : Option Ptr)
    (link : Option (Ptr × Side)) (m : Mem) :
    lookup order n node m = (findPlace order n node link m).map Place.found := by
  induction n generalizing node link with
  | zero => cases node <;> rfl
  | succ n ih =>
    cases node with
    | none => rfl
    | some a =>
      simp only [lookup, findPlace]
      split
      case isTrue => exact ih ..
      case isFalse =>
        split
        case isTrue => exact ih ..
        case isFalse => rfl

/-- The path to a place takes the side the key demands at each node. -/
def Demands (order : Ptr → Int) (f : Frame Ptr) : Prop :=
  (f.side = .left → order f.elem < 0) ∧ (f.side = .right → 0 < order f.elem)

/-- The loop ends at a node with the key or at the missing child the key demands. -/
theorem findPlace_path (h : Rbtree.Represents m (plug t p)) (hp : ∀ f ∈ p, Demands order f)
    (hn : t.toList.length ≤ n) :
    (∃ a ∈ (plug t p).toList, order a = 0 ∧
      findPlace order n t.root (linkOf p) m = some (.node a)) ∨
    ∃ q, plug t p = plug .nil q ∧ (∀ f ∈ q, Demands order f) ∧
      findPlace order n t.root (linkOf p) m = some (.link (linkOf q)) := by
  induction n generalizing t p with
  | zero =>
    cases t with
    | nil => exact .inr ⟨p, rfl, hp, rfl⟩
    | node c l a r =>
      rw [RBTree.toList, List.length_append, List.length_cons] at hn
      omega
  | succ n ih =>
    cases t with
    | nil => exact .inr ⟨p, rfl, hp, rfl⟩
    | node c l a r =>
      have hnode : m.node a = ⟨top none p, c, r.root, l.root⟩ := (represents_plug.1 h).2.1.1
      rw [RBTree.toList, List.length_append, List.length_cons] at hn
      have hstep : ∀ (f : Frame Ptr), Demands order f → ∀ g ∈ f :: p, Demands order g := by
        intro f hf g hg
        rcases List.mem_cons.1 hg with rfl | hg
        · exact hf
        · exact hp g hg
      rcases Int.lt_trichotomy (order a) 0 with hlt | heq | hgt
      · have hrun : findPlace order (n + 1) (some a) (linkOf p) m =
            findPlace order n l.root (linkOf (⟨.left, c, a, r⟩ :: p)) m := by
          rw [findPlace, if_pos hlt, hnode, linkOf]
        have hp' := hstep ⟨.left, c, a, r⟩ ⟨fun _ => hlt, (by cases ·)⟩
        have hlen : l.toList.length ≤ n := by omega
        rw [RBTree.root, hrun]
        exact ih (t := l) (p := ⟨.left, c, a, r⟩ :: p) h hp' hlen
      · refine .inl ⟨a, mem_plug.2 (.inl (mem_node.2 (.inl rfl))), heq, ?_⟩
        rw [RBTree.root, findPlace, if_neg (by omega), if_neg (by omega)]
      · have hrun : findPlace order (n + 1) (some a) (linkOf p) m =
            findPlace order n r.root (linkOf (⟨.right, c, a, l⟩ :: p)) m := by
          rw [findPlace, if_neg (by omega), if_pos hgt, hnode, linkOf]
        have hp' := hstep ⟨.right, c, a, l⟩ ⟨(by cases ·), fun _ => hgt⟩
        have hlen : r.toList.length ≤ n := by omega
        rw [RBTree.root, hrun]
        exact ih (t := r) (p := ⟨.right, c, a, l⟩ :: p) h hp' hlen

/-- A subtree is cleared: each of its nodes is freed once, the others stay as they are. -/
theorem clearHelper_frees (h : Linked m.node par t) (hnd : t.toList.Nodup)
    (hn : t.toList.length ≤ n) :
    ∃ freed m', clearHelper n t.root m = some (freed, m') ∧ freed.Perm t.toList ∧
      ∀ q, q ∉ t.toList → m'.node q = m.node q := by
  induction n generalizing m par t with
  | zero =>
    cases t with
    | nil => exact ⟨[], m, rfl, .refl _, fun _ _ => rfl⟩
    | node c l a r =>
      rw [RBTree.toList, List.length_append, List.length_cons] at hn
      omega
  | succ n ih =>
    cases t with
    | nil => exact ⟨[], m, rfl, .refl _, fun _ _ => rfl⟩
    | node c l a r =>
      obtain ⟨hnode, hl, hr⟩ := h
      obtain ⟨hnl, hnr, hal, har, hlr⟩ := nodup_node.1 hnd
      rw [RBTree.toList, List.length_append, List.length_cons] at hn
      obtain ⟨freed, m₁, hrun₁, hperm₁, hframe₁⟩ := ih hl hnl (by omega)
      let m₂ := m₁.setChild a .left none
      have hr₂ : Linked m₂.node (some a) r :=
        Linked.modify (hr.congr fun q hq => hframe₁ q fun hql => hlr q hql hq) har
      obtain ⟨freed', m₃, hrun₃, hperm₃, hframe₃⟩ := ih hr₂ hnr (by omega)
      have hchild : (m₂.node a).rchild = r.root := by
        have ha₁ : m₁.node a = m.node a := hframe₁ a hal
        have ha₂ : m₂.node a = (m₁.node a).setChild .left none := node_modify m₁ a _
        rw [ha₂, ha₁, hnode]
        rfl
      refine ⟨freed ++ freed' ++ [a], m₃.setChild a .right none, ?_, ?_, fun q hq => ?_⟩
      · rw [RBTree.root, clearHelper]
        simp only [hnode, hrun₁, Option.bind_eq_bind, Option.bind_some]
        rw [show (m₁.setChild a .left none).node a = m₂.node a from rfl, hchild, hrun₃]
        rfl
      · rw [RBTree.toList, List.append_assoc]
        exact hperm₁.append ((hperm₃.append_right [a]).trans List.perm_append_comm)
      · have hne : q ≠ a := fun he => hq (mem_node.2 (.inl he))
        have hql : q ∉ l.toList := fun hv => hq (mem_node.2 (.inr (.inl hv)))
        have hqr : q ∉ r.toList := fun hv => hq (mem_node.2 (.inr (.inr hv)))
        calc (m₃.setChild a .right none).node q = m₃.node q := node_modify_ne m₃ _ hne
          _ = m₂.node q := hframe₃ q hqr
          _ = m₁.node q := node_modify_ne m₁ _ hne
          _ = m.node q := hframe₁ q hql

section Refines
variable {E Q : Type} [LinearOrder Q] {t : Tree E} {content : E → Q} {l : List E}

/-- The tree holds these entries, in the order of their contents, which are distinct, and no
other block is in use. -/
def Tree.Refines (t : Tree E) (content : E → Q) (l : List E) : Prop :=
  ∃ nodes, Holds t.mem nodes ∧
    nodes.Pairwise (fun a b => content (t.entry a) < content (t.entry b)) ∧
    nodes.Perm t.blocks ∧ (nodes.map t.entry).Perm l

/-- `compare_key` for a key that holds `c`, as a function of the entry it is compared with. -/
structure Orders (order : E → Int) (content : E → Q) (c : Q) : Prop where
  neg : order e < 0 ↔ c < content e
  pos : 0 < order e ↔ content e < c

theorem Compares.orders {compareKey : K → K → Int} {content : K → Q}
    (h : Compares compareKey content) (key : E → K) (k : K) :
    Orders (fun e => compareKey k (key e)) (fun e => content (key e)) (content k) :=
  ⟨h.neg, h.pos⟩

theorem Orders.eq_zero {order : E → Int} {c : Q} (h : Orders order content c) (h₀ : order e = 0) :
    content e = c :=
  le_antisymm (le_of_not_gt fun hlt => by have := h.neg.2 hlt; omega)
    (le_of_not_gt fun hlt => by have := h.pos.2 hlt; omega)

theorem Tree.empty_refines (node : Ptr → Node) (entry : Ptr → E) :
    (Tree.empty node entry).Refines content [] :=
  ⟨[], ⟨.nil, 0, ⟨rfl, trivial, List.nodup_nil⟩, .nil, rfl⟩, List.Pairwise.nil, .refl _, .refl _⟩

/-- No two entries have the same content. -/
theorem Tree.Refines.distinct (h : t.Refines content l) :
    l.Pairwise fun e e' => content e ≠ content e' := by
  obtain ⟨nodes, _, hsorted, _, hentries⟩ := h
  apply (hentries.pairwise_iff fun hne => Ne.symm hne).1
  apply List.pairwise_map.2
  exact hsorted.imp fun hlt => ne_of_lt hlt

/-- A node of the tree with the content looked up, and the other entries. -/
structure Tree.Hit (t : Tree E) (content : E → Q) (c : Q) (p : Ptr) (l l' : List E) : Prop where
  mem : p ∈ t.blocks
  content_eq : content (t.entry p) = c
  perm : l.Perm (t.entry p :: l')
  remove : ∃ t', t.remove p = some t' ∧ t'.Refines content l'
  set : ∀ e, content e = c → (t.set p e).Refines content (e :: l')
  remove_set : ∀ e, content e = c → ∃ t', (t.set p e).remove p = some t' ∧ t'.Refines content l'

theorem Tree.Refines.blocks (h : t.Refines content []) : t.blocks = [] := by
  obtain ⟨nodes, _, _, hblocks, hentries⟩ := h
  have hnodes : nodes = [] := List.map_eq_nil_iff.1 hentries.eq_nil
  rw [hnodes] at hblocks
  exact hblocks.nil_eq.symm

theorem Tree.Refines.rbNode (h : t.Refines content []) : t.mem.rbNode = none := by
  obtain ⟨nodes, ⟨s, _, hrep, _, hs⟩, _, _, hentries⟩ := h
  have hnodes : nodes = [] := List.map_eq_nil_iff.1 hentries.eq_nil
  rw [hrep.root]
  cases s with
  | nil => rfl
  | node c l a r =>
    rw [hnodes, RBTree.toList] at hs
    exact (List.append_ne_nil_of_right_ne_nil _ (List.cons_ne_nil _ _) hs).elim

theorem Tree.blocks_of_link (h : t.link a place e = some t') :
    t'.blocks = a.pick t.blocks :: t.blocks := by
  obtain ⟨mem, _, rfl⟩ := Option.map_eq_some_iff.1 h
  rfl

/-- The content looked up is that of no entry, and an entry with it goes to this place. -/
structure Tree.Miss (t : Tree E) (content : E → Q) (c : Q) (link : Option (Ptr × Side))
    (l : List E) : Prop where
  absent : ∀ e ∈ l, content e ≠ c
  link : ∀ a e, content e = c → ∃ t', t.link a link e = some t' ∧ t'.Refines content (e :: l)

theorem nodup_of_sorted {nodes : List Ptr}
    (hs : nodes.Pairwise fun a b => content (t.entry a) < content (t.entry b)) : nodes.Nodup := by
  apply hs.imp
  intro a b hlt he
  rw [he] at hlt
  exact lt_irrefl _ hlt

theorem map_update_erase {nodes : List Ptr} {entry : Ptr → E} (hn : nodes.Nodup) (a : Ptr) (e : E) :
    (nodes.erase a).map (Function.update entry a e) = (nodes.erase a).map entry := by
  apply List.map_congr_left
  intro b hb
  have hne : b ≠ a := fun he => (hn.mem_erase_iff.1 hb).1 he
  exact Function.update_of_ne hne ..

theorem map_update_perm {nodes : List Ptr} {entry : Ptr → E} (hn : nodes.Nodup) (ha : a ∈ nodes)
    (e : E) : (nodes.map (Function.update entry a e)).Perm (e :: (nodes.erase a).map entry) := by
  have hsplit := (List.perm_cons_erase ha).map (Function.update entry a e)
  rw [List.map_cons, Function.update_self, map_update_erase hn] at hsplit
  exact hsplit

/-- A node is taken out. -/
theorem Tree.remove_of_mem {nodes : List Ptr} (hholds : Holds t.mem nodes)
    (hsorted : nodes.Pairwise fun a b => content (t.entry a) < content (t.entry b))
    (hblocks : nodes.Perm t.blocks) (ha : a ∈ nodes) :
    ∃ t', t.remove a = some t' ∧ t'.Refines content ((nodes.erase a).map t.entry) := by
  have hlen : nodes.length < t.rounds := by
    rw [hblocks.length_eq]
    exact Nat.lt_succ_self _
  obtain ⟨m', hrun, hm'⟩ := rbtreeErase_holds hlen hholds ha
  exact ⟨_, congrArg (Option.map _) hrun, nodes.erase a, hm',
    hsorted.sublist List.erase_sublist, hblocks.erase a, .refl _⟩

theorem Tree.hit_of_mem {nodes : List Ptr} (hholds : Holds t.mem nodes)
    (hsorted : nodes.Pairwise fun a b => content (t.entry a) < content (t.entry b))
    (hblocks : nodes.Perm t.blocks) (hentries : (nodes.map t.entry).Perm l) (ha : a ∈ nodes) :
    ∃ l', t.Hit content (content (t.entry a)) a l l' := by
  have hn : nodes.Nodup := nodup_of_sorted hsorted
  have hsorted' : ∀ e, content e = content (t.entry a) →
      nodes.Pairwise fun b b' =>
        content ((t.set a e).entry b) < content ((t.set a e).entry b') := by
    intro e he
    have hcontent : ∀ b, content ((t.set a e).entry b) = content (t.entry b) := by
      intro b
      by_cases hb : b = a
      · rw [hb, Tree.entry_set, he]
      · rw [Tree.entry_set_ne t e hb]
    simp only [hcontent]
    exact hsorted
  refine ⟨(nodes.erase a).map t.entry, hblocks.mem_iff.1 ha, rfl, ?_, ?_, fun e he => ?_,
    fun e he => ?_⟩
  · exact hentries.symm.trans ((List.perm_cons_erase ha).map t.entry)
  · exact Tree.remove_of_mem hholds hsorted hblocks ha
  · exact ⟨nodes, hholds, hsorted' e he, hblocks, map_update_perm hn ha e⟩
  · have hremove := Tree.remove_of_mem (t := t.set a e) hholds (hsorted' e he) hblocks ha
    rw [show (t.set a e).entry = Function.update t.entry a e from rfl,
      map_update_erase hn] at hremove
    exact hremove

/-- A new entry at the place its content demands keeps the order. -/
theorem sorted_place {entry : Ptr → E} {q : List (Frame Ptr)}
    (hs : (before q ++ behind q).Pairwise fun a b => content (entry a) < content (entry b))
    (hx : x ∉ before q ++ behind q)
    (hl : ∀ f ∈ q, f.side = .left → content e < content (entry f.elem))
    (hr : ∀ f ∈ q, f.side = .right → content (entry f.elem) < content e) :
    (before q ++ x :: behind q).Pairwise fun a b =>
      content (Function.update entry x e a) < content (Function.update entry x e b) := by
  have : IsTrans Ptr fun a b =>
      content (Function.update entry x e a) < content (Function.update entry x e b) :=
    ⟨fun _ _ _ => lt_trans⟩
  have hold : ∀ a ∈ before q ++ behind q, Function.update entry x e a = entry a := fun a ha =>
    Function.update_of_ne (fun he : a = x => hx (he ▸ ha)) ..
  have helem : ∀ f ∈ q, Function.update entry x e f.elem = entry f.elem := fun f hf =>
    hold f.elem (mem_elems.1 (elem_mem hf))
  apply pairwise_place
  · apply hs.imp_of_mem
    intro a b ha hb hab
    rw [hold a ha, hold b hb]
    exact hab
  · intro f hf hleft
    rw [helem f hf, Function.update_self]
    exact hl f hf hleft
  · intro f hf hright
    rw [helem f hf, Function.update_self]
    exact hr f hf hright

theorem Tree.miss_of_path {order : E → Int} {q : List (Frame Ptr)} (ho : Orders order content c)
    (hrep : Rbtree.Represents t.mem (plug .nil q)) (hb : WellColored (plug .nil q) .black k)
    (hsorted : (plug .nil q).toList.Pairwise
      fun a b => content (t.entry a) < content (t.entry b))
    (hblocks : (plug .nil q).toList.Perm t.blocks)
    (hentries : ((plug .nil q).toList.map t.entry).Perm l)
    (hq : ∀ f ∈ q, Demands (fun p => order (t.entry p)) f) :
    t.Miss content c (linkOf q) l := by
  have hlen : q.length < t.rounds := by
    have hle := length_path .nil q
    rw [hblocks.length_eq] at hle
    rw [Tree.rounds]
    omega
  have helems : ∀ v, v ∈ elems q ↔ v ∈ t.blocks := by
    intro v
    rw [← hblocks.mem_iff, toList_plug_nil, mem_elems]
  rw [toList_plug_nil] at hsorted hblocks hentries
  have hbefore : ∀ a ∈ before q, content (t.entry a) < c :=
    before_closed hsorted (fun _ _ => lt_trans) fun f hf hs => ho.pos.1 ((hq f hf).2 hs)
  have hbehind : ∀ a ∈ behind q, c < content (t.entry a) :=
    behind_closed hsorted (fun _ _ hab ha => lt_trans ha hab) fun f hf hs =>
      ho.neg.1 ((hq f hf).1 hs)
  constructor
  · intro e he
    obtain ⟨a, ha, rfl⟩ := List.mem_map.1 (hentries.mem_iff.2 he)
    rcases List.mem_append.1 ha with ha | ha
    · exact ne_of_lt (hbefore a ha)
    · exact (ne_of_lt (hbehind a ha)).symm
  · intro alloc e he
    let x := alloc.pick t.blocks
    have hx : x ∉ before q ++ behind q := fun hv => alloc.fresh t.blocks (hblocks.mem_iff.1 hv)
    have hxq : x ∉ elems q := fun hv => alloc.fresh t.blocks ((helems x).1 hv)
    obtain ⟨m', hrun, hm'⟩ := linkNode_holds hlen hrep hb hxq
    have hold : ∀ a ∈ before q ++ behind q, Function.update t.entry x e a = t.entry a :=
      fun a ha => Function.update_of_ne (fun he : a = x => hx (he ▸ ha)) ..
    refine ⟨_, congrArg (Option.map _) hrun, before q ++ x :: behind q, hm', ?_, ?_, ?_⟩
    · exact sorted_place hsorted hx (fun f hf hs => he ▸ ho.neg.1 ((hq f hf).1 hs))
        fun f hf hs => he ▸ ho.pos.1 ((hq f hf).2 hs)
    · exact List.perm_middle.trans (hblocks.cons x)
    · have hmiddle : (before q ++ x :: behind q).Perm (x :: (before q ++ behind q)) :=
        List.perm_middle
      have hperm := hmiddle.map (Function.update t.entry x e)
      rw [List.map_cons, Function.update_self, List.map_congr_left hold] at hperm
      exact hperm.trans (hentries.cons e)

/-- What the loop at the start of an insertion finds. -/
theorem Tree.Refines.findPlace {order : E → Int} (h : t.Refines content l)
    (ho : Orders order content c) :
    (∃ p l', t.findPlace order = some (.node p) ∧ t.Hit content c p l l') ∨
    ∃ link, t.findPlace order = some (.link link) ∧ t.Miss content c link l := by
  obtain ⟨nodes, ⟨s, k, hrep, hb, rfl⟩, hsorted, hblocks, hentries⟩ := h
  have hlen : s.toList.length ≤ t.rounds := by
    rw [hblocks.length_eq]
    exact Nat.le_succ _
  have hdemands : ∀ f ∈ ([] : List (Frame Ptr)), Demands (fun p => order (t.entry p)) f := nofun
  have hpath := findPlace_path (p := []) hrep hdemands hlen
  rw [← hrep.root] at hpath
  rcases hpath with ⟨a, ha, hzero, hrun⟩ | ⟨q, hq, hdemands, hrun⟩
  · obtain ⟨l', hhit⟩ := Tree.hit_of_mem ⟨s, k, hrep, hb, rfl⟩ hsorted hblocks hentries ha
    rw [ho.eq_zero hzero] at hhit
    exact .inl ⟨a, l', hrun, hhit⟩
  · rw [plug] at hq
    subst hq
    exact .inr ⟨linkOf q, hrun, Tree.miss_of_path ho hrep hb hsorted hblocks hentries hdemands⟩

theorem Tree.lookup_eq (t : Tree E) (order : E → Int) :
    t.lookup order = (t.findPlace order).map Place.found := lookup_eq_found ..

/-- What `lookup` returns. -/
theorem Tree.Refines.lookup {order : E → Int} (h : t.Refines content l)
    (ho : Orders order content c) :
    (∃ p l', t.lookup order = some (some p) ∧ t.Hit content c p l l') ∨
    (t.lookup order = some none ∧ ∀ e ∈ l, content e ≠ c) := by
  rw [Tree.lookup_eq]
  rcases h.findPlace ho with ⟨p, l', hrun, hhit⟩ | ⟨link, hrun, hmiss⟩
  · exact .inl ⟨p, l', by rw [hrun]; rfl, hhit⟩
  · exact .inr ⟨by rw [hrun]; rfl, hmiss.absent⟩

/-- `clear_helper` frees every block. -/
theorem Tree.Refines.clear (h : t.Refines content l) :
    ∃ t', t.clear = some t' ∧ t'.Refines content [] := by
  obtain ⟨nodes, ⟨s, k, hrep, _, rfl⟩, _, hblocks, _⟩ := h
  have hlen : s.toList.length ≤ t.rounds := by
    rw [hblocks.length_eq]
    exact Nat.le_succ _
  obtain ⟨freed, m', hrun, hperm, _⟩ := clearHelper_frees hrep.linked hrep.nodup hlen
  rw [← hrep.root] at hrun
  have hfreed : t.blocks.diff freed = [] := diff_of_perm (hblocks.symm.trans hperm.symm)
  refine ⟨Tree.empty m'.node t.entry, ?_, Tree.empty_refines _ _⟩
  rw [Tree.clear, hrun, Option.map_some, hfreed]
  rfl

end Refines

end BigBox.Cstl
