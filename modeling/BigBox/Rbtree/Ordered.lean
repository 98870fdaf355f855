import BigBox.Rbtree.Erase
import BigBox.Rbtree.Insert
import Mathlib.Data.Nat.Basic

namespace BigBox.Rbtree
open RedBlack
set_option autoImplicit true

/-- The leftmost node comes first. -/
theorem descend_first (h : Linked m.node par t) (ht : t.root = some a)
    (hn : t.toList.length < n) : ∃ y, t.toList.head? = some y ∧ descend .left n a m = some y := by
  obtain ⟨c, y, s, q, rfl, hside, hrun⟩ := endsIn .left h ht
  have hlen := length_path (.join .left c .nil y s) q
  refine ⟨y, ?_, hrun n (by omega)⟩
  rw [toList_plug, before_left hside]
  rfl

theorem rbtreeFirst_head (hn : nodes.length < n) (h : Holds m nodes) :
    rbtreeFirst n m = some nodes.head? := by
  obtain ⟨t, k, hrep, _, rfl⟩ := h
  rw [rbtreeFirst, hrep.root]
  cases ht : t.root with
  | none =>
    cases t with
    | nil => rfl
    | node c l a r => cases ht
  | some a =>
    obtain ⟨y, hy, hrun⟩ := descend_first hrep.linked ht hn
    simp only [hrun, hy, Option.map_some]

/-- Climbing from a right child leads to the first node behind. -/
theorem climb_behind (h : Represents m (plug t p)) (ht : t.root = some a) (hn : p.length < n) :
    climb n a m = some (behind p).head? := by
  induction n generalizing t p a with
  | zero => exact (Nat.not_lt_zero _ hn).elim
  | succ n ih =>
    have hparent := h.parent ht
    cases p with
    | nil => simp only [climb, hparent, top, behind, List.head?_nil]
    | cons f p =>
      obtain ⟨d, c, b, s⟩ := f
      have hb : m.node b = Node.of d (top none p) c t.root s.root := h.node
      have hne : some a ≠ s.root := h.roots_ne (p := p) ht
      cases d with
      | left =>
        have hr : (m.node b).rchild = s.root := by rw [hb]; rfl
        simp only [climb, hparent, top, hr, if_neg hne.symm]
        rfl
      | right =>
        have hr : (m.node b).rchild = some a := by rw [hb, ht]; rfl
        simp only [climb, hparent, top, hr, if_true]
        exact ih (p := p) h (RBTree.root_join _) (Nat.lt_of_succ_lt_succ hn)

/-- `rbtree_next` leads to the next node of the order. -/
theorem rbtreeNext_head (hn : nodes.length < n) (h : Holds m nodes)
    (hx : nodes = l ++ x :: r) : rbtreeNext n x m = some r.head? := by
  obtain ⟨t, k, hrep, _, rfl⟩ := h
  have hmem : x ∈ t.toList := hx ▸ List.mem_append_right l List.mem_cons_self
  obtain ⟨c, tl, tr, p, rfl⟩ := exists_plug hmem
  have hsplit : l ++ x :: r = (before p ++ tl.toList) ++ x :: (tr.toList ++ behind p) := by
    rw [← hx, toList_plug]
    simp only [RBTree.toList, List.append_assoc, List.cons_append]
  have hnd : (l ++ x :: r).Nodup := hx ▸ hrep.nodup
  have hxl : x ∉ l := fun hv => (List.nodup_append.1 hnd).2.2 x hv x List.mem_cons_self rfl
  have hxr : x ∉ r := (List.nodup_cons.1 (List.nodup_append.1 hnd).2.1).1
  obtain ⟨_, _, rfl⟩ := (List.append_cons_inj_of_notMem hxl hxr).1 hsplit
  obtain ⟨_, ⟨hnode, _, hright⟩, _, _, _, hd⟩ := represents_plug.1 hrep
  have hself : top none p ≠ some x := top_ne (hd x (mem_node.2 (.inl rfl)))
  have hlen := length_path (.node c tl x tr) p
  cases ht : tr.root with
  | none =>
    cases tr with
    | nil =>
      simp only [rbtreeNext, hnode, if_neg hself, ht]
      exact climb_behind hrep rfl (by omega)
    | node c' l' a r' => cases ht
  | some a =>
    have hlt : tr.toList.length < n := by
      rw [RBTree.toList, List.length_append, List.length_cons] at hlen
      omega
    obtain ⟨y, hy, hrun⟩ := descend_first hright ht hlt
    simp only [rbtreeNext, hnode, if_neg hself, ht, hrun, Option.map_some]
    rw [List.head?_append, hy, Option.some_or]

theorem visit_nodes (hn : nodes.length < n) (h : Holds m nodes) (hx : nodes = l ++ r)
    (hk : r.length ≤ k) : visit n k r.head? m = some r := by
  induction r generalizing l k with
  | nil => cases k <;> rfl
  | cons x r ih =>
    cases k with
    | zero => exact (Nat.not_succ_le_zero _ hk).elim
    | succ k =>
      have hnext := rbtreeNext_head hn h hx
      have hx' : nodes = (l ++ [x]) ++ r := by
        rw [hx, List.append_assoc]
        rfl
      have hrest := ih hx' (Nat.le_of_succ_le_succ hk)
      simp only [List.head?_cons, visit, hnext, Option.bind_eq_bind, Option.bind_some, hrest]
      rfl

/-- A traversal visits every node once, in order, and ends. -/
theorem traverse_holds (hn : nodes.length < n) (h : Holds m nodes) : traverse n m = some nodes := by
  rw [traverse, rbtreeFirst_head hn h]
  exact visit_nodes (l := []) hn h rfl (Nat.le_of_lt hn)

section Keys
variable {K : Type} [LinearOrder K]

/-- The tree with the keys of the structures its nodes are part of. -/
structure State (K : Type) where
  mem : Mem
  key : Ptr → K

/-- A call of a client. An equal key may go to either side. -/
inductive Op (K : Type) where
  | insert (node : Ptr) (key : K) (tie : Ptr → Side)
  | erase (node : Ptr)

/-- The side a key demands at a node. -/
def demands (key : Ptr → K) (k : K) (tie : Ptr → Side) (p : Ptr) : Side :=
  if k < key p then .left else if key p < k then .right else tie p

def State.step (n : Nat) (s : State K) : Op K → Option (State K)
  | .insert node key tie =>
    (insert n (demands s.key key tie) node s.mem).map fun mem =>
      ⟨mem, Function.update s.key node key⟩
  | .erase node => (rbtreeErase n node s.mem).map fun mem => { s with mem }

/-- The calls in order, each for at most `n` rounds of each loop. -/
def State.run (n : Nat) : State K → List (Op K) → Option (State K)
  | s, [] => some s
  | s, op :: ops => (s.step n op).bind fun s => s.run n ops

/-- The nodes inserted and not yet erased. -/
def Op.live (nodes : List Ptr) : Op K → List Ptr
  | .insert node _ _ => node :: nodes
  | .erase node => nodes.erase node

/-- A node is inserted while it is in no tree, and erased while it is in the tree. -/
def Op.Permitted (nodes : List Ptr) : Op K → Prop
  | .insert node _ _ => node ∉ nodes
  | .erase node => node ∈ nodes

instance (nodes : List Ptr) (op : Op K) : Decidable (op.Permitted nodes) :=
  match op with
  | .insert node _ _ => inferInstanceAs (Decidable (node ∉ nodes))
  | .erase node => inferInstanceAs (Decidable (node ∈ nodes))

def Permitted : List Ptr → List (Op K) → Prop
  | _, [] => True
  | nodes, op :: ops => op.Permitted nodes ∧ Permitted (op.live nodes) ops

instance Permitted.decidable : (nodes : List Ptr) → (ops : List (Op K)) →
    Decidable (Permitted nodes ops)
  | _, [] => inferInstanceAs (Decidable True)
  | nodes, op :: ops =>
    have := Permitted.decidable (op.live nodes) ops
    inferInstanceAs (Decidable (op.Permitted nodes ∧ Permitted (op.live nodes) ops))

/-- The order of the nodes of a search tree. -/
def Sorted (key : Ptr → K) (nodes : List Ptr) : Prop :=
  nodes.Pairwise fun a b => key a ≤ key b

/-- The state holds a red-black search tree with these nodes. -/
def State.Inv (s : State K) (nodes : List Ptr) : Prop :=
  ∃ list, Holds s.mem list ∧ Sorted s.key list ∧ list.Perm nodes

theorem demands_left {k : K} (h : demands key k tie p = .left) : k ≤ key p := by
  rw [demands] at h
  split at h
  case isTrue hlt => exact le_of_lt hlt
  case isFalse hlt =>
    split at h
    case isTrue => cases h
    case isFalse hgt => exact le_of_not_gt hgt

theorem demands_right {k : K} (h : demands key k tie p = .right) : key p ≤ k := by
  rw [demands] at h
  split at h
  case isTrue => cases h
  case isFalse hlt => exact le_of_not_gt hlt

/-- A new node at the place its key demands keeps the order. -/
theorem sorted_insert {key : Ptr → K} {q : List (Frame Ptr)}
    (hs : Sorted key (before q ++ behind q)) (hx : x ∉ before q ++ behind q)
    (hside : ∀ f ∈ q, f.side = demands key k tie f.elem) :
    Sorted (Function.update key x k) (before q ++ x :: behind q) := by
  have : IsTrans Ptr fun a b => Function.update key x k a ≤ Function.update key x k b :=
    ⟨fun _ _ _ => le_trans⟩
  have hkey : ∀ a ∈ before q ++ behind q, Function.update key x k a = key a := fun a ha =>
    Function.update_of_ne (fun he : a = x => hx (he ▸ ha)) ..
  have helem : ∀ f ∈ q, Function.update key x k f.elem = key f.elem := fun f hf =>
    hkey f.elem (mem_elems.1 (elem_mem hf))
  apply pairwise_place
  · apply hs.imp_of_mem
    intro a b ha hb hab
    rw [hkey a ha, hkey b hb]
    exact hab
  · intro f hf hl
    rw [helem f hf, Function.update_self]
    exact demands_left ((hside f hf).symm.trans hl)
  · intro f hf hr
    rw [helem f hf, Function.update_self]
    exact demands_right ((hside f hf).symm.trans hr)

theorem State.step_inv {s : State K} (hn : nodes.length < n) (h : s.Inv nodes)
    (hop : op.Permitted nodes) : ∃ s', s.step n op = some s' ∧ s'.Inv (op.live nodes) := by
  obtain ⟨list, hholds, hsorted, hperm⟩ := h
  have hlen : list.length < n := by rw [hperm.length_eq]; exact hn
  cases op with
  | insert x k tie =>
    have hx : x ∉ list := fun hv => hop (hperm.mem_iff.1 hv)
    obtain ⟨m', q, hrun, rfl, hside, hm'⟩ := insert_holds hlen (demands s.key k tie) hholds hx
    exact ⟨_, congrArg (Option.map _) hrun, _, hm', sorted_insert hsorted hx hside,
      List.perm_middle.trans (hperm.cons x)⟩
  | erase x =>
    obtain ⟨m', hrun, hm'⟩ := rbtreeErase_holds hlen hholds (hperm.mem_iff.2 hop)
    exact ⟨_, congrArg (Option.map _) hrun, _, hm', hsorted.sublist List.erase_sublist,
      hperm.erase x⟩

omit [LinearOrder K] in
theorem Op.length_live (nodes : List Ptr) (op : Op K) :
    (op.live nodes).length ≤ nodes.length + 1 := by
  cases op with
  | insert x k tie => exact Nat.le_refl _
  | erase x => exact Nat.le_succ_of_le List.length_erase_le

/-- The nodes inserted and not yet erased after some calls. -/
def liveAfter (nodes : List Ptr) (ops : List (Op K)) : List Ptr :=
  ops.foldl (fun nodes op => op.live nodes) nodes

omit [LinearOrder K] in
theorem length_liveAfter (nodes : List Ptr) (ops : List (Op K)) :
    (liveAfter nodes ops).length ≤ nodes.length + ops.length := by
  induction ops generalizing nodes with
  | nil => exact Nat.le_refl _
  | cons op ops ih =>
    have hlen := op.length_live nodes
    have hrest := ih (op.live nodes)
    rw [List.length_cons]
    exact Nat.le_trans hrest (by omega)

/-- Every run of permitted calls ends, with the invariant. -/
theorem State.run_inv {s : State K} (hn : nodes.length + ops.length < n) (h : s.Inv nodes)
    (hops : Permitted nodes ops) :
    ∃ s', s.run n ops = some s' ∧ s'.Inv (liveAfter nodes ops) := by
  induction ops generalizing s nodes with
  | nil => exact ⟨s, rfl, h⟩
  | cons op ops ih =>
    have hlen := op.length_live nodes
    rw [List.length_cons] at hn
    have hlt : nodes.length < n := by omega
    have hlt' : (op.live nodes).length + ops.length < n := by omega
    obtain ⟨s₁, hstep, h₁⟩ := State.step_inv hlt h hops.1
    obtain ⟨s', hrun, h'⟩ := ih hlt' h₁ hops.2
    exact ⟨s', by rw [State.run, hstep]; exact hrun, h'⟩

/-- A tree without nodes. -/
def State.empty (node : Ptr → Node) (key : Ptr → K) : State K := ⟨⟨node, none⟩, key⟩

theorem State.empty_inv (node : Ptr → Node) (key : Ptr → K) : (State.empty node key).Inv [] :=
  ⟨[], ⟨.nil, 0, ⟨rfl, trivial, List.nodup_nil⟩, .nil, rfl⟩, List.Pairwise.nil, .refl _⟩

/-- From the empty tree on, insertions and erasures keep a red-black search tree of the nodes
inserted and not yet erased, whose traversal visits them in key order. -/
theorem rbtree_run (node : Ptr → Node) (key : Ptr → K) (ops : List (Op K))
    (hops : Permitted [] ops) (n : Nat) (hn : ops.length < n) :
    ∃ s t k, (State.empty node key).run n ops = some s ∧ Represents s.mem t ∧
      WellColored t .black k ∧ Sorted s.key t.toList ∧
      t.toList.Perm (liveAfter [] ops) ∧
      traverse n s.mem = some t.toList := by
  have hlen := length_liveAfter [] ops
  rw [List.length_nil, Nat.zero_add] at hlen
  have hn' : ([] : List Ptr).length + ops.length < n := by
    rw [List.length_nil, Nat.zero_add]
    exact hn
  obtain ⟨s, hrun, list, hholds, hsorted, hperm⟩ :=
    State.run_inv hn' (State.empty_inv node key) hops
  have hlist : list.length < n := by
    rw [hperm.length_eq]
    omega
  have htraverse := traverse_holds hlist hholds
  obtain ⟨t, k, hrep, hb, rfl⟩ := hholds
  exact ⟨s, t, k, hrun, hrep, hb, hsorted, hperm, htraverse⟩

/-- Three insertions, with an equal key among them, and an erasure. -/
theorem rbtree_run_three :
    ∃ s t k, (State.empty (fun _ => ⟨none, .red, none, none⟩) fun _ => 0).run 5
        [.insert 10 2 fun _ => .left, .insert 11 1 fun _ => .left, .insert 12 2 fun _ => .left,
          .erase 10] = some s ∧ Represents s.mem t ∧
      WellColored t .black k ∧ Sorted s.key t.toList ∧
      t.toList.Perm (liveAfter [] [Op.insert 10 2 fun _ => .left, .insert 11 1 fun _ => .left,
        .insert 12 2 fun _ => .left, .erase 10]) ∧
      traverse 5 s.mem = some t.toList :=
  rbtree_run (fun _ => ⟨none, .red, none, none⟩) (fun _ => 0)
    [.insert 10 2 fun _ => .left, .insert 11 1 fun _ => .left, .insert 12 2 fun _ => .left,
      .erase 10] (by decide) 5 (by decide)

end Keys

end BigBox.Rbtree
