import Mathlib.Data.List.Nodup
import Mathlib.Data.List.Perm.Basic

namespace BigBox
set_option autoImplicit true

/-- Trees next to one another: each node by its address, with its first child and its next. -/
inductive Forest (α γ : Type) where
  | nil
  | node (a : α) (c : γ) (child next : Forest α γ)
  deriving DecidableEq

namespace Forest

def root : Forest α γ → Option α
  | nil => none
  | node a _ _ _ => some a

def addrs : Forest α γ → List α
  | nil => []
  | node a _ child next => a :: (child.addrs ++ next.addrs)

/-- The addresses of the roots. -/
def roots : Forest α γ → List α
  | nil => []
  | node a _ _ next => a :: next.roots

def append : Forest α γ → Forest α γ → Forest α γ
  | nil, g => g
  | node a c child next, g => node a c child (next.append g)

/-- The forest without its addresses. -/
def shape : Forest α γ → Forest Unit γ
  | nil => nil
  | node _ c child next => node () c child.shape next.shape

/-- The forest at new addresses. -/
def relabel : Forest α γ → List β → Forest β γ
  | node _ c child next, b :: l =>
    node b c (child.relabel l) (next.relabel (l.drop child.addrs.length))
  | _, _ => nil

/-- A node of certain contents has no child. -/
def Leaves (leaf : γ → Prop) : Forest α γ → Prop
  | nil => True
  | node _ c child next => (leaf c → child = nil) ∧ child.Leaves leaf ∧ next.Leaves leaf

section
variable [DecidableEq α]

/-- The tree of a node. -/
def subtree (x : α) : Forest α γ → Forest α γ
  | nil => nil
  | node a c child next =>
    if a = x then node a c child nil else (child.subtree x).append (next.subtree x)

/-- The children of a node, in order. -/
def children (x : α) : Forest α γ → List α
  | nil => []
  | node a _ child next => if a = x then child.roots else child.children x ++ next.children x

/-- The forest without the tree of a node. -/
def erase (x : α) : Forest α γ → Forest α γ
  | nil => nil
  | node a c child next => if a = x then next else node a c (child.erase x) (next.erase x)

/-- The forest with trees behind the children of a node. -/
def graft (x : α) : Forest α γ → Forest α γ → Forest α γ
  | nil, _ => nil
  | node a c child next, t =>
    if a = x then node a c (child.append t) next
    else node a c (child.graft x t) (next.graft x t)

end

-- The equations are derived here once, not by the first of the proofs below that asks for them.
attribute [local simp] root addrs roots append shape relabel Leaves subtree children erase graft

@[simp] theorem append_nil (f : Forest α γ) : f.append nil = f := by
  induction f with
  | nil => rfl
  | node a c child next _ ih => rw [append, ih]

theorem append_assoc (f g t : Forest α γ) : (f.append g).append t = f.append (g.append t) := by
  induction f with
  | nil => rfl
  | node a c child next _ ih => rw [append, append, append, ih]

@[simp] theorem addrs_append (f g : Forest α γ) : (f.append g).addrs = f.addrs ++ g.addrs := by
  induction f with
  | nil => rfl
  | node a c child next _ ih => simp only [append, addrs, ih, List.cons_append, List.append_assoc]

theorem roots_sublist (f : Forest α γ) : f.roots.Sublist f.addrs := by
  induction f with
  | nil => exact List.Sublist.refl _
  | node a c child next _ ih =>
    exact (ih.trans (List.sublist_append_right child.addrs _)).cons_cons a

theorem roots_subset (f : Forest α γ) : f.roots ⊆ f.addrs := (roots_sublist f).subset

theorem leaves_append (hf : Leaves leaf f) (hg : Leaves leaf g) :
    Leaves leaf (append f g) := by
  induction f with
  | nil => exact hg
  | node a c child next _ ih => exact ⟨hf.1, hf.2.1, ih hf.2.2⟩

theorem leaves_of_shape {f : Forest α γ} {g : Forest β γ} (h : g.shape = f.shape)
    (hf : f.Leaves leaf) : g.Leaves leaf := by
  induction g generalizing f with
  | nil => trivial
  | node b c child next ihc ihn =>
    cases f with
    | nil => cases h
    | node a d child' next' =>
      obtain ⟨_, rfl, hchild, hnext⟩ := node.inj h
      refine ⟨fun hleaf => ?_, ihc hchild hf.2.1, ihn hnext hf.2.2⟩
      have hnil := hf.1 hleaf
      rw [hnil] at hchild
      cases child with
      | nil => rfl
      | node => cases hchild

theorem length_of_shape {f : Forest α γ} {g : Forest β γ} (h : g.shape = f.shape) :
    g.addrs.length = f.addrs.length := by
  induction g generalizing f with
  | nil =>
    cases f with
    | nil => rfl
    | node => cases h
  | node b c child next ihc ihn =>
    cases f with
    | nil => cases h
    | node a d child' next' =>
      obtain ⟨_, rfl, hchild, hnext⟩ := node.inj h
      simp only [addrs, List.length_cons, List.length_append, ihc hchild, ihn hnext]

theorem shape_relabel (f : Forest α γ) {l : List β} (h : f.addrs.length ≤ l.length) :
    (f.relabel l).shape = f.shape := by
  induction f generalizing l with
  | nil => cases l <;> rfl
  | node a c child next ihc ihn =>
    cases l with
    | nil => exact absurd h (Nat.not_succ_le_zero _)
    | cons b l =>
      rw [addrs, List.length_cons, List.length_cons, List.length_append] at h
      rw [relabel, shape, shape, ihc (by omega), ihn (by rw [List.length_drop]; omega)]

theorem addrs_relabel (f : Forest α γ) {l : List β} (h : f.addrs.length ≤ l.length) :
    (f.relabel l).addrs = l.take f.addrs.length := by
  induction f generalizing l with
  | nil => cases l <;> rfl
  | node a c child next ihc ihn =>
    cases l with
    | nil => exact absurd h (Nat.not_succ_le_zero _)
    | cons b l =>
      rw [addrs, List.length_cons, List.length_cons, List.length_append] at h
      rw [relabel, addrs, addrs, ihc (by omega), ihn (by rw [List.length_drop]; omega),
        List.length_cons, List.take_succ_cons, List.length_append, List.take_add]

/-- The children and what is behind a node have no node in common. -/
theorem addrs_nodup {a : α} {c : γ} {child next : Forest α γ}
    (h : (node a c child next).addrs.Nodup) :
    a ∉ child.addrs ∧ a ∉ next.addrs ∧ child.addrs.Nodup ∧ next.addrs.Nodup ∧
      ∀ y, y ∈ child.addrs → y ∉ next.addrs := by
  rw [addrs, List.nodup_cons, List.mem_append, not_or, List.nodup_append'] at h
  exact ⟨h.1.1, h.1.2, h.2.1, h.2.2.1, h.2.2.2⟩

section
variable [DecidableEq α] {f g t : Forest α γ} {x : α}

theorem subtree_of_not_mem (h : x ∉ f.addrs) : f.subtree x = nil := by
  induction f with
  | nil => rfl
  | node a c child next ihc ihn =>
    rw [addrs, List.mem_cons, List.mem_append, not_or, not_or] at h
    rw [subtree, if_neg fun he => h.1 he.symm, ihc h.2.1, ihn h.2.2]
    rfl

theorem erase_of_not_mem (h : x ∉ f.addrs) : f.erase x = f := by
  induction f with
  | nil => rfl
  | node a c child next ihc ihn =>
    rw [addrs, List.mem_cons, List.mem_append, not_or, not_or] at h
    rw [erase, if_neg fun he => h.1 he.symm, ihc h.2.1, ihn h.2.2]

theorem graft_of_not_mem (h : x ∉ f.addrs) : f.graft x t = f := by
  induction f with
  | nil => rfl
  | node a c child next ihc ihn =>
    rw [addrs, List.mem_cons, List.mem_append, not_or, not_or] at h
    rw [graft, if_neg fun he => h.1 he.symm, ihc h.2.1, ihn h.2.2]

@[simp] theorem root_graft : (f.graft x t).root = f.root := by
  cases f with
  | nil => rfl
  | node a c child next =>
    rw [graft]
    split <;> rfl

/-- The tree of a node and the other nodes are all nodes. -/
theorem perm_erase (f : Forest α γ) (x : α) :
    f.addrs.Perm ((f.subtree x).addrs ++ (f.erase x).addrs) := by
  induction f with
  | nil => exact List.Perm.refl _
  | node a c child next ihc ihn =>
    rw [subtree, erase]
    by_cases ha : a = x
    · rw [if_pos ha, if_pos ha, addrs, addrs, addrs, List.append_nil, List.cons_append]
    · rw [if_neg ha, if_neg ha, addrs, addrs, addrs_append]
      refine ((ihc.append ihn).cons a).trans ?_
      have hswap : ((child.subtree x).addrs ++ (child.erase x).addrs ++
          ((next.subtree x).addrs ++ (next.erase x).addrs)).Perm
          ((child.subtree x).addrs ++ (next.subtree x).addrs ++
            ((child.erase x).addrs ++ (next.erase x).addrs)) := by
        rw [List.append_assoc, List.append_assoc]
        apply List.Perm.append_left
        rw [← List.append_assoc, ← List.append_assoc]
        exact List.perm_append_comm.append_right _
      exact (hswap.cons a).trans List.perm_middle.symm

/-- The other nodes keep their order. -/
theorem erase_sublist (f : Forest α γ) (x : α) : (f.erase x).addrs.Sublist f.addrs := by
  induction f with
  | nil => exact List.Sublist.refl _
  | node a c child next ihc ihn =>
    rw [erase]
    split
    · exact (List.sublist_append_right _ _).cons a
    · exact (ihc.append ihn).cons_cons a

theorem subtree_sublist (f : Forest α γ) (x : α) : (f.subtree x).addrs.Sublist f.addrs := by
  induction f with
  | nil => exact List.Sublist.refl _
  | node a c child next ihc ihn =>
    rw [subtree]
    split
    · rw [addrs, addrs, addrs, List.append_nil]
      exact (List.sublist_append_left _ _).cons_cons a
    · rw [addrs_append]
      exact (ihc.append ihn).cons a

theorem children_subset (f : Forest α γ) (x : α) : f.children x ⊆ f.addrs := by
  induction f with
  | nil => exact List.Subset.refl _
  | node a c child next ihc ihn =>
    rw [children]
    split
    · apply List.subset_cons_of_subset
      exact List.subset_append_of_subset_left _ (roots_subset child)
    · exact List.subset_cons_of_subset _ (List.append_subset.2
        ⟨List.subset_append_of_subset_left _ ihc, List.subset_append_of_subset_right _ ihn⟩)

theorem children_of_not_mem (h : x ∉ f.addrs) : f.children x = [] := by
  induction f with
  | nil => rfl
  | node a c child next ihc ihn =>
    rw [addrs, List.mem_cons, List.mem_append, not_or, not_or] at h
    rw [children, if_neg fun he => h.1 he.symm, ihc h.2.1, ihn h.2.2]
    rfl

theorem filter_ne_of_not_mem {l : List α} (h : x ∉ l) : l.filter (· ≠ x) = l := by
  rw [List.filter_eq_self]
  intro a ha
  rw [decide_eq_true_iff]
  rintro rfl
  exact h ha

theorem roots_erase (hf : f.addrs.Nodup) : (f.erase x).roots = f.roots.filter (· ≠ x) := by
  induction f with
  | nil => rfl
  | node a c child next _ ih =>
    obtain ⟨_, hanext, _, hnext, _⟩ := addrs_nodup hf
    rw [erase, roots, List.filter_cons]
    by_cases ha : a = x
    · subst ha
      rw [if_pos rfl, if_neg (by rw [decide_eq_true_iff]; exact fun h => h rfl)]
      exact (filter_ne_of_not_mem fun hmem => hanext (roots_subset next hmem)).symm
    · rw [if_neg ha, if_pos (decide_eq_true ha), roots, ih hnext]

/-- Every other node keeps its children in their order. -/
theorem children_erase {y : α} (hf : f.addrs.Nodup) (hy : y ∉ (f.subtree x).addrs) :
    (f.erase x).children y = (f.children y).filter (· ≠ x) := by
  induction f with
  | nil => rfl
  | node a c child next ihc ihn =>
    obtain ⟨_, hanext, hchild, hnext, _⟩ := addrs_nodup hf
    rw [subtree] at hy
    rw [erase, children]
    by_cases ha : a = x
    · subst ha
      rw [if_pos rfl, addrs, addrs, List.append_nil, List.mem_cons, not_or] at hy
      rw [if_pos rfl, if_neg fun he => hy.1 he.symm, children_of_not_mem hy.2, List.nil_append]
      exact (filter_ne_of_not_mem fun hmem => hanext (children_subset next y hmem)).symm
    · rw [if_neg ha, addrs_append, List.mem_append, not_or] at hy
      rw [if_neg ha, children, ihc hchild hy.1, ihn hnext hy.2, roots_erase hchild]
      split
      · rfl
      · rw [List.filter_append]

/-- What is left is all but the tree of the node, in order. -/
theorem addrs_erase (hf : f.addrs.Nodup) :
    (f.erase x).addrs = f.addrs.filter (· ∉ (f.subtree x).addrs) := by
  have hboth : ∀ y, y ∈ (f.subtree x).addrs → y ∉ (f.erase x).addrs :=
    fun y hy => (List.nodup_append'.1 ((perm_erase f x).nodup_iff.1 hf)).2.2 hy
  have hkeep : (f.erase x).addrs.filter (· ∉ (f.subtree x).addrs) = (f.erase x).addrs := by
    rw [List.filter_eq_self]
    intro y hy
    exact decide_eq_true fun hmem => hboth y hmem hy
  have hnone : (f.subtree x).addrs.filter (· ∉ (f.subtree x).addrs) = [] := by
    rw [List.filter_eq_nil_iff]
    intro y hy hno
    exact (of_decide_eq_true hno) hy
  have hperm := (perm_erase f x).filter (· ∉ (f.subtree x).addrs)
  rw [List.filter_append, hnone, List.nil_append, hkeep] at hperm
  have hsub := (erase_sublist f x).filter (· ∉ (f.subtree x).addrs)
  rw [hkeep] at hsub
  exact hsub.eq_of_length hperm.length_eq.symm

theorem children_of_subtree {c : γ} {child : Forest α γ} (hf : f.addrs.Nodup)
    (h : f.subtree x = node x c child nil) : f.children x = child.roots := by
  induction f with
  | nil => cases h
  | node a d ch next ihc ihn =>
    obtain ⟨_, _, hchild, hnext, hboth⟩ := addrs_nodup hf
    rw [subtree] at h
    rw [children]
    by_cases ha : a = x
    · rw [if_pos ha] at h ⊢
      rw [(node.inj h).2.2.1]
    · rw [if_neg ha] at h ⊢
      by_cases hmem : x ∈ ch.addrs
      · rw [subtree_of_not_mem (hboth x hmem), append_nil] at h
        rw [children_of_not_mem (hboth x hmem), List.append_nil]
        exact ihc hchild h
      · rw [subtree_of_not_mem hmem] at h
        rw [children_of_not_mem hmem]
        exact ihn hnext h

theorem leaves_subtree (h : f.Leaves leaf) (x : α) : (f.subtree x).Leaves leaf := by
  induction f with
  | nil => trivial
  | node a c child next ihc ihn =>
    rw [subtree]
    split
    · exact ⟨h.1, h.2.1, trivial⟩
    · exact leaves_append (ihc h.2.1) (ihn h.2.2)

theorem leaves_erase (h : f.Leaves leaf) (x : α) : (f.erase x).Leaves leaf := by
  induction f with
  | nil => trivial
  | node a c child next ihc ihn =>
    rw [erase]
    split
    · exact h.2.2
    · refine ⟨fun hleaf => ?_, ihc h.2.1, ihn h.2.2⟩
      rw [h.1 hleaf]
      rfl

theorem perm_graft (h : x ∈ f.addrs) (hf : f.addrs.Nodup) (t : Forest α γ) :
    (f.graft x t).addrs.Perm (f.addrs ++ t.addrs) := by
  induction f with
  | nil => cases h
  | node a c child next ihc ihn =>
    obtain ⟨_, _, hchild, hnext, hboth⟩ := addrs_nodup hf
    rw [graft]
    by_cases ha : a = x
    · rw [if_pos ha, addrs, addrs, addrs_append, List.cons_append, List.append_assoc,
        List.append_assoc]
      exact (List.perm_append_comm.append_left _).cons a
    · rw [if_neg ha, addrs, addrs, List.cons_append, List.append_assoc]
      rw [addrs, List.mem_cons, List.mem_append] at h
      apply List.Perm.cons
      rcases h.resolve_left fun he => ha he.symm with h | h
      · rw [graft_of_not_mem (hboth x h)]
        refine ((ihc h hchild).append_right _).trans ?_
        rw [List.append_assoc]
        exact List.perm_append_comm.append_left _
      · rw [graft_of_not_mem fun hc => hboth x hc h]
        exact (ihn h hnext).append_left _

theorem leaves_graft {c : γ} {child : Forest α γ} (hf : f.addrs.Nodup) (h : f.Leaves leaf)
    (hx : f.subtree x = node x c child nil) (hc : ¬leaf c) (ht : t.Leaves leaf) :
    (f.graft x t).Leaves leaf := by
  induction f with
  | nil => trivial
  | node a d ch next ihc ihn =>
    obtain ⟨_, _, hchild, hnext, hboth⟩ := addrs_nodup hf
    rw [subtree] at hx
    rw [graft]
    by_cases ha : a = x
    · rw [if_pos ha] at hx ⊢
      obtain ⟨_, rfl, _, _⟩ := node.inj hx
      exact ⟨fun hleaf => absurd hleaf hc, leaves_append h.2.1 ht, h.2.2⟩
    · rw [if_neg ha] at hx ⊢
      by_cases hmem : x ∈ ch.addrs
      · rw [subtree_of_not_mem (hboth x hmem), append_nil] at hx
        rw [graft_of_not_mem (hboth x hmem)]
        refine ⟨fun hleaf => ?_, ihc hchild h.2.1 hx, h.2.2⟩
        rw [h.1 hleaf] at hmem
        cases hmem
      · rw [subtree_of_not_mem hmem] at hx
        rw [graft_of_not_mem hmem]
        exact ⟨h.1, h.2.1, ihn hnext h.2.2 hx⟩

end

/-- A node in memory: its content and its links. -/
@[ext] structure Cell (α γ : Type) where
  content : γ
  parent : Option α
  child : Option α
  prev : Option α
  next : Option α

/-- The memory holds a forest, its roots under a parent and its first root behind a node. Without a
parent the roots do not know one another. -/
def Rep (h : α → Option (Cell α γ)) : Option α → Option α → Forest α γ → Prop
  | _, _, nil => True
  | p, q, node a c child next =>
    h a = some ⟨c, p, child.root, p.bind fun _ => q, p.bind fun _ => next.root⟩ ∧
      Rep h (some a) none child ∧ Rep h p (some a) next

section
variable {h h' : α → Option (Cell α γ)} {p q : Option α} {f g t child : Forest α γ} {x : α}

theorem Rep.congr (hf : Rep h p q f) (heq : ∀ a ∈ f.addrs, h' a = h a) : Rep h' p q f := by
  induction f generalizing p q with
  | nil => trivial
  | node a c child next ihc ihn =>
    obtain ⟨ha, hchild, hnext⟩ := hf
    refine ⟨?_, ihc hchild fun b hb => ?_, ihn hnext fun b hb => ?_⟩
    · rw [heq a List.mem_cons_self]
      exact ha
    · exact heq b (List.mem_cons_of_mem _ (List.mem_append_left _ hb))
    · exact heq b (List.mem_cons_of_mem _ (List.mem_append_right _ hb))

/-- Without a parent, it does not matter what stands in front. -/
theorem Rep.root_prev (hf : Rep h none q f) (q' : Option α) : Rep h none q' f := by
  cases f with
  | nil => trivial
  | node a c child next => exact ⟨hf.1, hf.2⟩

theorem Rep.live (hf : Rep h p q f) (hx : x ∈ f.addrs) : ∃ n, h x = some n := by
  induction f generalizing p q with
  | nil => cases hx
  | node a c child next ihc ihn =>
    rw [addrs, List.mem_cons, List.mem_append] at hx
    rcases hx with rfl | hx | hx
    · exact ⟨_, hf.1⟩
    · exact ihc hf.2.1 hx
    · exact ihn hf.2.2 hx

theorem root_mem (hx : f.root = some x) : x ∈ f.addrs := by
  cases f with
  | nil => cases hx
  | node a c child next =>
    cases hx
    exact List.mem_cons_self

/-- The nodes from a link on, each the next of the one in front of it. -/
def Follow (h : α → Option (Cell α γ)) : Option α → List α → Prop
  | a, [] => a = none
  | a, b :: l => a = some b ∧ ∃ n, h b = some n ∧ Follow h n.next l

theorem Rep.follow (hf : Rep h (some x) q f) : Follow h f.root f.roots := by
  induction f generalizing q with
  | nil => rfl
  | node a c child next _ ih => exact ⟨rfl, _, hf.1, ih hf.2.2⟩

theorem Rep.parent_of_root (hf : Rep h p q f) (hx : x ∈ f.roots) :
    ∃ n, h x = some n ∧ n.parent = p := by
  induction f generalizing q with
  | nil => cases hx
  | node a c child next _ ih =>
    rw [roots, List.mem_cons] at hx
    rcases hx with rfl | hx
    · exact ⟨_, hf.1, rfl⟩
    · exact ih hf.2.2 hx

/-- The node behind a node points back to it. -/
theorem Rep.next_prev {n : Cell α γ} {b : α} (hf : Rep h p q f) (hx : x ∈ f.addrs)
    (hn : h x = some n) (hb : n.next = some b) : ∃ m, h b = some m ∧ m.prev = some x := by
  induction f generalizing p q with
  | nil => cases hx
  | node a c child next ihc ihn =>
    rw [addrs, List.mem_cons, List.mem_append] at hx
    rcases hx with rfl | hx | hx
    · obtain ⟨ha, _, hnext⟩ := hf
      rw [ha] at hn
      cases hn
      obtain ⟨p, rfl, hroot⟩ := Option.bind_eq_some_iff.1 hb
      cases next with
      | nil => cases hroot
      | node d e ch next =>
        cases hroot
        exact ⟨_, hnext.1, rfl⟩
    · exact ihc hf.2.1 hx
    · exact ihn hf.2.2 hx

/-- The node in front of a node points to it. -/
theorem Rep.prev_next {n : Cell α γ} {b : α} (hf : Rep h p q f) (hx : x ∈ f.addrs)
    (hn : h x = some n) (hb : n.prev = some b) :
    (f.root = some x ∧ q = some b ∧ ∃ y, p = some y) ∨ ∃ m, h b = some m ∧ m.next = some x := by
  induction f generalizing p q with
  | nil => cases hx
  | node a c child next ihc ihn =>
    rw [addrs, List.mem_cons, List.mem_append] at hx
    obtain ⟨ha, hchild, hnext⟩ := hf
    rcases hx with rfl | hx | hx
    · rw [ha] at hn
      cases hn
      obtain ⟨p, rfl, hq⟩ := Option.bind_eq_some_iff.1 hb
      exact .inl ⟨rfl, hq, p, rfl⟩
    · refine .inr ((ihc hchild hx).resolve_left ?_)
      rintro ⟨_, ⟨⟩, _⟩
    · rcases ihn hnext hx with ⟨hroot, hd, y, rfl⟩ | hm
      · cases hd
        exact .inr ⟨_, ha, hroot⟩
      · exact .inr hm

/-- A node is one of the children of its parent. -/
theorem Rep.mem_children {n : Cell α γ} {b : α} [DecidableEq α] (hf : Rep h p q f)
    (hx : x ∈ f.addrs) (hn : h x = some n) (hb : n.parent = some b) :
    p = some b ∧ x ∈ f.roots ∨ b ∈ f.addrs ∧ (f.addrs.Nodup → x ∈ f.children b) := by
  induction f generalizing p q with
  | nil => cases hx
  | node a c child next ihc ihn =>
    rw [addrs, List.mem_cons, List.mem_append] at hx
    obtain ⟨ha, hchild, hnext⟩ := hf
    rcases hx with rfl | hx | hx
    · rw [ha] at hn
      cases hn
      exact .inl ⟨hb, List.mem_cons_self⟩
    · rcases ihc hchild hx with ⟨hd, hroot⟩ | ⟨hmem, hroots⟩
      · cases hd
        refine .inr ⟨List.mem_cons_self, fun _ => ?_⟩
        rw [children, if_pos rfl]
        exact hroot
      · refine .inr ⟨List.mem_cons_of_mem _ (List.mem_append_left _ hmem), fun hnd => ?_⟩
        obtain ⟨hach, _, hndc, _⟩ := addrs_nodup hnd
        have hne : a ≠ b := fun he => hach (he ▸ hmem)
        rw [children, if_neg hne]
        exact List.mem_append_left _ (hroots hndc)
    · rcases ihn hnext hx with ⟨hp, hroot⟩ | ⟨hmem, hroots⟩
      · exact .inl ⟨hp, List.mem_cons_of_mem _ hroot⟩
      · refine .inr ⟨List.mem_cons_of_mem _ (List.mem_append_right _ hmem), fun hnd => ?_⟩
        obtain ⟨_, hanext, _, hndn, _⟩ := addrs_nodup hnd
        have hne : a ≠ b := fun he => hanext (he ▸ hmem)
        rw [children, if_neg hne]
        exact List.mem_append_right _ (hroots hndn)

/-- A node without a parent has none behind it. -/
theorem Rep.alone {r : Cell α γ} (hf : Rep h p q f) (hx : x ∈ f.addrs) (hr : h x = some r)
    (hparent : r.parent = none) : r.next = none := by
  induction f generalizing p q with
  | nil => cases hx
  | node a d ch next ihc ihn =>
    rw [addrs, List.mem_cons, List.mem_append] at hx
    rcases hx with rfl | hx | hx
    · obtain ⟨ha, _, _⟩ := hf
      rw [hr] at ha
      cases ha
      cases hparent
      rfl
    · exact ihc hf.2.1 hx
    · exact ihn hf.2.2 hx

/-- The last root. -/
def last : Forest α γ → Option α
  | nil => none
  | node a _ _ nil => some a
  | node _ _ _ next => next.last

theorem last_mem (hx : f.last = some x) : x ∈ f.addrs := by
  induction f with
  | nil => cases hx
  | node a c child next _ ih =>
    cases next with
    | nil =>
      cases hx
      exact List.mem_cons_self
    | node b d ch next =>
      rw [last] at hx
      · exact List.mem_cons_of_mem _ (List.mem_append_right _ (ih hx))
      · rintro ⟨⟩

theorem exists_last {a : α} {c : γ} {child next : Forest α γ} :
    ∃ l, (node a c child next).last = some l := by
  induction next generalizing a c child with
  | nil => exact ⟨a, rfl⟩
  | node b d ch next _ ih => exact ih

/-- A tree is linked behind the last of the children. -/
theorem Rep.append {s : α} {c : γ} (hf : Rep h (some x) q f)
    (ht : Rep h (some s) none t) (hnd : (f.addrs ++ s :: t.addrs).Nodup)
    (hs : h' s = some ⟨c, some x, t.root, f.last.or q, none⟩)
    (hlast : ∀ l, f.last = some l → h' l = (h l).map fun n => { n with next := some s })
    (heq : ∀ y ∈ f.addrs ++ t.addrs, f.last ≠ some y → h' y = h y) :
    Rep h' (some x) q (f.append (node s c t nil)) := by
  induction f generalizing q with
  | nil =>
    refine ⟨hs, ht.congr fun y hy => heq y hy fun hno => ?_, trivial⟩
    cases hno
  | node a d child next _ ih =>
    obtain ⟨ha, hchild, hnext⟩ := hf
    have hchildEq : ∀ y ∈ child.addrs, (node a d child next).last ≠ some y → h' y = h y :=
      fun y hy => heq y
        (List.mem_append_left _ (List.mem_cons_of_mem _ (List.mem_append_left _ hy)))
    have hapart := addrs_nodup (List.nodup_append'.1 hnd).1
    cases next with
    | nil =>
      refine ⟨?_, hchild.congr fun y hy => hchildEq y hy ?_, hs, ?_, trivial⟩
      · rw [hlast a rfl, ha]
        rfl
      · rintro ⟨⟩
        exact hapart.1 hy
      · refine ht.congr fun y hy => heq y (List.mem_append_right _ hy) ?_
        rintro ⟨⟩
        exact (List.nodup_append'.1 hnd).2.2 List.mem_cons_self (List.mem_cons_of_mem _ hy)
    | node b d' ch next =>
      have hlastEq : (node a d child (node b d' ch next)).last = (node b d' ch next).last := rfl
      have hlastMem : ∀ l, (node b d' ch next).last = some l → l ∈ (node b d' ch next).addrs :=
        fun l => last_mem
      rw [hlastEq] at hs hlast heq hchildEq
      have hnotLast : ∀ y, y ∉ (node b d' ch next).addrs → (node b d' ch next).last ≠ some y :=
        fun y hy hno => hy (hlastMem y hno)
      refine ⟨?_, hchild.congr fun y hy => hchildEq y hy (hnotLast y (hapart.2.2.2.2 y hy)), ?_⟩
      · rw [heq a List.mem_cons_self (hnotLast a hapart.2.1)]
        exact ha
      · apply ih hnext
        · exact hnd.sublist (((List.sublist_append_right child.addrs _).cons a).append_right _)
        · rw [hs]
          have hsome : ∃ l, (node b d' ch next).last = some l := exists_last
          obtain ⟨l, hl⟩ := hsome
          rw [hl]
          rfl
        · exact hlast
        · intro y hy
          apply heq y
          rw [List.mem_append] at hy ⊢
          exact hy.imp_left fun hy => List.mem_cons_of_mem _ (List.mem_append_right _ hy)

/-- A node with other children under it, the nodes outside its tree being as before. -/
theorem Rep.graft {n : Cell α γ} [DecidableEq α] {c : γ} (hf : Rep h p q f) (hnd : f.addrs.Nodup)
    (hsub : f.subtree x = node x c child nil) (hx : h x = some n)
    (hx' : h' x = some { n with child := (child.append t).root })
    (hrep : Rep h' (some x) none (child.append t))
    (heq : ∀ y ∈ f.addrs, y ∉ x :: child.addrs → h' y = h y) : Rep h' p q (f.graft x t) := by
  induction f generalizing p q with
  | nil => cases hsub
  | node a d ch next ihc ihn =>
    obtain ⟨ha, hchild, hnext⟩ := hf
    obtain ⟨hach, hanext, hndc, hndn, hboth⟩ := addrs_nodup hnd
    have hchEq : ∀ y ∈ ch.addrs, y ∉ x :: child.addrs → h' y = h y :=
      fun y hy => heq y (List.mem_cons_of_mem _ (List.mem_append_left _ hy))
    have hnextEq : ∀ y ∈ next.addrs, y ∉ x :: child.addrs → h' y = h y :=
      fun y hy => heq y (List.mem_cons_of_mem _ (List.mem_append_right _ hy))
    have hsubset : ∀ y, y ∈ x :: child.addrs → y ∈ ((node a d ch next).subtree x).addrs := by
      intro y hy
      rw [hsub, addrs, addrs, List.append_nil]
      exact hy
    rw [subtree] at hsub hsubset
    rw [Forest.graft]
    by_cases hax : a = x
    · subst hax
      rw [if_pos rfl] at hsub ⊢
      obtain ⟨_, rfl, rfl, _⟩ := node.inj hsub
      rw [hx] at ha
      cases ha
      refine ⟨hx', hrep, hnext.congr fun y hy => hnextEq y hy ?_⟩
      rw [List.mem_cons, not_or]
      exact ⟨fun he => hanext (he ▸ hy), fun hmem => hboth y hmem hy⟩
    · rw [if_neg hax] at hsub hsubset ⊢
      by_cases hmem : x ∈ ch.addrs
      · rw [subtree_of_not_mem (hboth x hmem), append_nil] at hsub hsubset
        rw [graft_of_not_mem (hboth x hmem)]
        have hin : ∀ y, y ∈ x :: child.addrs → y ∈ ch.addrs :=
          fun y hy => (subtree_sublist ch x).subset (hsubset y hy)
        refine ⟨?_, ihc hchild hndc hsub hchEq, hnext.congr fun y hy => hnextEq y hy fun hno => ?_⟩
        · rw [heq a List.mem_cons_self fun hno => hach (hin a hno), root_graft]
          exact ha
        · exact hboth y (hin y hno) hy
      · rw [subtree_of_not_mem hmem] at hsub hsubset
        rw [graft_of_not_mem hmem]
        have hin : ∀ y, y ∈ x :: child.addrs → y ∈ next.addrs :=
          fun y hy => (subtree_sublist next x).subset (hsubset y hy)
        refine ⟨?_, hchild.congr fun y hy => hchEq y hy fun hno => ?_, ihn hnext hndn hsub hnextEq⟩
        · rw [heq a List.mem_cons_self fun hno => hanext (hin a hno), root_graft]
          exact ha
        · exact hboth y hy (hin y hno)

/-- The node whose link leads to a node: the one in front of it, or its parent. -/
def Cell.before (r : Cell α γ) : Option α := r.prev.or r.parent

variable {r : Cell α γ} {y : α}

theorem before_ne (hr : r.prev = p.bind (fun _ => q) ∧ r.parent = p) (hp : p ≠ some y)
    (hq : q ≠ some y) : r.before ≠ some y := by
  rw [Cell.before, hr.1, hr.2]
  cases p with
  | none => exact Option.some_ne_none y ∘ Eq.symm
  | some p =>
    cases q with
    | none => exact hp
    | some q => exact hq

section
variable [DecidableEq α] {gone : List α}

/-- The memory without the nodes of a tree with this root: the nodes next to it are linked to one
another. -/
def removed (h : α → Option (Cell α γ)) (r : Cell α γ) (gone : List α) : α → Option (Cell α γ) :=
  fun y =>
    if y ∈ gone then none
    else (h y).map fun n =>
      { n with
        child := if r.prev = none ∧ r.parent = some y then r.next else n.child
        prev := if r.next = some y then r.prev else n.prev
        next := if r.prev = some y then r.next else n.next }

theorem removed_of_mem (hy : y ∈ gone) : removed h r gone y = none := by
  rw [removed, if_pos hy]

theorem removed_of_not_mem (r : Cell α γ) (hy : y ∉ gone) (hn : h y = some n) :
    removed h r gone y = some { n with
      child := if r.prev = none ∧ r.parent = some y then r.next else n.child
      prev := if r.next = some y then r.prev else n.prev
      next := if r.prev = some y then r.next else n.next } := by
  rw [removed, if_neg hy, hn, Option.map_some]

theorem removed_of_ne (hy : y ∉ gone) (hbefore : r.before ≠ some y) (hnext : r.next ≠ some y) :
    removed h r gone y = h y := by
  have hprev : r.prev ≠ some y := by
    intro hp
    apply hbefore
    rw [Cell.before, hp]
    rfl
  have hparent : ¬(r.prev = none ∧ r.parent = some y) := by
    rintro ⟨hp, hpar⟩
    apply hbefore
    rw [Cell.before, hp, hpar]
    rfl
  rw [removed, if_neg hy]
  simp only [if_neg hprev, if_neg hparent, if_neg hnext]
  exact Option.map_id'

/-- Where a node of the forest is: it is the first root, or the link to it is in the forest. -/
def Placed (p q : Option α) (f : Forest α γ) (x : α) (r : Cell α γ) : Prop :=
  (f.root = some x ∧ r.prev = (p.bind fun _ => q) ∧ r.parent = p ∧
      r.next = p.bind fun _ => (f.erase x).root) ∨
    (f.erase x).root = f.root ∧ ∀ y, r.before = some y → y ∈ f.addrs

theorem Rep.find (hf : Rep h p q f) (hnd : f.addrs.Nodup) (hx : x ∈ f.addrs) :
    ∃ r child, h x = some r ∧ f.subtree x = node x r.content child nil ∧ r.child = child.root ∧
      Rep h (some x) none child ∧ (∀ y, r.next = some y → y ∈ f.addrs) ∧ Placed p q f x r := by
  induction f generalizing p q with
  | nil => cases hx
  | node a d ch next ihc ihn =>
    obtain ⟨ha, hchild, hnext⟩ := hf
    obtain ⟨hach, hanext, hndc, hndn, hboth⟩ := addrs_nodup hnd
    unfold Placed
    rw [subtree, erase]
    by_cases hax : a = x
    · subst hax
      rw [if_pos rfl, if_pos rfl]
      refine ⟨_, ch, ha, rfl, rfl, hchild, fun y hy => ?_, .inl ⟨rfl, rfl, rfl, rfl⟩⟩
      obtain ⟨_, _, hroot⟩ := Option.bind_eq_some_iff.1 hy
      exact List.mem_cons_of_mem _ (List.mem_append_right _ (root_mem hroot))
    · rw [if_neg hax, if_neg hax]
      rw [addrs, List.mem_cons, List.mem_append] at hx
      rcases hx.resolve_left fun he => hax he.symm with hx | hx
      · obtain ⟨r, child, hr, hsub, hroot, hrep, hin, hplace⟩ := ihc hchild hndc hx
        rw [subtree_of_not_mem (hboth x hx), append_nil]
        refine ⟨r, child, hr, hsub, hroot, hrep, fun y hy => ?_, .inr ⟨rfl, fun y hy => ?_⟩⟩
        · exact List.mem_cons_of_mem _ (List.mem_append_left _ (hin y hy))
        · rcases hplace with ⟨_, hprev, hparent, _⟩ | ⟨_, hbefore⟩
          · rw [Cell.before, hprev, hparent] at hy
            cases hy
            exact List.mem_cons_self
          · exact List.mem_cons_of_mem _ (List.mem_append_left _ (hbefore y hy))
      · obtain ⟨r, child, hr, hsub, hroot, hrep, hin, hplace⟩ := ihn hnext hndn hx
        rw [subtree_of_not_mem fun hc => hboth x hc hx]
        refine ⟨r, child, hr, hsub, hroot, hrep, fun y hy => ?_, .inr ⟨rfl, fun y hy => ?_⟩⟩
        · exact List.mem_cons_of_mem _ (List.mem_append_right _ (hin y hy))
        · rcases hplace with ⟨_, hprev, hparent, _⟩ | ⟨_, hbefore⟩
          · rw [Cell.before, hprev, hparent] at hy
            cases p with
            | none => cases hy
            | some p =>
              cases hy
              exact List.mem_cons_self
          · exact List.mem_cons_of_mem _ (List.mem_append_right _ (hbefore y hy))

/-- What is behind a tree comes in its place. -/
theorem Rep.removed_head (hf : Rep h p (some x) f) (hnd : f.addrs.Nodup)
    (hgone : ∀ y ∈ f.addrs, y ∉ gone) (hp : ∀ y ∈ f.addrs, p ≠ some y)
    (hq : ∀ y ∈ f.addrs, q ≠ some y) (hr : r.prev = p.bind (fun _ => q) ∧ r.parent = p)
    (hnext : r.next = p.bind fun _ => f.root) : Rep (removed h r gone) p q f := by
  cases f with
  | nil => trivial
  | node b d ch next =>
    obtain ⟨hb, hchild, hrest⟩ := hf
    obtain ⟨hbch, hbnext, _⟩ := addrs_nodup hnd
    have hother : ∀ y ∈ ch.addrs ++ next.addrs, removed h r gone y = h y := by
      intro y hy
      have hmem := List.mem_cons_of_mem b hy
      refine removed_of_ne (hgone y hmem) (before_ne hr (hp y hmem) (hq y hmem)) ?_
      rw [hnext]
      intro hno
      obtain ⟨_, _, hroot⟩ := Option.bind_eq_some_iff.1 hno
      cases hroot
      exact (List.mem_append.1 hy).elim hbch hbnext
    refine ⟨?_, hchild.congr fun y hy => hother y (List.mem_append_left _ hy),
      hrest.congr fun y hy => hother y (List.mem_append_right _ hy)⟩
    have hmem : b ∈ (node b d ch next).addrs := List.mem_cons_self
    rw [removed_of_not_mem r (hgone b hmem) hb, hr.1, hr.2, hnext]
    have hpb := hp b hmem
    have hqb := hq b hmem
    cases p with
    | none => rfl
    | some p =>
      simp only [Option.bind_some, root, if_true, if_neg hqb, if_neg fun hno => hpb (And.right hno)]

/-- The memory without a tree holds the forest without it. -/
theorem Rep.erase (hf : Rep h p q f) (hnd : f.addrs.Nodup) (hp : ∀ y ∈ f.addrs, p ≠ some y)
    (hq : ∀ y ∈ f.addrs, q ≠ some y) (hx : x ∈ f.addrs) (hr : h x = some r) :
    Rep (removed h r (f.subtree x).addrs) p q (f.erase x) := by
  induction f generalizing p q with
  | nil => cases hx
  | node a d ch next ihc ihn =>
    obtain ⟨ha, hchild, hnext⟩ := hf
    obtain ⟨hach, hanext, hndc, hndn, hboth⟩ := addrs_nodup hnd
    have hmemNext : ∀ y ∈ next.addrs, y ∈ (node a d ch next).addrs :=
      fun y hy => List.mem_cons_of_mem _ (List.mem_append_right _ hy)
    rw [subtree, Forest.erase]
    by_cases hax : a = x
    · subst hax
      rw [if_pos rfl, if_pos rfl]
      rw [hr] at ha
      cases ha
      refine hnext.removed_head hndn (fun y hy hno => ?_) (fun y hy => hp y (hmemNext y hy))
        (fun y hy => hq y (hmemNext y hy)) ⟨rfl, rfl⟩ rfl
      rw [addrs, addrs, List.append_nil, List.mem_cons] at hno
      rcases hno with rfl | hno
      · exact hanext hy
      · exact hboth y hno hy
    · rw [if_neg hax, if_neg hax]
      rw [addrs, List.mem_cons, List.mem_append] at hx
      rcases hx.resolve_left fun he => hax he.symm with hx | hx
      · obtain ⟨r', _, hr', _, _, _, hin, hplace⟩ := hchild.find hndc hx
        rw [hr] at hr'
        cases hr'
        have hrep := ihc hchild hndc (fun y hy he => hach (Option.some.inj he ▸ hy))
          (fun y _ he => Option.some_ne_none y he.symm) hx
        have hgone : ∀ y, y ∉ ch.addrs → y ∉ (ch.subtree x).addrs :=
          fun y hy hno => hy ((subtree_sublist ch x).subset hno)
        have hnextNe : ∀ y, y ∉ ch.addrs → r.next ≠ some y := fun y hy hno => hy (hin y hno)
        rw [erase_of_not_mem (hboth x hx), subtree_of_not_mem (hboth x hx), append_nil]
        refine ⟨?_, hrep, hnext.congr fun y hy => ?_⟩
        · rcases hplace with ⟨_, hprev, hparent, hlink⟩ | ⟨hroot, hbefore⟩
          · rw [removed_of_not_mem r (hgone a hach) ha, hprev, hparent,
              if_neg (hnextNe a hach), hlink, if_pos ⟨rfl, rfl⟩]
            rfl
          · rw [removed_of_ne (hgone a hach) (fun hno => hach (hbefore a hno)) (hnextNe a hach),
              ha, hroot]
        · have hych : y ∉ ch.addrs := fun hno => hboth y hno hy
          apply removed_of_ne (hgone y hych) ?_ (hnextNe y hych)
          intro hno
          rcases hplace with ⟨_, hprev, hparent, _⟩ | ⟨_, hbefore⟩
          · rw [Cell.before, hprev, hparent] at hno
            cases hno
            exact hanext hy
          · exact hych (hbefore y hno)
      · obtain ⟨r', _, hr', _, _, _, hin, hplace⟩ := hnext.find hndn hx
        rw [hr] at hr'
        cases hr'
        have hrep := ihn hnext hndn (fun y hy => hp y (hmemNext y hy))
          (fun y hy he => hanext (Option.some.inj he ▸ hy)) hx
        have hxch : x ∉ ch.addrs := fun hno => hboth x hno hx
        have hgone : ∀ y, y ∉ next.addrs → y ∉ (next.subtree x).addrs :=
          fun y hy hno => hy ((subtree_sublist next x).subset hno)
        have hnextNe : ∀ y, y ∉ next.addrs → r.next ≠ some y := fun y hy hno => hy (hin y hno)
        rw [erase_of_not_mem hxch, subtree_of_not_mem hxch, Forest.append]
        refine ⟨?_, hchild.congr fun y hy => ?_, hrep⟩
        · rcases hplace with ⟨_, hprev, hparent, hlink⟩ | ⟨hroot, hbefore⟩
          · have hpa : ¬(r.prev = none ∧ r.parent = some a) := by
              rw [hparent]
              exact fun hno => hp a List.mem_cons_self hno.2
            have hkeep := removed_of_not_mem r (hgone a hanext) ha
            rw [if_neg hpa, if_neg (hnextNe a hanext)] at hkeep
            refine hkeep.trans (congrArg some ?_)
            rw [hprev, hlink]
            cases p with
            | none => rfl
            | some p => exact congrArg _ (if_pos rfl)
          · rw [removed_of_ne (hgone a hanext) (fun hno => hanext (hbefore a hno))
              (hnextNe a hanext), ha, hroot]
        · have hynext : y ∉ next.addrs := hboth y hy
          apply removed_of_ne (hgone y hynext) ?_ (hnextNe y hynext)
          intro hno
          rcases hplace with ⟨_, hprev, hparent, _⟩ | ⟨_, hbefore⟩
          · rw [Cell.before, hprev, hparent] at hno
            cases p with
            | none => cases hno
            | some p =>
              cases hno
              exact hach hy
          · exact hynext (hbefore y hno)

/-- The nodes next to a node are not in its tree. -/
theorem Rep.outside (hf : Rep h p q f) (hnd : f.addrs.Nodup) (hp : ∀ y ∈ f.addrs, p ≠ some y)
    (hq : ∀ y ∈ f.addrs, q ≠ some y) (hx : x ∈ f.addrs) (hr : h x = some r)
    (hy : r.before = some y ∨ r.next = some y) : y ∉ (f.subtree x).addrs := by
  induction f generalizing p q with
  | nil => cases hx
  | node a d ch next ihc ihn =>
    obtain ⟨ha, hchild, hnext⟩ := hf
    obtain ⟨hach, hanext, hndc, hndn, hboth⟩ := addrs_nodup hnd
    rw [subtree]
    by_cases hax : a = x
    · subst hax
      rw [hr] at ha
      rw [if_pos rfl, addrs, addrs, List.append_nil]
      intro hmem
      have hin : y ∈ (node a d ch next).addrs := by
        rw [addrs, ← List.cons_append]
        exact List.mem_append_left _ hmem
      cases ha
      rcases hy with hy | hy
      · exact before_ne ⟨rfl, rfl⟩ (hp y hin) (hq y hin) hy
      · obtain ⟨_, _, hroot⟩ := Option.bind_eq_some_iff.1 hy
        have hyn := root_mem hroot
        rcases List.mem_cons.1 hmem with rfl | hmem
        · exact hanext hyn
        · exact hboth y hmem hyn
    · rw [if_neg hax]
      rw [addrs, List.mem_cons, List.mem_append] at hx
      rcases hx.resolve_left fun he => hax he.symm with hx | hx
      · rw [subtree_of_not_mem (hboth x hx), append_nil]
        exact ihc hchild hndc (fun z hz he => hach (Option.some.inj he ▸ hz))
          (fun z _ he => Option.some_ne_none z he.symm) hx
      · rw [subtree_of_not_mem fun hc => hboth x hc hx]
        exact ihn hnext hndn
          (fun z hz => hp z (List.mem_cons_of_mem _ (List.mem_append_right _ hz)))
          (fun z hz he => hanext (Option.some.inj he ▸ hz)) hx

/-- The tree of a root is one by itself. -/
theorem Rep.root_tree (hf : Rep h none q f) (hnd : f.addrs.Nodup) (hx : x ∈ f.roots) :
    ∃ c child, f.subtree x = node x c child nil ∧ Rep h none none (node x c child nil) := by
  induction f generalizing q with
  | nil => cases hx
  | node a d ch next _ ihn =>
    obtain ⟨ha, hchild, hnext⟩ := hf
    obtain ⟨_, _, _, hndn, hboth⟩ := addrs_nodup hnd
    rw [subtree]
    by_cases hax : a = x
    · subst hax
      rw [if_pos rfl]
      exact ⟨d, ch, rfl, ha, hchild, trivial⟩
    · have hroot := (List.mem_cons.1 hx).resolve_left fun he => hax he.symm
      have hch : x ∉ ch.addrs := fun hno => hboth x hno (roots_subset next hroot)
      rw [if_neg hax, subtree_of_not_mem hch]
      exact ihn hnext hndn hroot

/-- The memory holds the other trees too. -/
theorem Rep.erase_root (hf : Rep h none q f) (hnd : f.addrs.Nodup) (hx : x ∈ f.roots) :
    Rep h none q (f.erase x) := by
  induction f generalizing q with
  | nil => cases hx
  | node a d ch next _ ihn =>
    obtain ⟨ha, hchild, hnext⟩ := hf
    obtain ⟨_, _, _, hndn, hboth⟩ := addrs_nodup hnd
    rw [Forest.erase]
    by_cases hax : a = x
    · rw [if_pos hax]
      exact hnext.root_prev q
    · have hroot := (List.mem_cons.1 hx).resolve_left fun he => hax he.symm
      have hch : x ∉ ch.addrs := fun hno => hboth x hno (roots_subset next hroot)
      rw [if_neg hax, erase_of_not_mem hch]
      exact ⟨ha, hchild, ihn hnext hndn hroot⟩

end

end

end Forest

end BigBox
