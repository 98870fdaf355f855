import Mathlib.Data.Bool.AllAny
import BigBox.Xml.XmlTag

namespace BigBox.Xml
set_option autoImplicit true

/-- The document of nodes without indentation. -/
def Nodes.dump (f : Nodes) : Str := dumpNodes 0 f 0

/-- An element whose children are elements, or one text that is not empty. -/
def Nodes.Valid : Nodes → Prop
  | .nil => True
  | .text s next => s ≠ [] ∧ TextOk s ∧ next = .nil
  | .element tag child next => tag.Valid ∧ child.Valid ∧ next.Valid ∧ ∀ s g, next ≠ .text s g

def Element.Valid (e : Element) : Prop := e.tag.Valid ∧ e.child.Valid

/-- An element with a name is among the nodes or below them. -/
def Nodes.Named (qname : Str) : Nodes → Prop
  | .nil => False
  | .text _ next => next.Named qname
  | .element tag child next => tag.qname = qname ∨ child.Named qname ∨ next.Named qname

/-- No element is below one of the same name, and the attributes of all are kept. -/
def Nodes.Ok : Nodes → Prop
  | .nil => True
  | .text _ next => next.Ok
  | .element tag child next => tag.Kept ∧ ¬ child.Named tag.qname ∧ child.Ok ∧ next.Ok

def Element.Ok (e : Element) : Prop :=
  e.tag.Kept ∧ ¬ e.child.Named e.tag.qname ∧ e.child.Ok

section Characters

theorem Tag.Valid.qname_not_mem {tag : Tag} (h : tag.Valid)
    (hc : c ∈ [0, SPACE, BANG, SLASH, LT, GT, QUESTION]) : c ∉ tag.qname := by
  have hmem : c ∈ [0, SPACE, BANG, SLASH, COLON, LT, GT, QUESTION] :=
    List.all_iff_forall_prop.1 (by decide) c hc
  have hcolon : c ≠ COLON := by
    rintro rfl
    exact absurd hc (by decide)
  have hname : c ∉ tag.name := h.name.not_mem hmem
  rw [Tag.qname]
  cases hpfx : tag.pfx with
  | none => exact hname
  | some pfx =>
    have hno : c ∉ pfx := (h.pfx pfx hpfx).not_mem hmem
    rw [List.mem_append, List.mem_cons, not_or, not_or]
    exact ⟨hno, hcolon, hname⟩

theorem Tag.Valid.qname_ne_nil {tag : Tag} (h : tag.Valid) : tag.qname ≠ [] := by
  rw [Tag.qname]
  cases tag.pfx with
  | none => exact h.name.1
  | some pfx => exact List.append_ne_nil_of_right_ne_nil pfx (List.cons_ne_nil _ _)

/-- The first character of a tag is that of a name. -/
theorem Tag.Valid.text_head {tag : Tag} (h : tag.Valid) :
    ∃ c s, tag.text = c :: s ∧ c ∉ [SLASH, BANG, QUESTION] := by
  obtain ⟨c, s, hq⟩ := List.exists_cons_of_ne_nil h.qname_ne_nil
  have hc : c ∉ [SLASH, BANG, QUESTION] := by
    intro hmem
    have hno : c ∉ tag.qname := h.qname_not_mem (List.all_iff_forall_prop.1 (by decide) c hmem)
    exact hno (hq ▸ List.mem_cons_self)
  rw [Tag.text, hq]
  cases tag.attr with
  | none => exact ⟨c, s, rfl, hc⟩
  | some attr => exact ⟨c, s ++ SPACE :: attr, rfl, hc⟩

end Characters

section Closing

theorem append_cons_inj {c : UInt8} {q q' t t' : Str} (hq : c ∉ q) (hq' : c ∉ q')
    (h : q ++ c :: t = q' ++ c :: t') : q = q' := by
  have hrest : some (c :: t) = some (c :: t') := by rw [← strchr_at hq, h, strchr_at hq']
  rw [Option.some.inj hrest] at h
  exact List.append_cancel_right h

end Closing

/-- The elements, and the slashes in their attributes and texts. -/
def Nodes.slashes : Nodes → Nat
  | .nil => 0
  | .text s next => s.count SLASH + next.slashes
  | .element tag child next => 1 + (tag.attr.getD []).count SLASH + child.slashes + next.slashes

/-- What the document has of a node: its namespace is declared by its attributes. -/
def Tag.forget (tag : Tag) : Tag := { tag with uri := none }

def Nodes.forget : Nodes → Nodes
  | .nil => .nil
  | .text s next => .text s next.forget
  | .element tag child next => .element tag.forget child.forget next.forget

def Element.forget (e : Element) : Element := ⟨e.tag.forget, e.child.forget⟩

section Nodes

@[simp] theorem append_nil (f : Nodes) : f.append .nil = f := by
  induction f with
  | nil => rfl
  | text s next ih => rw [Nodes.append, ih]
  | element tag child next _ ih => rw [Nodes.append, ih]

theorem append_assoc (f g k : Nodes) : (f.append g).append k = f.append (g.append k) := by
  induction f with
  | nil => rfl
  | text s next ih => rw [Nodes.append, Nodes.append, Nodes.append, ih]
  | element tag child next _ ih => rw [Nodes.append, Nodes.append, Nodes.append, ih]

theorem addChild_addChild (r : Element) (f g : Nodes) :
    (r.addChild f).addChild g = r.addChild (f.append g) := by
  rw [Element.addChild, Element.addChild, Element.addChild, append_assoc]

@[simp] theorem addChild_nil (r : Element) : r.addChild .nil = r := by
  rw [Element.addChild, append_nil]

theorem slashes_append (f g : Nodes) : (f.append g).slashes = f.slashes + g.slashes := by
  induction f with
  | nil => exact (Nat.zero_add _).symm
  | text s next ih => rw [Nodes.append, Nodes.slashes, Nodes.slashes, ih, Nat.add_assoc]
  | element tag child next _ ih =>
    rw [Nodes.append, Nodes.slashes, Nodes.slashes, ih]
    exact (Nat.add_assoc _ _ _).symm

end Nodes

section Rounds

/-- Where the next tag stands. -/
theorem nextTag_some (h : nextTag cur = some (front, rear)) :
    ∃ a t u, cur = a ++ LT :: (t ++ GT :: u) ∧ front = t ++ GT :: u ∧ rear = GT :: u ∧ GT ∉ t := by
  obtain ⟨lt, hlt, h⟩ := Option.bind_eq_some_iff.1 h
  obtain ⟨gt, hgt, h⟩ := Option.map_eq_some_iff.1 h
  obtain ⟨a, s, rfl, rfl, _⟩ := strchr_some hlt
  obtain ⟨t, u, hs, rfl, ht⟩ := strchr_some hgt
  rw [List.tail_cons] at hs
  subst hs
  cases h
  exact ⟨a, t, u, rfl, rfl, rfl, ht⟩

/-- Where a closing tag is found, with the first `>` behind it. -/
theorem docRear_some (h : (strstr (endTag1 q) doc).or (strstr (endTag2 q) doc) = some docRear) :
    ∃ a t, doc = a ++ docRear ∧ docRear = LT :: SLASH :: t := by
  rcases Option.or_eq_some_iff.1 h with h | ⟨_, h⟩
  · obtain ⟨a, t, hdoc, hrear⟩ := strstr_some h
    exact ⟨a, _, hdoc, hrear⟩
  · obtain ⟨a, t, hdoc, hrear⟩ := strstr_some h
    exact ⟨a, _, hdoc, hrear⟩

end Rounds

section Extends

theorem slashes_attr (h : parseTag s = some tag) :
    (tag.attr.getD []).count SLASH ≤ s.count SLASH := by
  cases hattr : tag.attr with
  | none => exact Nat.zero_le _
  | some attr => exact (parseTag_attr_sublist h attr hattr).count_le SLASH

/-- The slash of a closing tag is in front of its `>`. -/
theorem count_docRear (h : LT :: SLASH :: s = c ++ GT :: d) :
    d.count SLASH + 1 ≤ (LT :: SLASH :: s).count SLASH := by
  cases c with
  | nil => exact absurd (List.cons.inj h).1 (by decide)
  | cons x c =>
    cases c with
    | nil => exact absurd (List.cons.inj (List.cons.inj h).2).1 (by decide)
    | cons y c =>
      have hs : s = c ++ GT :: d := (List.cons.inj (List.cons.inj h).2).2
      rw [hs, List.count_cons_of_ne (by decide), List.count_cons_self, List.count_append,
        List.count_cons_of_ne (by decide)]
      exact Nat.succ_le_succ (Nat.le_add_left _ _)

/-- Nodes are put behind the children, with no more slashes than the document has. -/
theorem parseDoc_extends (h : parseDoc n cur (some r) = some res) :
    ∃ g, res = some (r.addChild g) ∧ g.slashes ≤ cur.count SLASH := by
  induction n generalizing cur r res with
  | zero => cases h
  | succ n ih =>
    rw [parseDoc] at h
    split at h
    case isTrue =>
      cases h
      exact ⟨.nil, by rw [addChild_nil], Nat.zero_le _⟩
    case isFalse =>
      split at h
      case h_1 =>
        cases h
        rw [addText, Option.map_some]
        split
        case isTrue => exact ⟨.text cur .nil, rfl, Nat.le_refl _⟩
        case isFalse => exact ⟨.nil, by rw [addChild_nil], Nat.zero_le _⟩
      case h_2 front rear htag =>
        obtain ⟨a, t, u, rfl, rfl, rfl, _⟩ := nextTag_some htag
        have hcount : (a ++ LT :: (t ++ GT :: u)).count SLASH =
            a.count SLASH + (t.count SLASH + u.count SLASH) := by
          rw [List.count_append, List.count_cons_of_ne (by decide), List.count_append,
            List.count_cons_of_ne (by decide)]
        simp only [between_append, List.tail_cons] at h
        split at h
        case isTrue hlast =>
          obtain ⟨tag, hparse, h⟩ := Option.bind_eq_some_iff.1 h
          obtain ⟨g, rfl, hg⟩ := ih h
          have hattr := slashes_attr hparse
          have htext : t.count SLASH = t.dropLast.count SLASH + 1 := by
            obtain ⟨ys, rfl⟩ := List.getLast?_eq_some_iff.1 hlast
            rw [List.dropLast_concat, List.count_append]
            rfl
          refine ⟨_, congrArg some (addChild_addChild ..), ?_⟩
          rw [hcount, slashes_append, Nodes.slashes, Nodes.slashes]
          omega
        case isFalse =>
          obtain ⟨tag, hparse, h⟩ := Option.bind_eq_some_iff.1 h
          have hattr := slashes_attr hparse
          split at h
          case h_1 =>
            obtain ⟨g, rfl, hg⟩ := ih h
            exact ⟨g, rfl, by omega⟩
          case h_2 docRear hrear =>
            obtain ⟨node, hnode, h⟩ := Option.bind_eq_some_iff.1 h
            obtain ⟨g₁, rfl, hg₁⟩ := ih hnode
            obtain ⟨rear, hgt, h⟩ := Option.bind_eq_some_iff.1 h
            obtain ⟨g₂, rfl, hg₂⟩ := ih h
            obtain ⟨b, s, hdoc, hs⟩ := docRear_some hrear
            obtain ⟨c, d, hsplit, rfl, _⟩ := strchr_some hgt
            have hclose := count_docRear (hs.symm.trans hsplit)
            have hu : u.count SLASH = b.count SLASH + docRear.count SLASH := by
              rw [hdoc, List.count_append]
            rw [hdoc, between_append] at hg₁
            rw [List.tail_cons] at hg₂
            rw [← hs] at hclose
            refine ⟨(Nodes.element tag g₁ .nil).append g₂, congrArg some (addChild_addChild ..), ?_⟩
            rw [hcount, slashes_append, Nodes.slashes, Nodes.slashes]
            omega

end Extends

end BigBox.Xml
