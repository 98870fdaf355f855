import Mathlib.Algebra.Order.Ring.Int
import Mathlib.Data.List.Basic

namespace BigBox.StringDic
set_option autoImplicit true

abbrev Str := List UInt8

def STR_DICT_MIN_SIZE : Nat := 128

/-- A slot of the table that holds a key. -/
structure Slot where
  key : Str
  val : Option Str
  hash : UInt32

/-- A `string_dic_t`; `none` is a slot whose key is null, and `size` is the number of slots. -/
structure Dic where
  n : Nat
  slots : List (Option Slot)

/-- `(unsigned)key[i]` for a signed `char`. -/
def unsignedOf (c : UInt8) : UInt32 := if c < 128 then c.toUInt32 else c.toUInt32 + 0xffffff00

def stringDicHash (key : Str) : UInt32 :=
  let hash := key.foldl (fun hash c =>
    let hash := hash + unsignedOf c
    let hash := hash + (hash <<< 10)
    hash ^^^ (hash >>> 6)) 0
  let hash := hash + (hash <<< 3)
  let hash := hash ^^^ (hash >>> 11)
  hash + (hash <<< 15)

def stringDicNew (size : Nat) : Dic := ⟨0, List.replicate (max size STR_DICT_MIN_SIZE) none⟩

/-- The comparison of a slot with a key: first the hash values, then the strings. -/
def Slot.matches (key : Str) (slot : Option Slot) : Bool :=
  slot.any fun slot => stringDicHash key = slot.hash ∧ key = slot.key

/-- `string_dic_get`: the value of the key, or `none` for the default. -/
def stringDicGet (d : Dic) (key : Str) : Option (Option Str) :=
  (d.slots.find? (Slot.matches key)).bind fun slot => slot.map Slot.val

/-- The search for a free slot from `i` on, around the end of the table. -/
def freeSlot (slots : List (Option Slot)) : Nat → Nat → Nat
  | 0, i => i
  | fuel + 1, i =>
    if slots[i]?.any Option.isSome then
      freeSlot slots fuel (if i + 1 = slots.length then 0 else i + 1)
    else i

/-- `string_dic_set` when allocation succeeds. -/
def stringDicSet (d : Dic) (key : Str) (value : Option Str) : Dic :=
  if 0 < d.n ∧ d.slots.any (Slot.matches key) then
    let i := d.slots.findIdx (Slot.matches key)
    { d with slots := d.slots.set i (d.slots[i]?.join.map fun slot => { slot with val := value }) }
  else
    let slots := if d.n = d.slots.length then d.slots ++ List.replicate d.slots.length none
      else d.slots
    let i := freeSlot slots slots.length d.n
    ⟨d.n + 1, slots.set i (some ⟨key, value, stringDicHash key⟩)⟩

/-- The slots that hold keys, in the order of the table. -/
def Dic.entries (d : Dic) : List Slot := d.slots.filterMap id

/-- A table that holds the slots `es` and no holes between them, as sets without removals make
it. -/
structure Dic.Holds (d : Dic) (es : List Slot) : Prop where
  slots_eq : ∃ k, d.slots = es.map some ++ List.replicate k none
  n_eq : d.n = es.length
  size_pos : 0 < d.slots.length
  hash_eq : ∀ e ∈ es, e.hash = stringDicHash e.key
  nodup : (es.map Slot.key).Nodup

namespace Dic.Holds
variable {d : Dic}

theorem new (size : Nat) : (stringDicNew size).Holds [] := by
  refine ⟨⟨_, rfl⟩, rfl, ?_, nofun, List.nodup_nil⟩
  rw [stringDicNew, List.length_replicate]
  exact Nat.lt_of_lt_of_le (Nat.succ_pos _) (Nat.le_max_right ..)

theorem entries_eq (h : d.Holds es) : d.entries = es := by
  obtain ⟨k, hk⟩ := h.slots_eq
  rw [entries, hk, List.filterMap_append, List.filterMap_map, List.filterMap_replicate_of_none rfl,
    List.append_nil]
  exact List.filterMap_some

theorem matches_some (h : d.Holds es) (he : e ∈ es) :
    Slot.matches key (some e) = decide (key = e.key) := by
  rw [Slot.matches, Option.any_some, h.hash_eq e he]
  apply decide_eq_decide.2
  constructor
  · exact And.right
  · rintro rfl
    exact ⟨rfl, rfl⟩

/-- The table around the slot of a key. -/
theorem split (h : d.Holds es) (he : e ∈ es) :
    ∃ before behind, es = before ++ e :: behind ∧
      ∀ slot ∈ before.map some, Slot.matches e.key slot = false := by
  obtain ⟨before, behind, rfl⟩ := List.append_of_mem he
  refine ⟨before, behind, rfl, ?_⟩
  intro slot hslot
  obtain ⟨f, hf, rfl⟩ := List.mem_map.1 hslot
  rw [h.matches_some (List.mem_append_left _ hf)]
  apply decide_eq_false
  have hnodup := h.nodup
  rw [List.map_append, List.nodup_append, List.map_cons] at hnodup
  exact (hnodup.2.2 f.key (List.mem_map_of_mem hf) e.key List.mem_cons_self).symm

theorem get_mem (h : d.Holds es) (he : e ∈ es) : stringDicGet d e.key = some e.val := by
  obtain ⟨before, behind, rfl, hbefore⟩ := h.split he
  obtain ⟨k, hk⟩ := h.slots_eq
  have hfind : d.slots.find? (Slot.matches e.key) = some (some e) := by
    rw [hk, List.map_append, List.append_assoc, List.find?_append, List.map_cons,
      List.find?_eq_none.2 fun slot hslot => by rw [hbefore slot hslot]; nofun, Option.none_or,
      List.cons_append, List.find?_cons_of_pos]
    rw [h.matches_some he, decide_eq_true rfl]
  rw [stringDicGet, hfind]
  rfl

theorem get_none (h : d.Holds es) (hkey : ∀ e ∈ es, e.key ≠ key) : stringDicGet d key = none := by
  obtain ⟨k, hk⟩ := h.slots_eq
  have hfind : d.slots.find? (Slot.matches key) = none := by
    apply List.find?_eq_none.2
    intro slot hslot
    rw [hk, List.mem_append] at hslot
    rcases hslot with hslot | hslot
    · obtain ⟨e, he, rfl⟩ := List.mem_map.1 hslot
      rw [h.matches_some he, decide_eq_false fun heq => hkey e he heq.symm]
      nofun
    · rw [List.eq_of_mem_replicate hslot]
      nofun
  rw [stringDicGet, hfind]
  rfl

/-- A key is found with a value just when a slot of the table has both. -/
theorem get_iff (h : d.Holds es) :
    stringDicGet d key = some val ↔ ∃ e ∈ es, e.key = key ∧ e.val = val := by
  constructor
  · intro hget
    by_cases hkey : ∃ e ∈ es, e.key = key
    · obtain ⟨e, he, rfl⟩ := hkey
      rw [h.get_mem he, Option.some.injEq] at hget
      exact ⟨e, he, rfl, hget⟩
    · rw [h.get_none fun e he heq => hkey ⟨e, he, heq⟩] at hget
      cases hget
  · rintro ⟨e, he, rfl, rfl⟩
    exact h.get_mem he

theorem any_matches (h : d.Holds es) :
    d.slots.any (Slot.matches key) = true ↔ ∃ e ∈ es, e.key = key := by
  obtain ⟨k, hk⟩ := h.slots_eq
  rw [hk, List.any_append, Bool.or_eq_true, List.any_eq_true, List.any_eq_true]
  constructor
  · rintro (⟨slot, hslot, hm⟩ | ⟨slot, hslot, hm⟩)
    · obtain ⟨e, he, rfl⟩ := List.mem_map.1 hslot
      rw [h.matches_some he] at hm
      exact ⟨e, he, (of_decide_eq_true hm).symm⟩
    · rw [List.eq_of_mem_replicate hslot] at hm
      cases hm
  · rintro ⟨e, he, rfl⟩
    refine .inl ⟨some e, List.mem_map_of_mem he, ?_⟩
    rw [h.matches_some he, decide_eq_true rfl]

/-- A key that is in the table gets a new value in its slot. -/
theorem set_present (h : d.Holds es) (he : e ∈ es) (value : Option Str) :
    ∃ before behind, es = before ++ e :: behind ∧
      (stringDicSet d e.key value).Holds (before ++ { e with val := value } :: behind) := by
  obtain ⟨before, behind, rfl, hbefore⟩ := h.split he
  obtain ⟨k, hk⟩ := h.slots_eq
  have hpos : 0 < d.n := by
    rw [h.n_eq, List.length_append, List.length_cons]
    omega
  rw [List.map_append, List.map_cons, List.append_assoc, List.cons_append] at hk
  have hmatch : Slot.matches e.key (some e) = true := by
    rw [h.matches_some he, decide_eq_true rfl]
  have hidx : d.slots.findIdx (Slot.matches e.key) = (before.map some).length := by
    rw [hk, List.findIdx_append, List.findIdx_eq_length.2 hbefore, if_neg (Nat.lt_irrefl _),
      List.findIdx_cons, hmatch]
    exact Nat.zero_add _
  refine ⟨before, behind, rfl, ?_⟩
  rw [stringDicSet, if_pos ⟨hpos, h.any_matches.2 ⟨e, he, rfl⟩⟩]
  constructor
  case slots_eq =>
    refine ⟨k, ?_⟩
    dsimp only
    rw [hidx, hk]
    simp only [List.getElem?_append_right (Nat.le_refl _), Nat.sub_self, List.getElem?_cons_zero,
      Option.join_some, Option.map_some, List.set_append_right _ _ (Nat.le_refl _),
      List.set_cons_zero, List.map_append, List.map_cons, List.append_assoc, List.cons_append]
  case n_eq =>
    rw [h.n_eq, List.length_append, List.length_append]
    rfl
  case size_pos =>
    rw [List.length_set]
    exact h.size_pos
  case hash_eq =>
    intro f hf
    rcases List.mem_append.1 hf with hf | hf
    · exact h.hash_eq f (List.mem_append_left _ hf)
    · rcases List.mem_cons.1 hf with rfl | hf
      · exact h.hash_eq e he
      · exact h.hash_eq f (List.mem_append_right _ (List.mem_cons_of_mem _ hf))
  case nodup =>
    have hnodup := h.nodup
    rw [List.map_append, List.map_cons] at hnodup ⊢
    exact hnodup

theorem freeSlot_free {slots : List (Option Slot)} (h : slots[i]? = some none) (fuel : Nat) :
    freeSlot slots fuel i = i := by
  cases fuel with
  | zero => rfl
  | succ fuel =>
    rw [freeSlot, h]
    rfl

/-- Behind the entries there is a free slot, in a full table once it has doubled. -/
theorem grown (h : d.Holds es) : ∃ k, (if d.n = d.slots.length then
    d.slots ++ List.replicate d.slots.length none else d.slots) =
      es.map some ++ List.replicate (k + 1) none := by
  obtain ⟨k, hk⟩ := h.slots_eq
  have hlen := congrArg List.length hk
  rw [List.length_append, List.length_map, List.length_replicate, ← h.n_eq] at hlen
  have hsize := h.size_pos
  split
  case isTrue hfull =>
    refine ⟨k + d.slots.length - 1, ?_⟩
    rw [Nat.sub_add_cancel (by omega), List.replicate_add, ← List.append_assoc, ← hk]
  case isFalse hroom =>
    refine ⟨k - 1, ?_⟩
    rw [Nat.sub_add_cancel (by omega), hk]

theorem getElem?_n (h : d.Holds es) (k : Nat) :
    (es.map some ++ List.replicate (k + 1) (none : Option Slot))[d.n]? = some none := by
  have hn : d.n = (es.map some).length := by rw [h.n_eq, List.length_map]
  rw [hn, List.getElem?_append_right (Nat.le_refl _), Nat.sub_self]
  rfl

/-- A key that is not in the table takes the next slot. -/
theorem set_absent (h : d.Holds es) (hkey : ∀ e ∈ es, e.key ≠ key) (value : Option Str) :
    (stringDicSet d key value).Holds (es ++ [⟨key, value, stringDicHash key⟩]) := by
  have habsent : ¬(0 < d.n ∧ d.slots.any (Slot.matches key) = true) := by
    rintro ⟨-, hany⟩
    obtain ⟨e, he, heq⟩ := h.any_matches.1 hany
    exact hkey e he heq
  obtain ⟨k', hk'⟩ := h.grown
  have hn : d.n = (es.map some).length := by rw [h.n_eq, List.length_map]
  have hfree := h.getElem?_n k'
  rw [stringDicSet, if_neg habsent]
  dsimp only
  rw [hk', freeSlot_free hfree]
  constructor
  case slots_eq =>
    refine ⟨k', ?_⟩
    simp only [hn, List.set_append_right _ _ (Nat.le_refl _), Nat.sub_self, List.replicate_succ,
      List.set_cons_zero, List.map_append, List.map_cons, List.map_nil, List.append_assoc,
      List.cons_append, List.nil_append]
  case n_eq =>
    rw [h.n_eq, List.length_append]
    rfl
  case size_pos =>
    rw [List.length_set, List.length_append, List.length_replicate]
    omega
  case hash_eq =>
    intro e he
    rcases List.mem_append.1 he with he | he
    · exact h.hash_eq e he
    · rw [List.mem_singleton.1 he]
  case nodup =>
    rw [List.map_append, List.nodup_append]
    refine ⟨h.nodup, List.pairwise_singleton _ _, ?_⟩
    rintro a ha b hb rfl
    obtain ⟨e, he, rfl⟩ := List.mem_map.1 ha
    exact hkey e he (List.mem_singleton.1 hb)

/-- `string_dic_set` gives the key the value and changes no other key. -/
theorem set (h : d.Holds es) (key : Str) (value : Option Str) :
    ∃ es', (stringDicSet d key value).Holds es' ∧
      ∀ k, stringDicGet (stringDicSet d key value) k = if k = key then some value
        else stringDicGet d k := by
  by_cases hkey : ∃ e ∈ es, e.key = key
  · obtain ⟨e, he, rfl⟩ := hkey
    obtain ⟨before, behind, rfl, hset⟩ := h.set_present he value
    refine ⟨_, hset, ?_⟩
    intro k
    split
    case isTrue hk =>
      subst hk
      exact hset.get_mem (e := { e with val := value })
        (List.mem_append_right _ List.mem_cons_self)
    case isFalse hk =>
      apply Option.ext
      intro val
      rw [hset.get_iff, h.get_iff]
      simp only [List.mem_append, List.mem_cons]
      constructor
      · rintro ⟨f, hf | rfl | hf, rfl, rfl⟩
        · exact ⟨f, .inl hf, rfl, rfl⟩
        · exact absurd rfl hk
        · exact ⟨f, .inr (.inr hf), rfl, rfl⟩
      · rintro ⟨f, hf | rfl | hf, rfl, rfl⟩
        · exact ⟨f, .inl hf, rfl, rfl⟩
        · exact absurd rfl hk
        · exact ⟨f, .inr (.inr hf), rfl, rfl⟩
  · have habsent : ∀ e ∈ es, e.key ≠ key := fun e he heq => hkey ⟨e, he, heq⟩
    have hset := h.set_absent habsent value
    refine ⟨_, hset, ?_⟩
    intro k
    split
    case isTrue hk =>
      subst hk
      exact hset.get_iff.2 ⟨_, List.mem_append_right _ (List.mem_singleton_self _), rfl, rfl⟩
    case isFalse hk =>
      apply Option.ext
      intro val
      rw [hset.get_iff, h.get_iff]
      simp only [List.mem_append, List.mem_singleton]
      constructor
      · rintro ⟨f, hf | rfl, rfl, rfl⟩
        · exact ⟨f, hf, rfl, rfl⟩
        · exact absurd rfl hk
      · rintro ⟨f, hf, rfl, rfl⟩
        exact ⟨f, .inl hf, rfl, rfl⟩

end Dic.Holds

end BigBox.StringDic
