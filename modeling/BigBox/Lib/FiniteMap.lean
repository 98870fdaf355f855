import Mathlib.Data.Finmap
import Mathlib.Data.Finset.Basic
import Mathlib.Data.Finset.Card

namespace BigBox
set_option autoImplicit true

section FiniteSet
variable {α : Type*} {ε : Type*} {s : Finset α} {key : ε → α} {l l' : List ε}

/-- The elements of a finite set are those of the entries of a list. -/
def Enumerates (s : Finset α) (key : ε → α) (l : List ε) : Prop := s.val = ↑(l.map key)

theorem Enumerates.card (h : Enumerates s key l) : s.card = l.length := by
  rw [Finset.card, h, Multiset.coe_card, List.length_map]

theorem Enumerates.perm (h : Enumerates s key l) (hl : l.Perm l') : Enumerates s key l' :=
  h.trans (Multiset.coe_eq_coe.2 (hl.map _))

theorem Enumerates.congr {key' : ε → α} (h : Enumerates s key l)
    (he : ∀ e ∈ l, key' e = key e) : Enumerates s key' l := by
  rw [Enumerates, List.map_congr_left he]
  exact h

/-- No entry of the list is there twice. -/
theorem Enumerates.nodup (h : Enumerates s key l) : l.Nodup := by
  have hnd := s.nodup
  rw [h, Multiset.coe_nodup] at hnd
  exact hnd.of_map

theorem Enumerates.mem_iff (h : Enumerates s key l) : a ∈ s ↔ ∃ e ∈ l, key e = a := by
  rw [← Finset.mem_val, h, Multiset.mem_coe, List.mem_map]

theorem enumerates_empty (key : ε → α) : Enumerates ∅ key [] := rfl

section
variable [DecidableEq α]

theorem Enumerates.insert (h : Enumerates s key l) (ha : key e ∉ s) :
    Enumerates (insert (key e) s) key (e :: l) := by
  rw [Enumerates, Finset.insert_val_of_notMem ha, h]
  rfl

theorem Enumerates.erase (h : Enumerates s key l) (hl : l.Perm (e :: l')) :
    Enumerates (s.erase (key e)) key l' := by
  have hval : s.val = key e ::ₘ ↑(l'.map key) := h.perm hl
  rw [Enumerates, Finset.erase_val, hval, Multiset.erase_cons_head]

end

end FiniteSet

/-- Only one element of the list has its key. -/
theorem find?_of_nodup_map {α : Type*} {ε : Type*} [DecidableEq α] {key : ε → α}
    {l : List ε} {e : ε}
    (h : (l.map key).Nodup) (he : e ∈ l) : (l.find? fun x => key x = key e) = some e := by
  cases hfind : l.find? fun x => key x = key e with
  | none =>
    have hno := List.find?_eq_none.1 hfind e he
    rw [decide_eq_true_iff] at hno
    exact (hno rfl).elim
  | some e' =>
    have hsame := List.find?_some hfind
    rw [decide_eq_true_iff] at hsame
    rw [List.inj_on_of_nodup_map h (List.mem_of_find?_eq_some hfind) he hsame]

section Finmap
variable {α : Type*} {β : Type*} [DecidableEq α] {m : Finmap fun _ : α => β}

omit [DecidableEq α] in
theorem card_keys (m : Finmap fun _ : α => β) : m.keys.card = m.entries.card := by
  rw [Finmap.keys, Finset.card_mk, Multiset.keys, Multiset.card_map]

theorem eq_empty_of_card (h : m.keys.card = 0) : m = ∅ := by
  apply Finmap.ext_lookup
  intro x
  rw [Finmap.lookup_empty, Finmap.lookup_eq_none, ← Finmap.mem_keys, Finset.card_eq_zero.1 h]
  exact Finset.notMem_empty x

/-- A key of a map comes with one value only. -/
theorem lookup_of_mem_entries (h : ⟨a, b⟩ ∈ m.entries) : m.lookup a = some b :=
  Finmap.lookup_eq_some_iff.2 h

/-- A map without the first of its bindings. -/
theorem exists_insert {t : Multiset (Σ _ : α, β)} (h : m.entries = ⟨a, b⟩ ::ₘ t) :
    ∃ r : Finmap fun _ : α => β, r.entries = t ∧ a ∉ r ∧ m = r.insert a b := by
  have hkeys : (Multiset.keys (⟨a, b⟩ ::ₘ t)).Nodup := h ▸ Multiset.nodup_keys.2 m.nodupKeys
  rw [Multiset.keys_cons, Multiset.nodup_cons] at hkeys
  refine ⟨⟨t, Multiset.nodup_keys.1 hkeys.2⟩, rfl, hkeys.1, ?_⟩
  apply Finmap.ext
  rw [h, Finmap.entries_insert_of_notMem]
  exact hkeys.1

theorem erase_insert {r : Finmap fun _ : α => β} (h : a ∉ r) : (r.insert a b).erase a = r := by
  apply Finmap.ext_lookup
  intro x
  by_cases hx : x = a
  · rw [hx, Finmap.lookup_erase, Finmap.lookup_eq_none.2 h]
  · rw [Finmap.lookup_erase_ne hx, Finmap.lookup_insert_of_ne r hx]

theorem erase_of_notMem (h : a ∉ m) : m.erase a = m := by
  apply Finmap.ext_lookup
  intro b
  by_cases hb : b = a
  · rw [hb, Finmap.lookup_erase, Finmap.lookup_eq_none.2 h]
  · exact Finmap.lookup_erase_ne hb

theorem entries_erase {t : Multiset (Σ _ : α, β)} (h : m.entries = ⟨a, b⟩ ::ₘ t) :
    (m.erase a).entries = t := by
  obtain ⟨r, rfl, hr, rfl⟩ := exists_insert h
  rw [erase_insert hr]

theorem entries_replace {t : Multiset (Σ _ : α, β)} (h : m.entries = ⟨a, b⟩ ::ₘ t) (b' : β) :
    (m.insert a b').entries = ⟨a, b'⟩ ::ₘ t := by
  obtain ⟨r, rfl, hr, rfl⟩ := exists_insert h
  rw [Finmap.insert_insert, Finmap.entries_insert_of_notMem hr]

section Binds
variable {ε : Type*} {key : ε → α} {value : ε → β} {l l' : List ε}

/-- The bindings of a finite map are those of the entries of a list. -/
def Binds (m : Finmap fun _ : α => β) (key : ε → α) (value : ε → β) (l : List ε) : Prop :=
  m.entries = ↑(l.map fun e => (⟨key e, value e⟩ : Σ _ : α, β))

omit [DecidableEq α] in
theorem Binds.card (h : Binds m key value l) : m.keys.card = l.length := by
  rw [card_keys, h, Multiset.coe_card, List.length_map]

omit [DecidableEq α] in
theorem Binds.perm (h : Binds m key value l) (hl : l.Perm l') : Binds m key value l' :=
  h.trans (Multiset.coe_eq_coe.2 (hl.map _))

omit [DecidableEq α] in
theorem Binds.unique {m' : Finmap fun _ : α => β} (h : Binds m key value l)
    (h' : Binds m' key value l) : m = m' := Finmap.ext (h.trans h'.symm)

omit [DecidableEq α] in
theorem Binds.congr {key' : ε → α} {value' : ε → β} (h : Binds m key value l)
    (he : ∀ e ∈ l, key' e = key e ∧ value' e = value e) : Binds m key' value' l := by
  have hmap : (l.map fun e => (⟨key' e, value' e⟩ : Σ _ : α, β)) =
      l.map fun e => ⟨key e, value e⟩ :=
    List.map_congr_left fun e hl => by rw [(he e hl).1, (he e hl).2]
  rw [Binds, hmap]
  exact h

omit [DecidableEq α] in
theorem Binds.nodup_keys (h : Binds m key value l) : (l.map key).Nodup := by
  have hkeys : (m.entries.keys).Nodup := Multiset.nodup_keys.2 m.nodupKeys
  rw [h, Multiset.coe_keys, Multiset.coe_nodup, List.keys, List.map_map] at hkeys
  exact hkeys

omit [DecidableEq α] in
/-- No entry of the list is there twice. -/
theorem Binds.nodup (h : Binds m key value l) : l.Nodup := h.nodup_keys.of_map

omit [DecidableEq α] in
theorem Binds.entries (h : Binds m key value l) (hl : l.Perm (e :: l')) :
    m.entries = ⟨key e, value e⟩ ::ₘ ↑(l'.map fun e => (⟨key e, value e⟩ : Σ _ : α, β)) :=
  h.perm hl

omit [DecidableEq α] in
theorem binds_empty (key : ε → α) (value : ε → β) :
    Binds (∅ : Finmap fun _ : α => β) key value [] := rfl

theorem Binds.lookup (h : Binds m key value l) (hl : l.Perm (e :: l')) :
    m.lookup (key e) = some (value e) := by
  apply lookup_of_mem_entries
  rw [h.entries hl]
  exact Multiset.mem_cons_self _ _

theorem Binds.mem (h : Binds m key value l) (hl : l.Perm (e :: l')) : key e ∈ m :=
  Finmap.mem_of_lookup_eq_some (h.lookup hl)

theorem Binds.erase (h : Binds m key value l) (hl : l.Perm (e :: l')) :
    Binds (m.erase (key e)) key value l' := entries_erase (h.entries hl)

theorem Binds.replace (h : Binds m key value l) (hl : l.Perm (e :: l')) {e' : ε}
    (he : key e' = key e) :
    Binds (m.insert (key e) (value e')) key value (e' :: l') := by
  rw [Binds, entries_replace (h.entries hl), List.map_cons, he]
  rfl

/-- The value of an entry changes. -/
theorem Binds.update {value' : ε → β} (h : Binds m key value l) (hl : l.Perm (e :: l'))
    (he : ∀ x ∈ l', value' x = value x) : Binds (m.insert (key e) (value' e)) key value' l := by
  have hrest : (l'.map fun x => (⟨key x, value' x⟩ : Σ _ : α, β)) =
      l'.map fun x => ⟨key x, value x⟩ :=
    List.map_congr_left fun x hx => by rw [he x hx]
  have hnew : Binds (m.insert (key e) (value' e)) key value' (e :: l') := by
    rw [Binds, entries_replace (h.entries hl), List.map_cons, hrest]
    rfl
  exact hnew.perm hl.symm

omit [DecidableEq α] in
theorem Binds.notMem (h : Binds m key value l) (ha : ∀ e ∈ l, key e ≠ a) : a ∉ m := by
  rw [Finmap.mem_def, h, Multiset.coe_keys]
  intro hmem
  rw [List.keys, List.map_map] at hmem
  obtain ⟨e, he, hkey⟩ := List.mem_map.1 hmem
  exact ha e he hkey

theorem Binds.insert (h : Binds m key value l) (ha : key e ∉ m) :
    Binds (m.insert (key e) (value e)) key value (e :: l) := by
  rw [Binds, Finmap.entries_insert_of_notMem ha, h]
  rfl

end Binds

end Finmap

end BigBox
