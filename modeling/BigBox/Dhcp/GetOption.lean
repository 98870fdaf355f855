import BigBox.Lib.Loop

namespace BigBox.Dhcp
open Loop
set_option autoImplicit true

def dhcpEnd : UInt8 := 0xff

/-- The bytes of `struct dhcp_opt`. -/
def sizeofDhcpOpt : Nat := 2

def optSize : Nat := 128

/-- The options of `struct dhcp_pkt`. -/
structure DhcpPkt where
  opt : List UInt8
  size : opt.length = optSize

/-- An option with its place in the packet. -/
structure DhcpOpt where
  offset : Nat
  id : UInt8
  len : UInt8
  deriving DecidableEq, Repr

/-- The option at an offset with the offset of the next one. A read behind the array has no
result. -/
def getDhcpOption (pkt : DhcpPkt) (offset : Nat) : Option (Option DhcpOpt × Nat) := do
  let id ← pkt.opt[offset]?
  if id = 0x00 ∨ id = dhcpEnd then return (none, offset)
  let len ← pkt.opt[offset + 1]?
  return (some ⟨offset, id, len⟩, offset + (sizeofDhcpOpt + len.toNat))

/-- A round of the loop of the client, with the options it has got. -/
def optionRound (pkt : DhcpPkt) (s : Nat × List DhcpOpt) :
    Option (Round (Nat × List DhcpOpt) (List DhcpOpt)) :=
  (getDhcpOption pkt s.1).map fun
    | (some opt, offset) => .next (offset, s.2 ++ [opt])
    | (none, _) => .done s.2

/-- The id, the length and the value bytes of an option lie in the array. -/
def DhcpOpt.Inside (opt : DhcpOpt) : Prop :=
  opt.offset + (sizeofDhcpOpt + opt.len.toNat) ≤ optSize

/-- An option as it is written. -/
structure Item where
  id : UInt8
  values : List UInt8
  fits : values.length < 256
  shown : ¬ (id = 0x00 ∨ id = dhcpEnd)

def Item.bytes (item : Item) : List UInt8 :=
  item.id :: UInt8.ofNat item.values.length :: item.values

/-- Complete options, and a byte that ends them. -/
def Closed (bytes : List UInt8) : Prop :=
  ∃ (items : List Item) (e : UInt8) (rest : List UInt8),
    bytes = items.flatMap Item.bytes ++ e :: rest ∧ (e = 0x00 ∨ e = dhcpEnd)

/-- The options in their places. -/
def placed : Nat → List Item → List DhcpOpt
  | _, [] => []
  | offset, item :: items =>
    ⟨offset, item.id, UInt8.ofNat item.values.length⟩ :: placed (offset + item.bytes.length) items

theorem Item.len_toNat (item : Item) :
    (UInt8.ofNat item.values.length).toNat = item.values.length := by
  rw [UInt8.toNat_ofNat']
  exact Nat.mod_eq_of_lt item.fits

theorem Item.length_bytes (item : Item) :
    item.bytes.length = sizeofDhcpOpt + (UInt8.ofNat item.values.length).toNat := by
  rw [item.len_toNat, Nat.add_comm]
  rfl

theorem getDhcpOption_item {pkt : DhcpPkt} (h : pkt.opt = done ++ (Item.bytes item ++ rest)) :
    getDhcpOption pkt done.length =
      some (some ⟨done.length, item.id, UInt8.ofNat item.values.length⟩,
        done.length + item.bytes.length) := by
  have hid : pkt.opt[done.length]? = some item.id := by
    rw [h, List.getElem?_append_right (Nat.le_refl _), Nat.sub_self]
    rfl
  have hlen : pkt.opt[done.length + 1]? = some (UInt8.ofNat item.values.length) := by
    rw [h, List.getElem?_append_right (Nat.le_add_right _ 1), Nat.add_sub_cancel_left]
    rfl
  rw [getDhcpOption, hid, Option.bind_eq_bind, Option.bind_some, if_neg item.shown, hlen,
    item.length_bytes]
  rfl

theorem getDhcpOption_end {pkt : DhcpPkt} (h : pkt.opt = done ++ e :: rest)
    (he : e = 0x00 ∨ e = dhcpEnd) : getDhcpOption pkt done.length = some (none, done.length) := by
  have hid : pkt.opt[done.length]? = some e := by
    rw [h, List.getElem?_append_right (Nat.le_refl _), Nat.sub_self]
    rfl
  rw [getDhcpOption, hid, Option.bind_eq_bind, Option.bind_some, if_pos he]
  rfl

/-- The client gets the options that are written, in their places. -/
theorem returns_placed {pkt : DhcpPkt}
    (h : pkt.opt = done ++ (items.flatMap Item.bytes ++ e :: rest))
    (he : e = 0x00 ∨ e = dhcpEnd) (seen : List DhcpOpt) :
    Returns (optionRound pkt) (done.length, seen) (seen ++ placed done.length items) := by
  induction items generalizing done seen with
  | nil =>
    have hround : optionRound pkt (done.length, seen) = some (.done seen) := by
      rw [optionRound, getDhcpOption_end h he]
      rfl
    rw [returns_done hround, placed, List.append_nil]
  | cons item items ih =>
    rw [List.flatMap_cons, List.append_assoc] at h
    have hround : optionRound pkt (done.length, seen) = some (.next (done.length +
        item.bytes.length, seen ++ [⟨done.length, item.id, UInt8.ofNat item.values.length⟩])) := by
      rw [optionRound, getDhcpOption_item h]
      rfl
    have hrest := @ih (done ++ item.bytes) (by rw [h, List.append_assoc])
      (seen ++ [⟨done.length, item.id, UInt8.ofNat item.values.length⟩])
    rw [List.length_append, List.append_assoc] at hrest
    exact (returns_next hround).2 hrest

theorem placed_inside (h : offset + (items.flatMap Item.bytes).length ≤ optSize) :
    ∀ opt ∈ placed offset items, opt.Inside := by
  induction items generalizing offset with
  | nil => exact fun opt hopt => nomatch hopt
  | cons item items ih =>
    rw [List.flatMap_cons, List.length_append, ← Nat.add_assoc] at h
    rw [placed, List.forall_mem_cons]
    constructor
    · rw [DhcpOpt.Inside, ← item.length_bytes]
      exact Nat.le_trans (Nat.le_add_right _ _) h
    · exact ih h

theorem getDhcpOption_some {pkt : DhcpPkt} (h : getDhcpOption pkt offset = some (some opt, next)) :
    opt.offset = offset ∧ next = offset + (sizeofDhcpOpt + opt.len.toNat) ∧
      ¬ (opt.id = 0x00 ∨ opt.id = dhcpEnd) ∧
      pkt.opt[offset]? = some opt.id ∧ pkt.opt[offset + 1]? = some opt.len := by
  obtain ⟨id, hid, hrest⟩ := Option.bind_eq_some_iff.1 h
  split at hrest
  case isTrue => cases hrest
  case isFalse hshown =>
    obtain ⟨len, hlen, hout⟩ := Option.bind_eq_some_iff.1 hrest
    cases hout
    exact ⟨rfl, rfl, hshown, hid, hlen⟩

theorem getDhcpOption_none {pkt : DhcpPkt} (h : getDhcpOption pkt offset = some (none, next)) :
    ∃ e rest, pkt.opt.drop offset = e :: rest ∧ (e = 0x00 ∨ e = dhcpEnd) := by
  obtain ⟨id, hid, hrest⟩ := Option.bind_eq_some_iff.1 h
  obtain ⟨hlt, hget⟩ := List.getElem?_eq_some_iff.1 hid
  split at hrest
  case isTrue hend =>
    refine ⟨id, pkt.opt.drop (offset + 1), ?_, hend⟩
    rw [List.drop_eq_getElem_cons hlt, hget]
  case isFalse =>
    obtain ⟨len, _, hout⟩ := Option.bind_eq_some_iff.1 hrest
    cases hout

/-- An option inside the array is complete. -/
theorem exists_item {pkt : DhcpPkt} (h : getDhcpOption pkt offset = some (some opt, next))
    (hin : opt.Inside) : ∃ item : Item, pkt.opt.drop offset = item.bytes ++ pkt.opt.drop next := by
  obtain ⟨rfl, rfl, hshown, hid, hlen⟩ := getDhcpOption_some h
  obtain ⟨hlt, hget⟩ := List.getElem?_eq_some_iff.1 hid
  obtain ⟨hlt', hget'⟩ := List.getElem?_eq_some_iff.1 hlen
  obtain ⟨values, hvalues⟩ : ∃ values,
      (pkt.opt.drop (opt.offset + 2)).take opt.len.toNat = values := ⟨_, rfl⟩
  have hlength : values.length = opt.len.toNat := by
    rw [← hvalues, List.length_take, List.length_drop, pkt.size]
    apply Nat.min_eq_left
    apply Nat.le_sub_of_add_le
    rw [Nat.add_comm, Nat.add_assoc]
    exact hin
  refine ⟨⟨opt.id, values, hlength ▸ opt.len.toNat_lt, hshown⟩, ?_⟩
  calc pkt.opt.drop opt.offset = opt.id :: opt.len :: pkt.opt.drop (opt.offset + 2) := by
        rw [List.drop_eq_getElem_cons hlt, hget, List.drop_eq_getElem_cons hlt', hget']
    _ = opt.id :: UInt8.ofNat values.length :: (values ++
          (pkt.opt.drop (opt.offset + 2)).drop opt.len.toNat) := by
        rw [← hvalues, List.take_append_drop, hvalues, hlength, UInt8.ofNat_toNat]
    _ = _ := by
        rw [List.drop_drop, Nat.add_assoc]
        rfl

/-- The loop keeps the options it has got. -/
theorem mem_of_returns {pkt : DhcpPkt} (h : Returns (optionRound pkt) s opts)
    (hopt : opt ∈ s.2) : opt ∈ opts := by
  obtain ⟨fuel, hrun⟩ := h
  induction fuel generalizing s with
  | zero => cases hrun
  | succ fuel ih =>
    obtain ⟨r, hr, hrest⟩ := Option.bind_eq_some_iff.1 hrun
    obtain ⟨⟨found, next⟩, _, rfl⟩ := Option.map_eq_some_iff.1 hr
    cases found with
    | none =>
      cases hrest
      exact hopt
    | some found => exact ih (List.mem_append_left _ hopt) hrest

theorem closed_of_returns {pkt : DhcpPkt} (h : Returns (optionRound pkt) s opts)
    (hin : ∀ opt ∈ opts, opt.Inside) : Closed (pkt.opt.drop s.1) := by
  obtain ⟨fuel, hrun⟩ := h
  induction fuel generalizing s with
  | zero => cases hrun
  | succ fuel ih =>
    obtain ⟨r, hr, hrest⟩ := Option.bind_eq_some_iff.1 hrun
    obtain ⟨⟨found, next⟩, hget, rfl⟩ := Option.map_eq_some_iff.1 hr
    cases found with
    | none =>
      obtain ⟨e, rest, hdrop, he⟩ := getDhcpOption_none hget
      exact ⟨[], e, rest, hdrop, he⟩
    | some found =>
      have hfound : found ∈ opts :=
        mem_of_returns ⟨fuel, hrest⟩ (List.mem_append_right _ List.mem_cons_self)
      obtain ⟨item, hitem⟩ := exists_item hget (hin found hfound)
      obtain ⟨items, e, rest, hdrop, he⟩ := ih hrest
      refine ⟨item :: items, e, rest, ?_, he⟩
      rw [hitem, hdrop, List.flatMap_cons, List.append_assoc]

/-- The walk over the options ends, with every option inside the array, exactly when the array
begins with complete options and a byte that ends them. -/
theorem options_inside_iff (pkt : DhcpPkt) :
    (∃ opts, Returns (optionRound pkt) (0, []) opts ∧ ∀ opt ∈ opts, opt.Inside) ↔
      Closed pkt.opt := by
  constructor
  · rintro ⟨opts, hrun, hin⟩
    exact closed_of_returns hrun hin
  · rintro ⟨items, e, rest, hopt, he⟩
    have hhead : pkt.opt = [] ++ (items.flatMap Item.bytes ++ e :: rest) := hopt
    refine ⟨_, returns_placed hhead he [], placed_inside ?_⟩
    rw [List.length_nil, Nat.zero_add, ← pkt.size, hopt, List.length_append]
    exact Nat.le_add_right _ _

/-- Options of one value byte each. The last one has its value behind the array. -/
def onesPkt : DhcpPkt := ⟨List.replicate 128 1, by rw [List.length_replicate]; rfl⟩

theorem not_options_inside :
    ¬ ∃ opts, Returns (optionRound onesPkt) (0, []) opts ∧ ∀ opt ∈ opts, opt.Inside := by
  rintro ⟨opts, hrun, hin⟩
  obtain ⟨items, e, rest, hopt, he⟩ := closed_of_returns hrun hin
  have hmem : e ∈ onesPkt.opt := by
    rw [← List.drop_zero (l := onesPkt.opt), hopt]
    exact List.mem_append_right _ List.mem_cons_self
  rw [List.eq_of_mem_replicate hmem] at he
  exact absurd he (by decide)

end BigBox.Dhcp
