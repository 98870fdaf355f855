import BigBox.Cstl.Hashmap

namespace BigBox.Cstl
open Rbtree Buckets
set_option autoImplicit true

/-- A node as the one before in a bucket. -/
def Slot.behind (p : Ptr) : Option Slot := some (.next p)

/-- The bucket holds these nodes. -/
def Hlists.Row (m : Hlists) (b : Nat) (ps : List Ptr) : Prop :=
  Threaded m.next m.pprev Slot.behind (some (.first b)) (m.first b) ps

section Lists
variable {m : Hlists}

theorem setPprevIf_pprev (p : Option Ptr) (slot : Option Slot) (m : Hlists) (q : Ptr) :
    (m.setPprevIf p slot).pprev q = if p = some q then slot else m.pprev q := by
  cases p with
  | none => rfl
  | some p =>
    simp only [Hlists.setPprevIf, Hlists.setPprev, Function.update_apply, Option.some.injEq,
      eq_comm]

theorem setPprevIf_lists (p : Option Ptr) (slot : Option Slot) (m : Hlists) :
    (m.setPprevIf p slot).first = m.first ∧ (m.setPprevIf p slot).next = m.next := by
  cases p <;> exact ⟨rfl, rfl⟩

theorem hlistAddHead_first (a : Ptr) (b : Nat) (m : Hlists) (c : Nat) :
    (hlistAddHead a b m).first c = if c = b then some a else m.first c := by
  simp only [hlistAddHead, Hlists.setPprev, Hlists.write, setPprevIf_lists, Function.update_apply]

theorem hlistAddHead_next (a : Ptr) (b : Nat) (m : Hlists) (q : Ptr) :
    (hlistAddHead a b m).next q = if q = a then m.first b else m.next q := by
  simp only [hlistAddHead, Hlists.setPprev, Hlists.write, setPprevIf_lists, Function.update_apply]

theorem hlistAddHead_pprev (a : Ptr) (b : Nat) (m : Hlists) (q : Ptr) :
    (hlistAddHead a b m).pprev q = if q = a then some (.first b)
      else if m.first b = some q then some (.next a) else m.pprev q := by
  simp only [hlistAddHead, Hlists.setPprev, Hlists.write, setPprevIf_pprev, Function.update_apply]

/-- What `hlist_del` does to the links of the other nodes and to the heads. -/
structure Deleted (m m' : Hlists) (a : Ptr) (slot : Slot) : Prop where
  first : ∀ c, m'.first c = if slot = .first c then m.next a else m.first c
  next : ∀ q, q ≠ a → m'.next q = if slot = .next q then m.next a else m.next q
  pprev : ∀ q, q ≠ a → m'.pprev q = if m.next a = some q then some slot else m.pprev q

theorem hlistDel_deleted (h : m.pprev a = some slot) :
    ∃ m', hlistDel a m = some m' ∧ Deleted m m' a slot := by
  refine ⟨_, by rw [hlistDel, h]; rfl, fun c => ?_, fun q hq => ?_, fun q hq => ?_⟩
  · cases slot with
    | first b =>
      simp only [Hlists.setPprev, Hlists.write, setPprevIf_lists, Function.update_apply,
        Slot.first.injEq, eq_comm]
    | next p => simp only [Hlists.setPprev, Hlists.write, setPprevIf_lists, reduceCtorEq, if_false]
  · cases slot with
    | first b =>
      simp only [Hlists.setPprev, Hlists.write, setPprevIf_lists, Function.update_of_ne hq,
        reduceCtorEq, if_false]
    | next p =>
      simp only [Hlists.setPprev, Hlists.write, setPprevIf_lists, Function.update_of_ne hq,
        Function.update_apply, Slot.next.injEq, eq_comm]
  · cases slot with
    | first b =>
      simp only [Hlists.setPprev, Hlists.write, setPprevIf_pprev, Function.update_of_ne hq]
    | next p =>
      simp only [Hlists.setPprev, Hlists.write, setPprevIf_pprev, Function.update_of_ne hq]

/-- A new node in front of a bucket. -/
theorem Hlists.Row.addHead (h : m.Row b ps) (ha : a ∉ ps) (hnd : ps.Nodup) :
    (hlistAddHead a b m).Row b (a :: ps) := by
  have hne : ∀ q ∈ ps, q ≠ a := fun q hq he => ha (he ▸ hq)
  have hfirst : (hlistAddHead a b m).first b = some a := by
    rw [hlistAddHead_first, if_pos rfl]
  rw [Hlists.Row, hfirst]
  apply Threaded.push h _ _ _ _ hnd
  · rw [hlistAddHead_next, if_pos rfl]
  · rw [hlistAddHead_pprev, if_pos rfl]
  · intro q hq
    rw [hlistAddHead_next, if_neg (hne q hq)]
  · intro q hq
    rw [hlistAddHead_pprev, if_neg (hne q hq), Threaded.head h]
    rfl

theorem Hlists.Row.addHead_other (h : m.Row c qs) (hb : m.Row b ps) (hc : c ≠ b) (ha : a ∉ qs)
    (hd : ∀ q ∈ qs, q ∉ ps) : (hlistAddHead a b m).Row c qs := by
  have hfirst : (hlistAddHead a b m).first c = m.first c := by
    rw [hlistAddHead_first, if_neg hc]
  rw [Hlists.Row, hfirst]
  apply Threaded.congr h
  intro q hq
  have hne : q ≠ a := fun he => ha (he ▸ hq)
  have hhead : m.first b ≠ some q := fun he => by
    rw [Threaded.head hb] at he
    exact hd q hq (List.mem_of_head? he)
  rw [hlistAddHead_next, hlistAddHead_pprev, if_neg hne, if_neg hne, if_neg hhead]
  exact ⟨rfl, rfl⟩

/-- What a node in the middle of a bucket points back to. -/
theorem Hlists.Row.slot (h : m.Row b (xs ++ a :: ys)) :
    ∃ slot, m.pprev a = some slot ∧ m.next a = ys.head? ∧
      (∀ c, slot = .first c ↔ xs = [] ∧ c = b) ∧ ∀ q, slot = .next q ↔ xs.getLast? = some q := by
  obtain ⟨hpprev, hnext⟩ := Threaded.middle h
  rw [lastOf_eq] at hpprev
  cases hlast : xs.getLast? with
  | none =>
    have hxs : xs = [] := List.getLast?_eq_none_iff.1 hlast
    rw [hlast] at hpprev
    refine ⟨.first b, hpprev, hnext, fun c => ?_, fun q => ⟨nofun, nofun⟩⟩
    rw [Slot.first.injEq, and_iff_right hxs, eq_comm]
  | some x =>
    have hxs : xs ≠ [] := fun he => by
      rw [he] at hlast
      cases hlast
    rw [hlast] at hpprev
    refine ⟨.next x, hpprev, hnext, fun c => ⟨nofun, fun he => (hxs he.1).elim⟩, fun q => ?_⟩
    rw [Slot.next.injEq, Option.some.injEq]

/-- A node leaves its bucket. -/
theorem Hlists.Row.del (h : m.Row b (xs ++ a :: ys)) (hnd : (xs ++ a :: ys).Nodup) :
    ∃ m', hlistDel a m = some m' ∧ m'.Row b (xs ++ ys) ∧
      ∀ c qs, c ≠ b → (∀ q ∈ qs, q ∉ xs ++ a :: ys) → m.Row c qs → m'.Row c qs := by
  obtain ⟨slot, hpprev, hnext, hslot, hslot'⟩ := h.slot
  obtain ⟨m', hrun, hdel⟩ := hlistDel_deleted hpprev
  have hane : ∀ q ∈ xs ++ ys, q ≠ a := by
    intro q hq he
    have hnot : a ∉ xs ++ ys := (List.nodup_cons.1 (List.perm_middle.nodup_iff.1 hnd)).1
    exact hnot (he ▸ hq)
  refine ⟨m', hrun, ?_, fun c qs hc hd hrow => ?_⟩
  · have hfirst : m'.first b = if xs = [] then m.next a else m.first b := by
      rw [hdel.first]
      simp only [hslot, and_true]
    rw [Hlists.Row, hfirst]
    apply Threaded.remove h _ _ hnd
    · intro q hq
      rw [hdel.next q (hane q hq)]
      simp only [hslot']
    · intro q hq
      rw [hdel.pprev q (hane q hq), hnext, hpprev]
  · have hfirst : m'.first c = m.first c := by
      rw [hdel.first, if_neg fun he => hc ((hslot c).1 he).2]
    rw [Hlists.Row, hfirst]
    apply Threaded.congr hrow
    intro q hq
    have hq' := hd q hq
    have hne : q ≠ a := fun he => hq' (he ▸ List.mem_append_right _ List.mem_cons_self)
    have hnext' : slot ≠ .next q := fun he =>
      hq' (List.mem_append_left _ (List.mem_of_getLast? ((hslot' q).1 he)))
    have hhead : m.next a ≠ some q := fun he => by
      rw [hnext] at he
      exact hq' (List.mem_append_right _ (List.mem_cons_of_mem _ (List.mem_of_head? he)))
    rw [hdel.next q hne, hdel.pprev q hne, if_neg hnext', if_neg hhead]
    exact ⟨rfl, rfl⟩

theorem Hlists.Row.init (h : m.Row b ps) (ha : a ∉ ps) : (initHlistNode a m).Row b ps := by
  apply Threaded.congr h
  intro q hq
  have hne : q ≠ a := fun he => ha (he ▸ hq)
  exact ⟨Function.update_of_ne hne .., Function.update_of_ne hne ..⟩

end Lists

section Refinement
variable {K V Q : Type} {content : K → Q} {hash : Q → UInt32}

structure HashmapOps (K V : Type) where
  makePair : Option (K → V → Int × K × V)
  compareKey : K → K → Int
  calculateHash : K → Option UInt32

/-- `compare_key` compares the contents, `calculate_hash` depends on them and succeeds, and
`make_pair`, where there is one, copies a pair. -/
structure HashmapOps.Faithful (ops : HashmapOps K V) (content : K → Q) (hash : Q → UInt32) :
    Prop where
  compareKey : ops.compareKey a b = 0 ↔ content a = content b
  calculateHash : ∀ key, ops.calculateHash key = some (hash (content key))
  makePair : ∀ makePair, ops.makePair = some makePair → ∀ key value,
    ∃ key', makePair key value = (0, key', value) ∧ content key' = content key

/-- A finite map from the contents of the keys to the values. -/
abbrev Bound (Q V : Type) := Finmap fun _ : Q => V

/-- What the calls do to a finite map. -/
def hashmapSpec [DecidableEq Q] (content : K → Q) (m : Bound Q V) :
    HashmapCall K V → Bound Q V × HashmapAnswer V
  | .insert _ key value =>
    if content key ∈ m then (m, ⟨-1, none, m.keys.card⟩)
    else (m.insert (content key) value, ⟨0, none, (m.insert (content key) value).keys.card⟩)
  | .remove key =>
    if content key ∈ m then (m.erase (content key), ⟨0, none, (m.erase (content key)).keys.card⟩)
    else (m, ⟨-1, none, m.keys.card⟩)
  | .lookup key =>
    match m.lookup (content key) with
    | some value => (m, ⟨0, some value, m.keys.card⟩)
    | none => (m, ⟨-1, none, m.keys.card⟩)
  | .clear => (∅, ⟨0, none, 0⟩)

/-- The map is cleared only while it is empty, and the number of keys fits in an `int`. -/
def HashmapCall.ok (content : K → Q) (m : Bound Q V) : HashmapCall K V → Prop
  | .insert _ key _ => content key ∈ m ∨ m.keys.card + 1 < 2147483648
  | .remove _ => True
  | .lookup _ => True
  | .clear => m = ∅

/-- The rows of nodes that hold the bindings of a finite map. -/
structure Hashmap.Table (map : Hashmap K V) (ops : HashmapOps K V) (content : K → Q)
    (hash : Q → UInt32) (m : Bound Q V) (rows : Nat → List Ptr) : Prop where
  compareKey : map.compareKey = some ops.compareKey
  calculateHash : map.calculateHash = some ops.calculateHash
  makePair : map.makePair = ops.makePair
  capacity : 0 < map.capacity
  size : map.size = m.keys.card
  bound : m.keys.card < 2147483648
  row : ∀ b, b < map.capacity → map.lists.Row b (rows b)
  blocks : (slots map.capacity rows).Perm map.blocks
  bucket : ∀ b, b < map.capacity → ∀ p ∈ rows b,
    (hash (content (map.key p))).toNat % map.capacity = b
  binds : Binds m (fun p => content (map.key p)) map.value (slots map.capacity rows)

def Hashmap.Refines (map : Hashmap K V) (ops : HashmapOps K V) (content : K → Q)
    (hash : Q → UInt32) (m : Bound Q V) : Prop :=
  ∃ rows, map.Table ops content hash m rows

theorem Hashmap.sizeDown_eq {map : Hashmap K V} (h : map.size = n + 1) (hn : n < 2147483648) :
    map.sizeDown = n := by
  unfold Hashmap.sizeDown unsigned
  omega

section Table
variable {map : Hashmap K V} {ops : HashmapOps K V} {m : Bound Q V} {rows : Nat → List Ptr}

theorem Hashmap.Table.required (h : map.Table ops content hash m rows) :
    map.required = some (ops.compareKey, ops.calculateHash) := by
  rw [Hashmap.required, h.compareKey, h.calculateHash]
  rfl

theorem Hashmap.Table.nodup (h : map.Table ops content hash m rows) :
    (slots map.capacity rows).Nodup := h.binds.nodup

theorem Hashmap.Table.size_eq (h : map.Table ops content hash m rows) :
    hashmapSize map = m.keys.card := by
  rw [hashmapSize, h.size, toInt_of_lt h.bound]

/-- What the loop over the bucket of a key finds. -/
theorem Hashmap.Table.find (h : map.Table ops content hash m rows)
    (hops : ops.Faithful content hash) (key : K) :
    (∃ p b, b < map.capacity ∧ p ∈ rows b ∧ content (map.key p) = content key ∧
      map.lookup ops.compareKey ops.calculateHash key = some (some p)) ∨
    (content key ∉ m ∧ map.lookup ops.compareKey ops.calculateHash key = some none) := by
  let b := (hash (content key)).toNat % map.capacity
  have hb : b < map.capacity := Nat.mod_lt _ h.capacity
  have hlen : (rows b).length ≤ map.blocks.length + 1 := by
    obtain ⟨rest, hrest⟩ := slots_update rows hb
    have hrow := hrest (rows b)
    rw [Function.update_eq_self] at hrow
    rw [← h.blocks.length_eq, hrow.length_eq, List.length_append]
    omega
  have hrun : map.lookup ops.compareKey ops.calculateHash key =
      some ((rows b).find? fun node => ops.compareKey (map.key node) key = 0) := by
    rw [Hashmap.lookup, hops.calculateHash]
    exact findNode_eq _ (h.row b hb) hlen
  rw [hrun]
  cases hfind : (rows b).find? fun node => ops.compareKey (map.key node) key = 0 with
  | some p =>
    have hsame := List.find?_some hfind
    rw [decide_eq_true_iff, hops.compareKey] at hsame
    exact .inl ⟨p, b, hb, List.mem_of_find?_eq_some hfind, hsame, rfl⟩
  | none =>
    refine .inr ⟨h.binds.notMem fun p hp he => ?_, rfl⟩
    obtain ⟨c, hc, hpc⟩ := mem_slots.1 hp
    have hbc : c = b := by
      rw [← h.bucket c hc p hpc, he]
    have hno := List.find?_eq_none.1 hfind p (hbc ▸ hpc)
    rw [decide_eq_true_iff, hops.compareKey] at hno
    exact hno he

section Steps
variable [DecidableEq Q]

theorem Hashmap.Table.lookup_step (h : map.Table ops content hash m rows)
    (hops : ops.Faithful content hash) (key : K) :
    map.step (.lookup key) = some (map, (hashmapSpec content m (.lookup key)).2) := by
  have hsize := h.size_eq
  rw [Hashmap.step, hashmapLookup, h.required, hashmapSpec]
  rcases h.find hops key with ⟨p, b, hb, hp, hkey, hrun⟩ | ⟨hno, hrun⟩
  · have hmem : p ∈ slots map.capacity rows := mem_slots.2 ⟨b, hb, hp⟩
    have hlookup := h.binds.lookup (List.perm_cons_erase hmem)
    rw [hkey] at hlookup
    simp only [hrun, hlookup, hsize, Option.bind_eq_bind, Option.bind_some, Option.pure_def,
      Option.map_some]
  · simp only [hrun, Finmap.lookup_eq_none.2 hno, hsize, Option.bind_eq_bind, Option.bind_some,
      Option.pure_def, Option.map_some, Option.map_none]

/-- A node leaves the table. -/
theorem Hashmap.Table.del (h : map.Table ops content hash m rows) (hb : b < map.capacity)
    (hp : p ∈ rows b) :
    ∃ lists rows', hlistDel p map.lists = some lists ∧
      Hashmap.Table { map with lists, blocks := map.blocks.erase p, size := map.sizeDown } ops
        content hash (m.erase (content (map.key p))) rows' := by
  obtain ⟨xs, ys, hrow⟩ := List.append_of_mem hp
  have hnd : (xs ++ p :: ys).Nodup := hrow ▸ nodup_row h.nodup hb
  have hperm := slots_remove hb hrow
  obtain ⟨lists, hrun, hlists, hother⟩ := (hrow ▸ h.row b hb).del hnd
  have hbinds := h.binds.erase hperm
  have hcard : map.size = (m.erase (content (map.key p))).keys.card + 1 := by
    rw [h.size, h.binds.card, hbinds.card, hperm.length_eq, List.length_cons]
  have hbound : (m.erase (content (map.key p))).keys.card < 2147483648 := by
    have hlt := h.bound
    rw [← h.size, hcard] at hlt
    omega
  have hdown := Hashmap.sizeDown_eq hcard hbound
  refine ⟨lists, Function.update rows b (xs ++ ys), hrun, ?_⟩
  refine ⟨h.compareKey, h.calculateHash, h.makePair, h.capacity, hdown, hbound, fun c hc => ?_,
    ?_, fun c hc q hq => ?_, hbinds⟩
  · by_cases hcb : c = b
    · rw [hcb, Function.update_self]
      exact hlists
    · rw [Function.update_of_ne hcb]
      refine hother c (rows c) hcb (fun q hq => ?_) (h.row c hc)
      rw [← hrow]
      exact rows_disjoint h.nodup hc hb hcb hq
  · have herase := (hperm.symm.trans h.blocks).erase p
    rw [List.erase_cons_head] at herase
    exact herase
  · by_cases hcb : c = b
    · rw [hcb, Function.update_self] at hq
      rw [hcb]
      apply h.bucket b hb
      rw [hrow]
      rcases List.mem_append.1 hq with hq | hq
      · exact List.mem_append_left _ hq
      · exact List.mem_append_right _ (List.mem_cons_of_mem _ hq)
    · rw [Function.update_of_ne hcb] at hq
      exact h.bucket c hc q hq

theorem Hashmap.Table.remove_step (h : map.Table ops content hash m rows)
    (hops : ops.Faithful content hash) (key : K) :
    ∃ map', map.step (.remove key) = some (map', (hashmapSpec content m (.remove key)).2) ∧
      map'.Refines ops content hash (hashmapSpec content m (.remove key)).1 := by
  rw [Hashmap.step, hashmapRemove, h.required, hashmapSpec]
  rcases h.find hops key with ⟨p, b, hb, hp, hkey, hrun⟩ | ⟨hno, hrun⟩
  · have hmem : p ∈ slots map.capacity rows := mem_slots.2 ⟨b, hb, hp⟩
    have hin : content key ∈ m := hkey ▸ h.binds.mem (List.perm_cons_erase hmem)
    obtain ⟨lists, rows', hdel, htable⟩ := h.del hb hp
    rw [hkey] at htable
    have hsize := htable.size_eq
    refine ⟨_, ?_, by rw [if_pos hin]; exact ⟨rows', htable⟩⟩
    simp only [hrun, hdel, if_pos hin, hsize, Option.bind_eq_bind, Option.bind_some,
      Option.pure_def, Option.map_some]
  · refine ⟨map, ?_, by rw [if_neg hno]; exact ⟨rows, h⟩⟩
    simp only [hrun, if_neg hno, h.size_eq, Option.bind_eq_bind, Option.bind_some,
      Option.pure_def, Option.map_some]

theorem Hashmap.Table.add (h : map.Table ops content hash m rows) (hnode : node ∉ map.blocks)
    (key : K) (value : V) (hno : content key ∉ m) (hlt : m.keys.card + 1 < 2147483648) :
    let b := (hash (content key)).toNat % map.capacity
    (map.add node b key value).Table ops content hash (m.insert (content key) value)
      (Function.update rows b (node :: rows b)) := by
  intro b
  have hb : b < map.capacity := Nat.mod_lt _ h.capacity
  have hfresh : node ∉ slots map.capacity rows := fun hn => hnode (h.blocks.mem_iff.1 hn)
  have hrows : ∀ c, c < map.capacity → node ∉ rows c := fun c hc hn =>
    hfresh (mem_slots.2 ⟨c, hc, hn⟩)
  have hkeep : ∀ c, c < map.capacity → (initHlistNode node map.lists).Row c (rows c) :=
    fun c hc => (h.row c hc).init (hrows c hc)
  have hsame : ∀ p ∈ slots map.capacity rows, p ≠ node := fun p hp he => hfresh (he ▸ hp)
  have hperm := slots_push rows hb node
  have hold : Binds m (fun p => content ((map.add node b key value).key p))
      (map.add node b key value).value (slots map.capacity rows) := by
    apply h.binds.congr
    intro p hp
    exact ⟨congrArg content (Function.update_of_ne (hsame p hp) ..),
      Function.update_of_ne (hsame p hp) ..⟩
  have hkey : content ((map.add node b key value).key node) = content key :=
    congrArg content (Function.update_self ..)
  have hvalue : (map.add node b key value).value node = value := Function.update_self ..
  have hbinds := (hold.insert (hkey ▸ hno)).perm hperm.symm
  simp only [hkey, hvalue] at hbinds
  have hcard : (m.insert (content key) value).keys.card = m.keys.card + 1 := by
    rw [hbinds.card, h.binds.card, hperm.length_eq, List.length_cons]
  have hsize : (map.add node b key value).size = (m.insert (content key) value).keys.card := by
    have hunsigned : unsigned (m.keys.card + 1) = m.keys.card + 1 := unsigned_of_lt (by omega)
    rw [hcard, ← hunsigned, ← h.size]
    rfl
  refine ⟨h.compareKey, h.calculateHash, h.makePair, h.capacity, hsize, hcard ▸ hlt,
    fun c hc => ?_, hperm.trans (h.blocks.cons node), fun c hc p hp => ?_, hbinds⟩
  · by_cases hcb : c = b
    · rw [hcb, Function.update_self]
      exact (hkeep b hb).addHead (hrows b hb) (nodup_row h.nodup hb)
    · rw [Function.update_of_ne hcb]
      exact (hkeep c hc).addHead_other (hkeep b hb) hcb (hrows c hc) fun q hq =>
        rows_disjoint h.nodup hc hb hcb hq
  · by_cases hcb : c = b
    · rw [hcb, Function.update_self] at hp
      rcases List.mem_cons.1 hp with rfl | hp
      · rw [hkey, hcb]
        rfl
      · have hpne := hsame p (mem_slots.2 ⟨b, hb, hp⟩)
        rw [hcb, ← h.bucket b hb p hp]
        exact congrArg (fun k => (hash (content k)).toNat % map.capacity)
          (Function.update_of_ne hpne ..)
    · rw [Function.update_of_ne hcb] at hp
      have hpne := hsame p (mem_slots.2 ⟨c, hc, hp⟩)
      rw [← h.bucket c hc p hp]
      exact congrArg (fun k => (hash (content k)).toNat % map.capacity)
        (Function.update_of_ne hpne ..)

omit [DecidableEq Q] in
theorem Hashmap.Table.insert_present (h : map.Table ops content hash m rows)
    (hops : ops.Faithful content hash) (a : Allocator) (key : K) (value : V)
    (hin : content key ∈ m) :
    map.step (.insert a key value) = some (map, ⟨-1, none, m.keys.card⟩) := by
  have hcalculate := hops.calculateHash key
  rw [Hashmap.step, hashmapInsert, h.required]
  rcases h.find hops key with ⟨p, b, hb, hp, hkey, hrun⟩ | ⟨hno, hrun⟩
  · rw [Hashmap.lookup, hcalculate] at hrun
    simp only [hcalculate, hrun, h.size_eq, Option.bind_eq_bind, Option.bind_some, Option.pure_def,
      Option.map_some]
  · exact (hno hin).elim

theorem Hashmap.Table.insert_absent (h : map.Table ops content hash m rows)
    (hops : ops.Faithful content hash) (a : Allocator) (key : K) (value : V)
    (hno : content key ∉ m) :
    ∃ key' map', content key' = content key ∧
      map' = map.add (a.pick map.blocks) ((hash (content key')).toNat % map.capacity) key' value ∧
      map.step (.insert a key value) = some (map', ⟨0, none, hashmapSize map'⟩) := by
  have hcalculate := hops.calculateHash key
  obtain ⟨key', hmake, hkey⟩ : ∃ key', map.makeNode key value = (0, key', value) ∧
      content key' = content key := by
    rw [Hashmap.makeNode, h.makePair]
    cases hpair : ops.makePair with
    | none => exact ⟨key, rfl, rfl⟩
    | some makePair => exact hops.makePair makePair hpair key value
  refine ⟨key', _, hkey, rfl, ?_⟩
  rw [Hashmap.step, hashmapInsert, h.required]
  rcases h.find hops key with ⟨p, b, hb, hp, hkey', hrun⟩ | ⟨_, hrun⟩
  · have hmem : p ∈ slots map.capacity rows := mem_slots.2 ⟨b, hb, hp⟩
    exact (hno (hkey' ▸ h.binds.mem (List.perm_cons_erase hmem))).elim
  · rw [Hashmap.lookup, hcalculate] at hrun
    simp only [hcalculate, hrun, hmake, hkey, Option.bind_eq_bind, Option.bind_some,
      Option.pure_def, Option.map_some, ne_eq, not_true_eq_false, if_false]

theorem Hashmap.Table.insert_step (h : map.Table ops content hash m rows)
    (hops : ops.Faithful content hash) (a : Allocator) (key : K) (value : V)
    (hok : content key ∈ m ∨ m.keys.card + 1 < 2147483648) :
    ∃ map', map.step (.insert a key value) =
      some (map', (hashmapSpec content m (.insert a key value)).2) ∧
      map'.Refines ops content hash (hashmapSpec content m (.insert a key value)).1 := by
  rw [hashmapSpec]
  by_cases hin : content key ∈ m
  · rw [if_pos hin]
    exact ⟨map, h.insert_present hops a key value hin, rows, h⟩
  · rw [if_neg hin]
    obtain ⟨key', map', hkey, hadd, hrun⟩ := h.insert_absent hops a key value hin
    have htable := h.add (a.fresh _) key' value (hkey ▸ hin) (hok.resolve_left hin)
    dsimp only at htable
    rw [← hadd, hkey] at htable
    exact ⟨map', by rw [hrun, htable.size_eq], _, htable⟩

theorem toInt_intMax : toInt (unsigned 2147483648) = -2147483648 := by
  unfold toInt unsigned
  decide

/-- One key more than an `int` can count. -/
theorem Hashmap.Table.insert_wraps (h : map.Table ops content hash m rows)
    (hops : ops.Faithful content hash) (a : Allocator) (key : K) (value : V)
    (hno : ¬ (content key ∈ m ∨ m.keys.card + 1 < 2147483648)) (map' : Hashmap K V) :
    map.step (.insert a key value) ≠
      some (map', (hashmapSpec content m (.insert a key value)).2) := by
  obtain ⟨hin, hlt⟩ := not_or.1 hno
  obtain ⟨key', map₁, _, hadd, hrun⟩ := h.insert_absent hops a key value hin
  have hcard : m.keys.card + 1 = 2147483648 := by
    have := h.bound
    omega
  have hsize : hashmapSize map₁ = -2147483648 := by
    have hmap : map₁.size = unsigned (map.size + 1) := hadd ▸ rfl
    rw [hashmapSize, hmap, h.size, hcard, toInt_intMax]
  rw [hrun, hashmapSpec, if_neg hin]
  intro he
  have hret := congrArg (fun r => r.2.size) (Option.some.inj he)
  have hnonneg : 0 ≤ hashmapSize map₁ := by
    rw [show hashmapSize map₁ = _ from hret]
    exact Int.natCast_nonneg _
  rw [hsize] at hnonneg
  exact absurd hnonneg (by decide)

end Steps

/-- A bucket is emptied node by node. -/
theorem clearBucket_row {lists : Hlists} (h : lists.Row b ps) (hnd : ps.Nodup)
    (hn : ps.length ≤ n) (blocks : List Ptr) :
    ∃ lists', clearBucket n (lists.first b) (lists, blocks) = some (lists', blocks.diff ps) ∧
      lists'.Row b [] ∧
      ∀ c qs, c ≠ b → (∀ q ∈ qs, q ∉ ps) → lists.Row c qs → lists'.Row c qs := by
  induction ps generalizing lists n blocks with
  | nil =>
    have hfirst : lists.first b = none := Threaded.head h
    refine ⟨lists, ?_, h, fun _ _ _ _ hrow => hrow⟩
    rw [hfirst]
    cases n <;> rfl
  | cons p ps ih =>
    cases n with
    | zero => exact (Nat.not_succ_le_zero _ hn).elim
    | succ n =>
      have hfirst : lists.first b = some p := Threaded.head h
      have hnext : lists.next p = ps.head? := Threaded.head h.2.2
      have hrow : lists.Row b ([] ++ p :: ps) := h
      obtain ⟨lists₁, hdel, hrow₁, hother₁⟩ := hrow.del hnd
      have hnext₁ : lists₁.first b = ps.head? := Threaded.head hrow₁
      obtain ⟨lists', hrun, hrow', hother⟩ := ih hrow₁ (List.nodup_cons.1 hnd).2
        (Nat.le_of_succ_le_succ hn) (blocks.erase p)
      refine ⟨lists', ?_, hrow', fun c qs hc hd hrow => ?_⟩
      · rw [hnext₁] at hrun
        rw [hfirst, clearBucket, hdel, hnext, List.diff_cons]
        exact hrun
      · refine hother c qs hc (fun q hq hqp => hd q hq (List.mem_cons_of_mem p hqp)) ?_
        exact hother₁ c qs hc hd hrow

theorem clearBuckets_rows {lists : Hlists} {n : Nat} (h : ∀ b, b < n → lists.Row b (rows b))
    (hnd : (slots n rows).Nodup) (hrounds : ∀ b, b < n → (rows b).length ≤ rounds) (hi : i ≤ n)
    (blocks : List Ptr) :
    ∃ lists', clearBuckets rounds i (lists, blocks) = some (lists', blocks.diff (slots i rows)) ∧
      (∀ b, b < i → lists'.Row b []) ∧ ∀ b, i ≤ b → b < n → lists'.Row b (rows b) := by
  induction i with
  | zero => exact ⟨lists, rfl, fun b hb => (Nat.not_lt_zero b hb).elim, fun b _ hb => h b hb⟩
  | succ i ih =>
    have hin : i < n := hi
    obtain ⟨lists₁, hrun₁, hdone, hrest⟩ := ih (Nat.le_of_lt hin)
    obtain ⟨lists', hrun, hrow, hother⟩ := clearBucket_row (hrest i (Nat.le_refl i) hin)
      (nodup_row hnd hin) (hrounds i hin) (blocks.diff (slots i rows))
    refine ⟨lists', ?_, fun b hb => ?_, fun b hib hb => ?_⟩
    · rw [clearBuckets, hrun₁, slots_succ, List.diff_append]
      exact hrun
    · rcases Nat.lt_succ_iff_lt_or_eq.1 hb with hlt | rfl
      · exact hother b [] (Nat.ne_of_lt hlt) nofun (hdone b hlt)
      · exact hrow
    · have hne : b ≠ i := Nat.ne_of_gt hib
      exact hother b (rows b) hne (fun q hq => rows_disjoint hnd hb hin hne hq)
        (hrest b (Nat.le_of_lt hib) hb)

theorem Hashmap.Table.row_length (h : map.Table ops content hash m rows) (hb : b < map.capacity) :
    (rows b).length ≤ map.blocks.length := by
  obtain ⟨rest, hrest⟩ := slots_update rows hb
  have hrow := hrest (rows b)
  rw [Function.update_eq_self] at hrow
  rw [← h.blocks.length_eq, hrow.length_eq, List.length_append]
  exact Nat.le_add_right _ _

/-- Every node goes, the counter stays. -/
theorem Hashmap.Table.clear_step (h : map.Table ops content hash m rows) :
    ∃ map', map.step .clear = some (map', ⟨0, none, m.keys.card⟩) ∧
      (m = ∅ → map'.Refines ops content hash ∅) := by
  obtain ⟨lists, hrun, hrows, _⟩ := clearBuckets_rows h.row h.nodup
    (fun b hb => Nat.le_succ_of_le (h.row_length hb)) (Nat.le_refl _) map.blocks
  rw [diff_of_perm h.blocks.symm] at hrun
  have hsize : hashmapSize { map with lists, blocks := [] } = m.keys.card := h.size_eq
  refine ⟨{ map with lists, blocks := [] }, ?_, fun hm => ⟨fun _ => [], ?_⟩⟩
  · rw [Hashmap.step, hashmapClear, hrun]
    simp only [Option.bind_eq_bind, Option.bind_some, Option.pure_def, Option.map_some, hsize]
  · have hslots : slots map.capacity (fun _ => ([] : List Ptr)) = [] := slots_empty _
    subst hm
    refine ⟨h.compareKey, h.calculateHash, h.makePair, h.capacity, h.size, h.bound, hrows, ?_,
      nofun, ?_⟩
    · rw [hslots]
    · rw [hslots]
      exact binds_empty _ _

end Table

section Runs
variable [DecidableEq Q] {map : Hashmap K V} {ops : HashmapOps K V} {m : Bound Q V}

theorem hashmapStep_good (hops : ops.Faithful content hash) (h : map.Refines ops content hash m)
    (call : HashmapCall K V) (hok : call.ok content m) :
    ∃ map', map.step call = some (map', (hashmapSpec content m call).2) ∧
      map'.Refines ops content hash (hashmapSpec content m call).1 := by
  obtain ⟨rows, htable⟩ := h
  cases call with
  | insert a key value => exact htable.insert_step hops a key value hok
  | remove key => exact htable.remove_step hops key
  | lookup key =>
    have hstate : (hashmapSpec content m (.lookup key)).1 = m := by
      rw [hashmapSpec]
      split <;> rfl
    exact ⟨map, htable.lookup_step hops key, by rw [hstate]; exact ⟨rows, htable⟩⟩
  | clear =>
    obtain ⟨map', hrun, hempty⟩ := htable.clear_step
    have hm : m = ∅ := hok
    subst hm
    exact ⟨map', hrun, hempty rfl⟩

theorem hashmapStep_bad (hops : ops.Faithful content hash) (h : map.Refines ops content hash m)
    (call : HashmapCall K V) (hno : ¬ call.ok content m) (map' : Hashmap K V) :
    map.step call ≠ some (map', (hashmapSpec content m call).2) := by
  obtain ⟨rows, htable⟩ := h
  cases call with
  | insert a key value => exact htable.insert_wraps hops a key value hno map'
  | remove key => exact (hno trivial).elim
  | lookup key => exact (hno trivial).elim
  | clear =>
    obtain ⟨map₁, hrun, _⟩ := htable.clear_step
    rw [hrun]
    intro he
    have hcard : (m.keys.card : Int) = 0 := congrArg (fun r => r.2.size) (Option.some.inj he)
    exact hno (eq_empty_of_card (Int.natCast_eq_zero.1 hcard))

omit [DecidableEq Q] in
theorem hashmapInit_refines
    (hinit : hashmapInit capacity next pprev key value = some map) :
    Hashmap.Refines { map with
      makePair := ops.makePair
      compareKey := some ops.compareKey
      calculateHash := some ops.calculateHash } ops content hash ∅ := by
  rw [hashmapInit] at hinit
  split at hinit
  case isTrue => cases hinit
  case isFalse hcapacity =>
    cases hinit
    have hslots : slots capacity (fun _ => ([] : List Ptr)) = [] := slots_empty _
    refine ⟨fun _ => [], rfl, rfl, rfl, Nat.pos_of_ne_zero hcapacity, rfl, ?_, fun b _ => rfl, ?_,
      nofun, ?_⟩
    · exact Nat.zero_lt_succ _
    · exact .of_eq hslots
    · exact (binds_empty _ _).perm (.of_eq hslots.symm)

/-- The calls on a new hash map return what they would for a finite map exactly when it is cleared
only while it is empty and the number of keys fits in an `int`. -/
theorem hashmap_refines_iff (hops : ops.Faithful content hash)
    (hinit : hashmapInit capacity next pprev key value = some map)
    (calls : List (HashmapCall K V)) :
    (∃ map', tryRun Hashmap.step { map with
        makePair := ops.makePair
        compareKey := some ops.compareKey
        calculateHash := some ops.calculateHash } calls =
      some (map', (run (hashmapSpec content) ∅ calls).2)) ↔
      Meets (hashmapSpec content) (fun m call => call.ok content m) ∅ calls :=
  tryRun_iff_meets (R := fun map m => Hashmap.Refines map ops content hash m)
    (fun _ _ call h hok => hashmapStep_good hops h call hok)
    (fun _ _ call h hno => hashmapStep_bad hops h call hno)
    (hashmapInit_refines hinit) calls

end Runs

end Refinement

section Witness

/-- Numbers as keys, in the bucket of their last bits. -/
def natHashmapOps : HashmapOps Nat Nat :=
  ⟨none, fun a b => (a : Int) - b, fun key => some (UInt32.ofNat key)⟩

theorem natHashmapOps_faithful : natHashmapOps.Faithful id UInt32.ofNat where
  compareKey := by
    intro a b
    exact Int.sub_eq_zero.trans Int.natCast_inj
  calculateHash _ := rfl
  makePair := nofun

def natHashmap : Hashmap Nat Nat :=
  ⟨4, 0, ⟨fun _ => none, fun _ => none, fun _ => none⟩, fun _ => 0, fun _ => 0, [], none, none,
    none⟩

theorem hashmap_refines_iff_insert :
    (∃ map', tryRun Hashmap.step { natHashmap with
        makePair := natHashmapOps.makePair
        compareKey := some natHashmapOps.compareKey
        calculateHash := some natHashmapOps.calculateHash } [.insert .next 1 5, .lookup 1] =
      some (map', (run (hashmapSpec id) ∅ [.insert .next 1 5, .lookup 1]).2)) ↔
      Meets (hashmapSpec (V := Nat) id) (fun m call => call.ok id m) ∅
        [.insert .next 1 5, .lookup 1] :=
  hashmap_refines_iff natHashmapOps_faithful
    (rfl : hashmapInit 4 (fun _ => none) (fun _ => none) (fun _ => 0) (fun _ => 0) =
      some natHashmap) _

/-- The size of a map with one key stays 1 when the map is cleared. -/
theorem not_hashmap_refines :
    ¬ ∃ map', tryRun Hashmap.step { natHashmap with
        makePair := natHashmapOps.makePair
        compareKey := some natHashmapOps.compareKey
        calculateHash := some natHashmapOps.calculateHash } [.insert .next 1 5, .clear] =
      some (map', (run (hashmapSpec id) ∅ [.insert .next 1 5, .clear]).2) := by
  rintro ⟨map', h⟩
  have hcode : (tryRun Hashmap.step { natHashmap with
      makePair := natHashmapOps.makePair
      compareKey := some natHashmapOps.compareKey
      calculateHash := some natHashmapOps.calculateHash } [.insert .next 1 5, .clear]).map
      (fun r => r.2.map HashmapAnswer.size) = some [1, 1] := by decide +kernel
  have hspec : (run (hashmapSpec id) ∅ [.insert .next 1 5, .clear]).2.map HashmapAnswer.size =
      [1, 0] := by decide +kernel
  rw [h, Option.map_some, hspec] at hcode
  exact absurd hcode (by decide)

end Witness

end BigBox.Cstl
