import BigBox.Cstl.TreeRefines
import BigBox.Lib.Block
import BigBox.Lib.CString
import BigBox.Lib.FiniteMap
import BigBox.Lib.TryRun
import BigBox.Rbtree.Ordered

namespace BigBox.FunStruct
open Cstl Rbtree
set_option autoImplicit true

/-- `map_t`, with the memory behind its two pointers. -/
structure MapT where
  key : Text
  val : List UInt8

/-- The tree of `root_t`. Its `rb_first`, `rb_next` and `rb_insert_color` are those of the
red-black tree of `fun_cstl`, under other names. -/
abbrev Root := Cstl.Tree MapT

def get (root : Root) (str : Text) : Option (Option Ptr) :=
  root.lookup fun data => strcmp str data.key

/-- The loop of `strcpy`. Without a zero byte in the source, or without the room for it, it leaves
the memory of one of them. -/
def strcpy (dst src : List UInt8) : Option (List UInt8) :=
  (stringAt src 0).bind fun s => Block.write dst 0 (s ++ [0])

/-- The bytes of the value are all that `val` points to. A put over a value frees `data` alone. -/
def put (root : Root) (a : Allocator) (key : Text) (val : List UInt8) :
    Option (Root × Int) :=
  if val.length = 0 then some (root, 0)
  else do
    match ← root.findPlace fun thisNode => strcmp key thisNode.key with
    | .node thisNode =>
      let val ← strcpy (root.entry thisNode).val val
      return (root.set thisNode { root.entry thisNode with val }, 0)
    | .link link =>
      let root ← root.link a link ⟨key, val⟩
      return (root, 1)

def mapFirst (root : Root) : Option (Option Ptr) := rbtreeFirst root.rounds root.mem

def mapNext (root : Root) (node : Ptr) : Option (Option Ptr) :=
  rbtreeNext root.rounds node root.mem

/-- The nodes met from `map_first` on through `map_next`. -/
def enumerate (root : Root) : Option (List Ptr) := do
  let first ← mapFirst root
  visit root.rounds root.rounds first root.mem

/-- A call of `put`. -/
structure Put where
  place : Allocator
  key : Text
  val : List UInt8

def putStep (root : Root) (p : Put) : Option (Root × Int) := put root p.place p.key p.val

/-- The values put last. A put of no bytes puts nothing. -/
abbrev Values := Finmap fun _ : Text => List UInt8

def putSpec (m : Values) (p : Put) : Values × Int :=
  if p.val = [] then (m, 0)
  else (m.insert p.key p.val, if p.key ∈ m then 0 else 1)

/-- Every key gets the bytes put last for it, and the enumeration goes over the keys in order. -/
structure Serves (root : Root) (m : Values) : Prop where
  found : ∀ k v, m.lookup k = some v → ∃ p, get root k = some (some p) ∧
    (root.entry p).key = k ∧ v <+: (root.entry p).val
  absent : ∀ k, k ∉ m → get root k = some none
  enumerated : ∃ nodes, enumerate root = some nodes ∧
    (nodes.map fun p => (root.entry p).key).Pairwise (fun a b => strcmp a b < 0) ∧
    ∀ k, k ∈ (nodes.map fun p => (root.entry p).key) ↔ k ∈ m

/-- A value for a key that is there has a zero byte, fits up to it in the memory of the node, and
ends in what is behind it there. -/
def Overwrites (root : Root) (p : Put) : Prop :=
  p.val = [] ∨ ∀ node, get root p.key = some (some node) → ∃ s rest, p.val = s ++ 0 :: rest ∧
    0 ∉ s ∧ s.length + 1 ≤ (root.entry node).val.length ∧
    rest <+: (root.entry node).val.drop (s.length + 1)

/-- The bytes of a key as numbers. -/
def order (k : Text) : List Nat := k.1.map UInt8.toNat

theorem order_injective : Function.Injective order := by
  intro a b h
  apply Subtype.ext
  exact List.map_injective_iff.2 (fun _ _ => UInt8.toNat_inj.1) h

theorem orders_key (k : Text) :
    Orders (fun data : MapT => strcmp k data.key) (fun data => order data.key) (order k) where
  neg {data} := strcmpBytes_lt k.2 data.key.2
  pos {data} := by
    have hlt := strcmpBytes_lt data.key.2 k.2
    have hsymm := strcmpBytes_symm k.1 data.key.1
    rw [strcmp]
    exact Iff.trans (by omega) hlt

/-- The nodes of the tree hold the values put last, each at the start of its memory. -/
def Keeps (root : Root) (m : Values) : Prop :=
  ∃ l, root.Refines (fun data => order data.key) l ∧
    (∀ k v, m.lookup k = some v → ∃ data ∈ l, data.key = k ∧ v <+: data.val) ∧
    ∀ data ∈ l, data.key ∈ m

theorem eq_of_key {l : List MapT} (h : l.Pairwise fun e e' => order e.key ≠ order e'.key)
    (ha : a ∈ l) (hb : b ∈ l) (hkey : a.key = b.key) : a = b := by
  have hnd : (l.map fun e => order e.key).Nodup := List.pairwise_map.2 h
  exact List.inj_on_of_nodup_map hnd ha hb (congrArg order hkey)

/-- What `get` finds in a tree. -/
theorem get_cases {root : Root} (h : root.Refines (fun data => order data.key) l) (k : Text) :
    (∃ p l', get root k = some (some p) ∧
      root.Hit (fun data => order data.key) (order k) p l l' ∧ (root.entry p).key = k) ∨
    (get root k = some none ∧ ∀ data ∈ l, data.key ≠ k) := by
  rcases h.lookup (orders_key k) with ⟨p, l', hrun, hhit⟩ | ⟨hrun, habsent⟩
  · exact .inl ⟨p, l', hrun, hhit, order_injective hhit.content_eq⟩
  · exact .inr ⟨hrun, fun data hdata hkey => habsent data hdata (congrArg order hkey)⟩

theorem Keeps.serves {root : Root} (h : Keeps root m) : Serves root m := by
  obtain ⟨l, htree, hfound, hkeys⟩ := h
  refine ⟨fun k v hv => ?_, fun k hk => ?_, ?_⟩
  · obtain ⟨data, hdata, rfl, hval⟩ := hfound k v hv
    rcases get_cases htree data.key with ⟨p, l', hget, hhit, hkey⟩ | ⟨_, habsent⟩
    · have hmem : root.entry p ∈ l := hhit.perm.mem_iff.2 List.mem_cons_self
      have hsame : root.entry p = data := eq_of_key htree.distinct hmem hdata hkey
      exact ⟨p, hget, hkey, hsame ▸ hval⟩
    · exact absurd rfl (habsent data hdata)
  · rcases get_cases htree k with ⟨p, l', _, hhit, rfl⟩ | ⟨hget, _⟩
    · exact absurd (hkeys _ (hhit.perm.mem_iff.2 List.mem_cons_self)) hk
    · exact hget
  · obtain ⟨nodes, hholds, hsorted, hblocks, hentries⟩ := htree
    have hlen : nodes.length < root.rounds := by
      rw [hblocks.length_eq]
      exact Nat.lt_succ_self _
    refine ⟨nodes, traverse_holds hlen hholds, ?_, fun k => ?_⟩
    · rw [List.pairwise_map]
      exact hsorted.imp fun hlt => (orders_key _).neg.2 hlt
    · rw [List.mem_map]
      constructor
      · rintro ⟨p, hp, rfl⟩
        exact hkeys _ (hentries.mem_iff.1 (List.mem_map_of_mem hp))
      · intro hk
        obtain ⟨v, hv⟩ := Finmap.mem_iff.1 hk
        obtain ⟨data, hdata, hkey, _⟩ := hfound k v hv
        obtain ⟨p, hp, rfl⟩ := List.mem_map.1 (hentries.mem_iff.2 hdata)
        exact ⟨p, hp, hkey⟩

/-- A value in the place of another one, or of none. -/
theorem Keeps.insert {root' : Root} {m : Values} {l l' : List MapT} {data : MapT}
    (hfound : ∀ k v, m.lookup k = some v → ∃ data ∈ l, data.key = k ∧ v <+: data.val)
    (hkeys : ∀ data ∈ l, data.key ∈ m)
    (hrest : ∀ d ∈ l, d.key ≠ data.key → d ∈ l') (hsub : ∀ d ∈ l', d ∈ l)
    (htree : root'.Refines (fun data => order data.key) (data :: l')) (hval : v <+: data.val) :
    Keeps root' (m.insert data.key v) := by
  refine ⟨data :: l', htree, fun k v' hv' => ?_, fun d hd => ?_⟩
  · by_cases hk : k = data.key
    · rw [hk, Finmap.lookup_insert] at hv'
      cases hv'
      exact ⟨data, List.mem_cons_self, hk.symm, hval⟩
    · rw [Finmap.lookup_insert_of_ne _ hk] at hv'
      obtain ⟨d, hd, hkey, hpre⟩ := hfound k v' hv'
      exact ⟨d, List.mem_cons_of_mem _ (hrest d hd fun he => hk (hkey.symm.trans he)), hkey, hpre⟩
  · rw [Finmap.mem_insert]
    rcases List.mem_cons.1 hd with rfl | hd
    · exact .inl rfl
    · exact .inr (hkeys d (hsub d hd))

/-- What `strcpy` does, where it stays inside both blocks. -/
theorem strcpy_iff : strcpy dst src = some block ↔
    ∃ s rest, src = s ++ 0 :: rest ∧ 0 ∉ s ∧ s.length + 1 ≤ dst.length ∧
      block = s ++ 0 :: dst.drop (s.length + 1) := by
  have hwrite : ∀ s : List UInt8, Block.write dst 0 (s ++ [0]) = some block ↔
      s.length + 1 ≤ dst.length ∧ block = s ++ 0 :: dst.drop (s.length + 1) := by
    intro s
    rw [Block.write, Nat.zero_add, List.length_append, List.length_singleton, copyAt,
      List.take_zero, List.nil_append, Nat.zero_add, List.length_append, List.length_singleton,
      List.append_assoc, List.singleton_append, Option.ite_none_right_eq_some, Option.some_inj,
      eq_comm (a := block)]
  rw [strcpy, Option.bind_eq_some_iff]
  constructor
  · rintro ⟨s, hs, hblock⟩
    obtain ⟨w, rest, hsrc, hw, _⟩ := stringAt_split hs
    rw [List.length_eq_zero_iff.1 hw, List.nil_append] at hsrc
    exact ⟨s, rest, hsrc, not_mem_of_stringAt hs, (hwrite s).1 hblock⟩
  · rintro ⟨s, rest, rfl, hs, hblock⟩
    exact ⟨s, stringAt_middle [] rest hs, (hwrite s).2 hblock⟩

theorem get_set (root : Root) (node : Ptr) (val : List UInt8) (str : Text) :
    get (root.set node { root.entry node with val }) str = get root str := by
  have hkeys : (fun p => strcmp str ((root.set node { root.entry node with val }).entry p).key) =
      fun p => strcmp str (root.entry p).key := by
    funext p
    by_cases hp : p = node
    · rw [hp, Tree.entry_set]
    · rw [Tree.entry_set_ne root _ hp]
  exact congrArg (fun f => Cstl.lookup f root.rounds root.mem.rbNode root.mem) hkeys

theorem put_step {root : Root} (h : Keeps root m) (p : Put) (hok : Overwrites root p) :
    ∃ root', putStep root p = some (root', (putSpec m p).2) ∧ Keeps root' (putSpec m p).1 := by
  rw [putStep, put, putSpec]
  by_cases hempty : p.val = []
  · rw [if_pos hempty, if_pos (List.length_eq_zero_iff.2 hempty)]
    exact ⟨root, rfl, h⟩
  · rw [if_neg hempty, if_neg fun he => hempty (List.length_eq_zero_iff.1 he)]
    obtain ⟨l, htree, hfound, hkeys⟩ := h
    rcases htree.findPlace (orders_key p.key) with ⟨a, l', hrun, hhit⟩ | ⟨link, hrun, hmiss⟩
    · have hkey : (root.entry a).key = p.key := order_injective hhit.content_eq
      have hget : get root p.key = some (some a) := by
        rw [get, Tree.lookup_eq, hrun]
        rfl
      have hmem : p.key ∈ m := hkey ▸ hkeys _ (hhit.perm.mem_iff.2 List.mem_cons_self)
      obtain ⟨s, rest, hval, hs, hfits, hrest⟩ := (or_iff_right hempty).1 hok a hget
      have hcopy : strcpy (root.entry a).val p.val =
          some (s ++ 0 :: (root.entry a).val.drop (s.length + 1)) :=
        strcpy_iff.2 ⟨s, rest, hval, hs, hfits, rfl⟩
      have hset := hhit.set
        ⟨(root.entry a).key, s ++ 0 :: (root.entry a).val.drop (s.length + 1)⟩ hhit.content_eq
      refine ⟨root.set a ⟨(root.entry a).key, s ++ 0 :: (root.entry a).val.drop (s.length + 1)⟩,
        ?_, ?_⟩
      · rw [hrun, Option.bind_eq_bind, Option.bind_some]
        dsimp only
        rw [hcopy, if_pos hmem]
        rfl
      · rw [← hkey]
        apply Keeps.insert hfound hkeys _ _ hset
        · rw [hval]
          exact List.prefix_append_right_inj s |>.2 (List.cons_prefix_cons.2 ⟨rfl, hrest⟩)
        · intro d hd hne
          rcases List.mem_cons.1 (hhit.perm.mem_iff.1 hd) with rfl | hd
          · exact absurd rfl hne
          · exact hd
        · exact fun d hd => hhit.perm.mem_iff.2 (List.mem_cons_of_mem _ hd)
    · have hmem : p.key ∉ m := by
        intro hk
        obtain ⟨v, hv⟩ := Finmap.mem_iff.1 hk
        obtain ⟨data, hdata, hkey, _⟩ := hfound p.key v hv
        exact hmiss.absent data hdata (congrArg order hkey)
      obtain ⟨root', hlink, htree'⟩ := hmiss.link p.place ⟨p.key, p.val⟩ rfl
      refine ⟨root', ?_, ?_⟩
      · rw [hrun, Option.bind_eq_bind, Option.bind_some]
        dsimp only
        rw [hlink, if_neg hmem]
        rfl
      · exact Keeps.insert hfound hkeys (fun d hd _ => hd) (fun d hd => hd) htree'
          (List.prefix_refl p.val)

/-- What is put over a value otherwise is not served. -/
theorem put_bad {root : Root} {m : Values} (p : Put) (hno : ¬ Overwrites root p)
    (root' : Root) (hstep : putStep root p = some (root', (putSpec m p).2)) :
    ¬ Serves root' (putSpec m p).1 := by
  obtain ⟨hne, hall⟩ := not_or.1 hno
  obtain ⟨a, hget, hover⟩ := not_forall₂.1 hall
  intro hserves
  apply hover
  obtain ⟨q, hq, _, hval⟩ := hserves.found p.key p.val (by
    rw [putSpec, if_neg hne]
    exact Finmap.lookup_insert _)
  have hplace := Tree.lookup_eq root fun data => strcmp p.key data.key
  rw [show Tree.lookup root _ = _ from hget] at hplace
  obtain ⟨place, hrun, hfound⟩ := Option.map_eq_some_iff.1 hplace.symm
  rw [putStep, put, if_neg fun he => hne (List.length_eq_zero_iff.1 he), hrun,
    Option.bind_eq_bind, Option.bind_some] at hstep
  cases place with
  | link link => cases hfound
  | node b =>
    cases hfound
    obtain ⟨block, hcopy, hset⟩ := Option.bind_eq_some_iff.1 hstep
    obtain ⟨rfl, _⟩ := Prod.mk.inj (Option.some.inj hset)
    obtain ⟨s, rest, hsrc, hs, hfits, rfl⟩ := strcpy_iff.1 hcopy
    cases ((get_set root a _ p.key).trans hget).symm.trans hq
    rw [Tree.entry_set, hsrc] at hval
    exact ⟨s, rest, hsrc, hs, hfits,
      (List.cons_prefix_cons.1 ((List.prefix_append_right_inj s).1 hval)).2⟩

theorem empty_keeps (node : Ptr → Node) (entry : Ptr → MapT) :
    Keeps (Tree.empty node entry) ∅ :=
  ⟨[], Tree.empty_refines node entry, nofun, nofun⟩

/-- The bytes put last are found and the keys enumerated in order, along every run of puts, exactly
when every value for a key that is there has a zero byte, fits up to it in the memory of the node,
and ends in what is behind it there. -/
theorem gets_latest_iff (node : Ptr → Node) (entry : Ptr → MapT) (puts : List Put) :
    Follows putStep putSpec Serves (Tree.empty node entry) ∅ puts ↔
      Admits putStep Overwrites (Tree.empty node entry) puts := by
  have hadmits : Admits putStep (fun _ _ => True) (Tree.empty node entry) puts :=
    admits_of_forall _ fun _ _ => trivial
  apply follows_iff_admits _ _ _ (empty_keeps node entry) hadmits
  · exact fun _ _ h => h.serves
  · exact fun _ _ p h _ hok => put_step h p hok
  · exact fun _ _ p _ _ hno => put_bad p hno

section Witness

def emptyRoot : Root := Tree.empty (fun _ => ⟨none, .red, none, none⟩) fun _ => ⟨textOf [], []⟩

/-- The key `a` with three bytes, then with three others, the first of them zero. -/
def twoPuts : List Put :=
  [⟨.next, textOf [97], [1, 2, 3]⟩, ⟨.next, textOf [97], [0, 5, 6]⟩]

theorem not_gets_latest : ¬ Follows putStep putSpec Serves emptyRoot ∅ twoPuts := by
  rintro ⟨_, root₁, hfirst, _, root₂, hsecond, hserves⟩
  have hrun : (tryRun putStep emptyRoot twoPuts).map Prod.fst = some root₂ := by
    rw [twoPuts, tryRun_cons hfirst, tryRun_cons hsecond]
    rfl
  have hval : (((tryRun putStep emptyRoot twoPuts).map Prod.fst).bind fun root =>
      (get root (textOf [97])).map fun p => p.map fun p => (root.entry p).val) =
      some (some [0, 2, 3]) := by decide +kernel
  obtain ⟨p, hget, _, hpre⟩ := hserves.found (textOf [97]) [0, 5, 6] (Finmap.lookup_insert _)
  rw [hrun, Option.bind_some, hget] at hval
  have hblock : (root₂.entry p).val = [0, 2, 3] := Option.some.inj (Option.some.inj hval)
  rw [hblock] at hpre
  exact absurd hpre (by decide)

end Witness

end BigBox.FunStruct
