import BigBox.Timer.TimerfdHashRefines

namespace BigBox.Timer
open Buckets
set_option autoImplicit true

section Calls
variable {K D Q E : Type} [DecidableEq Q] {ops : HashOps K D} {content : K → Q}
  {hash : Q → UInt32} {value : Option D → E} {t : HashTable K D} {s : HashSpec Q E}
  {rows : Nat → List Iter}

theorem HashTable.Table.lookup_step (h : t.Table ops content hash value s rows)
    (hops : ops.Faithful content hash value) (key : K) (hidx : s.indexed hash (content key)) :
    t.step value (.lookup key) = some (t, (hashSpec content value s (.lookup key)).2) := by
  have hstep : t.step value (.lookup key) =
      (t.find (some key)).map fun p => (t, t.answer value p) := rfl
  rw [hstep, hashSpec]
  rcases h.find hops key hidx with ⟨e, he, hkey, hrun⟩ | ⟨hno, hrun⟩
  · rw [hrun, Option.map_some, h.answer_entry he, hkey]
  · rw [hrun, Option.map_some, h.answer_absent hno]

omit [DecidableEq Q] in
theorem HashTable.Table.length_live (h : t.Table ops content hash value s rows) :
    t.nelem = s.live.length := h.nelem.trans h.binds.card

omit [DecidableEq Q] in
theorem HashTable.Table.calloc_holds (h : t.Table ops content hash value s rows)
    (hp : p ∉ t.blocks) (key : Option K) :
    (t.calloc p key).links.Holds (t.calloc p key).hkey t.size rows := by
  have hne : ∀ q ∈ slots t.size rows, q ≠ p := by
    rintro q hq rfl
    exact hp (h.perm.mem_iff.1 hq)
  exact h.links.congr rfl
    (fun q hq => ⟨Function.update_of_ne (hne q hq) .., Function.update_of_ne (hne q hq) ..⟩)
    fun q hq => Function.update_of_ne (hne q hq) ..

omit [DecidableEq Q] in
/-- Whether or not the table grows, the entries stay. -/
theorem HashTable.Table.grow_holds (h : t.Table ops content hash value s rows)
    (hp : p ∉ t.blocks) (key : Option K) (grow : Bool) (hq : q ∉ s.map) (hgrows : s.grows grow q) :
    ∃ links rows', growIfFull (t.calloc p key) grow =
        some { t.calloc p key with links, size := s.grown grow } ∧
      links.Holds (t.calloc p key).hkey (s.grown grow) rows' ∧
      (slots (s.grown grow) rows').Perm t.blocks ∧ links.prev p = none := by
  have hslots : p ∉ slots t.size rows := fun hm => hp (h.perm.mem_iff.1 hm)
  have hholds := h.calloc_holds hp key
  have hprev : (t.calloc p key).links.prev p = none := Function.update_self ..
  have hnelem : (t.calloc p key).nelem = s.live.length := h.length_live
  have hsize : (t.calloc p key).size = s.size := h.size
  by_cases hfull : (t.calloc p key).nelem > sdHashFulltab * (t.calloc p key).size
  · have hlive : s.live.length > sdHashFulltab * s.size := by rwa [hnelem, hsize] at hfull
    have hgrown : (t.calloc p key).grown grow = s.grown grow := by
      rw [HashTable.grown, HashSpec.grown, hsize]
      simp only [hlive, true_and]
    have hroom : grow = false ∨ grownSize (t.calloc p key).size ≠ 0 := by
      rw [hsize]
      rcases hgrows with hin | hle | hor
      · exact (hq hin).elim
      · exact (Nat.not_lt.2 hle hlive).elim
      · exact hor
    obtain ⟨links, rows', hrun, hholds', hperm, hrest⟩ := rehash_holds hholds
      (fun b hb => (h.row_length hb).trans (Nat.le_add_right _ 2)) hroom
    rw [hgrown] at hrun hholds' hperm
    exact ⟨links, rows', (if_pos hfull).trans hrun, hholds', hperm.trans h.perm,
      (hrest p hslots).2.trans hprev⟩
  · have hlive : ¬ s.live.length > sdHashFulltab * s.size := by rwa [hnelem, hsize] at hfull
    have hgrown : s.grown grow = t.size := (if_neg fun hg => hlive hg.1).trans h.size.symm
    rw [hgrown]
    exact ⟨_, rows, if_neg hfull, hholds, h.perm, hprev⟩

omit [DecidableEq Q] in
theorem HashSpec.grown_pos {s : HashSpec Q E} (h : 0 < s.size) (grow : Bool) :
    0 < s.grown grow := by
  rw [HashSpec.grown]
  split
  case isTrue hg => exact Int.pos_iff_toNat_pos.1 hg.2.2
  case isFalse => exact h

omit [DecidableEq Q] in
theorem HashSpec.grown_indexed {s : HashSpec Q E} (h : s.indexed hash q) (grow : Bool) :
    (hash q).toNat % s.grown grow < 2147483648 := by
  rw [HashSpec.grown]
  split
  case isTrue hg =>
    have hlt : (hash q).toNat % (grownSize s.size).toNat < (grownSize s.size).toNat :=
      Nat.mod_lt _ (Int.pos_iff_toNat_pos.1 hg.2.2)
    have hmax : grownSize s.size < 2147483648 := toInt_lt _
    omega
  case isFalse => exact h

omit [DecidableEq Q] in
theorem HashTable.Table.calloc_key (h : t.Table ops content hash value s rows)
    (hops : ops.Faithful content hash value) (key : K) :
    ∃ k, (t.calloc p (some key)).key p = some k ∧ content k = content key := by
  simp only [HashTable.calloc, Function.update_self, h.operations]
  cases hdup : ops.keyDup with
  | none => exact ⟨key, rfl, rfl⟩
  | some keyDup => exact hops.keyDup keyDup hdup key

/-- A new entry. -/
theorem HashTable.Table.lookadd_absent (h : t.Table ops content hash value s rows)
    (hops : ops.Faithful content hash value) (a : Allocator) (key : K)
    (hidx : s.indexed hash (content key)) (hgrows : s.grows grow (content key))
    (hq : content key ∉ s.map) (hrun : t.find (some key) = some none) :
    ∃ t' rows', hashLookadd t a grow (some key) = some (t', some (a.pick t.blocks)) ∧
      t'.Table ops content hash value (s.lookadd a grow (content key) (value none)) rows' := by
  obtain ⟨p, hpick⟩ : ∃ p, a.pick t.blocks = p := ⟨_, rfl⟩
  have hp : p ∉ t.blocks := hpick ▸ a.fresh _
  have hlive : ∀ e ∈ s.live, e.1 ≠ p := by
    rintro e he heq
    exact hp (heq ▸ h.blocks ▸ List.mem_map_of_mem he)
  obtain ⟨links, rows', hgrow, hholds, hperm, hprev⟩ := h.grow_holds hp (some key) grow hq hgrows
  let b := (hash (content key)).toNat % s.grown grow
  have hpos : 0 < s.grown grow := HashSpec.grown_pos (h.size ▸ h.pos) grow
  have hb : b < s.grown grow := Nat.mod_lt _ hpos
  have hkeyp : (t.calloc p (some key)).hkey p = hash (content key) := by
    rw [← hops.hash key, ← h.operations]
    exact Function.update_self ..
  have hpslots : p ∉ slots (s.grown grow) rows' := fun hm => hp (hperm.mem_iff.1 hm)
  have htab : links.tab b ≠ some p := by
    intro he
    rw [Threaded.head (hholds.chain b hb)] at he
    exact hpslots (mem_slots.2 ⟨b, hb, List.mem_of_head? he⟩)
  have hpushed := hholds.push (pushed_link hprev htab) hb (by rw [hkeyp]) hpslots
  have hslots := slots_push rows' hb p
  have hbinds : Binds (s.map.insert (content key) (value none)) Prod.snd
      (fun e => value ((t.calloc p (some key)).data e.1)) ((p, content key) :: s.live) := by
    have hdata : (t.calloc p (some key)).data p = none := Function.update_self ..
    have hold : Binds s.map Prod.snd (fun e => value ((t.calloc p (some key)).data e.1)) s.live :=
      h.binds.congr fun e he => ⟨rfl, congrArg value (Function.update_of_ne (hlive e he) ..)⟩
    have hnew : (p, content key).2 ∉ s.map := hq
    rw [← hdata]
    exact hold.insert hnew
  have hspec : s.lookadd a grow (content key) (value none) =
      ⟨s.grown grow, (p, content key) :: s.live, s.map.insert (content key) (value none)⟩ := by
    rw [HashSpec.lookadd, if_neg hq, ← h.blocks, hpick]
  refine ⟨{ t.calloc p (some key) with
    links := links.link p b, size := s.grown grow, nelem := t.nelem + 1 },
    Function.update rows' b (p :: rows' b), ?_, ?_⟩
  · have hbucket := bucketAt_of_lt (HashSpec.grown_indexed hidx grow)
    simp only [hashLookadd, hashLookup, hrun, Option.bind_eq_bind, Option.bind_some, hpick, hgrow]
    rw [hkeyp, hindex_pos _ hpos, Option.bind_some, hbucket, Option.bind_some]
    rfl
  · rw [hspec]
    refine ⟨h.operations, rfl, hpos, ?_, ?_, hpushed, ?_, ?_, ?_, ?_, ?_, ?_⟩
    · exact congrArg (p :: ·) h.blocks
    · exact List.nodup_cons.2 ⟨hp, h.nodup⟩
    · exact hslots.trans (hperm.cons p)
    · intro e he
      rcases List.mem_cons.1 he with rfl | he
      · exact h.calloc_key hops key
      · obtain ⟨k, hk, hcontent⟩ := h.keyed e he
        exact ⟨k, (Function.update_of_ne (hlive e he) ..).trans hk, hcontent⟩
    · intro e he
      rcases List.mem_cons.1 he with rfl | he
      · exact hkeyp
      · exact (Function.update_of_ne (hlive e he) ..).trans (h.hashed e he)
    · intro e he
      rcases List.mem_cons.1 he with rfl | he
      · exact Function.update_self ..
      · exact (Function.update_of_ne (hlive e he) ..).trans (h.foreach e he)
    · have hcard : (s.map.insert (content key) (value none)).keys.card = s.map.keys.card + 1 :=
        (hbinds.card).trans (congrArg (· + 1) h.binds.card.symm)
      rw [hcard, ← h.nelem]
    · exact hbinds

theorem HashTable.Table.lookadd (h : t.Table ops content hash value s rows)
    (hops : ops.Faithful content hash value) (a : Allocator) (key : K)
    (hidx : s.indexed hash (content key)) (hgrows : s.grows grow (content key)) :
    ∃ t' rows' e, hashLookadd t a grow (some key) = some (t', some e.1) ∧
      e ∈ (s.lookadd a grow (content key) (value none)).live ∧ e.2 = content key ∧
      t'.Table ops content hash value (s.lookadd a grow (content key) (value none)) rows' := by
  rcases h.find hops key hidx with ⟨e, he, hkey, hrun⟩ | ⟨hq, hrun⟩
  · have hin : content key ∈ s.map := hkey ▸ h.binds.mem (List.perm_cons_erase he)
    have hspec : s.lookadd a grow (content key) (value none) = s := if_pos hin
    rw [hspec]
    refine ⟨t, rows, e, ?_, he, hkey, h⟩
    rw [hashLookadd, hashLookup, hrun]
    rfl
  · obtain ⟨t', rows', hadd, htable⟩ := h.lookadd_absent hops a key hidx hgrows hq hrun
    refine ⟨t', rows', (a.pick t.blocks, content key), hadd, ?_, rfl, htable⟩
    rw [HashSpec.lookadd, if_neg hq, ← h.blocks]
    exact List.mem_cons_self

theorem HashTable.Table.lookadd_step (h : t.Table ops content hash value s rows)
    (hops : ops.Faithful content hash value) (a : Allocator) (key : K)
    (hidx : s.indexed hash (content key)) (hgrows : s.grows grow (content key)) :
    ∃ t', t.step value (.lookadd a grow key) =
        some (t', (hashSpec content value s (.lookadd a grow key)).2) ∧
      t'.Refines ops content hash value (hashSpec content value s (.lookadd a grow key)).1 := by
  obtain ⟨t', rows', e, hrun, he, hkey, htable⟩ := h.lookadd hops a key hidx hgrows
  refine ⟨t', ?_, rows', htable⟩
  rw [HashTable.step, hrun, Option.map_some, htable.answer_entry he, hkey]
  rfl

theorem HashTable.Table.other (h : t.Table ops content hash value s rows) (he : e ∈ s.live)
    (hx : x ∈ s.live.erase e) : x.1 ≠ e.1 := by
  have hperm := (List.perm_cons_erase he).map Prod.fst
  have hnd := hperm.nodup_iff.1 (h.blocks ▸ h.nodup)
  exact fun heq => (List.nodup_cons.1 hnd).1 (heq ▸ List.mem_map_of_mem hx)

/-- The data of an entry are set. -/
theorem HashTable.Table.setData (h : t.Table ops content hash value s rows)
    (hops : ops.Faithful content hash value) (he : e ∈ s.live) (data : Option D) :
    (t.setData e.1 data).Table ops content hash value (s.assign e.2 (value data)) rows := by
  have hcopy : value ((t.setData e.1 data).data e.1) = value data := by
    simp only [HashTable.setData, Function.update_self, h.operations]
    cases hdup : ops.dataDup with
    | none => rfl
    | some dataDup => exact hops.dataDup dataDup hdup data
  have hbinds : Binds (s.map.insert e.2 (value data)) Prod.snd
      (fun x => value ((t.setData e.1 data).data x.1)) s.live := by
    have hsame : ∀ x ∈ s.live.erase e,
        value ((t.setData e.1 data).data x.1) = value (t.data x.1) :=
      fun x hx => congrArg value (Function.update_of_ne (h.other he hx) ..)
    rw [← hcopy]
    exact h.binds.update (List.perm_cons_erase he) hsame
  refine ⟨h.operations, h.size, h.pos, h.blocks, h.nodup, h.links, h.perm, h.keyed, h.hashed,
    h.foreach, ?_, hbinds⟩
  exact h.nelem.trans (h.binds.card.trans hbinds.card.symm)

theorem HashTable.Table.add_step (h : t.Table ops content hash value s rows)
    (hops : ops.Faithful content hash value) (a : Allocator) (key : K) (data : Option D)
    (hidx : s.indexed hash (content key)) (hgrows : s.grows grow (content key)) :
    ∃ t', t.step value (.add a grow key data) =
        some (t', (hashSpec content value s (.add a grow key data)).2) ∧
      t'.Refines ops content hash value (hashSpec content value s (.add a grow key data)).1 := by
  obtain ⟨t', rows', e, hrun, he, hkey, htable⟩ := h.lookadd hops a key hidx hgrows
  have hset := htable.setData hops he data
  rw [hkey] at hset
  refine ⟨t'.setData e.1 data, ?_, rows', hset⟩
  have hadd : hashAdd t a grow (some key) data = some (t'.setData e.1 data, some e.1) := by
    rw [hashAdd, hrun]
    rfl
  have hanswer := hset.answer_entry he
  rw [hkey] at hanswer
  rw [HashTable.step, hadd, Option.map_some, hanswer]
  rfl

omit [DecidableEq Q] in
theorem erase_map_fst {live : List (Iter × Q)} [DecidableEq Q] (h : (live.map Prod.fst).Nodup)
    (he : e ∈ live) : (live.map Prod.fst).erase e.1 = (live.erase e).map Prod.fst := by
  induction live with
  | nil => cases he
  | cons x live ih =>
    obtain ⟨hx, hnd⟩ := List.nodup_cons.1 h
    rcases List.mem_cons.1 he with rfl | he
    · rw [List.map_cons, List.erase_cons_head, List.erase_cons_head]
    · have hfst : x.1 ≠ e.1 := fun heq => hx (heq ▸ List.mem_map_of_mem he)
      have hne : x ≠ e := fun heq => hfst (congrArg Prod.fst heq)
      rw [List.map_cons, List.erase_cons_tail (by rwa [beq_iff_eq]),
        List.erase_cons_tail (by rwa [beq_iff_eq]), ih hnd he]
      rfl

/-- The fields of a table without an entry. -/
def HashTable.dropped (t : HashTable K D) (p : Iter) (links : HashLinks) : HashTable K D :=
  { t with
    data := Function.update t.data p none
    key := Function.update t.key p none
    links
    nelem := t.nelem - 1
    blocks := t.blocks.erase p }

/-- An entry leaves its row. -/
theorem HashTable.Table.iterDel_row (h : t.Table ops content hash value s rows) (he : e ∈ s.live)
    (hb : b < t.size) (hxy : rows b = xs ++ e.1 :: ys) :
    ∃ links, hashIterDel t e.1 = some (t.dropped e.1 links) ∧
      (t.dropped e.1 links).Table ops content hash value (s.remove (some e))
        (Function.update rows b (xs ++ ys)) := by
  have hrow : e.1 ∈ rows b := by
    rw [hxy]
    exact List.mem_append_right _ List.mem_cons_self
  have hnext : t.links.next e.1 ≠ some e.1 := by
    have hchain := h.links.chain b hb
    rw [hxy] at hchain
    rw [(Threaded.middle hchain).2]
    intro hhead
    have hnd := nodup_row h.links.nodup hb
    rw [hxy] at hnd
    have hmem : e.1 ∈ xs ++ ys := List.mem_append_right xs (List.mem_of_head? hhead)
    exact (List.nodup_cons.1 (List.perm_middle.nodup_iff.1 hnd)).1 hmem
  obtain ⟨links, hrun, hun⟩ := unlink_unlinked (t.hkey e.1) h.pos hnext
  rw [h.links.bucket b hb e.1 hrow] at hun
  have hslots := slots_remove hb hxy
  have hblocks : t.blocks.erase e.1 = (s.live.erase e).map Prod.fst := by
    rw [h.blocks, erase_map_fst (h.blocks ▸ h.nodup) he]
  have hlive : ∀ x ∈ s.live.erase e, x ∈ s.live := fun x hx => List.mem_of_mem_erase hx
  have hbinds : Binds (s.map.erase e.2) Prod.snd
      (fun x => value (Function.update t.data e.1 none x.1)) (s.live.erase e) := by
    apply (h.binds.erase (List.perm_cons_erase he)).congr
    intro x hx
    exact ⟨rfl, congrArg value (Function.update_of_ne (h.other he hx) ..)⟩
  refine ⟨links, ?_, h.operations, h.size, h.pos, hblocks, h.nodup.erase e.1,
    h.links.remove hb hxy hun, ?_, fun x hx => ?_, fun x hx => h.hashed x (hlive x hx),
    fun x hx => h.foreach x (hlive x hx), ?_, hbinds⟩
  · rw [hashIterDel]
    dsimp only
    rw [h.foreach e he, if_neg Int.zero_ne_one, hrun]
    rfl
  · have hperm : (e.1 :: slots t.size (Function.update rows b (xs ++ ys))).Perm
        (e.1 :: t.blocks.erase e.1) :=
      (hslots.symm.trans h.perm).trans
        (List.perm_cons_erase (h.perm.mem_iff.1 (mem_slots.2 ⟨b, hb, hrow⟩)))
    exact hperm.cons_inv
  · obtain ⟨k, hk, hcontent⟩ := h.keyed x (hlive x hx)
    exact ⟨k, (Function.update_of_ne (h.other he hx) ..).trans hk, hcontent⟩
  · have hcard : t.nelem - 1 = (s.map.erase e.2).keys.card := by
      rw [hbinds.card, h.length_live, List.length_erase_of_mem he]
    exact hcard

/-- An entry leaves the table. -/
theorem HashTable.Table.iterDel (h : t.Table ops content hash value s rows) (he : e ∈ s.live) :
    ∃ t' rows', hashIterDel t e.1 = some t' ∧
      t'.Table ops content hash value (s.remove (some e)) rows' := by
  obtain ⟨hb, hrow⟩ := h.row_of_entry he
  obtain ⟨xs, ys, hxy⟩ := List.append_of_mem hrow
  obtain ⟨links, hrun, htable⟩ := h.iterDel_row he hb hxy
  exact ⟨_, _, hrun, htable⟩

omit [DecidableEq Q] in
theorem HashTable.Table.silent (h : t.Table ops content hash value s rows) :
    t.answer value none = s.silent := by
  rw [HashTable.answer, HashSpec.silent, h.nelem]
  rfl

theorem HashTable.Table.del_step (h : t.Table ops content hash value s rows)
    (hops : ops.Faithful content hash value) (key : K) (hidx : s.indexed hash (content key)) :
    ∃ t', t.step value (.del key) = some (t', (hashSpec content value s (.del key)).2) ∧
      t'.Refines ops content hash value (hashSpec content value s (.del key)).1 := by
  rw [hashSpec, HashTable.step, hashDel]
  rcases h.find hops key hidx with ⟨e, he, hkey, hrun⟩ | ⟨hno, hrun⟩
  · obtain ⟨t', rows', hdel, htable⟩ := h.iterDel he
    rw [← hkey, h.entry_eq he, hrun]
    refine ⟨t', ?_, rows', htable⟩
    rw [← htable.silent]
    simp only [Option.bind_eq_bind, Option.bind_some, hdel, Option.map_some]
  · rw [h.entry_absent hno, hrun]
    exact ⟨t, congrArg (fun answer => some (t, answer)) h.silent, rows, h⟩

theorem HashTable.Table.iterDel_step (h : t.Table ops content hash value s rows)
    (hp : p ∈ s.live.map Prod.fst) :
    ∃ t', t.step value (.iterDel p) = some (t', (hashSpec content value s (.iterDel p)).2) ∧
      t'.Refines ops content hash value (hashSpec content value s (.iterDel p)).1 := by
  obtain ⟨e, he, rfl⟩ := List.mem_map.1 hp
  obtain ⟨t', rows', hdel, htable⟩ := h.iterDel he
  have hfind : (s.live.find? fun x => x.1 = e.1) = some e :=
    find?_of_nodup_map (h.blocks ▸ h.nodup) he
  rw [hashSpec, HashTable.step, hdel, hfind]
  exact ⟨t', by rw [← htable.silent]; rfl, rows', htable⟩

section Clear

omit [DecidableEq Q] in
theorem clearBucket_eq (h : Threaded next back of r p ps) (hn : ps.length ≤ n)
    (blocks : List Iter) : clearBucket next n p blocks = some (blocks.diff ps) := by
  induction ps generalizing r p n blocks with
  | nil =>
    cases h
    cases n <;> rfl
  | cons q ps ih =>
    obtain ⟨rfl, _, hps⟩ := h
    cases n with
    | zero => exact (Nat.not_succ_le_zero _ hn).elim
    | succ n =>
      rw [List.diff_cons]
      exact ih hps (Nat.le_of_succ_le_succ hn) (blocks.erase q)

theorem clearBuckets_eq {m : HashLinks} (h : ∀ b, b < n → m.Chain b (rows b))
    (hrounds : ∀ b, b < n → (rows b).length ≤ rounds) (hi : i ≤ n) (blocks : List Iter) :
    ∃ tab, clearBuckets m.next rounds i (m.tab, blocks) =
        some (tab, blocks.diff (slots i rows)) ∧
      (∀ b, b < i → tab b = none) ∧ ∀ b, i ≤ b → tab b = m.tab b := by
  induction i with
  | zero => exact ⟨m.tab, rfl, fun b hb => (Nat.not_lt_zero b hb).elim, fun _ _ => rfl⟩
  | succ i ih =>
    obtain ⟨tab, hrun, hdone, hrest⟩ := ih (Nat.le_of_lt hi)
    have hbucket := clearBucket_eq (h i hi) (hrounds i hi) (blocks.diff (slots i rows))
    refine ⟨Function.update tab i none, ?_, fun b hb => ?_, fun b hb => ?_⟩
    · rw [clearBuckets, hrun, slots_succ, List.diff_append]
      simp only [Option.bind_eq_bind, Option.bind_some, hrest i (Nat.le_refl i), hbucket,
        Option.pure_def]
    · rcases Nat.lt_succ_iff_lt_or_eq.1 hb with hlt | rfl
      · rw [Function.update_of_ne (Nat.ne_of_lt hlt), hdone b hlt]
      · exact Function.update_self ..
    · rw [Function.update_of_ne (Nat.ne_of_gt hb), hrest b (Nat.le_of_lt hb)]

end Clear

theorem HashTable.Table.clear_step (h : t.Table ops content hash value s rows) :
    ∃ t', t.step value .clear = some (t', (hashSpec content value s .clear).2) ∧
      t'.Refines ops content hash value (hashSpec content value s .clear).1 := by
  obtain ⟨tab, hrun, hnone, _⟩ := clearBuckets_eq h.links.chain
    (fun b hb => Nat.le_succ_of_le (h.row_length hb)) (Nat.le_refl t.size) t.blocks
  rw [diff_of_perm h.perm.symm] at hrun
  have hempty := slots_empty (α := Iter) t.size
  refine ⟨{ t with links := { t.links with tab }, blocks := [], nelem := 0 }, ?_, fun _ => [],
    h.operations, h.size, h.pos, rfl, List.nodup_nil, ⟨hnone, nofun, ?_⟩, ?_, nofun, nofun, nofun,
    rfl, binds_empty _ _⟩
  · rw [HashTable.step, hashClear, hrun]
    rfl
  · rw [hempty]
    exact List.nodup_nil
  · exact .of_eq hempty

/-- The bucket of the key has a negative index, or the table would grow to size 0. -/
theorem HashTable.Table.lookadd_none (h : t.Table ops content hash value s rows)
    (hops : ops.Faithful content hash value) (a : Allocator) (key : K)
    (hno : ¬ (s.indexed hash (content key) ∧ s.grows grow (content key))) :
    hashLookadd t a grow (some key) = none := by
  by_cases hidx : s.indexed hash (content key)
  · have hgrows : ¬ s.grows grow (content key) := fun hg => hno ⟨hidx, hg⟩
    simp only [HashSpec.grows, not_or, Bool.not_eq_false, ne_eq, not_not, Nat.not_le] at hgrows
    obtain ⟨hq, hfull, hgrow, hzero⟩ := hgrows
    rcases h.find hops key hidx with ⟨e, he, hkey, _⟩ | ⟨_, hrun⟩
    · exact (hq (hkey ▸ h.binds.mem (List.perm_cons_erase he))).elim
    · have hholds := h.calloc_holds (a.fresh t.blocks) (some key)
      have hsize : (t.calloc (a.pick t.blocks) (some key)).size = s.size := h.size
      obtain ⟨e, he⟩ : ∃ e, e ∈ s.live := List.exists_mem_of_length_pos (Nat.zero_lt_of_lt hfull)
      obtain ⟨hb, hrow⟩ := h.row_of_entry he
      have hrehash := rehash_zero hholds (mem_slots.2 ⟨_, hb, hrow⟩) hgrow (by rw [hsize, hzero])
      have hif : growIfFull (t.calloc (a.pick t.blocks) (some key)) grow = none := by
        rw [growIfFull, if_pos _, hrehash]
        rw [hsize]
        exact h.length_live ▸ hfull
      rw [hashLookadd, hashLookup, hrun]
      simp only [Option.bind_eq_bind, Option.bind_some, hif, Option.bind_none]
  · rw [hashLookadd, hashLookup, h.find_none hops key hidx]
    rfl

theorem hashStep_good (hops : ops.Faithful content hash value)
    (h : t.Refines ops content hash value s) (call : HashCall K D) (hvalid : call.valid s)
    (hok : call.ok content hash s) :
    ∃ t', t.step value call = some (t', (hashSpec content value s call).2) ∧
      t'.Refines ops content hash value (hashSpec content value s call).1 := by
  obtain ⟨rows, htable⟩ := h
  cases call with
  | add a grow key data => exact htable.add_step hops a key data hok.1 hok.2
  | lookadd a grow key => exact htable.lookadd_step hops a key hok.1 hok.2
  | del key => exact htable.del_step hops key hok
  | iterDel p => exact htable.iterDel_step hvalid
  | clear => exact htable.clear_step
  | lookup key => exact ⟨t, htable.lookup_step hops key hok, rows, htable⟩

theorem hashStep_bad (hops : ops.Faithful content hash value)
    (h : t.Refines ops content hash value s) (call : HashCall K D)
    (hno : ¬ call.ok content hash s) : t.step value call = none := by
  obtain ⟨rows, htable⟩ := h
  cases call with
  | add a grow key data =>
    rw [HashTable.step, hashAdd, htable.lookadd_none hops a key hno]
    rfl
  | lookadd a grow key =>
    rw [HashTable.step, htable.lookadd_none hops a key hno]
    rfl
  | del key =>
    rw [HashTable.step, hashDel, htable.find_none hops key hno]
    rfl
  | iterDel p => exact (hno trivial).elim
  | clear => exact (hno trivial).elim
  | lookup key =>
    rw [HashTable.step, hashLookup, htable.find_none hops key hno]
    rfl

omit [DecidableEq Q] in
theorem hashNew_refines (hnew : hashNew memory aSize ops = some t) :
    t.Refines ops content hash value ⟨t.size, [], ∅⟩ := by
  rw [hashNew] at hnew
  split at hnew
  case isFalse => cases hnew
  case isTrue =>
    cases hnew
    have hempty := slots_empty (α := Iter) (newSize aSize)
    have hpos : 0 < newSize aSize := by
      rw [newSize]
      split
      case isTrue => exact Nat.zero_lt_succ _
      case isFalse hne => exact Nat.pos_of_ne_zero hne
    refine ⟨fun _ => [], rfl, rfl, hpos, rfl, List.nodup_nil, ⟨fun _ _ => rfl, nofun, ?_⟩,
      .of_eq hempty, nofun, nofun, nofun, rfl, binds_empty _ _⟩
    rw [hempty]
    exact List.nodup_nil

/-- The calls on a new table return what they would for a finite map, and leave its entries in the
buckets of their hashes, exactly when the index of every key looked for fits in an `int` and the
table never grows to size 0. -/
theorem hash_refines_iff (hops : ops.Faithful content hash value)
    (hnew : hashNew memory aSize ops = some t) (calls : List (HashCall K D))
    (hvalid : Meets (hashSpec content value) (fun s call => call.valid s) ⟨t.size, [], ∅⟩ calls) :
    (∃ t', tryRun (HashTable.step value) t calls =
        some (t', (run (hashSpec content value) ⟨t.size, [], ∅⟩ calls).2) ∧
      t'.Refines ops content hash value (run (hashSpec content value) ⟨t.size, [], ∅⟩ calls).1) ↔
      Meets (hashSpec content value) (fun s call => call.ok content hash s) ⟨t.size, [], ∅⟩
        calls := by
  have hrefines : t.Refines ops content hash value ⟨t.size, [], ∅⟩ := hashNew_refines hnew
  constructor
  · rintro ⟨t', hrun, _⟩
    apply meets_of_tryRun (R := fun t s => HashTable.Refines t ops content hash value s) _ _
      hrefines hvalid hrun
    · exact fun _ _ call h hok => hashStep_good hops h call hok.1 hok.2
    · intro t s call h _ hno t' hstep
      rw [hashStep_bad hops h call hno] at hstep
      cases hstep
  · intro hmeets
    apply tryRun_of_meets (R := fun t s => HashTable.Refines t ops content hash value s) _
      hrefines (hvalid.and hmeets)
    exact fun _ _ call h hok => hashStep_good hops h call hok.1 hok.2

end Calls

section Witness

/-- Numbers as keys that are their own hashes. -/
def natOps : HashOps Nat Nat where
  hash key := UInt32.ofNat (key.getD 0)
  compare a b := (a.getD 0 : Int) - b.getD 0
  keyDup := none
  dataDup := none

theorem natOps_faithful : natOps.Faithful id UInt32.ofNat id where
  compare _ _ := Int.sub_eq_zero.trans Int.natCast_inj
  hash _ := rfl
  keyDup := nofun
  dataDup := nofun

/-- A new table with so many buckets. -/
def natTable (size : Nat) : HashTable Nat Nat where
  nelem := 0
  size
  links := ⟨fun _ => none, fun _ => none, fun _ => none⟩
  key _ := none
  data _ := none
  hkey _ := 0
  foreach _ := 0
  blocks := []
  ops := natOps

theorem hash_refines_iff_add :
    (∃ t', tryRun (HashTable.step id) (natTable 10) [.add .next true 1 (some 5), .lookup 1] =
        some (t', (run (hashSpec id id) ⟨10, [], ∅⟩
          [.add .next true 1 (some 5), .lookup 1]).2) ∧
      t'.Refines natOps id UInt32.ofNat id (run (hashSpec id id) ⟨10, [], ∅⟩
        [.add .next true 1 (some 5), .lookup 1]).1) ↔
      Meets (hashSpec id id) (fun s call => call.ok id UInt32.ofNat s) ⟨10, [], ∅⟩
        [.add .next true 1 (some 5), .lookup 1] :=
  hash_refines_iff natOps_faithful
    (rfl : hashNew (natTable 0) 0 natOps = some (natTable 10)) _ ⟨trivial, trivial, trivial⟩

/-- The index 2147483648 is negative as an `int`. -/
theorem not_hash_refines :
    hashNew (natTable 0) 2147483649 natOps = some (natTable 2147483649) ∧
      ¬ ∃ t', tryRun (HashTable.step id) (natTable 2147483649) [.lookup 2147483648] =
          some (t', (run (hashSpec id id) ⟨2147483649, [], ∅⟩ [.lookup 2147483648]).2) ∧
        t'.Refines natOps id UInt32.ofNat id
          (run (hashSpec id id) ⟨2147483649, [], ∅⟩ [HashCall.lookup 2147483648]).1 := by
  constructor
  · rfl
  · rintro ⟨t', hrun, _⟩
    have hnone : (tryRun (HashTable.step id) (natTable 2147483649)
        [.lookup 2147483648]).isNone = true := by decide +kernel
    rw [hrun] at hnone
    exact Bool.false_ne_true hnone

end Witness

end BigBox.Timer
