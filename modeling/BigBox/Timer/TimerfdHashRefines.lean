import BigBox.Lib.FiniteMap
import BigBox.Timer.TimerfdHash

namespace BigBox.Timer
open Buckets
set_option autoImplicit true

/-- The entries of a bucket, from its head on. The head has no `prev`, every other entry has the
one before. -/
def HashLinks.Chain (m : HashLinks) (b : Nat) (ps : List Iter) : Prop :=
  Threaded m.next m.prev some none (m.tab b) ps

/-- Every entry is once in the bucket of its `hkey`. -/
structure HashLinks.Holds (m : HashLinks) (hkey : Iter → UInt32) (size : Nat)
    (rows : Nat → List Iter) : Prop where
  chain : ∀ b, b < size → m.Chain b (rows b)
  bucket : ∀ b, b < size → ∀ p ∈ rows b, (hkey p).toNat % size = b
  nodup : (slots size rows).Nodup

theorem hindex_pos (h : UInt32) (hn : 0 < n) : hindex h n = some (h.toNat % n) :=
  if_neg (Nat.ne_of_gt hn)

section Links
variable {m m' : HashLinks} {hkey hkey' : Iter → UInt32} {rows : Nat → List Iter}

theorem setPrevIf_prev (p prev : Option Iter) (m : HashLinks) (q : Iter) :
    (m.setPrevIf p prev).prev q = if p = some q then prev else m.prev q := by
  cases p with
  | none => rfl
  | some p =>
    simp only [HashLinks.setPrevIf, HashLinks.setPrev, Function.update_apply, Option.some.injEq,
      eq_comm]

theorem setPrevIf_links (p prev : Option Iter) (m : HashLinks) :
    (m.setPrevIf p prev).tab = m.tab ∧ (m.setPrevIf p prev).next = m.next := by
  cases p <;> exact ⟨rfl, rfl⟩

/-- The links with a new entry in front of a bucket. -/
structure Pushed (m m' : HashLinks) (a : Iter) (b : Nat) : Prop where
  tab : ∀ c, m'.tab c = if c = b then some a else m.tab c
  next : ∀ q, m'.next q = if q = a then m.tab b else m.next q
  prev : ∀ q, m'.prev q = if q = a then none else if m.tab b = some q then some a else m.prev q

theorem link_tab (a : Iter) (b : Nat) (m : HashLinks) (c : Nat) :
    (m.link a b).tab c = if c = b then some a else m.tab c := by
  simp only [HashLinks.link, setPrevIf_links, Function.update_apply]

theorem link_next (a : Iter) (b : Nat) (m : HashLinks) (q : Iter) :
    (m.link a b).next q = if q = a then m.tab b else m.next q := by
  simp only [HashLinks.link, setPrevIf_links, Function.update_apply]

theorem link_prev (a : Iter) (b : Nat) (m : HashLinks) (q : Iter) :
    (m.link a b).prev q = if m.tab b = some q then some a else m.prev q := by
  simp only [HashLinks.link, setPrevIf_prev, Function.update_self]

/-- What `rehash` does with an entry. -/
theorem pushed_setPrev (a : Iter) (b : Nat) (m : HashLinks) :
    Pushed m ((m.link a b).setPrev a none) a b where
  tab := link_tab a b m
  next := link_next a b m
  prev q := by simp only [HashLinks.setPrev, Function.update_apply, link_prev]

/-- What `hash_lookadd` does with an entry that has no `prev`. -/
theorem pushed_link (hprev : m.prev a = none) (htab : m.tab b ≠ some a) :
    Pushed m (m.link a b) a b where
  tab := link_tab a b m
  next := link_next a b m
  prev q := by
    rw [link_prev]
    by_cases hq : q = a
    · rw [hq, if_pos rfl, if_neg htab, hprev]
    · rw [if_neg hq]

/-- An entry gets into its bucket. -/
theorem HashLinks.Holds.push (h : m.Holds hkey size rows) (hpush : Pushed m m' a b)
    (hb : b < size) (hkey' : (hkey a).toNat % size = b) (ha : a ∉ slots size rows) :
    m'.Holds hkey size (Function.update rows b (a :: rows b)) := by
  have hrow : ∀ c, c < size → ∀ q ∈ rows c, q ≠ a := by
    intro c hc q hq he
    exact ha (mem_slots.2 ⟨c, hc, he ▸ hq⟩)
  have hhead : m.tab b = (rows b).head? := Threaded.head (h.chain b hb)
  refine ⟨fun c hc => ?_, fun c hc p hp => ?_, ?_⟩
  · rcases eq_or_ne c b with rfl | hne
    · have htab : m'.tab c = some a := (hpush.tab c).trans (if_pos rfl)
      rw [Function.update_self, HashLinks.Chain, htab]
      apply Threaded.push (h.chain c hc) _ _ _ _ (nodup_row h.nodup hc)
      · rw [hpush.next, if_pos rfl]
      · rw [hpush.prev, if_pos rfl]
      · intro q hq
        rw [hpush.next, if_neg (hrow c hc q hq)]
      · intro q hq
        rw [hpush.prev, if_neg (hrow c hc q hq), hhead]
    · have htab : m'.tab c = m.tab c := (hpush.tab c).trans (if_neg hne)
      rw [Function.update_of_ne hne, HashLinks.Chain, htab]
      apply Threaded.congr (h.chain c hc)
      intro q hq
      have hqb : m.tab b ≠ some q := by
        rw [hhead]
        intro he
        exact rows_disjoint h.nodup hc hb hne hq (List.mem_of_head? he)
      rw [hpush.next, hpush.prev, if_neg (hrow c hc q hq), if_neg (hrow c hc q hq), if_neg hqb]
      exact ⟨rfl, rfl⟩
  · rcases eq_or_ne c b with rfl | hne
    · rw [Function.update_self] at hp
      rcases List.mem_cons.1 hp with rfl | hp
      · exact hkey'
      · exact h.bucket c hc p hp
    · rw [Function.update_of_ne hne] at hp
      exact h.bucket c hc p hp
  · rw [(slots_push rows hb a).nodup_iff]
    exact List.nodup_cons.2 ⟨ha, h.nodup⟩

/-- What matters are the heads of the buckets and the fields of the entries. -/
theorem HashLinks.Holds.congr (h : m.Holds hkey size rows) (htab : m'.tab = m.tab)
    (he : ∀ q ∈ slots size rows, m'.next q = m.next q ∧ m'.prev q = m.prev q)
    (hkeys : ∀ q ∈ slots size rows, hkey' q = hkey q) : m'.Holds hkey' size rows := by
  refine ⟨fun b hb => ?_, fun b hb p hp => ?_, h.nodup⟩
  · rw [HashLinks.Chain, htab]
    apply Threaded.congr (h.chain b hb)
    intro q hq
    exact he q (mem_slots.2 ⟨b, hb, hq⟩)
  · rw [hkeys p (mem_slots.2 ⟨b, hb, hp⟩)]
    exact h.bucket b hb p hp

theorem lastOf_some (r : Option Iter) (xs : List Iter) :
    lastOf some r xs = xs.getLast?.or r := by
  rw [lastOf_eq]
  cases xs.getLast? <;> rfl

/-- What `hash_iter_del` does to the links of the other entries and to the heads. -/
structure Unlinked (m m' : HashLinks) (a : Iter) (b : Nat) : Prop where
  tab : ∀ c, m'.tab c = if m.prev a = none ∧ c = b then m.next a else m.tab c
  next : ∀ q, m'.next q = if m.prev a = some q then m.next a else m.next q
  prev : ∀ q, m'.prev q = if m.next a = some q then m.prev a else m.prev q

theorem unlink_unlinked (hkey : UInt32) (hsize : 0 < size) (hnext : m.next a ≠ some a) :
    ∃ m', m.unlink a hkey size = some m' ∧ Unlinked m m' a (hkey.toNat % size) := by
  have hprev : (m.setPrevIf (m.next a) (m.prev a)).prev a = m.prev a := by
    rw [setPrevIf_prev, if_neg hnext]
  have hlinks := setPrevIf_links (m.next a) (m.prev a) m
  rw [HashLinks.unlink, hprev]
  cases hp : m.prev a with
  | some p =>
    refine ⟨_, rfl, fun c => ?_, fun q => ?_, fun q => ?_⟩
    · rw [hp, if_neg (fun h => Option.some_ne_none p h.1)]
      exact congrFun (setPrevIf_links _ _ m).1 c
    · simp only [(setPrevIf_links _ _ m).2, Function.update_apply, hp, Option.some.injEq, eq_comm]
    · rw [← hp]
      exact setPrevIf_prev _ _ m q
  | none =>
    rw [hindex_pos hkey hsize]
    refine ⟨_, rfl, fun c => ?_, fun q => ?_, fun q => ?_⟩
    · simp only [(setPrevIf_links _ _ m).1, (setPrevIf_links _ _ m).2, Function.update_apply, hp,
        true_and]
    · rw [hp, if_neg (Option.some_ne_none q).symm]
      exact congrFun (setPrevIf_links _ _ m).2 q
    · rw [← hp]
      exact setPrevIf_prev _ _ m q

/-- An entry leaves its bucket. -/
theorem HashLinks.Holds.remove (h : m.Holds hkey size rows) (hb : b < size)
    (hrow : rows b = xs ++ a :: ys) (hun : Unlinked m m' a b) :
    m'.Holds hkey size (Function.update rows b (xs ++ ys)) := by
  have hnd : (xs ++ a :: ys).Nodup := hrow ▸ nodup_row h.nodup hb
  have hchain : m.Chain b (xs ++ a :: ys) := hrow ▸ h.chain b hb
  obtain ⟨hprev, hnext⟩ := Threaded.middle hchain
  rw [lastOf_some, Option.or_none] at hprev
  refine ⟨fun c hc => ?_, fun c hc p hp => ?_, ?_⟩
  · rcases eq_or_ne c b with rfl | hne
    · have htab : m'.tab c = if xs = [] then m.next a else m.tab c := by
        rw [hun.tab, hprev]
        simp only [List.getLast?_eq_none_iff, and_true]
      rw [Function.update_self, HashLinks.Chain, htab]
      apply Threaded.remove hchain _ _ hnd
      · intro q _
        rw [hun.next, hprev]
      · intro q _
        rw [hun.prev, hnext]
    · have htab : m'.tab c = m.tab c := by
        rw [hun.tab, if_neg (fun he => hne he.2)]
      rw [Function.update_of_ne hne, HashLinks.Chain, htab]
      apply Threaded.congr (h.chain c hc)
      intro q hq
      have hqb : q ∉ xs ++ a :: ys := hrow ▸ rows_disjoint h.nodup hc hb hne hq
      have hqprev : m.prev a ≠ some q := by
        rw [hprev]
        intro he
        exact hqb (List.mem_append_left _ (List.mem_of_getLast? he))
      have hqnext : m.next a ≠ some q := by
        rw [hnext]
        intro he
        exact hqb (List.mem_append_right _ (List.mem_cons_of_mem a (List.mem_of_head? he)))
      rw [hun.next, hun.prev, if_neg hqprev, if_neg hqnext]
      exact ⟨rfl, rfl⟩
  · rcases eq_or_ne c b with rfl | hne
    · rw [Function.update_self] at hp
      apply h.bucket c hc p
      rw [hrow]
      rcases List.mem_append.1 hp with hp | hp
      · exact List.mem_append_left _ hp
      · exact List.mem_append_right _ (List.mem_cons_of_mem a hp)
    · rw [Function.update_of_ne hne] at hp
      exact h.bucket c hc p hp
  · exact (List.nodup_cons.1 ((slots_remove hb hrow).nodup_iff.1 h.nodup)).2

/-- The entries that `rehash` has moved, in their new buckets, and those it has not come to. -/
structure Moved (m m' : HashLinks) (hkey : Iter → UInt32) (size : Nat)
    (rows rows' : Nat → List Iter) (ps : List Iter) : Prop where
  holds : m'.Holds hkey size rows'
  perm : (slots size rows').Perm (ps ++ slots size rows)
  rest : ∀ q, q ∉ ps ++ slots size rows → m'.next q = m.next q ∧ m'.prev q = m.prev q

theorem relinkBucket_moved (h : m.Holds hkey size rows) (hsize : 0 < size)
    (hps : Threaded m.next m.prev some r p ps) (hnd : (ps ++ slots size rows).Nodup)
    (hn : ps.length ≤ n) :
    ∃ m' rows', relinkBucket hkey size n p m = some m' ∧ Moved m m' hkey size rows rows' ps := by
  induction ps generalizing m rows r p n with
  | nil =>
    cases hps
    refine ⟨m, rows, ?_, h, .refl _, fun _ _ => ⟨rfl, rfl⟩⟩
    cases n <;> rfl
  | cons a ps ih =>
    obtain ⟨rfl, _, hps⟩ := hps
    cases n with
    | zero => exact (Nat.not_succ_le_zero _ hn).elim
    | succ n =>
      let b := (hkey a).toNat % size
      have hb : b < size := Nat.mod_lt _ hsize
      obtain ⟨ha, hnd'⟩ := List.nodup_cons.1 hnd
      have hpush := pushed_setPrev a b m
      have hslots := slots_push rows hb a
      have hhead : m.tab b = (rows b).head? := Threaded.head (h.chain b hb)
      have hother : ∀ q, q ≠ a → q ∉ slots size rows →
          ((m.link a b).setPrev a none).next q = m.next q ∧
          ((m.link a b).setPrev a none).prev q = m.prev q := by
        intro q hqa hq
        have hqb : m.tab b ≠ some q := by
          rw [hhead]
          intro he
          exact hq (mem_slots.2 ⟨b, hb, List.mem_of_head? he⟩)
        rw [hpush.next, hpush.prev, if_neg hqa, if_neg hqa, if_neg hqb]
        exact ⟨rfl, rfl⟩
      have hrest : Threaded ((m.link a b).setPrev a none).next
          ((m.link a b).setPrev a none).prev some (some a) (m.next a) ps := by
        apply hps.congr
        intro q hq
        apply hother q
        · rintro rfl
          exact ha (List.mem_append_left _ hq)
        · exact fun hq' => (List.nodup_append.1 hnd').2.2 q hq q hq' rfl
      have hholds := h.push hpush hb rfl (fun hm => ha (List.mem_append_right _ hm))
      have hmiddle : (ps ++ slots size (Function.update rows b (a :: rows b))).Perm
          (a :: (ps ++ slots size rows)) := (hslots.append_left ps).trans List.perm_middle
      obtain ⟨m', rows', hrun, hmoved⟩ := ih hholds hrest (hmiddle.nodup_iff.2 hnd)
        (Nat.le_of_succ_le_succ hn)
      refine ⟨m', rows', ?_, hmoved.holds, hmoved.perm.trans hmiddle, fun q hq => ?_⟩
      · rw [relinkBucket, hindex_pos _ hsize]
        exact hrun
      · obtain ⟨hqa, hq'⟩ := not_or.1 (mt List.mem_cons.2 hq)
        obtain ⟨hnext, hprev⟩ := hmoved.rest q (fun hm => hq (hmiddle.mem_iff.1 hm))
        obtain ⟨hnext', hprev'⟩ := hother q hqa fun hm => hq' (List.mem_append_right _ hm)
        exact ⟨hnext.trans hnext', hprev.trans hprev'⟩

/-- The entries of the first old buckets are in the new ones, the others are as they were. -/
theorem relinkBuckets_moved (h : m.Holds hkey n rows) (hsize : 0 < size)
    (hrounds : ∀ b, b < n → (rows b).length ≤ rounds) (hi : i ≤ n) :
    ∃ m' rows', relinkBuckets hkey size rounds m.tab i { m with tab := fun _ => none } = some m' ∧
      Moved m m' hkey size (fun _ => []) rows' (slots i rows) := by
  induction i with
  | zero =>
    have hempty := slots_empty (α := Iter) size
    refine ⟨_, fun _ => [], rfl, ⟨fun b _ => rfl, nofun, ?_⟩, .refl _, fun _ _ => ⟨rfl, rfl⟩⟩
    rw [hempty]
    exact List.nodup_nil
  | succ i ih =>
    have hin : i < n := hi
    obtain ⟨m₁, rows₁, hrun₁, hmoved₁⟩ := ih (Nat.le_of_lt hin)
    obtain ⟨hholds₁, hperm₁, hrest₁⟩ := hmoved₁
    rw [slots_empty, List.append_nil] at hperm₁ hrest₁
    have hnew : ∀ q ∈ rows i, q ∉ slots i rows := by
      intro q hq hqi
      obtain ⟨b, hb, hqb⟩ := mem_slots.1 hqi
      exact rows_disjoint h.nodup (Nat.lt_trans hb hin) hin (Nat.ne_of_lt hb) hqb hq
    have hrow : Threaded m₁.next m₁.prev some none (m.tab i) (rows i) :=
      Threaded.congr (h.chain i hin) fun q hq => hrest₁ q (hnew q hq)
    have hnd : (rows i ++ slots size rows₁).Nodup := by
      refine List.nodup_append.2 ⟨nodup_row h.nodup hin, hholds₁.nodup, ?_⟩
      rintro q hq _ hq' rfl
      exact hnew q hq (hperm₁.mem_iff.1 hq')
    obtain ⟨m', rows', hrun, hholds, hperm, hrest⟩ := relinkBucket_moved hholds₁ hsize hrow hnd
      (hrounds i hin)
    have hall : (rows i ++ slots size rows₁).Perm (slots (i + 1) rows) := by
      rw [slots_succ]
      exact (hperm₁.append_left _).trans List.perm_append_comm
    refine ⟨m', rows', ?_, hholds, ?_, fun q hq => ?_⟩
    · rw [relinkBuckets, hrun₁]
      exact hrun
    · rw [slots_empty, List.append_nil]
      exact hperm.trans hall
    · rw [slots_empty, List.append_nil] at hq
      have hqi : q ∉ slots i rows := by
        intro hm
        rw [slots_succ] at hq
        exact hq (List.mem_append_left _ hm)
      obtain ⟨hnext, hprev⟩ := hrest q (fun hm => hq (hall.mem_iff.1 hm))
      obtain ⟨hnext', hprev'⟩ := hrest₁ q hqi
      exact ⟨hnext.trans hnext', hprev.trans hprev'⟩

/-- There is no index in a table of size 0. -/
theorem relinkBucket_zero (hkey : Iter → UInt32) (n : Nat) (p : Iter) (m : HashLinks) :
    relinkBucket hkey 0 n (some p) m = none := by
  cases n <;> rfl

theorem relinkBuckets_zero {old : Nat → Option Iter} (hb : b < i) (hold : old b = some p)
    (rounds : Nat) (m : HashLinks) : relinkBuckets hkey 0 rounds old i m = none := by
  induction i with
  | zero => exact (Nat.not_lt_zero b hb).elim
  | succ i ih =>
    rw [relinkBuckets, Option.bind_eq_bind]
    rcases Nat.lt_succ_iff_lt_or_eq.1 hb with hlt | rfl
    · rw [ih hlt, Option.bind_none]
    · cases relinkBuckets hkey 0 rounds old b m with
      | none => rfl
      | some m' => rw [Option.bind_some, hold, relinkBucket_zero]

end Links

section Rehash
variable {K D : Type} {t : HashTable K D} {rows : Nat → List Iter}

/-- The size behind a call of `rehash`. -/
def HashTable.grown (t : HashTable K D) (grow : Bool) : Nat :=
  if grow = true ∧ 0 < grownSize t.size then (grownSize t.size).toNat else t.size

/-- No entry is lost or there twice when the table grows. -/
theorem rehash_holds (h : t.links.Holds t.hkey t.size rows)
    (hrounds : ∀ b, b < t.size → (rows b).length ≤ t.blocks.length + 1)
    (hgrow : grow = false ∨ grownSize t.size ≠ 0) :
    ∃ links rows', rehash t grow = some { t with links, size := t.grown grow } ∧
      links.Holds t.hkey (t.grown grow) rows' ∧
      (slots (t.grown grow) rows').Perm (slots t.size rows) ∧
      ∀ q, q ∉ slots t.size rows →
        links.next q = t.links.next q ∧ links.prev q = t.links.prev q := by
  by_cases hpos : grow = true ∧ 0 < grownSize t.size
  · obtain ⟨hg, hsize⟩ := hpos
    have hgrown : t.grown grow = (grownSize t.size).toNat := if_pos ⟨hg, hsize⟩
    have hno : ¬ (grownSize t.size < 0 ∨ grow = false) := by
      rw [not_or, hg]
      exact ⟨Int.not_lt.2 (Int.le_of_lt hsize), Bool.noConfusion⟩
    obtain ⟨links, rows', hrun, hholds, hperm, hrest⟩ :=
      relinkBuckets_moved h (Int.pos_iff_toNat_pos.1 hsize) hrounds (Nat.le_refl t.size)
    rw [slots_empty, List.append_nil] at hperm hrest
    refine ⟨links, rows', ?_, ?_, ?_, hrest⟩
    · simp only [rehash, if_neg hno, hrun, hgrown, Option.bind_eq_bind, Option.bind_some,
        Option.pure_def]
    · rw [hgrown]
      exact hholds
    · rw [hgrown]
      exact hperm
  · have hgrown : t.grown grow = t.size := if_neg hpos
    have hno : grownSize t.size < 0 ∨ grow = false := by
      rcases hgrow with hg | hne
      · exact .inr hg
      · cases grow with
        | false => exact .inr rfl
        | true => exact .inl (Int.lt_iff_le_and_ne.2 ⟨Int.not_lt.1 fun hlt => hpos ⟨rfl, hlt⟩, hne⟩)
    rw [hgrown]
    exact ⟨t.links, rows, if_pos hno, h, .refl _, fun _ _ => ⟨rfl, rfl⟩⟩

/-- An entry has no place in a table of size 0. -/
theorem rehash_zero (h : t.links.Holds t.hkey t.size rows) (hp : p ∈ slots t.size rows)
    (hgrow : grow = true) (hzero : grownSize t.size = 0) : rehash t grow = none := by
  have hno : ¬ (grownSize t.size < 0 ∨ grow = false) := by
    rw [hzero, hgrow]
    exact fun hor => hor.elim (Int.lt_irrefl 0) Bool.noConfusion
  obtain ⟨b, hb, hpb⟩ := mem_slots.1 hp
  have hhead : t.links.tab b = (rows b).head? := Threaded.head (h.chain b hb)
  rw [List.head?_eq_some_head (List.ne_nil_of_mem hpb)] at hhead
  rw [rehash, if_neg hno, hzero, Int.toNat_zero, relinkBuckets_zero hb hhead]
  rfl

end Rehash

section Refinement
variable {K D Q E : Type} {ops : HashOps K D} {content : K → Q} {hash : Q → UInt32}
  {value : Option D → E}

/-- `compare` compares the contents of keys, `hash` depends on them, and the copies that are made
have the same contents. -/
structure HashOps.Faithful (ops : HashOps K D) (content : K → Q) (hash : Q → UInt32)
    (value : Option D → E) : Prop where
  compare : ∀ a b, ops.compare (some a) (some b) = 0 ↔ content a = content b
  hash : ∀ a, ops.hash (some a) = hash (content a)
  keyDup : ∀ keyDup, ops.keyDup = some keyDup → ∀ a,
    ∃ b, keyDup (some a) = some b ∧ content b = content a
  dataDup : ∀ dataDup, ops.dataDup = some dataDup → ∀ data, value (dataDup data) = value data

/-- A finite map with the number of buckets and the entries of the keys, the newest first. -/
structure HashSpec (Q E : Type) where
  size : Nat
  live : List (Iter × Q)
  map : Finmap fun _ : Q => E

/-- The number of buckets behind a call of `rehash`. -/
def HashSpec.grown (s : HashSpec Q E) (grow : Bool) : Nat :=
  if s.live.length > sdHashFulltab * s.size ∧ grow = true ∧ 0 < grownSize s.size then
    (grownSize s.size).toNat
  else s.size

section Spec
variable [DecidableEq Q]

def HashSpec.lookadd (s : HashSpec Q E) (a : Allocator) (grow : Bool) (q : Q) (value : E) :
    HashSpec Q E :=
  if q ∈ s.map then s
  else ⟨s.grown grow, (a.pick (s.live.map Prod.fst), q) :: s.live, s.map.insert q value⟩

/-- A key gets another value. -/
def HashSpec.assign (s : HashSpec Q E) (q : Q) (value : E) : HashSpec Q E :=
  { s with map := s.map.insert q value }

def HashSpec.remove (s : HashSpec Q E) : Option (Iter × Q) → HashSpec Q E
  | none => s
  | some e => ⟨s.size, s.live.erase e, s.map.erase e.2⟩

def HashSpec.entry (s : HashSpec Q E) (q : Q) : Option (Iter × Q) := s.live.find? (·.2 = q)

def HashSpec.answer (s : HashSpec Q E) (q : Q) : HashAnswer E :=
  ⟨(s.entry q).map Prod.fst, s.map.lookup q, s.map.keys.card⟩

def HashSpec.silent (s : HashSpec Q E) : HashAnswer E := ⟨none, none, s.map.keys.card⟩

/-- What the calls do to a finite map. -/
def hashSpec (content : K → Q) (value : Option D → E) (s : HashSpec Q E) :
    HashCall K D → HashSpec Q E × HashAnswer E
  | .add a grow key data =>
    let s := (s.lookadd a grow (content key) (value none)).assign (content key) (value data)
    (s, s.answer (content key))
  | .lookadd a grow key =>
    let s := s.lookadd a grow (content key) (value none)
    (s, s.answer (content key))
  | .del key => (s.remove (s.entry (content key)), (s.remove (s.entry (content key))).silent)
  | .iterDel p =>
    let s := s.remove (s.live.find? (·.1 = p))
    (s, s.silent)
  | .clear => (⟨s.size, [], ∅⟩, ⟨none, none, 0⟩)
  | .lookup key => (s, s.answer (content key))

/-- An entry is deleted while it is in the table. -/
def HashCall.valid (s : HashSpec Q E) : HashCall K D → Prop
  | .iterDel p => p ∈ s.live.map Prod.fst
  | _ => True

/-- The index of the bucket of a key fits in an `int`. -/
def HashSpec.indexed (s : HashSpec Q E) (hash : Q → UInt32) (q : Q) : Prop :=
  (hash q).toNat % s.size < 2147483648

/-- A new key does not make the table grow to size 0. -/
def HashSpec.grows (s : HashSpec Q E) (grow : Bool) (q : Q) : Prop :=
  q ∈ s.map ∨ s.live.length ≤ sdHashFulltab * s.size ∨ grow = false ∨ grownSize s.size ≠ 0

/-- The calls that look for a key have its bucket in the reach of an `int`, and those that add one
never grow the table to size 0. -/
def HashCall.ok (content : K → Q) (hash : Q → UInt32) (s : HashSpec Q E) : HashCall K D → Prop
  | .add _ grow key _ => s.indexed hash (content key) ∧ s.grows grow (content key)
  | .lookadd _ grow key => s.indexed hash (content key) ∧ s.grows grow (content key)
  | .del key => s.indexed hash (content key)
  | .iterDel _ => True
  | .clear => True
  | .lookup key => s.indexed hash (content key)

end Spec

/-- The buckets of entries that hold the bindings of a finite map. -/
structure HashTable.Table (t : HashTable K D) (ops : HashOps K D) (content : K → Q)
    (hash : Q → UInt32) (value : Option D → E) (s : HashSpec Q E) (rows : Nat → List Iter) :
    Prop where
  operations : t.ops = ops
  size : t.size = s.size
  pos : 0 < t.size
  blocks : t.blocks = s.live.map Prod.fst
  nodup : t.blocks.Nodup
  links : t.links.Holds t.hkey t.size rows
  perm : (slots t.size rows).Perm t.blocks
  keyed : ∀ e ∈ s.live, ∃ k, t.key e.1 = some k ∧ content k = e.2
  hashed : ∀ e ∈ s.live, t.hkey e.1 = hash e.2
  foreach : ∀ e ∈ s.live, t.foreach e.1 = 0
  nelem : t.nelem = s.map.keys.card
  binds : Binds s.map Prod.snd (fun e => value (t.data e.1)) s.live

def HashTable.Refines (t : HashTable K D) (ops : HashOps K D) (content : K → Q)
    (hash : Q → UInt32) (value : Option D → E) (s : HashSpec Q E) : Prop :=
  ∃ rows, t.Table ops content hash value s rows

theorem bucketAt_of_lt (h : i < 2147483648) : bucketAt i = some i := by
  rw [bucketAt, toInt_of_lt h, if_neg (Int.not_lt.2 (Int.natCast_nonneg i)), Int.toNat_natCast]

theorem bucketAt_of_le (h : 2147483648 ≤ i) (hi : i < 4294967296) : bucketAt i = none := by
  rw [bucketAt, toInt_of_le h hi]
  exact if_pos (by omega)

theorem hindex_lt (h : UInt32) (n : Nat) : h.toNat % n < 4294967296 :=
  Nat.lt_of_le_of_lt (Nat.mod_le _ _) h.toNat_lt

section Table
variable {t : HashTable K D} {s : HashSpec Q E} {rows : Nat → List Iter}

theorem HashTable.Table.row_length (h : t.Table ops content hash value s rows)
    (hb : b < t.size) : (rows b).length ≤ t.blocks.length := by
  obtain ⟨rest, hrest⟩ := slots_update rows hb
  have hrow := hrest (rows b)
  rw [Function.update_eq_self] at hrow
  rw [← h.perm.length_eq, hrow.length_eq, List.length_append]
  exact Nat.le_add_right _ _

theorem HashTable.Table.entry_of_row (h : t.Table ops content hash value s rows)
    (hb : b < t.size) (hp : p ∈ rows b) : ∃ e ∈ s.live, e.1 = p := by
  have hmem : p ∈ t.blocks := h.perm.mem_iff.1 (mem_slots.2 ⟨b, hb, hp⟩)
  rw [h.blocks] at hmem
  exact List.mem_map.1 hmem

theorem HashTable.Table.row_of_entry (h : t.Table ops content hash value s rows)
    (he : e ∈ s.live) :
    (hash e.2).toNat % t.size < t.size ∧ e.1 ∈ rows ((hash e.2).toNat % t.size) := by
  have hmem : e.1 ∈ t.blocks := by
    rw [h.blocks]
    exact List.mem_map_of_mem he
  obtain ⟨b, hb, hp⟩ := mem_slots.1 (h.perm.mem_iff.2 hmem)
  have hbucket := h.links.bucket b hb e.1 hp
  rw [h.hashed e he] at hbucket
  rw [hbucket]
  exact ⟨hb, hp⟩

/-- What the loop over the bucket of a key finds. -/
theorem HashTable.Table.find (h : t.Table ops content hash value s rows)
    (hops : ops.Faithful content hash value) (key : K) (hidx : s.indexed hash (content key)) :
    (∃ e ∈ s.live, e.2 = content key ∧ t.find (some key) = some (some e.1)) ∨
      (content key ∉ s.map ∧ t.find (some key) = some none) := by
  let b := (hash (content key)).toNat % t.size
  have hb : b < t.size := Nat.mod_lt _ h.pos
  have hlt : b < 2147483648 := by
    rw [HashSpec.indexed, ← h.size] at hidx
    exact hidx
  have hrun : t.find (some key) =
      some ((rows b).find? fun p => t.ops.compare (some key) (t.key p) = 0) := by
    rw [HashTable.find, h.operations, hops.hash, hindex_pos _ h.pos, Option.bind_eq_bind,
      Option.bind_some, bucketAt_of_lt hlt]
    exact findNode_eq _ (h.links.chain b hb) (Nat.le_succ_of_le (h.row_length hb))
  rw [hrun]
  cases hfind : (rows b).find? fun p => t.ops.compare (some key) (t.key p) = 0 with
  | some p =>
    obtain ⟨e, he, rfl⟩ := h.entry_of_row hb (List.mem_of_find?_eq_some hfind)
    obtain ⟨k, hk, hcontent⟩ := h.keyed e he
    have hsame := List.find?_some hfind
    rw [decide_eq_true_iff, hk, h.operations, hops.compare] at hsame
    exact .inl ⟨e, he, (hsame.trans hcontent).symm, rfl⟩
  | none =>
    refine .inr ⟨h.binds.notMem fun e he heq => ?_, rfl⟩
    obtain ⟨_, hp⟩ := h.row_of_entry he
    rw [heq] at hp
    obtain ⟨k, hk, hcontent⟩ := h.keyed e he
    have hno := List.find?_eq_none.1 hfind e.1 hp
    rw [decide_eq_true_iff, hk, h.operations, hops.compare] at hno
    exact hno (heq.symm.trans hcontent.symm)

/-- The bucket of a key has a negative index. -/
theorem HashTable.Table.find_none (h : t.Table ops content hash value s rows)
    (hops : ops.Faithful content hash value) (key : K)
    (hidx : ¬ s.indexed hash (content key)) :
    t.find (some key) = none := by
  have hle : 2147483648 ≤ (hash (content key)).toNat % t.size := by
    rw [h.size]
    exact Nat.not_lt.1 hidx
  rw [HashTable.find, h.operations, hops.hash, hindex_pos _ h.pos, Option.bind_eq_bind,
    Option.bind_some,
    bucketAt_of_le hle (hindex_lt _ _)]
  rfl

section Steps
variable [DecidableEq Q]

theorem HashTable.Table.entry_eq (h : t.Table ops content hash value s rows) (he : e ∈ s.live) :
    s.entry e.2 = some e := find?_of_nodup_map h.binds.nodup_keys he

theorem HashTable.Table.entry_absent (h : t.Table ops content hash value s rows)
    (hq : q ∉ s.map) : s.entry q = none := by
  apply List.find?_eq_none.2
  intro e he heq
  rw [decide_eq_true_iff] at heq
  exact hq (heq ▸ h.binds.mem (List.perm_cons_erase he))

theorem HashTable.Table.answer_entry (h : t.Table ops content hash value s rows)
    (he : e ∈ s.live) : t.answer value (some e.1) = s.answer e.2 := by
  have hlookup := h.binds.lookup (List.perm_cons_erase he)
  rw [HashTable.answer, HashSpec.answer, h.entry_eq he, hlookup, h.nelem]
  rfl

theorem HashTable.Table.answer_absent (h : t.Table ops content hash value s rows)
    (hq : q ∉ s.map) : t.answer value none = s.answer q := by
  rw [HashTable.answer, HashSpec.answer, h.entry_absent hq, Finmap.lookup_eq_none.2 hq, h.nelem]
  rfl

end Steps

end Table

end Refinement

end BigBox.Timer
