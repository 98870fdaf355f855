import BigBox.Lib.FiniteMap
import BigBox.Lib.TryRun

namespace BigBox.IniData
set_option autoImplicit true

abbrev Str := List UInt8

def INI_OK : Int := 0
def INI_NO : Int := -1
def INI_NODE_NOT_FOUND : Int := -8
def INI_TABLE_NOT_FOUND : Int := -16

structure IniNode where
  key : Str
  value : Option Str
  deriving DecidableEq, Repr

structure IniTable where
  name : Str
  count : Int
  nodes : List IniNode
  deriving DecidableEq, Repr

structure Ini where
  count : Int
  tables : List IniTable
  deriving DecidableEq, Repr

/-- An `int` that is counted up or down. -/
def counted (count step : Int) : Int := (count + step).bmod 4294967296

section Links
variable {α ρ : Type}

/-- A loop that stops at the first element of a kind and changes it. -/
def updateFirst (p : α → Bool) (f : α → α × ρ) : List α → Option (List α × ρ)
  | [] => none
  | a :: l =>
    if p a then some ((f a).1 :: l, (f a).2)
    else (updateFirst p f l).map fun r => (a :: r.1, r.2)

/-- The loop that unlinks the next element of a kind. -/
def unlinkNext (p : α → Bool) : List α → Option (List α)
  | [] => none
  | a :: l => if p a then some l else (unlinkNext p l).map (a :: ·)

/-- The first element is unlinked when it is of the kind, and also when it is the only one. -/
def unlink (p : α → Bool) : List α → Option (List α)
  | [] => none
  | a :: l => if l.isEmpty ∨ p a then some l else (unlinkNext p l).map (a :: ·)

end Links

def isTable (name : Str) (table : IniTable) : Bool := table.name = name

def isNode (key : Str) (node : IniNode) : Bool := node.key = key

def iniNew : Ini := ⟨0, []⟩

/-- `ini_table_new`: `count` is left as the memory has it. -/
def iniTableNew (name : Str) (memory : Int) : IniTable := ⟨name, memory, []⟩

def iniNodeNew (key : Str) (value : Option Str) : IniNode := ⟨key, value⟩

def iniTableAdd (ini : Ini) (name : Str) (memory : Int) : Ini × Int :=
  (⟨counted ini.count 1, ini.tables ++ [iniTableNew name memory]⟩, INI_OK)

def iniNodeAdd (tables : List IniTable) (name : Str) (node : IniNode) : List IniTable × Int :=
  match updateFirst (isTable name) (fun table =>
    ({ table with count := counted table.count 1, nodes := table.nodes ++ [node] }, ())) tables with
  | none => (tables, INI_NODE_NOT_FOUND)
  | some r => (r.1, INI_OK)

/-- The loop of `ini_table_has_key` ends at the last node without looking at it. -/
def hasKeyLoop (key : Str) : List IniNode → Int
  | [] => INI_NO
  | [_] => INI_NO
  | node :: next :: nodes => if isNode key node then INI_OK else hasKeyLoop key (next :: nodes)

def iniTableHasKey (tables : List IniTable) (name key : Str) : Int :=
  match tables.find? (isTable name) with
  | none => INI_NO
  | some table => hasKeyLoop key table.nodes

def iniTableGetKeyValue (tables : List IniTable) (name key : Str) : Option Str :=
  (tables.find? (isTable name)).bind fun table =>
    (table.nodes.find? (isNode key)).bind IniNode.value

def iniNodeDelWithKey (tables : List IniTable) (name key : Str) : List IniTable :=
  match updateFirst (isTable name) (fun table =>
    match unlink (isNode key) table.nodes with
    | none => (table, ())
    | some nodes => ({ table with count := counted table.count (-1), nodes := nodes }, ()))
      tables with
  | none => tables
  | some r => r.1

def iniTableDelWithName (ini : Ini) (name : Str) : Ini :=
  match unlink (isTable name) ini.tables with
  | none => ini
  | some tables => ⟨counted ini.count (-1), tables⟩

/-- `ini_node_set_key` and `ini_node_set_value`, with what is done to the node. -/
def iniNodeSet (tables : List IniTable) (name key : Str) (set : IniNode → IniNode) :
    List IniTable × Int :=
  if tables.isEmpty then (tables, INI_NO)
  else match updateFirst (isTable name) (fun table =>
    match updateFirst (isNode key) (fun node => (set node, ())) table.nodes with
    | none => (table, INI_NODE_NOT_FOUND)
    | some r => ({ table with nodes := r.1 }, INI_OK)) tables with
  | none => (tables, INI_TABLE_NOT_FOUND)
  | some r => r

def iniNodeSetKey (tables : List IniTable) (name key newKey : Str) : List IniTable × Int :=
  iniNodeSet tables name key fun node => { node with key := newKey }

def iniNodeSetValue (tables : List IniTable) (name key : Str) (newValue : Option Str) :
    List IniTable × Int :=
  iniNodeSet tables name key fun node => { node with value := newValue }

inductive IniCall where
  | tableAdd (name : Str) (memory : Int)
  | nodeAdd (name key : Str) (value : Option Str)
  | setKey (name key newKey : Str)
  | setValue (name key : Str) (newValue : Option Str)
  | nodeDel (name key : Str)
  | tableDel (name : Str)

/-- A call with what it returns. -/
def Ini.step (ini : Ini) : IniCall → Option (Ini × Option Int)
  | .tableAdd name memory =>
    some ((iniTableAdd ini name memory).1, some (iniTableAdd ini name memory).2)
  | .nodeAdd name key value =>
    let r := iniNodeAdd ini.tables name (iniNodeNew key value)
    some ({ ini with tables := r.1 }, some r.2)
  | .setKey name key newKey =>
    let r := iniNodeSetKey ini.tables name key newKey
    some ({ ini with tables := r.1 }, some r.2)
  | .setValue name key newValue =>
    let r := iniNodeSetValue ini.tables name key newValue
    some ({ ini with tables := r.1 }, some r.2)
  | .nodeDel name key => some ({ ini with tables := iniNodeDelWithKey ini.tables name key }, none)
  | .tableDel name => some (iniTableDelWithName ini name, none)

/-- Sections are added with new names, and keys are added or renamed to new keys. -/
def IniCall.Fresh (ini : Ini) : IniCall → Prop
  | .tableAdd name _ => ∀ table ∈ ini.tables, table.name ≠ name
  | .nodeAdd name key _ | .setKey name _ key =>
    ∀ table ∈ ini.tables, table.name = name → ∀ node ∈ table.nodes, node.key ≠ key
  | _ => True

instance (ini : Ini) (call : IniCall) : Decidable (call.Fresh ini) :=
  match call with
  | .tableAdd name _ => inferInstanceAs (Decidable (∀ table ∈ ini.tables, table.name ≠ name))
  | .nodeAdd name key _ | .setKey name _ key =>
    inferInstanceAs (Decidable (∀ table ∈ ini.tables, table.name = name →
      ∀ node ∈ table.nodes, node.key ≠ key))
  | .setValue .. | .nodeDel .. | .tableDel .. => inferInstanceAs (Decidable True)

/-- A finite map from keys to values, and one from sections to such maps. -/
abbrev Keys := Finmap fun _ : Str => Option Str

abbrev Sections := Finmap fun _ : Str => Keys

/-- A change of a key that is there. -/
def Sections.set (m : Sections) (name key : Str) (f : Keys → Option Str → Keys) :
    Sections × Option Int :=
  match m.lookup name with
  | none => (m, some (if m = ∅ then INI_NO else INI_TABLE_NOT_FOUND))
  | some keys =>
    match keys.lookup key with
    | none => (m, some INI_NODE_NOT_FOUND)
    | some value => (m.insert name (f keys value), some INI_OK)

/-- What the calls do to the sections. -/
def iniSpec (m : Sections) : IniCall → Sections × Option Int
  | .tableAdd name _ => (m.insert name ∅, some INI_OK)
  | .nodeAdd name key value =>
    match m.lookup name with
    | none => (m, some INI_NODE_NOT_FOUND)
    | some keys => (m.insert name (keys.insert key value), some INI_OK)
  | .setKey name key newKey => m.set name key fun keys value => (keys.erase key).insert newKey value
  | .setValue name key newValue => m.set name key fun keys _ => keys.insert key newValue
  | .nodeDel name key =>
    match m.lookup name with
    | none => (m, none)
    | some keys => (m.insert name (keys.erase key), none)
  | .tableDel name => (m.erase name, none)

/-- The data model shows its callers the sections, and its counts are right. -/
structure Ini.Shows (ini : Ini) (m : Sections) : Prop where
  hasKey : ∀ name key, iniTableHasKey ini.tables name key = INI_OK ↔
    ∃ keys, m.lookup name = some keys ∧ key ∈ keys
  getKeyValue : ∀ name key, iniTableGetKeyValue ini.tables name key =
    (m.lookup name).bind fun keys => (keys.lookup key).join
  count : ini.count = m.keys.card
  counts : ∀ table ∈ ini.tables, ∃ keys, m.lookup table.name = some keys ∧
    table.count = keys.keys.card

/-- A section is added to fewer than 2^31 - 1 others, in memory that is zero where its count is; no
key is added to a section; and no other section is deleted while there is only one. -/
def IniCall.Ok (m : Sections) : IniCall → Prop
  | .tableAdd _ memory => memory = 0 ∧ m.keys.card + 1 < 2147483648
  | .nodeAdd name _ _ => name ∉ m
  | .tableDel name => name ∈ m ∨ m.keys.card ≠ 1
  | _ => True

section Links
variable {α ρ : Type} {p : α → Bool} {l before behind : List α}

/-- The first element of a kind, if there is one. -/
theorem first_or_none (p : α → Bool) (l : List α) :
    (∃ before a behind, l = before ++ a :: behind ∧ p a = true ∧ ∀ b ∈ before, p b = false) ∨
      ∀ a ∈ l, p a = false := by
  induction l with
  | nil => exact .inr fun a ha => nomatch ha
  | cons a l ih =>
    cases ha : p a with
    | true => exact .inl ⟨[], a, l, rfl, ha, fun b hb => nomatch hb⟩
    | false =>
      rcases ih with ⟨before, b, behind, rfl, hb, hbefore⟩ | hnone
      · exact .inl ⟨a :: before, b, behind, rfl, hb, List.forall_mem_cons.2 ⟨ha, hbefore⟩⟩
      · exact .inr (List.forall_mem_cons.2 ⟨ha, hnone⟩)

theorem find_first (behind : List α) (hbefore : ∀ b ∈ before, p b = false) (ha : p a = true) :
    (before ++ a :: behind).find? p = some a := by
  rw [List.find?_append, List.find?_cons_of_pos ha,
    List.find?_eq_none.2 fun b hb => by rw [hbefore b hb]; exact Bool.false_ne_true]
  rfl

theorem updateFirst_first (f : α → α × ρ) (behind : List α) (hbefore : ∀ b ∈ before, p b = false)
    (ha : p a = true) :
    updateFirst p f (before ++ a :: behind) = some (before ++ (f a).1 :: behind, (f a).2) := by
  induction before with
  | nil => exact if_pos ha
  | cons b before ih =>
    obtain ⟨hb, hrest⟩ := List.forall_mem_cons.1 hbefore
    rw [List.cons_append, updateFirst, hb, if_neg Bool.false_ne_true, ih hrest]
    rfl

theorem updateFirst_none (f : α → α × ρ) (h : ∀ a ∈ l, p a = false) :
    updateFirst p f l = none := by
  induction l with
  | nil => rfl
  | cons a l ih =>
    obtain ⟨ha, hrest⟩ := List.forall_mem_cons.1 h
    rw [updateFirst, ha, if_neg Bool.false_ne_true, ih hrest]
    rfl

theorem unlinkNext_first (hbefore : ∀ b ∈ before, p b = false) (ha : p a = true) :
    unlinkNext p (before ++ a :: behind) = some (before ++ behind) := by
  induction before with
  | nil => exact if_pos ha
  | cons b before ih =>
    obtain ⟨hb, hrest⟩ := List.forall_mem_cons.1 hbefore
    rw [List.cons_append, unlinkNext, hb, if_neg Bool.false_ne_true, ih hrest]
    rfl

theorem unlinkNext_none (h : ∀ a ∈ l, p a = false) : unlinkNext p l = none := by
  induction l with
  | nil => rfl
  | cons a l ih =>
    obtain ⟨ha, hrest⟩ := List.forall_mem_cons.1 h
    rw [unlinkNext, ha, if_neg Bool.false_ne_true, ih hrest]
    rfl

theorem unlink_first (behind : List α) (hbefore : ∀ b ∈ before, p b = false) (ha : p a = true) :
    unlink p (before ++ a :: behind) = some (before ++ behind) := by
  cases before with
  | nil => exact if_pos (.inr ha)
  | cons b before =>
    obtain ⟨hb, hrest⟩ := List.forall_mem_cons.1 hbefore
    have hno : ¬ ((before ++ a :: behind).isEmpty = true ∨ p b = true) := by
      rintro (hempty | hb')
      · cases before <;> cases hempty
      · exact Bool.false_ne_true (hb.symm.trans hb')
    rw [List.cons_append, unlink, if_neg hno, unlinkNext_first hrest ha]
    rfl

/-- Nothing is unlinked where no element is of the kind, but in a list of one. -/
theorem unlink_none (h : ∀ a ∈ l, p a = false) (hone : l.length ≠ 1) : unlink p l = none := by
  cases l with
  | nil => rfl
  | cons a l =>
    obtain ⟨ha, hrest⟩ := List.forall_mem_cons.1 h
    have hno : ¬ (l.isEmpty = true ∨ p a = true) := by
      rintro (hempty | ha')
      · exact hone (congrArg (· + 1) (List.length_eq_zero_iff.2 (List.isEmpty_iff.1 hempty)))
      · exact Bool.false_ne_true (ha.symm.trans ha')
    rw [unlink, if_neg hno, unlinkNext_none hrest]
    rfl

end Links

theorem isTable_iff {table : IniTable} : isTable name table = true ↔ table.name = name :=
  decide_eq_true_iff

theorem isTable_false {table : IniTable} : isTable name table = false ↔ table.name ≠ name :=
  decide_eq_false_iff_not

theorem isNode_iff {node : IniNode} : isNode key node = true ↔ node.key = key :=
  decide_eq_true_iff

theorem isNode_false {node : IniNode} : isNode key node = false ↔ node.key ≠ key :=
  decide_eq_false_iff_not

section Tables

/-- The finite map of a list of nodes. -/
def keysOf (nodes : List IniNode) : Keys :=
  nodes.foldr (fun node keys => keys.insert node.key node.value) ∅

theorem keysOf_binds {nodes : List IniNode} (h : (nodes.map IniNode.key).Nodup) :
    Binds (keysOf nodes) IniNode.key IniNode.value nodes := by
  induction nodes with
  | nil => rfl
  | cons node nodes ih =>
    rw [List.map_cons, List.nodup_cons] at h
    have hbinds := ih h.2
    apply hbinds.insert
    apply hbinds.notMem
    intro e he heq
    exact h.1 (heq ▸ List.mem_map_of_mem he)

theorem keysOf_eq {nodes : List IniNode} (h : Binds keys IniNode.key IniNode.value nodes) :
    keysOf nodes = keys := (keysOf_binds h.nodup_keys).unique h

/-- A table with the keys of a finite map. -/
structure IniTable.Holds (table : IniTable) (keys : Keys) : Prop where
  binds : Binds keys IniNode.key IniNode.value table.nodes
  count : table.count = table.nodes.length
  few : table.nodes.length < 2147483648

/-- Tables with the sections of a finite map. -/
structure Ini.Holds (ini : Ini) (m : Sections) : Prop where
  binds : Binds m IniTable.name (fun table => keysOf table.nodes) ini.tables
  tables : ∀ table ∈ ini.tables, table.Holds (keysOf table.nodes)
  count : ini.count = ini.tables.length
  few : ini.tables.length < 2147483648

theorem iniNew_holds : iniNew.Holds ∅ :=
  ⟨binds_empty _ _, (fun _ h => nomatch h), rfl, Nat.zero_lt_succ _⟩

theorem counted_eq {c : Nat} (h : c + 1 < 2147483648) : counted c 1 = (c + 1 : Nat) := by
  apply Int.bmod_eq_of_le
  · omega
  · omega

theorem counted_down {c : Nat} (h : c + 1 < 2147483648) : counted (c + 1 : Nat) (-1) = c := by
  have hc : ((c + 1 : Nat) : Int) + -1 = c := by omega
  rw [counted, hc]
  apply Int.bmod_eq_of_le
  · omega
  · omega

end Tables

namespace IniTable.Holds
variable {table : IniTable}

/-- The node of a key, if it has one. -/
theorem find (h : table.Holds keys) (key : Str) :
    (∃ before node behind, table.nodes = before ++ node :: behind ∧ node.key = key ∧
      (∀ b ∈ before, isNode key b = false) ∧ keys.lookup key = some node.value) ∨
    ((∀ node ∈ table.nodes, isNode key node = false) ∧ keys.lookup key = none) := by
  rcases first_or_none (isNode key) table.nodes with ⟨before, node, behind, hsplit, hp, hb⟩ | hnone
  · have hkey := isNode_iff.1 hp
    have hperm : table.nodes.Perm (node :: (before ++ behind)) := hsplit ▸ List.perm_middle
    exact .inl ⟨before, node, behind, hsplit, hkey, hb, hkey ▸ h.binds.lookup hperm⟩
  · refine .inr ⟨hnone, Finmap.lookup_eq_none.2 (h.binds.notMem fun node hnode => ?_)⟩
    exact isNode_false.1 (hnone node hnode)

/-- One node changes, without getting the key of another. -/
theorem set (h : table.Holds keys) (hnodes : table.nodes = before ++ node :: behind)
    (hbinds : Binds keys' IniNode.key IniNode.value (before ++ node' :: behind)) :
    Holds { table with nodes := before ++ node' :: behind } keys' := by
  have hlen : (before ++ node' :: behind).length = table.nodes.length := by
    rw [hnodes, List.length_append, List.length_append]
    rfl
  exact ⟨hbinds, h.count.trans (congrArg Int.ofNat hlen.symm), hlen ▸ h.few⟩

theorem add (h : table.Holds keys) (hkey : key ∉ keys)
    (hfew : table.nodes.length + 1 < 2147483648) (value : Option Str) :
    Holds { table with count := counted table.count 1, nodes := table.nodes ++ [⟨key, value⟩] }
      (keys.insert key value) := by
  have hlen : (table.nodes ++ [(⟨key, value⟩ : IniNode)]).length = table.nodes.length + 1 :=
    List.length_append
  have hbinds := h.binds.insert (e := (⟨key, value⟩ : IniNode)) hkey
  refine ⟨hbinds.perm (List.perm_append_singleton _ _).symm, ?_, hlen ▸ hfew⟩
  rw [h.count, counted_eq hfew, hlen]

theorem erase (h : table.Holds keys) (hnodes : table.nodes = before ++ node :: behind) :
    Holds { table with count := counted table.count (-1), nodes := before ++ behind }
      (keys.erase node.key) := by
  have hperm : table.nodes.Perm (node :: (before ++ behind)) := hnodes ▸ List.perm_middle
  have hlen : table.nodes.length = (before ++ behind).length + 1 := hperm.length_eq
  have hfew := h.few
  have hless : (before ++ behind).length < 2147483648 := by omega
  refine ⟨h.binds.erase hperm, ?_, hless⟩
  rw [h.count, hlen]
  exact counted_down (by omega)

end IniTable.Holds

/-- The condition on a call that concerns the counts and the deletions: nothing absent is deleted
where there is only one entry. -/
def IniCall.Counts (m : Sections) : IniCall → Prop
  | .tableAdd _ memory => memory = 0 ∧ m.keys.card + 1 < 2147483648
  | .nodeAdd name _ _ => ∀ keys, m.lookup name = some keys → keys.keys.card + 1 < 2147483648
  | .nodeDel name key => ∀ keys, m.lookup name = some keys → key ∈ keys ∨ keys.keys.card ≠ 1
  | .tableDel name => name ∈ m ∨ m.keys.card ≠ 1
  | _ => True

section Keys

theorem ini_no_ne_ok : INI_NO ≠ INI_OK := by decide

theorem hasKeyLoop_iff {nodes : List IniNode} :
    hasKeyLoop key nodes = INI_OK ↔ ∃ node ∈ nodes.dropLast, node.key = key := by
  induction nodes with
  | nil => exact iff_of_false ini_no_ne_ok fun ⟨_, hnode, _⟩ => nomatch hnode
  | cons node nodes ih =>
    cases nodes with
    | nil => exact iff_of_false ini_no_ne_ok fun ⟨_, hnode, _⟩ => nomatch hnode
    | cons next nodes =>
      rw [hasKeyLoop, List.dropLast_cons_of_ne_nil (List.cons_ne_nil _ _)]
      split
      case isTrue hkey =>
        exact iff_of_true rfl ⟨node, List.mem_cons_self, isNode_iff.1 hkey⟩
      case isFalse hkey =>
        rw [ih]
        constructor
        · rintro ⟨e, he, heq⟩
          exact ⟨e, List.mem_cons_of_mem _ he, heq⟩
        · rintro ⟨e, he, heq⟩
          rcases List.mem_cons.1 he with rfl | he
          · exact (hkey (isNode_iff.2 heq)).elim
          · exact ⟨e, he, heq⟩

end Keys

namespace Ini.Holds
variable {ini : Ini} {m : Sections}

/-- The table of a section, if there is one. -/
theorem find (h : ini.Holds m) (name : Str) :
    (∃ before table behind, ini.tables = before ++ table :: behind ∧ table.name = name ∧
      (∀ b ∈ before, isTable name b = false) ∧ m.lookup name = some (keysOf table.nodes) ∧
      table.Holds (keysOf table.nodes)) ∨
    ((∀ table ∈ ini.tables, isTable name table = false) ∧ m.lookup name = none) := by
  rcases first_or_none (isTable name) ini.tables with
    ⟨before, table, behind, hsplit, hp, hb⟩ | hnone
  · have hname := isTable_iff.1 hp
    have hperm : ini.tables.Perm (table :: (before ++ behind)) := hsplit ▸ List.perm_middle
    have hmem : table ∈ ini.tables := hperm.mem_iff.2 List.mem_cons_self
    exact .inl ⟨before, table, behind, hsplit, hname, hb, hname ▸ h.binds.lookup hperm,
      h.tables table hmem⟩
  · refine .inr ⟨hnone, Finmap.lookup_eq_none.2 (h.binds.notMem fun table htable => ?_)⟩
    exact isTable_false.1 (hnone table htable)

/-- One table changes. -/
theorem update {table' : IniTable} (h : ini.Holds m)
    (hsplit : ini.tables = before ++ table :: behind) (htable' : table'.Holds keys')
    (hname : table'.name = table.name) :
    Holds { ini with tables := before ++ table' :: behind } (m.insert table.name keys') := by
  have hperm : ini.tables.Perm (table :: (before ++ behind)) := hsplit ▸ List.perm_middle
  have hlen : (before ++ table' :: behind).length = ini.tables.length := by
    rw [hsplit, List.length_append, List.length_append]
    rfl
  have hkeys := keysOf_eq htable'.binds
  have hbinds := h.binds.replace hperm hname
  rw [hkeys] at hbinds
  refine ⟨hbinds.perm List.perm_middle.symm, fun b hb => ?_, ?_, hlen ▸ h.few⟩
  · rcases List.mem_cons.1 (List.perm_middle.mem_iff.1 hb) with rfl | hb
    · exact hkeys.symm ▸ htable'
    · exact h.tables b (hperm.mem_iff.2 (List.mem_cons_of_mem _ hb))
  · exact h.count.trans (congrArg Int.ofNat hlen.symm)

theorem tableAdd (h : ini.Holds m) (hname : ∀ table ∈ ini.tables, table.name ≠ name)
    (hfew : m.keys.card + 1 < 2147483648) :
    (iniTableAdd ini name 0).1.Holds (m.insert name ∅) := by
  have hcard : m.keys.card = ini.tables.length := h.binds.card
  have hlen : (ini.tables ++ [iniTableNew name 0]).length = ini.tables.length + 1 :=
    List.length_append
  have hbinds := h.binds.insert (e := iniTableNew name 0) (h.binds.notMem hname)
  rw [hcard] at hfew
  have hcount : counted ini.count 1 = (ini.tables ++ [iniTableNew name 0]).length := by
    rw [h.count, counted_eq hfew, hlen]
  have hzero : ([] : List IniNode).length < 2147483648 := by decide
  refine ⟨hbinds.perm (List.perm_append_singleton _ _).symm, fun b hb => ?_, ?_, hlen ▸ hfew⟩
  · rcases List.mem_append.1 hb with hb | hb
    · exact h.tables b hb
    · rw [List.mem_singleton.1 hb]
      exact ⟨binds_empty _ _, rfl, hzero⟩
  · exact hcount

theorem tableDel (h : ini.Holds m) (hname : name ∈ m ∨ m.keys.card ≠ 1) :
    (iniTableDelWithName ini name).Holds (m.erase name) := by
  rw [iniTableDelWithName]
  rcases h.find name with ⟨before, table, behind, hsplit, rfl, hbefore, _, _⟩ | ⟨hnone, hlookup⟩
  · have hperm : ini.tables.Perm (table :: (before ++ behind)) := hsplit ▸ List.perm_middle
    have hlen : ini.tables.length = (before ++ behind).length + 1 := hperm.length_eq
    have hfew := h.few
    have hless : (before ++ behind).length < 2147483648 := by omega
    rw [hsplit, unlink_first _ hbefore (isTable_iff.2 rfl)]
    refine ⟨h.binds.erase hperm, fun b hb => ?_, ?_, hless⟩
    · exact h.tables b (hperm.mem_iff.2 (List.mem_cons_of_mem _ hb))
    · rw [h.count, hlen]
      exact counted_down (by omega)
  · have hmem : name ∉ m := Finmap.lookup_eq_none.1 hlookup
    have hone : ini.tables.length ≠ 1 := by
      rw [← h.binds.card]
      exact hname.resolve_left hmem
    rw [unlink_none hnone hone, erase_of_notMem hmem]
    exact h

theorem nodeAdd (h : ini.Holds m)
    (hkey : ∀ table ∈ ini.tables, table.name = name → ∀ node ∈ table.nodes, node.key ≠ key)
    (hfew : ∀ keys, m.lookup name = some keys → keys.keys.card + 1 < 2147483648)
    (value : Option Str) :
    ∃ ini', ini.step (.nodeAdd name key value) =
      some (ini', (iniSpec m (.nodeAdd name key value)).2) ∧
      ini'.Holds (iniSpec m (.nodeAdd name key value)).1 := by
  simp only [Ini.step, iniNodeAdd, iniSpec]
  rcases h.find name with ⟨before, table, behind, hsplit, rfl, hbefore, hlookup, htable⟩ |
    ⟨hnone, hlookup⟩
  · have hmem : table ∈ ini.tables := hsplit ▸ List.mem_append_right _ List.mem_cons_self
    have hcard := hfew _ hlookup
    rw [htable.binds.card] at hcard
    have hnew := htable.add (htable.binds.notMem (hkey table hmem rfl)) hcard value
    rw [hsplit, updateFirst_first _ _ hbefore (isTable_iff.2 rfl), hlookup]
    exact ⟨_, rfl, h.update hsplit hnew rfl⟩
  · rw [updateFirst_none _ hnone, hlookup]
    exact ⟨ini, rfl, h⟩

theorem nodeDel (h : ini.Holds m)
    (hone : ∀ keys, m.lookup name = some keys → key ∈ keys ∨ keys.keys.card ≠ 1) :
    ∃ ini', ini.step (.nodeDel name key) = some (ini', (iniSpec m (.nodeDel name key)).2) ∧
      ini'.Holds (iniSpec m (.nodeDel name key)).1 := by
  simp only [Ini.step, iniNodeDelWithKey, iniSpec]
  rcases h.find name with ⟨before, table, behind, hsplit, rfl, hbefore, hlookup, htable⟩ |
    ⟨hnone, hlookup⟩
  · rw [hsplit, updateFirst_first _ _ hbefore (isTable_iff.2 rfl), hlookup]
    rcases htable.find key with ⟨front, node, rear, hnodes, rfl, hfront, _⟩ | ⟨habsent, hkey⟩
    · have hunlink := unlink_first rear hfront (isNode_iff.2 rfl)
      rw [← hnodes] at hunlink
      simp only [hunlink]
      exact ⟨_, rfl, h.update hsplit (htable.erase hnodes) rfl⟩
    · have hmem : key ∉ keysOf table.nodes := Finmap.lookup_eq_none.1 hkey
      have hlen : table.nodes.length ≠ 1 := by
        rw [← htable.binds.card]
        exact (hone _ hlookup).resolve_left hmem
      simp only [unlink_none habsent hlen, erase_of_notMem hmem]
      exact ⟨_, rfl, h.update hsplit htable rfl⟩
  · rw [updateFirst_none _ hnone, hlookup]
    exact ⟨ini, rfl, h⟩

/-- A change of a node's key or value. -/
theorem nodeSet {g : IniNode → IniNode} {f : Keys → Option Str → Keys} (h : ini.Holds m)
    (hset : ∀ table ∈ ini.tables, table.name = name → ∀ before node behind,
      table.nodes = before ++ node :: behind → node.key = key →
        Binds (f (keysOf table.nodes) node.value) IniNode.key IniNode.value
          (before ++ g node :: behind)) :
    ∃ tables' code, iniNodeSet ini.tables name key g = (tables', code) ∧
      (m.set name key f).2 = some code ∧
      Holds { ini with tables := tables' } (m.set name key f).1 := by
  have hempty : ini.tables.isEmpty = true ↔ m = ∅ := by
    rw [List.isEmpty_iff]
    constructor
    · intro hnil
      apply eq_empty_of_card
      rw [h.binds.card, hnil]
      rfl
    · rintro rfl
      apply List.eq_nil_of_length_eq_zero
      rw [← h.binds.card]
      rfl
  rw [iniNodeSet, Sections.set]
  rcases h.find name with ⟨before, table, behind, hsplit, rfl, hbefore, hlookup, htable⟩ |
    ⟨hnone, hlookup⟩
  · have hmem : table ∈ ini.tables := hsplit ▸ List.mem_append_right _ List.mem_cons_self
    have hsome : ¬ ini.tables.isEmpty = true := by
      rw [List.isEmpty_iff]
      exact List.ne_nil_of_mem hmem
    rw [if_neg hsome, hsplit, updateFirst_first _ _ hbefore (isTable_iff.2 rfl), hlookup]
    rcases htable.find key with ⟨front, node, rear, hnodes, rfl, hfront, hkey⟩ | ⟨habsent, hkey⟩
    · have hupdate := updateFirst_first (fun node => (g node, ())) rear hfront
        (isNode_iff.2 rfl)
      rw [← hnodes] at hupdate
      have hbinds := hset table hmem rfl front node rear hnodes rfl
      simp only [hupdate, hkey]
      exact ⟨_, _, rfl, rfl, h.update hsplit (htable.set hnodes hbinds) rfl⟩
    · simp only [updateFirst_none _ habsent, hkey]
      exact ⟨_, _, rfl, rfl, hsplit ▸ h⟩
  · rw [hlookup, updateFirst_none _ hnone]
    by_cases hm : m = ∅
    · rw [if_pos (hempty.2 hm), if_pos hm]
      exact ⟨_, _, rfl, rfl, h⟩
    · rw [if_neg fun hnil => hm (hempty.1 hnil), if_neg hm]
      exact ⟨_, _, rfl, rfl, h⟩

theorem setValue (h : ini.Holds m) (name key : Str) (newValue : Option Str) :
    ∃ ini', ini.step (.setValue name key newValue) =
      some (ini', (iniSpec m (.setValue name key newValue)).2) ∧
      ini'.Holds (iniSpec m (.setValue name key newValue)).1 := by
  have hset : ∀ table ∈ ini.tables, table.name = name → ∀ before node behind,
      table.nodes = before ++ node :: behind → node.key = key →
        Binds ((keysOf table.nodes).insert key newValue) IniNode.key IniNode.value
          (before ++ { node with value := newValue } :: behind) := by
    rintro table hmem - before node behind hnodes rfl
    have hperm : table.nodes.Perm (node :: (before ++ behind)) := hnodes ▸ List.perm_middle
    have hkey : ({ node with value := newValue } : IniNode).key = node.key := rfl
    have hbinds := (h.tables table hmem).binds.replace hperm hkey
    exact hbinds.perm List.perm_middle.symm
  obtain ⟨tables', code, hrun, hcode, hholds⟩ := h.nodeSet
    (g := fun node => { node with value := newValue }) (f := fun keys _ => keys.insert key newValue)
    hset
  refine ⟨{ ini with tables := tables' }, ?_, hholds⟩
  rw [Ini.step, iniNodeSetValue, hrun]
  exact congrArg (fun code => some (_, code)) hcode.symm

theorem setKey (h : ini.Holds m)
    (hkey : ∀ table ∈ ini.tables, table.name = name → ∀ node ∈ table.nodes, node.key ≠ newKey)
    (key : Str) :
    ∃ ini', ini.step (.setKey name key newKey) =
      some (ini', (iniSpec m (.setKey name key newKey)).2) ∧
      ini'.Holds (iniSpec m (.setKey name key newKey)).1 := by
  have hset : ∀ table ∈ ini.tables, table.name = name → ∀ before node behind,
      table.nodes = before ++ node :: behind → node.key = key →
        Binds (((keysOf table.nodes).erase key).insert newKey node.value) IniNode.key IniNode.value
          (before ++ { node with key := newKey } :: behind) := by
    rintro table hmem hname before node behind hnodes rfl
    have hperm : table.nodes.Perm (node :: (before ++ behind)) := hnodes ▸ List.perm_middle
    have herase := (h.tables table hmem).binds.erase hperm
    have habsent : newKey ∉ (keysOf table.nodes).erase node.key := by
      apply herase.notMem
      intro e he
      exact hkey table hmem hname e (hperm.mem_iff.2 (List.mem_cons_of_mem _ he))
    have hbinds := herase.insert (e := { node with key := newKey }) habsent
    exact hbinds.perm List.perm_middle.symm
  obtain ⟨tables', code, hrun, hcode, hholds⟩ := h.nodeSet
    (g := fun node => { node with key := newKey })
    (f := fun keys value => (keys.erase key).insert newKey value) hset
  refine ⟨{ ini with tables := tables' }, ?_, hholds⟩
  rw [Ini.step, iniNodeSetKey, hrun]
  exact congrArg (fun code => some (_, code)) hcode.symm

/-- A call keeps the tables as the sections of the finite map. -/
theorem step (h : ini.Holds m) (call : IniCall) (hfresh : call.Fresh ini) (hok : call.Counts m) :
    ∃ ini', ini.step call = some (ini', (iniSpec m call).2) ∧ ini'.Holds (iniSpec m call).1 := by
  cases call with
  | tableAdd name memory =>
    obtain ⟨rfl, hfew⟩ := hok
    exact ⟨_, rfl, h.tableAdd hfresh hfew⟩
  | nodeAdd name key value => exact h.nodeAdd hfresh hok value
  | setKey name key newKey => exact h.setKey hfresh key
  | setValue name key newValue => exact h.setValue name key newValue
  | nodeDel name key => exact h.nodeDel hok
  | tableDel name => exact ⟨_, rfl, h.tableDel hok⟩

theorem getKeyValue (h : ini.Holds m) (name key : Str) :
    iniTableGetKeyValue ini.tables name key =
      (m.lookup name).bind fun keys => (keys.lookup key).join := by
  rw [iniTableGetKeyValue]
  rcases h.find name with ⟨before, table, behind, hsplit, rfl, hbefore, hlookup, htable⟩ |
    ⟨hnone, hlookup⟩
  · rw [hsplit, find_first _ hbefore (isTable_iff.2 rfl), hlookup, Option.bind_some,
      Option.bind_some]
    rcases htable.find key with ⟨front, node, rear, hnodes, rfl, hfront, hkey⟩ | ⟨habsent, hkey⟩
    · rw [hnodes, find_first _ hfront (isNode_iff.2 rfl), ← hnodes, hkey]
      rfl
    · rw [hkey, List.find?_eq_none.2 fun b hb => by rw [habsent b hb]; exact Bool.false_ne_true]
      rfl
  · rw [hlookup, List.find?_eq_none.2 fun b hb => by rw [hnone b hb]; exact Bool.false_ne_true]
    rfl

/-- A key is found unless it is that of the last node. -/
theorem hasKey (h : ini.Holds m) (name key : Str) :
    iniTableHasKey ini.tables name key = INI_OK ↔
      ∃ table ∈ ini.tables, table.name = name ∧ ∃ node ∈ table.nodes.dropLast, node.key = key := by
  rw [iniTableHasKey]
  rcases h.find name with ⟨before, table, behind, hsplit, rfl, hbefore, hlookup, _⟩ | ⟨hnone, _⟩
  · have hmem : table ∈ ini.tables := hsplit ▸ List.mem_append_right _ List.mem_cons_self
    rw [hsplit, find_first _ hbefore (isTable_iff.2 rfl), ← hsplit]
    change hasKeyLoop key table.nodes = INI_OK ↔ _
    rw [hasKeyLoop_iff]
    constructor
    · exact fun hnode => ⟨table, hmem, rfl, hnode⟩
    · rintro ⟨other, hother, hname, hnode⟩
      rwa [List.inj_on_of_nodup_map h.binds.nodup_keys hother hmem hname] at hnode
  · rw [List.find?_eq_none.2 fun b hb => by rw [hnone b hb]; exact Bool.false_ne_true]
    apply iff_of_false ini_no_ne_ok
    rintro ⟨table, htable, rfl, _⟩
    exact isTable_false.1 (hnone table htable) rfl

theorem counts (h : ini.Holds m) : ∀ table ∈ ini.tables, ∃ keys,
    m.lookup table.name = some keys ∧ table.count = keys.keys.card := by
  intro table htable
  have hlookup := h.binds.lookup (List.perm_cons_erase htable)
  have hsection := h.tables table htable
  refine ⟨_, hlookup, ?_⟩
  rw [hsection.count, hsection.binds.card]

theorem count_eq (h : ini.Holds m) : ini.count = m.keys.card := by rw [h.count, h.binds.card]

/-- Sections without keys are shown. -/
theorem shows (h : ini.Holds m) (hempty : ∀ name keys, m.lookup name = some keys → keys = ∅) :
    ini.Shows m where
  hasKey := by
    intro name key
    rw [h.hasKey]
    apply iff_of_false
    · rintro ⟨table, htable, _, node, hnode, _⟩
      have hkeys := hempty _ _ (h.binds.lookup (List.perm_cons_erase htable))
      have hcard := (h.tables table htable).binds.card
      rw [hkeys] at hcard
      rw [List.eq_nil_of_length_eq_zero hcard.symm] at hnode
      cases hnode
    · rintro ⟨keys, hlookup, hkey⟩
      rw [hempty name keys hlookup] at hkey
      exact Finmap.notMem_empty hkey
  getKeyValue := h.getKeyValue
  count := h.count_eq
  counts := h.counts

end Ini.Holds

section Runs
variable {ini ini' : Ini} {m : Sections}

/-- Sections without keys. -/
structure Ini.Bare (ini : Ini) (m : Sections) : Prop where
  holds : ini.Holds m
  empty : ∀ name keys, m.lookup name = some keys → keys = ∅

theorem IniCall.Ok.counts {call : IniCall} (h : call.Ok m) (hbare : ini.Bare m) :
    call.Counts m := by
  cases call with
  | tableAdd name memory => exact h
  | nodeAdd name key value =>
    intro keys hlookup
    exact (h (Finmap.mem_of_lookup_eq_some hlookup)).elim
  | setKey name key newKey => trivial
  | setValue name key newValue => trivial
  | nodeDel name key =>
    intro keys hlookup
    rw [hbare.empty name keys hlookup]
    exact .inr (by decide)
  | tableDel name => exact h

theorem Ini.Bare.insert (h : ini.Bare m) (hlookup : (m.insert name ∅).lookup other = some keys) :
    keys = ∅ := by
  by_cases hname : other = name
  · rw [hname, Finmap.lookup_insert] at hlookup
    exact (Option.some.inj hlookup).symm
  · rw [Finmap.lookup_insert_of_ne _ hname] at hlookup
    exact h.empty other keys hlookup

theorem Ini.Bare.set (h : ini.Bare m) (f : Keys → Option Str → Keys) :
    (m.set name key f).1 = m := by
  rw [Sections.set]
  cases hlookup : m.lookup name with
  | none => rfl
  | some keys =>
    rw [h.empty name keys hlookup]
    rfl

theorem Ini.Bare.step (h : ini.Bare m) (call : IniCall) (hfresh : call.Fresh ini)
    (hok : call.Ok m) :
    ∃ ini', ini.step call = some (ini', (iniSpec m call).2) ∧ ini'.Bare (iniSpec m call).1 := by
  obtain ⟨ini', hstep, hholds⟩ := h.holds.step call hfresh (hok.counts h)
  refine ⟨ini', hstep, hholds, ?_⟩
  intro name keys
  cases call with
  | tableAdd other memory => exact h.insert
  | nodeAdd other key value =>
    simp only [iniSpec, Finmap.lookup_eq_none.2 hok]
    exact h.empty name keys
  | setKey other key newKey =>
    simp only [iniSpec, h.set]
    exact h.empty name keys
  | setValue other key newValue =>
    simp only [iniSpec, h.set]
    exact h.empty name keys
  | nodeDel other key =>
    simp only [iniSpec]
    cases hlookup : m.lookup other with
    | none => exact h.empty name keys
    | some keys' =>
      rw [h.empty other keys' hlookup]
      exact h.insert
  | tableDel other =>
    intro hlookup
    by_cases hname : name = other
    · rw [hname, iniSpec, Finmap.lookup_erase] at hlookup
      cases hlookup
    · rw [iniSpec, Finmap.lookup_erase_ne hname] at hlookup
      exact h.empty name keys hlookup

/-- Any other call goes wrong. -/
theorem Ini.Bare.wrong (h : ini.Bare m) (call : IniCall) (hok : ¬ call.Ok m)
    (hstep : ini.step call = some (ini', (iniSpec m call).2)) :
    ¬ ini'.Shows (iniSpec m call).1 := by
  have hcard := h.holds.binds.card
  have hfew := h.holds.few
  intro hshows
  cases call with
  | tableAdd name memory =>
    cases hstep
    apply hok
    constructor
    · obtain ⟨keys, hlookup, hmemory⟩ := hshows.counts (iniTableNew name memory)
        (List.mem_append_right _ List.mem_cons_self)
      cases (Finmap.lookup_insert m).symm.trans hlookup
      exact hmemory
    · have hcount : counted ini.count 1 = (m.insert name ∅).keys.card := hshows.count
      rw [h.holds.count, counted, Int.bmod_def] at hcount
      omega
  | nodeAdd name key value =>
    have hmem : name ∈ m := Classical.not_not.1 hok
    rcases h.holds.find name with ⟨before, table, behind, hsplit, rfl, hbefore, hlookup, htable⟩ |
      ⟨_, hlookup⟩
    · have hkeys := h.empty _ _ hlookup
      have hnodes : table.nodes = [] := by
        apply List.eq_nil_of_length_eq_zero
        rw [← htable.binds.card, hkeys]
        rfl
      have hno : iniTableHasKey ini'.tables table.name key = INI_NO := by
        simp only [Ini.step, iniNodeAdd] at hstep
        rw [hsplit, updateFirst_first _ _ hbefore (isTable_iff.2 rfl), hnodes] at hstep
        obtain ⟨rfl, _⟩ := Prod.mk.inj (Option.some.inj hstep)
        have hfind := find_first (a := { table with
            count := counted table.count 1, nodes := [iniNodeNew key value] })
          behind hbefore (isTable_iff.2 rfl)
        rw [iniTableHasKey]
        simp only [List.nil_append, hfind]
        rfl
      have hyes := (hshows.hasKey table.name key).2 ⟨Finmap.insert key value ∅, by
        simp only [iniSpec, hlookup, hkeys]
        exact Finmap.lookup_insert m, Finmap.mem_insert.2 (.inl rfl)⟩
      exact ini_no_ne_ok (hno.symm.trans hyes)
    · exact Finmap.lookup_eq_none.1 hlookup hmem
  | setKey name key newKey => exact hok trivial
  | setValue name key newValue => exact hok trivial
  | nodeDel name key => exact hok trivial
  | tableDel name =>
    obtain ⟨hname, hone⟩ := not_or.1 hok
    have hcardOne : m.keys.card = 1 := Classical.not_not.1 hone
    cases hstep
    have hcount : (iniTableDelWithName ini name).count = (m.erase name).keys.card := hshows.count
    obtain ⟨table, htables⟩ := List.length_eq_one_iff.1 (hcard.symm.trans hcardOne)
    rw [erase_of_notMem hname, hcardOne, iniTableDelWithName, htables] at hcount
    have hzero : counted ini.count (-1) = 1 := hcount
    rw [h.holds.count, htables] at hzero
    have hno : counted (1 : Nat) (-1) ≠ 1 := by decide
    exact hno hzero

theorem Ini.Bare.follows_iff (h : ini.Bare m) (calls : List IniCall)
    (hfresh : Admits Ini.step (fun ini call => call.Fresh ini) ini calls) :
    Follows Ini.step iniSpec Ini.Shows ini m calls ↔ Meets iniSpec IniCall.Ok m calls := by
  apply follows_iff_of_keeps (R := Ini.Bare) (P := Ini.Shows) _ _ _ h hfresh
  · exact fun ini m h => h.holds.shows h.empty
  · exact fun ini m call h hfresh hok => h.step call hfresh hok
  · exact fun ini m call h _ hok ini' hstep => h.wrong call hok hstep

theorem iniNew_bare : iniNew.Bare ∅ := ⟨iniNew_holds, fun _ _ hlookup => nomatch hlookup⟩

/-- The calls on a new data model show its sections if and only if no key is ever added to one, the
memory of each has a zero for its count, and no other section is deleted while there is one. -/
theorem ini_data_follows_iff (calls : List IniCall)
    (hfresh : Admits Ini.step (fun ini call => call.Fresh ini) iniNew calls) :
    Follows Ini.step iniSpec Ini.Shows iniNew ∅ calls ↔ Meets iniSpec IniCall.Ok ∅ calls :=
  iniNew_bare.follows_iff calls hfresh

/-- Two sections, one of them deleted. -/
def sectionCalls : List IniCall :=
  [.tableAdd [97] 0, .tableAdd [98] 0, .nodeDel [97] [107], .tableDel [97]]

theorem sectionCalls_fresh :
    Admits Ini.step (fun ini call => call.Fresh ini) iniNew sectionCalls := by
  refine ⟨by decide, fun ini₁ _ hstep₁ => ?_⟩
  cases hstep₁
  refine ⟨by decide, fun ini₂ _ hstep₂ => ?_⟩
  cases hstep₂
  refine ⟨trivial, fun ini₃ _ hstep₃ => ?_⟩
  cases hstep₃
  exact ⟨trivial, fun _ _ _ => trivial⟩

theorem ini_data_follows_iff_sections :
    Follows Ini.step iniSpec Ini.Shows iniNew ∅ sectionCalls ↔
      Meets iniSpec IniCall.Ok ∅ sectionCalls :=
  ini_data_follows_iff sectionCalls sectionCalls_fresh

/-- A section with one key, which is not found. -/
theorem not_ini_data_follows : ¬ ∀ calls : List IniCall,
    Admits Ini.step (fun ini call => call.Fresh ini) iniNew calls →
      Follows Ini.step iniSpec Ini.Shows iniNew ∅ calls := by
  intro h
  have hfresh : Admits Ini.step (fun ini call => call.Fresh ini) iniNew
      [.tableAdd [97] 0, .nodeAdd [97] [107] none] := by
    refine ⟨by decide, fun ini₁ _ hstep₁ => ?_⟩
    cases hstep₁
    exact ⟨by decide, fun _ _ _ => trivial⟩
  have hmeets := (iniNew_bare.follows_iff _ hfresh).1 (h _ hfresh)
  exact hmeets.2.1 (Finmap.mem_insert.2 (.inl rfl))

end Runs

end BigBox.IniData
