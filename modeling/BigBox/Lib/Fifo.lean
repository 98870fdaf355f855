import BigBox.Lib.TryRun
import Mathlib.Data.List.Rotate

namespace BigBox
set_option autoImplicit true

/-- `dst` with `src` copied over it from offset `off` on. -/
def copyAt (dst : List α) (off : Nat) (src : List α) : List α :=
  dst.take off ++ src ++ dst.drop (off + src.length)

theorem length_copyAt (dst : List α) (off : Nat) (src : List α)
    (h : off + src.length ≤ dst.length) : (copyAt dst off src).length = dst.length := by
  simp only [copyAt, List.length_append, List.length_take, List.length_drop]
  omega

@[simp] theorem copyAt_nil (dst : List α) (off : Nat) : copyAt dst off [] = dst := by
  simp only [copyAt, List.append_nil, List.length_nil, Nat.add_zero, List.take_append_drop]

/-- Two pieces up to the end. -/
theorem copyAt_fill (block : List α) {pad bytes : List α} (hoff : i + pad.length = off)
    (hlen : off + bytes.length = block.length) :
    copyAt (copyAt block i pad) off bytes = block.take i ++ pad ++ bytes := by
  have hall : (copyAt block i pad).length = block.length := length_copyAt _ _ _ (by omega)
  have htake : (block.take i ++ pad).length = off := by
    rw [List.length_append, List.length_take]
    omega
  rw [copyAt, hlen, ← hall, List.drop_length, List.append_nil, copyAt, ← htake, List.take_left]

theorem copyAt_zero (dst src : List α) : copyAt dst 0 src = src ++ dst.drop src.length := by
  simp only [copyAt, List.take_zero, List.nil_append, Nat.zero_add]

/-- The `n` cells of a circular store that start at index `s`. -/
def window (cells : List α) (s n : Nat) : List α := (cells.rotate s).take n

/-- The circular store `cells'` is `cells` with `data` laid over it from index `w` on. -/
structure Overlaid (cells : List α) (w : Nat) (data cells' : List α) : Prop where
  length_eq : cells'.length = cells.length
  rotate_eq : cells'.rotate w = data ++ (cells.rotate w).drop data.length

/-- An index that has passed the end of a store of `n` cells at most once. -/
def WrapsTo (n i j : Nat) : Prop := i = j ∨ i = j + n

theorem WrapsTo.rotate {cells : List α} (h : WrapsTo cells.length i j) :
    cells.rotate i = cells.rotate j := by
  rcases h with he | he
  · rw [he]
  · rw [he, ← List.rotate_rotate, ← List.length_rotate (l := cells) (n := j),
      List.rotate_length]

theorem length_window (h : n ≤ cells.length) : (window cells s n).length = n := by
  simp only [window, List.length_take, List.length_rotate]
  omega

theorem window_take (cells : List α) (s : Nat) (h : k ≤ n) :
    (window cells s n).take k = window cells s k := by
  simp only [window, List.take_take, Nat.min_eq_left h]

/-- A window that does not pass the end of the store is a slice of it. -/
theorem window_eq_slice (cells : List α) (h : s + n ≤ cells.length) :
    window cells s n = (cells.drop s).take n := by
  rw [window, List.rotate_eq_drop_append_take (by omega), List.take_append_of_le_length]
  rw [List.length_drop]
  omega

/-- A window that reaches the end of the store continues at its start. -/
theorem window_eq_wrap (cells : List α) (hs : s ≤ cells.length) (hn : cells.length ≤ s + n)
    (hn' : n ≤ cells.length) :
    window cells s n = cells.drop s ++ cells.take (n - (cells.length - s)) := by
  rw [window, List.rotate_eq_drop_append_take hs, List.take_append, List.length_drop,
    List.take_of_length_le (by rw [List.length_drop]; omega), List.take_take,
    Nat.min_eq_left (by omega)]

theorem rotate_append_take (l : List α) (h : k ≤ l.length) :
    l.rotate k = l.drop k ++ l.take k := List.rotate_eq_drop_append_take h

theorem rotate_of_front {a : List α} (b : List α) (h : a.length = k) :
    (a ++ b).rotate k = b ++ a := by
  rw [← h, List.rotate_append_length_eq]

/-- Dropping cells at the front of a window moves its start. -/
theorem window_drop (cells : List α) (hk : k ≤ n) (hn : n ≤ cells.length)
    (hw : WrapsTo cells.length (s + k) s') :
    (window cells s n).drop k = window cells s' (n - k) := by
  have hk' : k ≤ (cells.rotate s).length := by rw [List.length_rotate]; omega
  rw [window, window, ← hw.rotate, ← List.rotate_rotate, rotate_append_take _ hk',
    List.take_append_of_le_length (by rw [List.length_drop, List.length_rotate]; omega),
    List.drop_take]

theorem overlaid_copyAt (cells : List α) (h : w + data.length ≤ cells.length) :
    Overlaid cells w data (copyAt cells w data) := by
  have hl : (cells.take w).length = w := by rw [List.length_take]; omega
  refine ⟨length_copyAt _ _ _ h, ?_⟩
  rw [rotate_append_take _ (by rw [length_copyAt _ _ _ h]; omega),
    rotate_append_take cells (by omega), copyAt, List.append_assoc,
    List.drop_append_of_le_length (by omega), List.drop_of_length_le (by omega),
    List.take_append_of_le_length (by omega), List.take_of_length_le (by omega),
    List.drop_append_of_le_length (by rw [List.length_drop]; omega), List.drop_drop]
  simp only [List.nil_append, List.append_assoc]

/-- Copying up to the end of the store and the rest to its start overlays it circularly. -/
theorem overlaid_wrap (cells : List α) (hw : w ≤ cells.length)
    (hd : cells.length ≤ w + data.length) (hd' : data.length ≤ cells.length) :
    Overlaid cells w data
      (copyAt (copyAt cells w (data.take (cells.length - w))) 0
        (data.drop (cells.length - w))) := by
  have ht : (data.take (cells.length - w)).length = cells.length - w := by
    rw [List.length_take]; omega
  have hr : (data.drop (cells.length - w)).length = data.length - (cells.length - w) :=
    List.length_drop
  have hlen : (copyAt cells w (data.take (cells.length - w))).length = cells.length :=
    length_copyAt _ _ _ (by omega)
  have hin : copyAt cells w (data.take (cells.length - w)) =
      cells.take w ++ data.take (cells.length - w) := by
    rw [copyAt, List.drop_of_length_le (by omega), List.append_nil]
  have hlw : (cells.take w).length = w := by rw [List.length_take]; omega
  have hout : copyAt (copyAt cells w (data.take (cells.length - w))) 0
      (data.drop (cells.length - w)) =
      (data.drop (cells.length - w) ++
        (cells.take w).drop (data.length - (cells.length - w))) ++
          data.take (cells.length - w) := by
    rw [copyAt, hin, List.take_zero, List.nil_append, Nat.zero_add, hr,
      List.drop_append_of_le_length (by omega), List.append_assoc]
  refine ⟨by rw [length_copyAt _ _ _ (by omega), hlen], ?_⟩
  have hfront : (data.drop (cells.length - w) ++
      (cells.take w).drop (data.length - (cells.length - w))).length = w := by
    rw [List.length_append, hr, List.length_drop, hlw]; omega
  have hrest : (cells.drop w ++ cells.take w).drop data.length =
      (cells.take w).drop (data.length - (cells.length - w)) := by
    rw [List.drop_append, List.length_drop,
      List.drop_of_length_le (l := cells.drop w) (by rw [List.length_drop]; omega),
      List.nil_append]
  rw [hout, rotate_of_front _ hfront, ← List.append_assoc, List.take_append_drop,
    rotate_append_take cells hw, hrest]

/-- The rotation that shows a window first, after an overlay right behind that window. -/
theorem Overlaid.rotate_behind {cells : List α} (h : Overlaid cells w data cells')
    (hw : WrapsTo cells.length (s + n) w) (hn : n ≤ cells.length) :
    cells'.rotate w = data ++ ((cells.rotate s).drop n ++ window cells s n).drop data.length := by
  rw [h.rotate_eq, ← hw.rotate, ← List.rotate_rotate,
    rotate_append_take _ (by rw [List.length_rotate]; exact hn)]
  rfl

/-- An overlay of free cells right behind a window appends to the window. -/
theorem Overlaid.window_append {cells : List α} (h : Overlaid cells w data cells')
    (hw : WrapsTo cells.length (s + n) w) (hn : n + data.length ≤ cells.length) :
    window cells' s (n + data.length) = window cells s n ++ data := by
  have hlen : (window cells s n).length = n := length_window (by omega)
  have hrot := h.rotate_behind hw (by omega)
  have hfree : ((cells.rotate s).drop n).length = cells.length - n := by
    rw [List.length_drop, List.length_rotate]
  rw [List.drop_append_of_le_length (by omega), ← List.append_assoc] at hrot
  have hback : cells'.rotate s = (cells'.rotate w).rotate (cells.length - n) := by
    rw [← h.length_eq] at hw
    rw [← hw.rotate, List.rotate_rotate, Nat.add_assoc, ← h.length_eq,
      Nat.add_sub_cancel' (by rw [h.length_eq]; omega)]
    exact (WrapsTo.rotate (.inr rfl)).symm
  have hk : (data ++ ((cells.rotate s).drop n).drop data.length).length = cells.length - n := by
    rw [List.length_append, List.length_drop, hfree]; omega
  rw [window, hback, hrot, rotate_of_front _ hk, ← List.append_assoc,
    List.take_append_of_le_length (by rw [List.length_append]; omega),
    List.take_of_length_le (by rw [List.length_append]; omega)]

/-- An overlay that overruns a window leaves a full store: the youngest cells of the window
and the data behind them. -/
theorem Overlaid.window_overrun {cells : List α} (h : Overlaid cells w data cells')
    (hw : WrapsTo cells.length (s + n) w) (hn : n ≤ cells.length)
    (hd : data.length ≤ cells.length) (hover : cells.length ≤ n + data.length)
    (hw' : WrapsTo cells.length (w + data.length) w') :
    window cells' w' cells.length =
      (window cells s n).drop (n + data.length - cells.length) ++ data := by
  have hrot := h.rotate_behind hw hn
  have hfree : ((cells.rotate s).drop n).length = cells.length - n := by
    rw [List.length_drop, List.length_rotate]
  have hlen : (window cells s n).length = n := length_window hn
  rw [← h.length_eq] at hw'
  rw [window, ← hw'.rotate, ← List.rotate_rotate, hrot, rotate_of_front _ rfl,
    List.drop_append, hfree, List.drop_of_length_le (by omega), List.nil_append,
    List.take_of_length_le (by rw [List.length_append, List.length_drop]; omega)]
  congr 2
  omega

/-- The last `cap` items of a list, or all of it. -/
def keepLast (cap : Nat) (xs : List α) : List α := xs.drop (xs.length - cap)

theorem length_keepLast (cap : Nat) (xs : List α) :
    (keepLast cap xs).length = min cap xs.length := by
  simp only [keepLast, List.length_drop]
  omega

theorem keepLast_of_le {xs : List α} (h : xs.length ≤ cap) : keepLast cap xs = xs := by
  rw [keepLast, Nat.sub_eq_zero_of_le h, List.drop_zero]

/-- Of what comes last, only its own last items matter. -/
theorem keepLast_append (cap : Nat) (xs ys : List α) :
    keepLast cap (xs ++ keepLast cap ys) = keepLast cap (xs ++ ys) := by
  rcases Nat.le_total ys.length cap with h | h
  · rw [keepLast_of_le h]
  · have hlen : (keepLast cap ys).length = cap := by rw [length_keepLast, Nat.min_eq_left h]
    have hxs : (xs ++ ys).length - cap = xs.length + (ys.length - cap) := by
      rw [List.length_append]
      omega
    have hr : keepLast cap (xs ++ ys) = keepLast cap ys := by
      rw [keepLast, hxs, List.drop_append, List.drop_of_length_le (l := xs) (by omega),
        List.nil_append, Nat.add_sub_cancel_left, keepLast]
    rw [hr, keepLast, List.length_append, hlen, Nat.add_sub_cancel, List.drop_left]

/-- A first-in first-out queue that never holds more than `cap` items. -/
@[ext] structure Fifo (α : Type u) (cap : Nat) where
  items : List α
  bounded : items.length ≤ cap

namespace Fifo
variable {α : Type u} {cap : Nat}

def empty (α : Type u) (cap : Nat) : Fifo α cap := ⟨[], Nat.zero_le _⟩

def free (q : Fifo α cap) : Nat := cap - q.items.length

/-- Append as much of `xs` as there is room for. -/
def put (q : Fifo α cap) (xs : List α) : Fifo α cap where
  items := q.items ++ xs.take q.free
  bounded := by
    have h := q.bounded
    simp only [free, List.length_append, List.length_take]
    omega

/-- Remove the `n` oldest items, or all there are. -/
def get (q : Fifo α cap) (n : Nat) : Fifo α cap where
  items := q.items.drop n
  bounded := by
    have h := q.bounded
    simp only [List.length_drop]
    omega

/-- A call of the queue's clients. -/
inductive Call (α : Type u) where
  | put (xs : List α)
  | get (n : Nat)

/-- What a call reports: how many items it moved, the items it delivered and how many are
stored afterwards. -/
structure Reply (α : Type u) where
  count : Nat
  items : List α
  stored : Nat
  deriving DecidableEq, Repr

def step (q : Fifo α cap) : Call α → Fifo α cap × Reply α
  | .put xs => (q.put xs, ⟨min xs.length q.free, [], (q.put xs).items.length⟩)
  | .get n => (q.get n, ⟨min n q.items.length, q.items.take n, (q.get n).items.length⟩)

/-- The items a call has handed over to the queue, by its own report. -/
def accepted : Call α → Reply α → List α
  | .put xs, r => xs.take r.count
  | .get _, _ => []

/-- Nothing is lost, duplicated or reordered: what was stored and what was accepted is what
was delivered and what is stored. -/
theorem run_history (q : Fifo α cap) (cs : List (Call α)) :
    q.items ++ (List.zipWith accepted cs (run step q cs).2).flatten =
      ((run step q cs).2.map Reply.items).flatten ++ (run step q cs).1.items := by
  induction cs generalizing q with
  | nil => simp only [run_nil, List.zipWith_nil_right, List.map_nil, List.flatten_nil,
      List.append_nil, List.nil_append]
  | cons c cs ih =>
    simp only [run_cons_fst, run_cons_snd, List.zipWith_cons_cons, List.map_cons,
      List.flatten_cons, List.append_assoc, ← ih]
    cases c with
    | put xs =>
      have ht : xs.take (min xs.length q.free) = xs.take q.free := by
        rw [Nat.min_comm, ← List.take_eq_take_min]
      simp only [step, put, accepted, ht, List.nil_append, List.append_assoc]
    | get n =>
      simp only [step, get, accepted, List.nil_append, ← List.append_assoc,
        List.take_append_drop]

/-- Any run of `get` calls delivers the stored items in order. -/
theorem run_gets (q : Fifo α cap) (ns : List Nat) :
    ((run step q (ns.map .get)).2.map Reply.items).flatten = q.items.take ns.sum := by
  induction ns generalizing q with
  | nil => simp only [List.map_nil, run_nil, List.flatten_nil, List.sum_nil, List.take_zero]
  | cons n ns ih =>
    simp only [List.map_cons, run_cons_snd, List.flatten_cons, ih, step, get,
      List.sum_cons, List.take_add]

end Fifo

end BigBox
