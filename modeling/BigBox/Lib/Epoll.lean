import Mathlib.Logic.Function.Basic

namespace BigBox
set_option autoImplicit true

def epollIn : UInt32 := 0x1
def epollOut : UInt32 := 0x4
def epollErr : UInt32 := 0x8
def epollHup : UInt32 := 0x10
def epollRdHup : UInt32 := 0x2000

/-- `struct epoll_event`. A null `data.ptr` is `none`. -/
structure EpollEvent where
  events : UInt32
  ptr : Option Nat

/-- What the kernel has for the file descriptors of an epoll instance. -/
abbrev EpollSet := Int → Option EpollEvent

inductive EpollOp where
  | add
  | mod
  | del

/-- `epoll_ctl` fails where the descriptor is already there, or is not. -/
def epollCtl (op : EpollOp) (fd : Int) (event : EpollEvent) (set : EpollSet) : EpollSet × Int :=
  match op, set fd with
  | .add, none => (Function.update set fd (some event), 0)
  | .mod, some _ => (Function.update set fd (some event), 0)
  | .del, some _ => (Function.update set fd none, 0)
  | _, _ => (set, -1)

/-- A descriptor keeps what it has, or gets the new event. -/
theorem epollCtl_lookup {set : EpollSet} (h : (epollCtl op fd event set).1 fd' = some registered) :
    set fd' = some registered ∨ op ≠ .del ∧ fd' = fd ∧ registered = event := by
  unfold epollCtl at h
  split at h
  case h_4 => exact .inl h
  all_goals
    dsimp only at h
    rw [Function.update_apply] at h
    split at h
  case h_1.isTrue hfd => exact .inr ⟨nofun, hfd, (Option.some.inj h).symm⟩
  case h_2.isTrue hfd => exact .inr ⟨nofun, hfd, (Option.some.inj h).symm⟩
  case h_3.isTrue => cases h
  all_goals exact .inl h

end BigBox
