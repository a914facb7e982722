import Mathlib.Data.Finset.Basic
import Mathlib.Logic.Function.Basic

/-! The part of the operating system the server talks to: the descriptor table,
the interest sets of the epoll instances, and the C integer conversions. -/
namespace Netier
abbrev Fd := Int
abbrev Mask := BitVec 32

def epollin : Mask := 0x1
def epollout : Mask := 0x4
def epollerr : Mask := 0x8
def epollhup : Mask := 0x10
def epollexclusive : Mask := 0x10000000
def epollwakeup : Mask := 0x20000000
def epollet : Mask := 0x80000000

/-- The mask asks for `EPOLLEXCLUSIVE`. -/
def exclusive (m : Mask) : Bool := (m &&& epollexclusive) != 0

/-- The bits that go with `EPOLLEXCLUSIVE`. -/
def exclusiveBits : Mask :=
  epollin ||| epollout ||| epollerr ||| epollhup ||| epollwakeup ||| epollet ||| epollexclusive

/-- The errno values that some branch of the source tells apart. -/
inductive Errno where
  | eagain
  | ewouldblock
  | other (code : Nat)
  deriving DecidableEq, Repr

/-- `errno == EWOULDBLOCK || errno == EAGAIN` -/
def Errno.again (e : Errno) : Bool := e = .ewouldblock || e = .eagain

/-- The ways a call can end other than by returning. -/
inductive Fault where
  | assertion
  | exit (errmsg : String)
  | useAfterFree
  | uninitialised
  | outOfRange
  | stackOverflow
  | unbounded
  deriving DecidableEq, Repr

/-- Conversion of an integer to a 32-bit `int`. -/
def toInt (n : Int) : Int := (n + 2147483648) % 4294967296 - 2147483648

theorem toInt_of_lt {n : Int} (h0 : 0 ≤ n) (h : n < 2147483648) : toInt n = n := by
  unfold toInt
  omega

theorem toInt_le {n : Int} (h0 : 0 ≤ n) : toInt n ≤ n := by
  unfold toInt
  omega

/-- An `assert` that is compiled in. -/
def assert {σ : Type} (condition : Bool) : EStateM Fault σ Unit :=
  if condition then pure () else throw .assertion

/-- `struct epoll_event`: the mask and the address stored in `data.ptr`. -/
structure EpollEvent where
  events : Mask
  ptr : Nat
  deriving DecidableEq, Repr

inductive EpollOp where
  | add
  | mod
  | del
  deriving DecidableEq, Repr

/-- The open descriptors of sockets, the interest set of each epoll instance, and the number of
streams that `fopen` has opened. -/
structure Kernel where
  fds : Finset Fd
  interest : Nat → Fd → Option EpollEvent
  files : Nat

namespace Kernel

def setInterest (k : Kernel) (ep : Nat) (fd : Fd) (ev : Option EpollEvent) : Kernel :=
  { k with interest := Function.update k.interest ep (Function.update (k.interest ep) fd ev) }

/-- The masks that `epoll_ctl(2)` takes for an entry. `EPOLLEXCLUSIVE` can be given when the entry
is added, with few other bits, and not be given, kept or taken away by a change. -/
def settable : Option EpollEvent → Mask → Bool
  | none, m => !exclusive m || (m &&& ~~~exclusiveBits) == 0
  | some e, m => !exclusive e.events && !exclusive m

/-- `epoll_ctl(2)`; `none` is the result -1. A descriptor must be open, absent for an addition
and present for a change or a removal, and the mask one that can be set. -/
def epollCtl (k : Kernel) (ep : Nat) (op : EpollOp) (fd : Fd) (ev : EpollEvent) : Option Kernel :=
  if fd ∉ k.fds then none
  else match op, k.interest ep fd with
    | .add, none => if settable none ev.events then some (k.setInterest ep fd (some ev)) else none
    | .mod, some e => if settable (some e) ev.events then some (k.setInterest ep fd (some ev)) else none
    | .del, some _ => some (k.setInterest ep fd none)
    | _, _ => none

/-- `close(2)`: closing the only descriptor of a socket drops it from every epoll set. -/
def close (k : Kernel) (fd : Fd) : Kernel :=
  { k with fds := k.fds.erase fd
           interest := fun ep => Function.update (k.interest ep) fd none }

@[simp] theorem setInterest_fds (k : Kernel) (ep : Nat) (fd : Fd) (ev : Option EpollEvent) :
    (k.setInterest ep fd ev).fds = k.fds := rfl

@[simp] theorem setInterest_self (k : Kernel) (ep : Nat) (fd : Fd) (ev : Option EpollEvent) :
    (k.setInterest ep fd ev).interest ep fd = ev := by
  simp [setInterest]

theorem setInterest_other (k : Kernel) {ep ep' : Nat} {fd fd' : Fd} (ev : Option EpollEvent)
    (h : ¬ (ep' = ep ∧ fd' = fd)) :
    (k.setInterest ep fd ev).interest ep' fd' = k.interest ep' fd' := by
  by_cases he : ep' = ep
  · subst he
    have hf : fd' ≠ fd := fun hf => h ⟨rfl, hf⟩
    simp [setInterest, hf]
  · simp [setInterest, he]

end Kernel
end Netier
