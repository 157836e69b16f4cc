import Mathlib.Tactic.Common

/-!
# User memory (`threads/vaddr.h`)

Addresses are 32-bit and arithmetic on them wraps around. A page that is not
present has no bytes; a page can be present and read-only. The kernel runs with
write protection on, so that its own stores respect read-only pages.
-/

namespace pintos.prj2

/-- A virtual address. -/
abbrev Addr := BitVec 32

/-- A machine word. -/
abbrev Word := BitVec 32

/-- A `char`. -/
abbrev Byte := BitVec 8

/-- The first kernel virtual address. -/
def PHYS_BASE : Addr := 0xC0000000#32

/-- `is_user_vaddr`. -/
def is_user_vaddr (vaddr : Addr) : Bool := vaddr < PHYS_BASE

theorem is_user_vaddr_iff {vaddr : Addr} :
    is_user_vaddr vaddr = true ↔ vaddr.toNat < PHYS_BASE.toNat := by
  simp [is_user_vaddr, BitVec.lt_def]

/-- What is mapped in the page directory of a process, the kernel part included. -/
structure Memory where
  byte : Addr → Option Byte
  writable : Addr → Bool

/-- The word of four bytes from `addr` on, if they are all present. -/
def Memory.word (mem : Memory) (addr : Addr) : Option Word :=
  (mem.byte addr).bind fun b0 => (mem.byte (addr + 1)).bind fun b1 =>
    (mem.byte (addr + 2)).bind fun b2 => (mem.byte (addr + 3)).bind fun b3 =>
      some (b3 ++ b2 ++ b1 ++ b0)

/-- Whether a byte can be stored at `addr`. -/
def Memory.stores (mem : Memory) (addr : Addr) : Bool :=
  (mem.byte addr).isSome && mem.writable addr

end pintos.prj2
