import Mathlib.Algebra.GroupWithZero.Nat

/-! The constants of `param.h` and `fcntl.h` that several parts of the system use. -/

namespace Xv6Bfs

def NPROC : ℕ := 64

instance : NeZero NPROC := ⟨by decide⟩

def NOFILE : ℕ := 16

def NFILE : ℕ := 100

def FSSIZE : ℕ := 2000

def O_RDONLY : ℕ := 0x000

def O_WRONLY : ℕ := 0x001

def O_RDWR : ℕ := 0x002

def O_CREATE : ℕ := 0x200

end Xv6Bfs
