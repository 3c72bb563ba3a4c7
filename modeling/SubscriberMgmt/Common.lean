import Mathlib.Algebra.Group.Nat.Defs
import Mathlib.Tactic.Common
import Mathlib.Data.Nat.Notation

/-!
# Types and bounds shared by all modules (`include/common.h`)
-/

namespace SubscriberMgmt

/-- Bytes of a C string without its terminating NUL. -/
abbrev Str := List UInt8

/-- The bytes of a string literal of the source. -/
def lit (s : String) : Str := s.toList.map fun c => UInt8.ofNat c.toNat

inductive SmStatus where
  | ok
  | errNullParam
  | errAllocFailed
  | errNotFound
  | errDuplicate
  | errInvalidArg
  | errIo
  | errCorruptData
  | errLockFailed
  | errCapacity
  | errUnauthorized
  | errInternal
  deriving DecidableEq, Repr

/-- `sm_status_str` (`logger.c:31-47`). -/
def smStatusStr : SmStatus → Str
  | .ok => lit "OK"
  | .errNullParam => lit "NULL_PARAM"
  | .errAllocFailed => lit "ALLOC_FAILED"
  | .errNotFound => lit "NOT_FOUND"
  | .errDuplicate => lit "DUPLICATE"
  | .errInvalidArg => lit "INVALID_ARG"
  | .errIo => lit "IO_ERROR"
  | .errCorruptData => lit "CORRUPT_DATA"
  | .errLockFailed => lit "LOCK_FAILED"
  | .errCapacity => lit "CAPACITY"
  | .errUnauthorized => lit "UNAUTHORIZED"
  | .errInternal => lit "INTERNAL_ERROR"

def smMaxImsiLen : ℕ := 15
def smMaxMsisdnLen : ℕ := 15
def smMaxNameLen : ℕ := 64
def smMaxLineLen : ℕ := 512

/-- Number of values of `size_t` and `uint64_t`. -/
def sizeRange : ℕ := 2 ^ 64

/-- Outcomes of the memory allocations inside one call, numbered by their
place in the source: `a i` says whether the `i`-th allocation succeeds. An
allocation that is not reached ignores its entry. -/
abbrev Alloc := ℕ → Bool

/-- The allocations of a callee, from number `k` of the caller on. -/
def Alloc.skip (a : Alloc) (k : ℕ) : Alloc := fun i => a (k + i)

def Alloc.all : Alloc := fun _ => true

@[simp] theorem Alloc.all_apply (i : ℕ) : Alloc.all i = true := rfl
@[simp] theorem Alloc.all_skip (k : ℕ) : Alloc.all.skip k = Alloc.all := rfl

/-- A character array of `n + 1` bytes that holds a C string: at most `n`
bytes before the NUL. -/
@[ext]
structure CharField (n : ℕ) where
  chars : Str
  fits : chars.length ≤ n
  deriving DecidableEq, Repr

/-- `strncpy(dst, src, sizeof(dst) - 1)` followed by the closing NUL. -/
def CharField.copy (n : ℕ) (s : Str) : CharField n :=
  ⟨s.take n, by simp only [List.length_take]; omega⟩

theorem CharField.copy_chars {n : ℕ} {s : Str} (h : s.length ≤ n) :
    (CharField.copy n s).chars = s := List.take_of_length_le h

end SubscriberMgmt
