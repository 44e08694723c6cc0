import TanjaOS.Lib.Mem
import TanjaOS.Lib.Tiling

/-!
The allocator for file contents. Its headers live in the pool memory itself: at each block's offset
stands its payload size, four bytes later its free flag. A pointer is an offset from `fpool_base`.
-/

open Lib

namespace TanjaOS

def maxFileData : Nat := 32 * 1048576

def fsDataPoolSize : Nat := 48 * 1024 * 1024

/--
The pool size the kernel ends up with when it hands over `bytes` bytes.
-/
def fsSetPool (bytes : UInt32) : UInt32 :=
  let bytes := if fsDataPoolSize < bytes.toNat then UInt32.ofNat fsDataPoolSize else bytes
  UInt32.ofNat (bytes.toNat / 16 * 16)

def fpoolInit (fpoolBytes : UInt32) (pool : Mem) : Mem :=
  if fpoolBytes.toNat ≤ 8 then
    pool
  else
    (pool.write32 0 (fpoolBytes.toNat - 8)).write32 4 1

def fpoolCoalesce (fpoolBytes : UInt32) (pool : Mem) : Mem :=
  go fpoolBytes pool 0
where
  go (fpoolBytes : UInt32) (pool : Mem) (off : Nat) : Mem :=
    if hoff : off + 8 ≤ fpoolBytes.toNat then
      if hsize : fpoolBytes.toNat - off - 8 < pool.read32 off then
        pool
      else
        let nextOff := off + 8 + pool.read32 off
        if hmerge : pool.read32 (off + 4) ≠ 0 ∧ nextOff + 8 ≤ fpoolBytes.toNat
            ∧ pool.read32 nextOff ≤ fpoolBytes.toNat - nextOff - 8
            ∧ pool.read32 (nextOff + 4) ≠ 0 then
          -- `continue`: the merged block is looked at again
          go fpoolBytes (pool.write32 off (pool.read32 off + (8 + pool.read32 nextOff))) off
        else if fpoolBytes.toNat ≤ nextOff then
          pool
        else
          go fpoolBytes pool nextOff
    else
      pool
  termination_by (fpoolBytes.toNat - off, fpoolBytes.toNat - pool.read32 off)
  decreasing_by
    . have := fpoolBytes.toNat_lt
      dsimp only [nextOff] at hmerge
      apply Prod.Lex.right
      rw [Mem.read32_write32_same]
      . omega
      . omega
    . apply Prod.Lex.left
      omega

def fpoolAlloc (fpoolBytes : UInt32) (pool : Mem) (bytes : Nat) : Option Nat × Mem :=
  if bytes = 0 then
    (none, pool)
  else
    go fpoolBytes ((bytes + 3) / 4 * 4) pool 0
where
  go (fpoolBytes : UInt32) (bytes : Nat) (pool : Mem) (off : Nat) : Option Nat × Mem :=
    if hoff : off + 8 ≤ fpoolBytes.toNat then
      if fpoolBytes.toNat - off - 8 < pool.read32 off then
        (none, pool)
      else if pool.read32 (off + 4) ≠ 0 ∧ bytes ≤ pool.read32 off then
        let extra := pool.read32 off - bytes
        let pool :=
          if 8 + 16 ≤ extra then
            let nextOff := off + 8 + bytes
            ((pool.write32 nextOff (extra - 8)).write32 (nextOff + 4) 1).write32 off bytes
          else
            pool
        (some (off + 8), pool.write32 (off + 4) 0)
      else if fpoolBytes.toNat ≤ off + 8 + pool.read32 off then
        (none, pool)
      else
        go fpoolBytes bytes pool (off + 8 + pool.read32 off)
    else
      (none, pool)
  termination_by fpoolBytes.toNat - off

def fpoolFree (fpoolBytes : UInt32) (pool : Mem) (ptr : Option Nat) : Mem :=
  match ptr with
  | none => pool
  | some ptr =>
    if ptr < 8 ∨ fpoolBytes.toNat ≤ ptr then
      pool
    else
      fpoolCoalesce fpoolBytes (pool.write32 (ptr - 8 + 4) 1)

end TanjaOS
