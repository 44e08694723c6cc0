import TanjaOS.Lib.Mem

/-!
A text with other bytes from a position on.
-/

namespace Lib

def splice (bs : Bytes) (pos : Nat) (data : Bytes) : Bytes :=
  bs.take pos ++ data ++ bs.drop (pos + data.length)

variable {bs data : Bytes} {pos : Nat}

theorem length_splice (h : pos ≤ bs.length) : (splice bs pos data).length = max bs.length (pos + data.length) := by
  unfold splice
  rw [List.length_append, List.length_append, List.length_take, List.length_drop]
  omega

theorem Mem.readBytes_splice {m : Mem} {n : Nat} (h : pos ≤ n)
    : (m.writeBytes pos data).readBytes 0 (max n (pos + data.length)) = splice (m.readBytes 0 n) pos data := by
  have hlen : max n (pos + data.length) = pos + (data.length + (n - (pos + data.length))) := by omega
  have hbefore : (m.writeBytes pos data).readBytes 0 pos = (m.readBytes 0 n).take pos := by
    rw [Mem.take_readBytes h]
    apply Mem.readBytes_congr
    intro i _ hi
    exact Mem.writeBytes_of_lt data (by omega)
  have hbehind : (m.writeBytes pos data).readBytes (0 + pos + data.length) (n - (pos + data.length))
      = (m.readBytes 0 n).drop (pos + data.length) := by
    by_cases hle : pos + data.length ≤ n
    . rw [Mem.drop_readBytes hle, Nat.zero_add, Nat.zero_add]
      apply Mem.readBytes_congr
      intro i hi _
      exact Mem.writeBytes_of_ge data hi
    . rw [List.drop_of_length_le (by rw [Mem.length_readBytes]; omega), Nat.sub_eq_zero_of_le (by omega),
        Mem.readBytes_zero]
  unfold splice
  rw [hlen, Mem.readBytes_add, Mem.readBytes_add, hbefore, hbehind, Nat.zero_add, Mem.readBytes_writeBytes_same,
    List.append_assoc]

end Lib
