import TanjaOS.Lib.Checked

/-!
Reading a buffer from the front: what is still to be read is a suffix of it.
-/

namespace Lib

namespace Checked

variable {b rest xs : Bytes} {i : Nat}

theorem lt_of_drop {x : Byte} (h : b.drop i = x :: rest) : i < b.length := by
  by_contra hge
  rw [List.drop_eq_nil_of_le (by omega)] at h
  contradiction

theorem le_of_drop (h : b.drop i = xs ++ rest) (hi : i ≤ b.length) : i + xs.length ≤ b.length := by
  have hlen := congrArg List.length h
  rw [List.length_drop, List.length_append] at hlen
  omega

theorem drop_of_drop (h : b.drop i = xs ++ rest) : b.drop (i + xs.length) = rest := by
  rw [← List.drop_drop, h, List.drop_left]

theorem yields_load8_drop {x : Byte} (h : b.drop i = x :: rest) : (load8 b i).Yields (fun y => y = x) := by
  have hi := lt_of_drop h
  apply (yields_load8 hi).mono
  rintro y rfl
  rw [List.drop_eq_getElem_cons hi] at h
  rw [List.getD_eq_getElem _ _ hi]
  exact (List.cons.inj h).1

theorem yields_eq {α : Type} {x : Checked α} {a : α} (h : x.Yields (fun r => r = a)) : x = .ok a := by
  obtain ⟨r, hx, rfl⟩ := h
  exact hx

end Checked

end Lib
