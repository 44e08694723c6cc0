import TanjaOS.Lib.Tiling

/-!
Where in the list of blocks the operations of `Tiling` act: what stands before the block, the block
itself and what stands after it.
-/

namespace Lib
namespace Tiling

variable {hdr : Nat}

@[simp]
theorem span_append (hdr : Nat) (xs ys : List Block)
    : span hdr (xs ++ ys) = span hdr xs + span hdr ys := by
  induction xs with
  | nil => simp [span]
  | cons x xs ih =>
    simp only [List.cons_append, span, ih]
    omega

theorem live_append (hdr off : Nat) (xs ys : List Block)
    : live hdr off (xs ++ ys) = live hdr off xs ++ live hdr (off + span hdr xs) ys := by
  induction xs generalizing off with
  | nil => simp [live, span]
  | cons x xs ih =>
    have hoff : off + hdr + x.size + span hdr xs = off + (hdr + x.size + span hdr xs) := by omega
    simp only [List.cons_append, live, span, ih, hoff]
    split
    . rfl
    . rfl

theorem firstFit_split {slack n o : Nat} {bs bs' : List Block}
    (h : firstFit hdr slack n bs = some (o, bs'))
    : ∃ pre b post, bs = pre ++ b :: post ∧ o = span hdr pre ∧ b.free = true ∧ n ≤ b.size
        ∧ bs' = pre ++ (if hdr + slack ≤ b.size - n then
            ⟨n, false⟩ :: ⟨b.size - n - hdr, true⟩ :: post
          else
            ⟨b.size, false⟩ :: post) := by
  fun_induction firstFit hdr slack n bs generalizing o bs' with
  | case1 => simp at h
  | case2 b bs hb hsplit =>
    cases h
    refine ⟨[], b, bs, rfl, rfl, hb.1, hb.2, ?_⟩
    rw [if_pos hsplit]
    rfl
  | case3 b bs hb hsplit =>
    cases h
    refine ⟨[], b, bs, rfl, rfl, hb.1, hb.2, ?_⟩
    rw [if_neg hsplit]
    rfl
  | case4 => simp at h
  | case5 b bs hb o bs' heq ih =>
    cases h
    obtain ⟨pre, c, post, rfl, rfl, hfree, hle, rfl⟩ := ih heq
    exact ⟨b :: pre, c, post, rfl, rfl, hfree, hle, rfl⟩

theorem mem_live_split {off : Nat} {bs : List Block} {x : Nat × Nat} (h : x ∈ live hdr off bs)
    : ∃ pre b post, bs = pre ++ b :: post ∧ b.free = false ∧ x = (off + span hdr pre + hdr, b.size) := by
  induction bs generalizing off with
  | nil => simp [live] at h
  | cons b bs ih =>
    simp only [live] at h
    split at h
    . obtain ⟨pre, c, post, rfl, hfree, rfl⟩ := ih h
      refine ⟨b :: pre, c, post, rfl, hfree, ?_⟩
      simp only [span, Prod.mk.injEq, and_true]
      omega
    . next hb =>
      rw [List.mem_cons] at h
      obtain rfl | h := h
      . exact ⟨[], b, bs, rfl, by simpa using hb, rfl⟩
      . obtain ⟨pre, c, post, rfl, hfree, rfl⟩ := ih h
        refine ⟨b :: pre, c, post, rfl, hfree, ?_⟩
        simp only [span, Prod.mk.injEq, and_true]
        omega

theorem live_splice {off : Nat} {pre post : List Block} (mid mid' : List Block) (hspan : span hdr mid' = span hdr mid)
    (hlive : live hdr (off + span hdr pre) mid' = live hdr (off + span hdr pre) mid)
    : live hdr off (pre ++ (mid' ++ post)) = live hdr off (pre ++ (mid ++ post)) := by
  simp only [live_append, hspan, hlive]

end Tiling
end Lib
