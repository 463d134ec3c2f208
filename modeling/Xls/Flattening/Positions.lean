import Xls.Bits

/-!
# Xls.Flattening.Positions

Slices of concatenations. A concatenation cut at the widths of its parts gives the parts back
(`parts_concat_reverse`), and the cuts of a vector put together again are the vector.
-/

namespace Xls.Bits

open List Nat

theorem append_assoc (a b c : Bits) : (a.append b).append c = a.append (b.append c) := by
  refine ext (Nat.add_assoc _ _ _) ?_
  simp only [append_val, append_width, pow_add]
  ring

theorem zero_append (a : Bits) : (zero 0).append a = a :=
  ext (Nat.zero_add _) (by simp)

theorem append_zero (a : Bits) : a.append (zero 0) = a :=
  ext rfl (by simp)

theorem concat_append (as bs : List Bits) : concat (as ++ bs) = (concat as).append (concat bs) := by
  induction as with
  | nil => exact (zero_append _).symm
  | cons a as ih =>
    show a.append (concat (as ++ bs)) = _
    rw [ih, ← append_assoc]
    rfl

theorem concat_singleton (a : Bits) : concat [a] = a := append_zero a

/-- The high part of a concatenation of two. -/
theorem slice_append_high (a b : Bits) : (a.append b).slice b.width a.width = a := by
  refine ext rfl ?_
  rw [slice_val, append_val, mul_comm, mul_add_div (Nat.two_pow_pos _), div_eq_of_lt b.isLt,
    Nat.add_zero, mod_eq_of_lt a.isLt]

/-- A slice within the low part. -/
theorem slice_append_low (a b : Bits) {start width : Nat} (h : start + width ≤ b.width) :
    (a.append b).slice start width = b.slice start width := by
  refine ext rfl ?_
  have hsplit : a.val * 2 ^ b.width =
      2 ^ start * (2 ^ width * (a.val * 2 ^ (b.width - start - width))) := by
    rw [show b.width = start + (width + (b.width - start - width)) by omega, pow_add, pow_add]
    rw [show start + (width + (b.width - start - width)) - start - width =
      b.width - start - width by omega]
    ring
  rw [slice_val, slice_val, append_val, hsplit, mul_add_div (Nat.two_pow_pos _), mul_add_mod]

/-- A slice of a slice. -/
theorem slice_slice (x : Bits) {s w s' w' : Nat} (h : s' + w' ≤ w) :
    (x.slice s w).slice s' w' = x.slice (s + s') w' := by
  refine eq_of_get rfl fun i hi => ?_
  rw [slice_width] at hi
  rw [get_slice, get_slice, get_slice, decide_eq_true (by omega : s' + i < w), Bool.true_and,
    Nat.add_assoc]

theorem slice_self (x : Bits) : x.slice 0 x.width = x :=
  ext rfl (by rw [slice_val, pow_zero, Nat.div_one, mod_eq_of_lt x.isLt])

/-- Two neighbouring slices. -/
theorem append_slice (x : Bits) (s w : Nat) :
    (x.slice s w).append (x.slice 0 s) = x.slice 0 (w + s) := by
  refine ext rfl ?_
  rw [append_val, slice_val, slice_val, slice_val, slice_width, pow_zero, Nat.div_one,
    Nat.add_comm w s, pow_add, mod_mul, mul_comm, Nat.add_comm]

/-- The parts of a vector of the given widths, the most significant one first. -/
def slicesOf (x : Bits) : List Nat → List Bits
  | [] => []
  | w :: ws => x.slice ws.sum w :: slicesOf x ws

theorem slicesOf_widths (x : Bits) (ws : List Nat) : (x.slicesOf ws).map width = ws := by
  induction ws with
  | nil => rfl
  | cons w ws ih =>
    show w :: (x.slicesOf ws).map width = _
    rw [ih]

theorem concat_slicesOf (x : Bits) (ws : List Nat) : concat (x.slicesOf ws) = x.slice 0 ws.sum := by
  induction ws with
  | nil => exact ext rfl (by simp [slice_val, concat, slicesOf, mod_one])
  | cons w ws ih =>
    show (x.slice ws.sum w).append (concat (x.slicesOf ws)) = _
    rw [ih, append_slice, sum_cons]

theorem slicesOf_append_low (a b : Bits) {ws : List Nat} (h : ws.sum ≤ b.width) :
    (a.append b).slicesOf ws = b.slicesOf ws := by
  induction ws with
  | nil => rfl
  | cons w ws ih =>
    rw [sum_cons] at h
    show (a.append b).slice ws.sum w :: _ = b.slice ws.sum w :: _
    rw [slice_append_low a b (by omega), ih (by omega)]

theorem slicesOf_concat (xs : List Bits) : (concat xs).slicesOf (xs.map width) = xs := by
  induction xs with
  | nil => rfl
  | cons x xs ih =>
    show (x.append (concat xs)).slice (xs.map width).sum x.width ::
      (x.append (concat xs)).slicesOf (xs.map width) = _
    rw [← concat_width, slice_append_high, slicesOf_append_low _ _ (concat_width xs).ge, ih]

theorem getElem?_slicesOf (x : Bits) {ws : List Nat} {i w : Nat} (h : ws[i]? = some w) :
    (x.slicesOf ws)[i]? = some (x.slice (ws.drop (i + 1)).sum w) := by
  induction ws generalizing i with
  | nil => simp at h
  | cons v ws ih =>
    cases i with
    | zero =>
      cases h
      rfl
    | succ i => exact ih h

/-- The parts of one width, from the low end. -/
theorem slicesOf_replicate (x : Bits) (n w : Nat) :
    x.slicesOf (replicate n w) = ((range n).map fun i => x.slice (i * w) w).reverse := by
  induction n with
  | zero => rfl
  | succ n ih =>
    rw [range_succ, map_append, reverse_append, ← ih, replicate_succ]
    show x.slice (replicate n w).sum w :: _ = _
    rw [sum_replicate, smul_eq_mul]
    rfl

/-- The parts of one width of a concatenation in the opposite order. -/
theorem parts_concat_reverse {xs : List Bits} {n w : Nat} (h : xs.map width = replicate n w) :
    (range n).map (fun i => (concat xs.reverse).slice (i * w) w) = xs := by
  have hslices := slicesOf_concat xs.reverse
  rw [map_reverse, h, reverse_replicate, slicesOf_replicate] at hslices
  exact reverse_injective hslices

/-- The part at an index of a concatenation in the opposite order. -/
theorem slice_concat_reverse {xs : List Bits} {n w i : Nat} {x : Bits}
    (h : xs.map width = replicate n w) (hx : xs[i]? = some x) :
    (concat xs.reverse).slice (i * w) w = x := by
  have hlength : xs.length = n := by rw [← length_map width, h, length_replicate]
  have hi := (List.getElem?_eq_some_iff.1 hx).1
  rw [← parts_concat_reverse h, getElem?_map, getElem?_range (by omega)] at hx
  exact Option.some.inj hx

end Xls.Bits
