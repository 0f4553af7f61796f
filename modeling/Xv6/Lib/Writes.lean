import Mathlib.Data.List.Nodup

/-!
# Sequences of point writes

A store is a function `ι → α`; `apply d ws` performs the writes `ws` on it in order.  A crash
in the middle of a sequence of writes leaves `apply d (ws.take k)` for some `k`.

* `apply_of_notMem`: what is not written keeps its value;
* `apply_of_mem`: after writes at distinct places each place holds what was written to it.
-/

namespace Writes

open Function List

variable {ι α : Type*} [DecidableEq ι]

/-- Perform the writes in order. -/
def apply (d : ι → α) (ws : List (ι × α)) : ι → α :=
  ws.foldl (fun d w => update d w.1 w.2) d

@[simp] theorem apply_nil (d : ι → α) : apply d [] = d := rfl

@[simp] theorem apply_cons (d : ι → α) (w : ι × α) (ws : List (ι × α)) :
    apply d (w :: ws) = apply (update d w.1 w.2) ws := rfl

theorem apply_append (d : ι → α) (ws vs : List (ι × α)) :
    apply d (ws ++ vs) = apply (apply d ws) vs := foldl_append

theorem apply_of_notMem (d : ι → α) (ws : List (ι × α)) (i : ι) (h : ∀ w ∈ ws, w.1 ≠ i) :
    apply d ws i = d i := by
  induction ws generalizing d with
  | nil => rfl
  | cons w ws ih =>
    rw [apply_cons, ih _ fun v hv => h v (mem_cons_of_mem _ hv)]
    exact update_of_ne (h w mem_cons_self).symm _ _

/-- After writes at distinct places, each place holds what was written to it. -/
theorem apply_of_mem (d : ι → α) {ws : List (ι × α)} (hnd : (ws.map Prod.fst).Nodup)
    {w : ι × α} (hw : w ∈ ws) : apply d ws w.1 = w.2 := by
  induction ws generalizing d with
  | nil => cases hw
  | cons v ws ih =>
    rw [map_cons, nodup_cons] at hnd
    rcases mem_cons.1 hw with rfl | hw
    · rw [apply_cons, apply_of_notMem, update_self]
      intro v hv hvw
      exact hnd.1 (hvw ▸ mem_map_of_mem hv)
    · exact ih _ hnd.2 hw

end Writes
