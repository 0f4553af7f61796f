import Mathlib.Data.List.Basic

/-!
# Segments of lists

Reading and overwriting a segment of a list, for lists that are given by their length and a
function.  A loop that goes through a segment in blocks of size `B` takes
`min (b - a) (B - a % B)` positions in the turn that starts at `a`.
-/

namespace Segment

open List

variable {α : Type*}

/-- The list of the first `n` values of `f`. -/
def table (n : ℕ) (f : ℕ → α) : List α := (range n).map f

/-- The list with `xs` written over it from position `o` on. -/
def overwrite (l : List α) (o : ℕ) (xs : List α) : List α :=
  l.take o ++ xs ++ l.drop (o + xs.length)

@[simp] theorem length_table (n : ℕ) (f : ℕ → α) : (table n f).length = n := by
  simp [table]

@[simp] theorem getElem_table (n : ℕ) (f : ℕ → α) (k : ℕ) (h : k < (table n f).length) :
    (table n f)[k] = f k := by
  simp [table]

theorem table_congr {n : ℕ} {f g : ℕ → α} (h : ∀ k, k < n → f k = g k) : table n f = table n g :=
  map_congr_left fun k hk => h k (mem_range.1 hk)

/-- Tables one after the other. -/
theorem table_append (m n : ℕ) (f : ℕ → α) :
    table m f ++ table n (fun k => f (m + k)) = table (m + n) f := by
  simp only [table, range_add, map_append, map_map]
  rfl

theorem length_overwrite {l : List α} {o : ℕ} (h : o ≤ l.length) (xs : List α) :
    (overwrite l o xs).length = max l.length (o + xs.length) := by
  simp only [overwrite, length_append, length_take, length_drop]
  omega

theorem getElem?_overwrite {l : List α} {o : ℕ} (h : o ≤ l.length) (xs : List α) (k : ℕ) :
    (overwrite l o xs)[k]? = if o ≤ k ∧ k < o + xs.length then xs[k - o]? else l[k]? := by
  simp only [overwrite, getElem?_append, length_append, length_take,
    Nat.min_eq_left h, getElem?_take, getElem?_drop]
  split_ifs <;> first | rfl | omega | skip
  congr 1
  omega

theorem overwrite_table {n o : ℕ} (h : o ≤ n) (m : ℕ) (f g : ℕ → α) :
    overwrite (table n f) o (table m g) =
      table (max n (o + m)) fun k => if o ≤ k ∧ k < o + m then g (k - o) else f k := by
  refine ext_getElem ?_ fun k hk _ => ?_
  · rw [length_overwrite (by simpa using h)]
    simp
  -- before, in and behind the segment
  simp only [overwrite, getElem_table, getElem_append, length_append, length_take,
    length_table, Nat.min_eq_left h, getElem_take, getElem_drop]
  split_ifs <;> first | rfl | omega | skip
  congr 1
  omega

theorem extract_table (n : ℕ) (f : ℕ → α) (a b : ℕ) :
    (table n f).extract a (min b n) = table (min b n - a) fun k => f (a + k) := by
  refine ext_getElem ?_ fun k _ _ => ?_
  · simp only [extract_eq_take_drop, length_take, length_drop, length_table]
    omega
  · simp [extract_eq_take_drop]

/-- The positions of one turn are in one block. -/
theorem div_mod_of_turn {B a b o : ℕ} (h : a ≤ o) (ho : o < a + min (b - a) (B - a % B)) :
    o / B = a / B ∧ o % B = a % B + (o - a) := by
  have hsum := Nat.div_add_mod a B
  have ho' : o = a % B + (o - a) + B * (a / B) := by omega
  have hlt : a % B + (o - a) < B := by omega
  rw [ho', Nat.add_mul_div_left _ _ (by omega), Nat.add_mul_mod_self_left, Nat.div_eq_of_lt hlt,
    Nat.mod_eq_of_lt hlt]
  omega

end Segment
