import Xv6.Param
import Xv6.Vm.UserMem
import Mathlib.Data.List.GetD
import Mathlib.Data.List.TakeWhile

/-!
# Names and paths (`strncmp` of `kernel/string.c`, `namecmp`, `skipelem` of `kernel/fs.c`)

A name in a directory is a field of `DIRSIZ` bytes that need not end with a NUL.  A string is given
by the bytes from a pointer on.  The name that a string stands for, `key`, is the string up to the
first NUL or the first `DIRSIZ` bytes, filled up with NULs.  `namecmp` compares names, and
`skipelem` cuts an element of a path to its name.
-/

namespace Xv6

open List

/-- The bytes from a pointer on. -/
abbrev Str := ℕ → Byte

namespace Str

/-- The string from the next byte on. -/
def tail (p : Str) : Str := fun k => p (k + 1)

/-- A string in memory that is followed by a NUL. -/
def ofList (l : List Byte) : Str := fun k => l.getD k 0

end Str

/-- `strncmp`. -/
def strncmp (p q : Str) : ℕ → ℤ
  | 0 => 0
  | n + 1 =>
    if p 0 ≠ 0 ∧ p 0 = q 0 then strncmp p.tail q.tail n else (p 0).toNat - (q 0).toNat

/-- `namecmp`. -/
def namecmp (s t : Str) : ℤ := strncmp s t DIRSIZ

/-- The `name` field of `struct dirent`. -/
abbrev Name := Fin DIRSIZ → Byte

/-- The name that a string stands for. -/
def key (p : Str) : Name := fun k => if ∀ j ≤ k.val, p j ≠ 0 then p k else 0

/-! ### Comparing names -/

variable {p q : Str}

/-- Byte `k` of a string that is filled up with NULs. -/
def Str.padded (p : Str) (k : ℕ) : Byte := if ∀ j ≤ k, p j ≠ 0 then p k else 0

theorem padded_zero : p.padded 0 = p 0 := by
  simp only [Str.padded, Nat.le_zero, forall_eq]
  split_ifs with h0
  · rfl
  · exact (not_not.1 h0).symm

theorem padded_succ {k : ℕ} : p.padded (k + 1) = if p 0 = 0 then 0 else p.tail.padded k := by
  have hsplit : (∀ j ≤ k + 1, p j ≠ 0) ↔ p 0 ≠ 0 ∧ ∀ j ≤ k, p (j + 1) ≠ 0 := by
    simp only [← Nat.lt_succ_iff, Nat.forall_lt_succ_left]
  unfold Str.padded
  by_cases h0 : p 0 = 0
  · rw [if_pos h0, if_neg fun h => (hsplit.1 h).1 h0]
  · simp only [hsplit, h0, ne_eq, not_false_eq_true, true_and, if_false]
    rfl

theorem strncmp_eq_zero {n : ℕ} : strncmp p q n = 0 ↔ ∀ k < n, p.padded k = q.padded k := by
  induction n generalizing p q with
  | zero => exact ⟨fun _ k hk => absurd hk (by omega), fun _ => rfl⟩
  | succ n ih =>
    have heq : ((p 0).toNat : ℤ) - (q 0).toNat = 0 ↔ p 0 = q 0 := by
      rw [← BitVec.toNat_inj]
      omega
    simp only [Nat.forall_lt_succ_left, padded_zero, padded_succ, strncmp]
    by_cases h0 : p 0 = q 0
    · -- a common byte, or the common end
      by_cases hnul : q 0 = 0
      · simp [h0, hnul]
      · simp only [h0, ne_eq, hnul, not_false_eq_true, and_self, if_true, if_false, true_and, ih]
    · rw [if_neg fun h => h0 h.2, heq]
      exact ⟨fun h => absurd h h0, fun h => h.1⟩

/-- `namecmp` compares the names that two strings stand for. -/
theorem namecmp_eq_zero : namecmp p q = 0 ↔ key p = key q :=
  strncmp_eq_zero.trans ⟨fun h => funext fun k => h k k.isLt, fun h k hk => congrFun h ⟨k, hk⟩⟩

theorem padded_congr {k : ℕ} (h : ∀ j ≤ k, (∀ i < j, p i ≠ 0) → p j = q j) :
    p.padded k = q.padded k := by
  induction k generalizing p q with
  | zero => rw [padded_zero, padded_zero, h 0 le_rfl nofun]
  | succ k ih =>
    have h0 := h 0 (Nat.zero_le _) nofun
    rw [padded_succ, padded_succ, ← h0]
    split_ifs with hnul
    · rfl
    · refine ih fun j hj hi => h (j + 1) (by omega) fun i hij => ?_
      cases i with
      | zero => exact hnul
      | succ i => exact hi i (by omega)

/-! ### Elements of paths -/

/-- The character `/`. -/
def slash : Byte := 47

/-- `skipelem`: the rest of the path, and the buffer `name` afterwards. -/
def skipelem (path : List Byte) (name : Str) : Option (List Byte × Str) :=
  match path.dropWhile (· = slash) with
  | [] => none
  | c :: cs =>
    let elem := (c :: cs).takeWhile (· ≠ slash)
    let name := fun k =>
      if elem.length ≥ DIRSIZ then if k < DIRSIZ then elem.getD k 0 else name k
      else if k < elem.length then elem.getD k 0 else if k = elem.length then 0 else name k
    some (((c :: cs).dropWhile (· ≠ slash)).dropWhile (· = slash), name)

/-- The name in the buffer is that of the element, whatever was there before. -/
theorem key_skipelem {path rest : List Byte} {name name' : Str}
    (h : skipelem path name = some (rest, name')) :
    key name' = key (Str.ofList ((path.dropWhile (· = slash)).takeWhile (· ≠ slash))) := by
  unfold skipelem at h
  split at h
  · cases h
  next c cs hpath =>
    cases h
    rw [hpath]
    set elem := (c :: cs).takeWhile (· ≠ slash)
    refine funext fun m => padded_congr fun k hm hj => ?_
    have hk : k < DIRSIZ := by omega
    by_cases hlen : elem.length ≥ DIRSIZ
    · simp only [if_pos hlen, if_pos hk]
      rfl
    · simp only [if_neg hlen] at hj ⊢
      by_cases hin : k < elem.length
      · rw [if_pos hin]
        rfl
      · rw [if_neg hin]
        by_cases heq : k = elem.length
        · rw [if_pos heq]
          exact (getD_eq_default _ _ (by omega)).symm
        · -- the NUL behind the element comes first
          have hnul := hj elem.length (by omega)
          simp at hnul

/-- The elements that `skipelem` takes from a path one after the other, all to the buffer `name`;
every one takes at least a byte, so the length of the path bounds their number. -/
def elements : ℕ → List Byte → Str → List Name
  | 0, _, _ => []
  | n + 1, path, name =>
    match skipelem path name with
    | none => []
    | some (rest, name) => key name :: elements n rest name

/-- The elements of a path, for a buffer of zeros. -/
def names (path : List Byte) : List Name := elements path.length path fun _ => 0

/-- The parts of a path between the slashes, without the empty ones. -/
def components (path : List Byte) : List (List Byte) := (path.splitOn slash).filter (· ≠ [])

theorem components_slash (path : List Byte) : components (slash :: path) = components path := by
  have hsplit := splitOn_append_cons_self_of_not_mem (not_mem_nil (a := slash)) path
  unfold components
  rw [nil_append] at hsplit
  rw [hsplit, filter_cons_of_neg (by simp)]

theorem components_dropWhile (path : List Byte) :
    components (path.dropWhile (· = slash)) = components path := by
  induction path with
  | nil => rfl
  | cons b path ih =>
    by_cases hb : b = slash
    · subst hb
      rw [dropWhile_cons_of_pos (by simp), ih, components_slash]
    · rw [dropWhile_cons_of_neg (by simp [hb])]

/-- The first component ends at a slash or at the end of the path. -/
theorem components_append {e rest : List Byte} (he : e ≠ []) (hno : slash ∉ e)
    (hrest : ∀ b ∈ rest.head?, b = slash) : components (e ++ rest) = e :: components rest := by
  cases rest with
  | nil =>
    rw [append_nil, components, splitOn_eq_singleton hno]
    exact filter_cons_of_pos (by simp [he])
  | cons b rest =>
    obtain rfl : b = slash := hrest b rfl
    rw [components_slash, components, splitOn_append_cons_self_of_not_mem hno]
    exact filter_cons_of_pos (by simp [he])

/-- `skipelem` takes the first component, or finds that there is none. -/
theorem components_skipelem (path : List Byte) (name : Str) :
    match skipelem path name with
    | none => components path = []
    | some (rest, name') => ∃ e, components path = e :: components rest ∧
        key name' = key (Str.ofList e) ∧ rest.length < path.length := by
  have hshort := (path.dropWhile_sublist (· = slash)).length_le
  have hkey := fun rest => @key_skipelem path rest name
  rw [← components_dropWhile path]
  unfold skipelem at hkey ⊢
  cases hpath : path.dropWhile (· = slash) with
  | nil => rfl
  | cons c cs =>
    rw [hpath] at hshort hkey
    have hc : c ≠ slash := by
      simpa [hpath] using head_dropWhile_not (· = slash) (l := path) (by simp [hpath])
    refine ⟨(c :: cs).takeWhile (· ≠ slash), ?_, hkey _ rfl, ?_⟩
    · rw [components_dropWhile, ← components_append (by simp [hc]) ?_ ?_,
        takeWhile_append_dropWhile]
      · exact fun hm => by simpa using mem_takeWhile_imp hm
      · intro b hb
        have hnot := (c :: cs).head?_dropWhile_not (· ≠ slash)
        rw [Option.mem_def.1 hb] at hnot
        simpa using hnot
    · have hdrop : (c :: cs).dropWhile (· ≠ slash) = cs.dropWhile (· ≠ slash) :=
        dropWhile_cons_of_pos (by simp [hc])
      have h1 := ((cs.dropWhile (· ≠ slash)).dropWhile_sublist (· = slash)).length_le
      have h2 := (cs.dropWhile_sublist (· ≠ slash)).length_le
      rw [hdrop]
      rw [length_cons] at hshort
      omega

theorem elements_eq {n : ℕ} {path : List Byte} (hn : path.length ≤ n) (name : Str) :
    elements n path name = (components path).map fun e => key (Str.ofList e) := by
  induction n generalizing path name with
  | zero => rw [length_eq_zero_iff.1 (Nat.le_zero.1 hn)]; rfl
  | succ n ih =>
    have hskip := components_skipelem path name
    unfold elements
    cases hs : skipelem path name with
    | none =>
      rw [hs] at hskip
      rw [hskip]
      rfl
    | some r =>
      rw [hs] at hskip
      obtain ⟨e, hpath, hkey, hlt⟩ := hskip
      rw [hpath, map_cons, ← hkey, ← ih (by omega)]

/-- **The names of a path.** The names that `skipelem` takes from a path one after the other are
those of the components of the path, each cut to `DIRSIZ` bytes, whatever the buffer `name` holds at
the start. -/
theorem names_eq_components (path : List Byte) (name : Str) :
    elements path.length path name = (components path).map fun e => key (Str.ofList e) :=
  elements_eq le_rfl name

end Xv6
