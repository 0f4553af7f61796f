import Xv6.Vm.UserMem

/-!
# The matcher of `grep` (`user/grep.c`)

A string is the list of its bytes before the NUL.  A pattern is read as a list of atoms, a
character or `.` that may be starred, between an optional `^` and an optional `$`; elsewhere these
characters stand for themselves.
-/

namespace Xv6.Grep

open List

/-- The character `*`. -/
def star : Byte := 42

/-- The character `.`. -/
def dot : Byte := 46

/-- The character `$`. -/
def dollar : Byte := 36

/-- The character `^`. -/
def caret : Byte := 94

/-- `matchstar(c, re, text)`; `here` is `matchhere` with `re`. -/
def matchstar (here : List Byte → Bool) (c : Byte) : List Byte → Bool
  | [] => here []
  | t :: text => here (t :: text) || (decide (t = c ∨ c = dot) && matchstar here c text)

/-- The last case of `matchhere`: one character, and `here` for the rest. -/
def matchone (here : List Byte → Bool) (c : Byte) : List Byte → Bool
  | [] => false
  | t :: text => decide (c = dot ∨ c = t) && here text

/-- `matchhere`. -/
def matchhere : List Byte → List Byte → Bool
  | [], _ => true
  | [c], text => if c = dollar then decide (text = []) else matchone (matchhere []) c text
  | c :: d :: re, text =>
    if d = star then matchstar (matchhere re) c text else matchone (matchhere (d :: re)) c text

/-- The loop of `match`. -/
def matchFrom (re : List Byte) : List Byte → Bool
  | [] => matchhere re []
  | t :: text => matchhere re (t :: text) || matchFrom re text

/-- `match`. -/
def matchRe (re text : List Byte) : Bool :=
  if re.head? = some caret then matchhere re.tail text else matchFrom re text

/-! ### The language of a pattern -/

/-- A character or `.`, once or starred. -/
inductive Atom
  | one (c : Byte)
  | many (c : Byte)

/-- The characters that `c` stands for. -/
def Fits (c t : Byte) : Prop := c = dot ∨ c = t

/-- The strings that the atoms denote. -/
def Denotes : List Atom → List Byte → Prop
  | [], w => w = []
  | .one c :: as, w => ∃ t v, w = t :: v ∧ Fits c t ∧ Denotes as v
  | .many c :: as, w => ∃ u v, w = u ++ v ∧ (∀ t ∈ u, Fits c t) ∧ Denotes as v

/-- The atoms of a pattern after the `^`, and whether a `$` follows them. -/
def atoms : List Byte → List Atom × Bool
  | [] => ([], false)
  | [c] => if c = dollar then ([], true) else ([.one c], false)
  | c :: d :: re =>
    if d = star then (.many c :: (atoms re).1, (atoms re).2)
    else (.one c :: (atoms (d :: re)).1, (atoms (d :: re)).2)

/-- The text begins with a string that the atoms denote; with a `$` this is all of it. -/
def Begins (p : List Atom × Bool) (text : List Byte) : Prop :=
  ∃ mid post, text = mid ++ post ∧ Denotes p.1 mid ∧ (p.2 = true → post = [])

variable {here : List Byte → Bool} {c : Byte} {as : List Atom} {e : Bool} {re text : List Byte}

theorem begins_one : Begins (.one c :: as, e) text ↔
    ∃ t v, text = t :: v ∧ Fits c t ∧ Begins (as, e) v := by
  constructor
  · rintro ⟨_, post, rfl, ⟨t, v, rfl, hc, hv⟩, he⟩
    exact ⟨t, v ++ post, rfl, hc, v, post, rfl, hv, he⟩
  · rintro ⟨t, _, rfl, hc, v, post, rfl, hv, he⟩
    exact ⟨t :: v, post, rfl, ⟨t, v, rfl, hc, hv⟩, he⟩

theorem begins_many : Begins (.many c :: as, e) text ↔
    ∃ u v, text = u ++ v ∧ (∀ t ∈ u, Fits c t) ∧ Begins (as, e) v := by
  constructor
  · rintro ⟨_, post, rfl, ⟨u, v, rfl, hc, hv⟩, he⟩
    exact ⟨u, v ++ post, append_assoc .., hc, v, post, rfl, hv, he⟩
  · rintro ⟨u, _, rfl, hc, v, post, rfl, hv, he⟩
    exact ⟨u ++ v, post, (append_assoc ..).symm, ⟨u, v, rfl, hc, hv⟩, he⟩

theorem matchone_iff : matchone here c text = true ↔
    ∃ t v, text = t :: v ∧ Fits c t ∧ here v = true := by
  cases text with
  | nil => simp [matchone]
  | cons t text => simp [matchone, Fits]

theorem matchstar_iff : matchstar here c text = true ↔
    ∃ u v, text = u ++ v ∧ (∀ t ∈ u, Fits c t) ∧ here v = true := by
  induction text with
  | nil => simp [matchstar]
  | cons t text ih =>
    rw [matchstar, Bool.or_eq_true, Bool.and_eq_true, decide_eq_true_eq, ih]
    constructor
    · rintro (h | ⟨hc, u, v, rfl, hu, hv⟩)
      · exact ⟨[], t :: text, rfl, nofun, h⟩
      · exact ⟨t :: u, v, rfl, forall_mem_cons.2 ⟨hc.symm.imp_right Eq.symm, hu⟩, hv⟩
    · rintro ⟨u, v, huv, hu, hv⟩
      cases u with
      | nil =>
        cases huv
        exact .inl hv
      | cons t' u =>
        cases huv
        obtain ⟨hc, hu⟩ := forall_mem_cons.1 hu
        exact .inr ⟨hc.symm.imp_left Eq.symm, u, v, rfl, hu, hv⟩

/-- `matchhere` looks for the pattern at the beginning of the text. -/
theorem matchhere_iff : matchhere re text = true ↔ Begins (atoms re) text := by
  induction re using atoms.induct generalizing text with
  | case1 => simp [matchhere, atoms, Begins, Denotes]
  | case2 => simp [matchhere, atoms, Begins, Denotes]
  | case3 c hc =>
    rw [matchhere, if_neg hc, atoms, if_neg hc, begins_one, matchone_iff]
    simp [matchhere, Begins, Denotes]
  | case4 c re ih =>
    rw [matchhere, if_pos rfl, atoms, if_pos rfl, begins_many, matchstar_iff]
    simp only [ih]
  | case5 c d re hd ih =>
    rw [matchhere, if_neg hd, atoms, if_neg hd, begins_one, matchone_iff]
    simp only [ih]

theorem matchFrom_iff : matchFrom re text = true ↔
    ∃ pre rest, text = pre ++ rest ∧ Begins (atoms re) rest := by
  induction text with
  | nil => simp [matchFrom, matchhere_iff]
  | cons t text ih =>
    rw [matchFrom, Bool.or_eq_true, matchhere_iff, ih]
    constructor
    · rintro (h | ⟨pre, rest, rfl, h⟩)
      · exact ⟨[], t :: text, rfl, h⟩
      · exact ⟨t :: pre, rest, rfl, h⟩
    · rintro ⟨pre, rest, heq, h⟩
      cases pre with
      | nil =>
        cases heq
        exact .inl h
      | cons t' pre =>
        cases heq
        exact .inr ⟨pre, rest, rfl, h⟩

/-- The pattern without a leading `^`. -/
def body (re : List Byte) : List Byte := if re.head? = some caret then re.tail else re

/-- **The matcher computes its language.**  A text matches if the pattern denotes a part of it, at
the beginning if there is a `^` and at the end if there is a `$`. -/
theorem matchRe_iff_denotes (re text : List Byte) : matchRe re text = true ↔
    ∃ pre mid post, text = pre ++ (mid ++ post) ∧ Denotes (atoms (body re)).1 mid ∧
      (re.head? = some caret → pre = []) ∧ ((atoms (body re)).2 = true → post = []) := by
  unfold matchRe body
  split_ifs with h
  · rw [matchhere_iff]
    constructor
    · rintro ⟨mid, post, rfl, hmid, hpost⟩
      exact ⟨[], mid, post, rfl, hmid, fun _ => rfl, hpost⟩
    · rintro ⟨pre, mid, post, rfl, hmid, hpre, hpost⟩
      rw [hpre h]
      exact ⟨mid, post, rfl, hmid, hpost⟩
  · rw [matchFrom_iff]
    constructor
    · rintro ⟨pre, _, rfl, mid, post, rfl, hmid, hpost⟩
      exact ⟨pre, mid, post, rfl, hmid, fun hc => absurd hc h, hpost⟩
    · rintro ⟨pre, mid, post, rfl, hmid, -, hpost⟩
      exact ⟨pre, _, rfl, mid, post, rfl, hmid, hpost⟩

/-! ### `grep` -/

/-- The character `\n`. -/
def newline : Byte := 10

/-- `sizeof(buf)`. -/
def bufsize : ℕ := 1024

/-- `strchr(p, '\n')`: the bytes before the newline, and those behind it. -/
def strchr : List Byte → Option (List Byte × List Byte)
  | [] => none
  | b :: p =>
    if b = 0 then none
    else if b = newline then some ([], p)
    else (strchr p).map fun r => (b :: r.1, r.2)

/-- The inner loop of `grep`: what is printed, and the bytes that are left.  Every turn passes a
newline. -/
def printLines (pattern : List Byte) : ℕ → List Byte → List Byte × List Byte
  | 0, p => ([], p)
  | turns + 1, p =>
    match strchr p with
    | none => ([], p)
    | some (line, rest) =>
      let r := printLines pattern turns rest
      ((if matchRe pattern line then line ++ [newline] else []) ++ r.1, r.2)

/-- The outer loop, with the bytes in `buf` and the input to come.  Call `k` of `read` returns at
most `pieces k` bytes, and at least one if it can.  The result is what is printed, and for every
turn the last index of `buf` that is written. -/
def grepLoop (pattern : List Byte) (pieces : ℕ → ℕ) :
    ℕ → ℕ → List Byte → List Byte → List Byte × List ℕ
  | 0, _, _, _ => ([], [])
  | turns + 1, k, buf, input =>
    let n := min (bufsize - buf.length - 1) (max 1 (pieces k))
    if input.take n = [] then ([], [])
    else
      let m := buf.length + (input.take n).length
      let r := printLines pattern m (buf ++ input.take n)
      let rest := grepLoop pattern pieces turns (k + 1) r.2 (input.drop n)
      (r.1 ++ rest.1, m :: rest.2)

/-- `grep`. -/
def grep (pattern : List Byte) (pieces : ℕ → ℕ) (input : List Byte) : List Byte × List ℕ :=
  grepLoop pattern pieces (input.length + 1) 0 [] input

/-- The lines that end with a newline. -/
def lines : List Byte → List (List Byte)
  | [] => []
  | b :: s =>
    if b = newline then [] :: lines s
    else
      match lines s with
      | [] => []
      | l :: ls => (b :: l) :: ls

/-- The lines that match, with their newlines. -/
def matching (pattern : List Byte) (ls : List (List Byte)) : List Byte :=
  (ls.filter (matchRe pattern)).flatMap (· ++ [newline])

/-- The line and its newline fit into `buf`. -/
def short (l : List Byte) : Bool := l.length + 1 < bufsize

variable {pattern p s u line rest buf input : List Byte}

theorem lines_append (h : newline ∉ u) : lines (u ++ newline :: s) = u :: lines s := by
  induction u with
  | nil => rfl
  | cons b u ih =>
    rw [mem_cons, not_or] at h
    rw [cons_append, lines, if_neg (Ne.symm h.1), ih h.2]

theorem lines_eq_nil (h : newline ∉ u) : lines u = [] := by
  induction u with
  | nil => rfl
  | cons b u ih =>
    rw [mem_cons, not_or] at h
    rw [lines, if_neg (Ne.symm h.1), ih h.2]

/-- `strchr` finds the first newline. -/
theorem strchr_cases (h : 0 ∉ p) : strchr p = none ∧ newline ∉ p ∨
    ∃ line rest, strchr p = some (line, rest) ∧ p = line ++ newline :: rest ∧ newline ∉ line := by
  induction p with
  | nil => exact .inl ⟨rfl, nofun⟩
  | cons b p ih =>
    rw [mem_cons, not_or] at h
    rw [strchr, if_neg (Ne.symm h.1)]
    split_ifs with hb
    · subst hb
      exact .inr ⟨[], p, rfl, rfl, nofun⟩
    · rcases ih h.2 with ⟨hnone, hp⟩ | ⟨line, rest, hsome, rfl, hline⟩
      · exact .inl ⟨by rw [hnone]; rfl, by simp [Ne.symm hb, hp]⟩
      · exact .inr ⟨b :: line, rest, by rw [hsome]; rfl, rfl, by simp [Ne.symm hb, hline]⟩

theorem matching_cons (ls : List (List Byte)) : matching pattern (line :: ls) =
    (if matchRe pattern line then line ++ [newline] else []) ++ matching pattern ls := by
  rw [matching, filter_cons]
  split_ifs <;> rfl

theorem matching_eq_nil {ls : List (List Byte)} :
    matching pattern ls = [] ↔ ∀ l ∈ ls, matchRe pattern l = false := by
  simp [matching]

/-- The lines before the first long one that match. -/
def printed (pattern s : List Byte) : List Byte := matching pattern ((lines s).takeWhile short)

/-- The inner loop prints the lines in the buffer that match, and leaves the part of a line. -/
theorem printLines_spec {turns : ℕ} (h : 0 ∉ p) (hturns : p.length ≤ turns)
    (hlen : p.length < bufsize) :
    newline ∉ (printLines pattern turns p).2 ∧ (printLines pattern turns p).2 <:+ p ∧
      ∀ s, printed pattern (p ++ s) = (printLines pattern turns p).1 ++
        printed pattern ((printLines pattern turns p).2 ++ s) := by
  induction turns generalizing p with
  | zero =>
    obtain rfl := eq_nil_of_length_eq_zero (Nat.le_zero.1 hturns)
    exact ⟨nofun, suffix_refl _, fun s => rfl⟩
  | succ turns ih =>
    rw [printLines]
    rcases strchr_cases h with ⟨hnone, hp⟩ | ⟨line, rest, hsome, rfl, hline⟩
    · rw [hnone]
      exact ⟨hp, suffix_refl _, fun s => rfl⟩
    · rw [hsome]
      rw [length_append, length_cons] at hturns hlen
      have hrest : 0 ∉ rest := fun h0 => h (mem_append_right _ (mem_cons_of_mem _ h0))
      obtain ⟨hno, hsuf, hall⟩ := ih hrest (by omega) (by omega)
      refine ⟨hno, hsuf.trans ⟨line ++ [newline], by simp⟩, fun s => ?_⟩
      have hshort : short line = true := decide_eq_true (by omega)
      have hs := hall s
      unfold printed at hs ⊢
      rw [append_assoc, cons_append, lines_append hline,
        takeWhile_cons_of_pos hshort, matching_cons, hs, append_assoc]

/-- If the buffer is full, the next line that ends is a long one. -/
theorem printed_of_full (h : 0 ∉ buf ++ input) (hbuf : newline ∉ buf)
    (hfull : bufsize ≤ buf.length + 1) : printed pattern (buf ++ input) = [] := by
  unfold printed
  rcases strchr_cases h with ⟨-, hno⟩ | ⟨line, rest, -, heq, hline⟩
  · rw [lines_eq_nil hno]
    rfl
  · have hle : buf.length ≤ line.length := by
      rcases append_eq_append_iff.1 heq with ⟨v, rfl, -⟩ | ⟨v, rfl, hv⟩
      · rw [length_append]
        omega
      · cases v with
        | nil => simp
        | cons b v =>
          cases hv
          simp at hbuf
    have hlong : ¬ short line = true := by simp [short]; omega
    rw [heq, lines_append hline, takeWhile_cons_of_neg hlong]
    rfl

theorem grepLoop_spec {pieces : ℕ → ℕ} {turns : ℕ} (k : ℕ) (h : 0 ∉ buf ++ input)
    (hbuf : newline ∉ buf) (hlen : buf.length < bufsize) (hturns : input.length < turns) :
    (∀ m ∈ (grepLoop pattern pieces turns k buf input).2, m < bufsize) ∧
      (grepLoop pattern pieces turns k buf input).1 = printed pattern (buf ++ input) := by
  induction turns generalizing k buf input with
  | zero => omega
  | succ turns ih =>
    rw [grepLoop]
    set n := min (bufsize - buf.length - 1) (max 1 (pieces k)) with hn
    split_ifs with hend
    · refine ⟨nofun, ?_⟩
      rcases take_eq_nil_iff.1 hend with hfull | rfl
      · exact (printed_of_full h hbuf (by omega)).symm
      · rw [append_nil, printed, lines_eq_nil hbuf]
        rfl
    · have hpos := length_pos_iff.2 hend
      have hle := length_take_le n input
      have hsplit : buf ++ input = (buf ++ input.take n) ++ input.drop n := by
        rw [append_assoc, take_append_drop]
      rw [hsplit] at h ⊢
      have hp : 0 ∉ buf ++ input.take n := fun h0 => h (mem_append_left _ h0)
      obtain ⟨hno, hsuf, hall⟩ := @printLines_spec pattern _ _ hp (Nat.le_of_eq length_append)
        (by rw [length_append]; omega)
      set r := printLines pattern (buf.length + (input.take n).length) (buf ++ input.take n)
      have hr := hsuf.length_le
      rw [length_append] at hr
      have hdrop : (input.drop n).length < turns := by
        rw [length_drop]
        rw [length_take] at hpos
        omega
      have hzero : 0 ∉ r.2 ++ input.drop n := fun h0 =>
        h (mem_append.2 ((mem_append.1 h0).imp_left fun h0 => hsuf.subset h0))
      obtain ⟨hbound, hout⟩ := ih (k + 1) hzero hno (by omega) hdrop
      exact ⟨forall_mem_cons.2 ⟨by omega, hbound⟩, by rw [hall, ← hout]⟩

/-- **What `grep` prints:** the lines that match, up to the first one that does not fit into `buf`,
however `read` splits the input.  These are all the lines that match if no line matches from there
on, and only then.  `buf` is not written behind its end. -/
theorem grep_prints_matching_iff (pattern : List Byte) (pieces : ℕ → ℕ) (input : List Byte)
    (h : 0 ∉ input) : (∀ m ∈ (grep pattern pieces input).2, m < bufsize) ∧
      (grep pattern pieces input).1 = printed pattern input ∧
      ((grep pattern pieces input).1 = matching pattern (lines input) ↔
        ∀ l ∈ (lines input).dropWhile short, matchRe pattern l = false) := by
  obtain ⟨hbound, hout⟩ : _ ∧ (grep pattern pieces input).1 = printed pattern input :=
    grepLoop_spec 0 (show 0 ∉ [] ++ input from h) nofun (by decide) (Nat.lt_succ_self _)
  refine ⟨hbound, hout, ?_⟩
  have hsplit : matching pattern (lines input) =
      printed pattern input ++ matching pattern ((lines input).dropWhile short) := by
    rw [printed, matching, matching, matching, ← flatMap_append, ← filter_append,
      takeWhile_append_dropWhile]
  rw [hout, hsplit, self_eq_append_right, matching_eq_nil]

/-- The pattern `b`, and one of two lines with it. -/
theorem grep_prints_matching_one :
    (grep [98] (fun _ => 2) [97, newline, 98, newline]).1 = [98, newline] :=
  ((grep_prints_matching_iff [98] (fun _ => 2) [97, newline, 98, newline] (by decide)).2.2.2
    (by decide)).trans (by decide)

/-- A line of 1023 bytes fills the buffer, and `read` is asked for none. -/
theorem grep_long_line : ∃ pattern pieces input, 0 ∉ input ∧
    (grep pattern pieces input).1 ≠ matching pattern (lines input) :=
  ⟨[], fun _ => bufsize, replicate 1023 97 ++ [newline], by decide +kernel, by decide +kernel⟩

end Xv6.Grep
