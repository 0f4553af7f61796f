import Xv6.File.Table
import Xv6.Lib.Tally
import Mathlib.Tactic.Abel

/-!
# References to open files add up

Between two calls the reference count of a file is the number of descriptors that point to it.
Within a call the two differ by what the call owes, or is owed: `Inv s e new` says that they differ
by `e`, where `new` are the files that have been allocated and have no type yet.  Each function of
`kernel/file.c` changes `e` in its own way, and a call ends with `e = 0`, on every path.
-/

namespace Xv6.Ftable

open Function Tally List Xv6.Ftable.Pipe

variable {s s' : Ftable} {f g : FileId} {p q : ProcId} {fd : Fd} {pg : ℕ} {w : Bool}
  {e : FileId → ℤ} {new : List FileId}

/-! ### Descriptors and ends of pipes -/

/-- All descriptors. -/
def slots (s : Ftable) (x : ProcId × Fd) : Option FileId := s.ofile x.1 x.2

theorem slots_setFd (v : Option FileId) : (s.setFd p fd v).slots = update s.slots (p, fd) v := by
  funext ⟨q, k⟩
  by_cases hq : q = p
  · subst hq
    by_cases hk : k = fd
    · subst hk
      simp [slots, setFd]
    · have hne : (q, k) ≠ (q, fd) := fun h => hk (Prod.mk.inj h).2
      simp [slots, setFd, update_of_ne hk, update_of_ne hne]
  · have hne : (q, k) ≠ (p, fd) := fun h => hq (Prod.mk.inj h).1
    simp [slots, setFd, update_of_ne hq, update_of_ne hne]

/-- A file that is an end of the pipe in page `pg`; `w` says which end. -/
def IsEnd (s : Ftable) (f : FileId) (pg : ℕ) (w : Bool) : Prop :=
  (s.file f).type = .pipe ∧ (s.file f).pipe = pg ∧ (s.file f).writable = w

/-- The page holds a pipe with an open end. -/
def Live (s : Ftable) (pg : ℕ) : Prop := ∃ f w, s.IsEnd f pg w

def Pipe.flag (pi : Pipe) (w : Bool) : ℤ := if w then pi.writeopen else pi.readopen

/-- The pipes and their pages. -/
structure Pipes (s : Ftable) : Prop where
  sides : ∀ f, (s.file f).type = .pipe → (s.file f).readable = !(s.file f).writable
  unique : ∀ f g pg w, s.IsEnd f pg w → s.IsEnd g pg w → f = g
  flags : ∀ pg w, s.Live pg → ((s.pipe pg).flag w ≠ 0 ↔ ∃ f, s.IsEnd f pg w)
  apart : ∀ pg, s.Live pg → pg ∉ s.freelist ∧ pg ∉ s.held
  nodup : (s.freelist ++ s.held).Nodup
  live : ∀ pg, s.Live pg → s.allocs pg = s.frees pg + 1
  dead : ∀ pg, ¬ s.Live pg → s.allocs pg = s.frees pg

/-- The reference counts, with `e` owed, and the types, except for the files `new`. -/
structure Counts (s : Ftable) (e : FileId → ℤ) (new : List FileId) : Prop where
  refs : ∀ f, (s.file f).ref = tally s.slots (ind · f) + e f
  typed : ∀ f, (s.file f).type = .none ↔ (s.file f).ref = 0 ∨ f ∈ new
  fresh : ∀ f ∈ new, 0 < (s.file f).ref
  nonneg : ∀ f, 0 ≤ (s.file f).ref
  closed : ∀ p, ¬ s.Alive p → ∀ fd, s.ofile p fd = none

structure Inv (s : Ftable) (e : FileId → ℤ) (new : List FileId) : Prop where
  counts : s.Counts e new
  pipes : s.Pipes

theorem slots_nonneg (s : Ftable) (f : FileId) : 0 ≤ tally s.slots (ind · f) :=
  tally_nonneg fun _ => ind_nonneg

theorem one_le_slots (h : s.ofile p fd = some f) : 1 ≤ tally s.slots (ind · f) := by
  refine one_le_tally (fun _ => ind_nonneg) (k := (p, fd)) ?_
  show 1 ≤ ind (s.ofile p fd) f
  rw [h, ind_self]

theorem Pipes.congr (h : s.Pipes) (hend : ∀ f pg w, s'.IsEnd f pg w ↔ s.IsEnd f pg w)
    (hsides : ∀ f, (s'.file f).type = .pipe → (s'.file f).readable = !(s'.file f).writable)
    (hpipe : s'.pipe = s.pipe) (hfree : s'.freelist = s.freelist) (hheld : s'.held = s.held)
    (hallocs : s'.allocs = s.allocs) (hfrees : s'.frees = s.frees) : s'.Pipes := by
  have hlive : ∀ pg, s'.Live pg ↔ s.Live pg := fun pg => by simp only [Live, hend]
  refine ⟨hsides, fun f g pg w => ?_, fun pg w => ?_, fun pg => ?_, ?_, fun pg => ?_, fun pg => ?_⟩
  · rw [hend, hend]
    exact h.unique f g pg w
  · simp only [hlive, hend, hpipe]
    exact h.flags pg w
  · rw [hlive, hfree, hheld]
    exact h.apart pg
  · rw [hfree, hheld]
    exact h.nodup
  · rw [hlive, hallocs, hfrees]
    exact h.live pg
  · rw [hlive, hallocs, hfrees]
    exact h.dead pg

/-- A file whose type is no pipe becomes another such file. -/
theorem Pipes.setFile_other (h : s.Pipes) {x : File} (hold : (s.file f).type ≠ .pipe)
    (hx : x.type ≠ .pipe) : (s.setFile f x).Pipes := by
  refine h.congr (fun g pg w => ?_) (fun g hg => ?_) rfl rfl rfl rfl rfl
  · by_cases hgf : g = f
    · subst hgf
      simp [IsEnd, setFile, hold, hx]
    · simp [IsEnd, setFile, update_of_ne hgf]
  · by_cases hgf : g = f
    · subst hgf
      simp only [setFile, update_self] at hg
      exact absurd hg hx
    · simp only [setFile, update_of_ne hgf] at hg ⊢
      exact h.sides g hg

theorem Pipes.setRef (h : s.Pipes) (f : FileId) (n : ℤ) :
    (s.setFile f { s.file f with ref := n }).Pipes := by
  refine h.congr (fun g pg w => ?_) (fun g hg => ?_) rfl rfl rfl rfl rfl
  · by_cases hgf : g = f
    · subst hgf
      simp [IsEnd, setFile]
    · simp [IsEnd, setFile, update_of_ne hgf]
  · by_cases hgf : g = f
    · subst hgf
      simp only [setFile, update_self] at hg ⊢
      exact h.sides g hg
    · simp only [setFile, update_of_ne hgf] at hg ⊢
      exact h.sides g hg

/-! ### Reference counts -/

namespace Counts

theorem congr (h : s.Counts e new) (hfile : s'.file = s.file) (hofile : s'.ofile = s.ofile)
    (hstate : s'.state = s.state) : s'.Counts e new := by
  have hslots : s'.slots = s.slots := by
    funext x
    simp only [slots, hofile]
  exact
    { refs := by rw [hfile, hslots]; exact h.refs
      typed := by rw [hfile]; exact h.typed
      fresh := by rw [hfile]; exact h.fresh
      nonneg := by rw [hfile]; exact h.nonneg
      closed := by
        simp only [Alive, hofile, hstate]
        exact h.closed }

/-- An entry of the file table changes, and what is owed for it. -/
theorem setFile (h : s.Counts e new) {x : File} {e' : FileId → ℤ} {new' : List FileId}
    (hpos : 0 ≤ x.ref) (hself : x.ref - (s.file f).ref = e' f - e f)
    (hother : ∀ g, g ≠ f → e' g = e g) (htyped : x.type = .none ↔ x.ref = 0 ∨ f ∈ new')
    (hfresh : f ∈ new' → 0 < x.ref) (hnew : ∀ g, g ≠ f → (g ∈ new' ↔ g ∈ new)) :
    (s.setFile f x).Counts e' new' where
  refs g := by
    show (update s.file f x g).ref = tally s.slots (ind · g) + _
    have hg := h.refs g
    by_cases hgf : g = f
    · subst hgf
      rw [update_self]
      omega
    · rw [update_of_ne hgf, hother g hgf]
      exact hg
  typed g := by
    by_cases hgf : g = f
    · subst hgf
      simpa only [Ftable.setFile, update_self] using htyped
    · simp only [Ftable.setFile, update_of_ne hgf, hnew g hgf]
      exact h.typed g
  fresh g hg := by
    by_cases hgf : g = f
    · subst hgf
      simpa only [Ftable.setFile, update_self] using hfresh hg
    · simp only [Ftable.setFile, update_of_ne hgf]
      exact h.fresh g ((hnew g hgf).1 hg)
  nonneg g := by
    by_cases hgf : g = f
    · subst hgf
      simpa only [Ftable.setFile, update_self] using hpos
    · simp only [Ftable.setFile, update_of_ne hgf]
      exact h.nonneg g
  closed := h.closed

theorem setFd (h : s.Counts e new) (ha : s.Alive p) (fd : Fd) (v : Option FileId) :
    (s.setFd p fd v).Counts (e + ind (s.ofile p fd) - ind v) new where
  refs g := by
    have hg := h.refs g
    rw [slots_setFd, tally_update]
    show (s.file g).ref =
      _ + (ind v g - ind (s.ofile p fd) g) + (e g + ind (s.ofile p fd) g - ind v g)
    omega
  typed := h.typed
  fresh := h.fresh
  nonneg := h.nonneg
  closed q hq k := by
    have hqp : q ≠ p := fun heq => hq (heq ▸ ha)
    simp only [Ftable.setFd, update_of_ne hqp]
    exact h.closed q hq k

theorem not_pipe (h : s.Counts e new) (hf : f ∈ new) : (s.file f).type ≠ .pipe := by
  rw [(h.typed f).2 (.inr hf)]
  nofun

end Counts

theorem add_ind_self : (e + ind (some f)) f - e f = 1 := by
  rw [Pi.add_apply, ind_self]
  omega

theorem add_ind_of_ne (hg : g ≠ f) : (e + ind (some f)) g = e g := by
  rw [Pi.add_apply, ind_some, if_neg hg.symm]
  omega

theorem sub_ind_self : (e - ind (some f)) f - e f = -1 := by
  rw [Pi.sub_apply, ind_self]
  omega

theorem sub_ind_of_ne (hg : g ≠ f) : (e - ind (some f)) g = e g := by
  rw [Pi.sub_apply, ind_some, if_neg hg.symm]
  omega

/-! ### The functions of `kernel/file.c` -/

/-- `filealloc` returns a reference to a new file. -/
theorem Inv.filealloc (h : s.Inv e new) {r : Option FileId} (hs : s.filealloc = (r, s')) :
    r = none ∧ s' = s ∨
    ∃ f, r = some f ∧ f ∉ new ∧ s'.Inv (e + ind (some f)) (f :: new) ∧
      s' = s.setFile f { s.file f with ref := 1 } := by
  unfold Ftable.filealloc at hs
  split at hs
  · cases hs
    exact .inl ⟨rfl, rfl⟩
  next f hfind =>
    cases hs
    have href : (s.file f).ref = 0 := by simpa using find?_some hfind
    have hnot : f ∉ new := fun hf => by
      have := h.counts.fresh f hf
      omega
    refine .inr ⟨f, rfl, hnot, ⟨?_, h.pipes.setRef f 1⟩, rfl⟩
    refine h.counts.setFile zero_le_one ?_ (fun g hg => add_ind_of_ne hg) ?_
      (fun _ => zero_lt_one) fun g hg => ?_
    · rw [add_ind_self, href]
      rfl
    · simp [h.counts.typed f, href]
    · simp [hg]

theorem Inv.filedup (h : s.Inv e new) (hf : 1 ≤ (s.file f).ref) :
    ∃ n, s.filedup f = .ok (s.setFile f { s.file f with ref := n }) ∧
      (s.setFile f { s.file f with ref := n }).Inv (e + ind (some f)) new := by
  refine ⟨(s.file f).ref + 1, if_neg (by omega), ?_, h.pipes.setRef f _⟩
  refine h.counts.setFile (by simp only; omega) ?_ (fun g hg => add_ind_of_ne hg) ?_
    (fun _ => by simp only; omega) fun g _ => Iff.rfl
  · rw [add_ind_self]
    simp only
    omega
  · have hne : (s.file f).ref ≠ 0 := by omega
    have hne' : (s.file f).ref + 1 ≠ 0 := by omega
    simp only [h.counts.typed f, hne, hne', false_or]

@[simp] theorem pipeclose_file : (s.pipeclose pg w).file = s.file := by
  unfold pipeclose
  simp only
  split_ifs <;> rfl

@[simp] theorem pipeclose_ofile : (s.pipeclose pg w).ofile = s.ofile := by
  unfold pipeclose
  simp only
  split_ifs <;> rfl

@[simp] theorem pipeclose_state : (s.pipeclose pg w).state = s.state := by
  unfold pipeclose
  simp only
  split_ifs <;> rfl

/-- The entry of a file is cleared: it is an end no more. -/
theorem isEnd_clear
    (hfile : s'.file = update s.file f { s.file f with ref := 0, type := .none }) (g : FileId)
    (pg : ℕ) (w : Bool) : s'.IsEnd g pg w ↔ g ≠ f ∧ s.IsEnd g pg w := by
  unfold IsEnd
  rw [hfile]
  by_cases hg : g = f
  · subst hg
    simp
  · simp [hg]

theorem Pipe.flag_close (pi : Pipe) (w w' : Bool) :
    (pi.close w).flag w' = if w' = w then 0 else pi.flag w' := by
  cases w <;> cases w' <;> rfl

theorem Pipes.close_one (h : s.Pipes) (hf : s.IsEnd f pg w) (hopen : (s.pipe pg).flag (!w) ≠ 0)
    (hend : ∀ g pg w, s'.IsEnd g pg w ↔ g ≠ f ∧ s.IsEnd g pg w)
    (hsides : ∀ g, (s'.file g).type = .pipe → (s'.file g).readable = !(s'.file g).writable)
    (hpipe : s'.pipe = update s.pipe pg ((s.pipe pg).close w))
    (hfree : s'.freelist = s.freelist) (hheld : s'.held = s.held)
    (hallocs : s'.allocs = s.allocs) (hfrees : s'.frees = s.frees) : s'.Pipes := by
  have hlive : ∀ pg', s'.Live pg' ↔ s.Live pg' := by
    intro pg'
    constructor
    · rintro ⟨g, w', hg⟩
      exact ⟨g, w', ((hend ..).1 hg).2⟩
    · rintro ⟨g, w', hg⟩
      by_cases hgf : g = f
      · -- the other end is still there
        subst hgf
        obtain rfl : pg = pg' := hf.2.1.symm.trans hg.2.1
        obtain ⟨k, hk⟩ := (h.flags pg (!w) ⟨g, w', hg⟩).1 hopen
        refine ⟨k, !w, (hend ..).2 ⟨?_, hk⟩⟩
        rintro rfl
        have := hk.2.2.symm.trans hf.2.2
        simp at this
      · exact ⟨g, w', (hend ..).2 ⟨hgf, hg⟩⟩
  refine ⟨hsides, fun g k pg' w' hg hk => ?_, fun pg' w' hl => ?_, fun pg' => ?_, ?_, fun pg' => ?_,
    fun pg' => ?_⟩
  · exact h.unique g k pg' w' ((hend ..).1 hg).2 ((hend ..).1 hk).2
  · have hflag := h.flags pg' w' ((hlive pg').1 hl)
    rw [hpipe]
    by_cases hpg : pg' = pg
    · subst hpg
      rw [update_self, flag_close]
      split_ifs with hw
      · subst hw
        simp only [ne_eq, not_true_eq_false, false_iff, not_exists]
        intro g hg
        obtain ⟨hne, hg⟩ := (hend ..).1 hg
        exact hne (h.unique g f pg' w' hg hf)
      · refine hflag.trans (exists_congr fun g => ?_)
        rw [hend]
        refine ⟨fun hg => ⟨?_, hg⟩, fun hg => hg.2⟩
        rintro rfl
        exact hw (hg.2.2.symm.trans hf.2.2)
    · rw [update_of_ne hpg]
      refine hflag.trans (exists_congr fun g => ?_)
      rw [hend]
      refine ⟨fun hg => ⟨?_, hg⟩, fun hg => hg.2⟩
      rintro rfl
      exact hpg (hg.2.1.symm.trans hf.2.1)
  · rw [hlive, hfree, hheld]
    exact h.apart pg'
  · rw [hfree, hheld]
    exact h.nodup
  · rw [hlive, hallocs, hfrees]
    exact h.live pg'
  · rw [hlive, hallocs, hfrees]
    exact h.dead pg'

theorem Pipes.close_both (h : s.Pipes) (hf : s.IsEnd f pg w) (hclosed : (s.pipe pg).flag (!w) = 0)
    (hend : ∀ g pg w, s'.IsEnd g pg w ↔ g ≠ f ∧ s.IsEnd g pg w)
    (hsides : ∀ g, (s'.file g).type = .pipe → (s'.file g).readable = !(s'.file g).writable)
    (hpipe : ∀ pg', pg' ≠ pg → s'.pipe pg' = s.pipe pg')
    (hfree : s'.freelist = pg :: s.freelist) (hheld : s'.held = s.held)
    (hallocs : s'.allocs = s.allocs)
    (hfrees : s'.frees = update s.frees pg (s.frees pg + 1)) : s'.Pipes := by
  have hlive0 : s.Live pg := ⟨f, w, hf⟩
  have honly : ∀ g w', s.IsEnd g pg w' → g = f := by
    intro g w' hg
    by_cases hw : w' = w
    · exact h.unique g f pg w (hw ▸ hg) hf
    · have hw' : w' = !w := by cases w <;> cases w' <;> simp_all
      exact absurd hclosed ((h.flags pg (!w) hlive0).2 ⟨g, hw' ▸ hg⟩)
  have hlive : ∀ pg', s'.Live pg' ↔ pg' ≠ pg ∧ s.Live pg' := by
    intro pg'
    constructor
    · rintro ⟨g, w', hg⟩
      obtain ⟨hne, hg⟩ := (hend ..).1 hg
      refine ⟨?_, g, w', hg⟩
      rintro rfl
      exact hne (honly g w' hg)
    · rintro ⟨hpg, g, w', hg⟩
      refine ⟨g, w', (hend ..).2 ⟨?_, hg⟩⟩
      rintro rfl
      exact hpg (hg.2.1.symm.trans hf.2.1)
  obtain ⟨hnfree, hnheld⟩ := h.apart pg hlive0
  refine ⟨hsides, fun g k pg' w' hg hk => ?_, fun pg' w' hl => ?_, fun pg' hl => ?_, ?_,
    fun pg' hl => ?_, fun pg' hl => ?_⟩
  · exact h.unique g k pg' w' ((hend ..).1 hg).2 ((hend ..).1 hk).2
  · obtain ⟨hpg, hl⟩ := (hlive pg').1 hl
    rw [hpipe pg' hpg]
    refine (h.flags pg' w' hl).trans (exists_congr fun g => ?_)
    rw [hend]
    refine ⟨fun hg => ⟨?_, hg⟩, fun hg => hg.2⟩
    rintro rfl
    exact hpg (hg.2.1.symm.trans hf.2.1)
  · obtain ⟨hpg, hl⟩ := (hlive pg').1 hl
    rw [hfree, hheld]
    refine ⟨fun hm => ?_, (h.apart pg' hl).2⟩
    rcases mem_cons.1 hm with rfl | hm
    · exact hpg rfl
    · exact (h.apart pg' hl).1 hm
  · rw [hfree, hheld, cons_append, nodup_cons, mem_append, not_or]
    exact ⟨⟨hnfree, hnheld⟩, h.nodup⟩
  · obtain ⟨hpg, hl⟩ := (hlive pg').1 hl
    rw [hallocs, hfrees, update_of_ne hpg]
    exact h.live pg' hl
  · rw [hallocs, hfrees]
    by_cases hpg : pg' = pg
    · subst hpg
      rw [update_self]
      exact h.live pg' hlive0
    · rw [update_of_ne hpg]
      exact h.dead pg' fun hl' => hl ((hlive pg').2 ⟨hpg, hl'⟩)

theorem Pipes.close (h : s.Pipes) (hf : (s.file f).type = .pipe) :
    ((s.setFile f { s.file f with ref := 0, type := .none }).pipeclose (s.file f).pipe
      (s.file f).writable).Pipes := by
  set pg := (s.file f).pipe with hpg
  set w := (s.file f).writable with hw
  have hfe : s.IsEnd f pg w := ⟨hf, rfl, rfl⟩
  have hboth : (((s.pipe pg).close w).readopen = 0 ∧ ((s.pipe pg).close w).writeopen = 0) ↔
      (s.pipe pg).flag (!w) = 0 := by
    cases w <;> simp [Pipe.close, Pipe.flag]
  have hsides : ∀ g, (update s.file f { s.file f with ref := 0, type := .none } g).type =
      .pipe → (update s.file f { s.file f with ref := 0, type := .none } g).readable =
        !(update s.file f { s.file f with ref := 0, type := .none } g).writable := by
    intro g hg
    by_cases hgf : g = f
    · subst hgf
      rw [update_self] at hg
      cases hg
    · rw [update_of_ne hgf] at hg ⊢
      exact h.sides g hg
  unfold pipeclose
  simp only
  split_ifs with hzero
  · refine h.close_both hfe (hboth.1 hzero) (isEnd_clear rfl) hsides (fun pg' hne => ?_) rfl rfl rfl
      rfl
    simp [freePipe, setFile, update_of_ne hne]
  · exact h.close_one hfe (fun hflag => hzero (hboth.2 hflag)) (isEnd_clear rfl) hsides rfl rfl rfl
      rfl rfl

/-- A page from the free list becomes a pipe with two new ends. -/
theorem Pipes.alloc (h : s.Pipes) {rest : List ℕ} {f0 f1 : FileId} (hlist : s.freelist = pg :: rest)
    (hend : ∀ g pg' w, s'.IsEnd g pg' w ↔
      s.IsEnd g pg' w ∨ pg' = pg ∧ (g = f0 ∧ w = false ∨ g = f1 ∧ w = true))
    (hsides : ∀ g, (s'.file g).type = .pipe → (s'.file g).readable = !(s'.file g).writable)
    (hpipe : s'.pipe = update s.pipe pg ⟨1, 1⟩) (hfree : s'.freelist = rest)
    (hheld : s'.held = s.held) (hallocs : s'.allocs = update s.allocs pg (s.allocs pg + 1))
    (hfrees : s'.frees = s.frees) : s'.Pipes := by
  have hnodup := h.nodup
  rw [hlist, cons_append, nodup_cons, mem_append, not_or] at hnodup
  have hdead : ¬ s.Live pg := fun hl => (h.apart pg hl).1 (by rw [hlist]; exact mem_cons_self)
  have hold : ∀ g w, ¬ s.IsEnd g pg w := fun g w hg => hdead ⟨g, w, hg⟩
  have hlive : ∀ pg', s'.Live pg' ↔ pg' = pg ∨ s.Live pg' := by
    intro pg'
    constructor
    · rintro ⟨g, w, hg⟩
      rcases (hend ..).1 hg with hg | ⟨rfl, -⟩
      · exact .inr ⟨g, w, hg⟩
      · exact .inl rfl
    · rintro (rfl | ⟨g, w, hg⟩)
      · exact ⟨f0, false, (hend ..).2 (.inr ⟨rfl, .inl ⟨rfl, rfl⟩⟩)⟩
      · exact ⟨g, w, (hend ..).2 (.inl hg)⟩
  refine ⟨hsides, fun g k pg' w hg hk => ?_, fun pg' w hl => ?_, fun pg' hl => ?_, ?_,
    fun pg' hl => ?_, fun pg' hl => ?_⟩
  · rw [hend] at hg hk
    by_cases hpg : pg' = pg
    · subst hpg
      cases w <;> simp_all
    · exact h.unique g k pg' w (hg.resolve_right fun hg => hpg hg.1)
        (hk.resolve_right fun hk => hpg hk.1)
  · rw [hpipe]
    by_cases hpg : pg' = pg
    · subst hpg
      rw [update_self]
      cases w <;> simp [flag, hend, hold]
    · rw [update_of_ne hpg]
      refine (h.flags pg' w (((hlive pg').1 hl).resolve_left hpg)).trans (exists_congr fun g => ?_)
      simp [hend, hpg]
  · rw [hfree, hheld]
    rcases (hlive pg').1 hl with rfl | hl
    · exact hnodup.1
    · have := h.apart pg' hl
      rw [hlist] at this
      exact ⟨fun hm => this.1 (mem_cons_of_mem _ hm), this.2⟩
  · rw [hfree, hheld]
    exact hnodup.2
  · rw [hallocs, hfrees]
    by_cases hpg : pg' = pg
    · subst hpg
      rw [update_self, h.dead pg' hdead]
    · rw [update_of_ne hpg]
      exact h.live pg' (((hlive pg').1 hl).resolve_left hpg)
  · rw [hlive, not_or] at hl
    rw [hallocs, hfrees, update_of_ne hl.1]
    exact h.dead pg' hl.2

/-- `fileclose` gives a reference up. -/
theorem Inv.fileclose (h : s.Inv e new) (new' : List FileId) (hf : 1 ≤ (s.file f).ref)
    (hone : f ∈ new → (s.file f).ref = 1) (hnew : ∀ g, g ∈ new' ↔ g ∈ new ∧ g ≠ f) :
    ∃ s', s.fileclose f = .ok s' ∧ s'.Inv (e - ind (some f)) new' ∧ s'.ofile = s.ofile ∧
      s'.state = s.state := by
  have hother : ∀ g, g ≠ f → (g ∈ new' ↔ g ∈ new) := fun g hg => by simp [hnew, hg]
  have hself : f ∉ new' := fun hm => ((hnew f).1 hm).2 rfl
  unfold Ftable.fileclose
  simp only
  rw [if_neg (by omega)]
  split_ifs with hmore
  · -- other references remain
    refine ⟨_, rfl, ⟨?_, h.pipes.setRef f _⟩, rfl, rfl⟩
    refine h.counts.setFile (by simp only; omega) ?_ (fun g hg => sub_ind_of_ne hg) ?_
      (fun hm => absurd hm hself) hother
    · rw [sub_ind_self]
      simp only
      omega
    · have hnot : f ∉ new := fun hm => by
        have := hone hm
        omega
      simp only [h.counts.typed f, hnot, hself, or_false]
      omega
  · have hcounts : (s.setFile f { s.file f with ref := 0, type := .none }).Counts
        (e - ind (some f)) new' := by
      refine h.counts.setFile le_rfl ?_ (fun g hg => sub_ind_of_ne hg) ?_
        (fun hm => absurd hm hself) hother
      · rw [sub_ind_self]
        simp only
        omega
      · simp
    cases htype : (s.file f).type with
    | pipe =>
      exact ⟨_, rfl, ⟨hcounts.congr pipeclose_file pipeclose_ofile pipeclose_state,
        h.pipes.close htype⟩, pipeclose_ofile, pipeclose_state⟩
    | none | inode | device =>
      exact ⟨_, rfl, ⟨hcounts, h.pipes.setFile_other (by rw [htype]; nofun) nofun⟩, rfl, rfl⟩

end Xv6.Ftable
