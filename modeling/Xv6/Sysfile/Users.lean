import Xv6.Sysfile.Create
import Xv6.File.Calls

/-!
# References of open files and of working directories

`open`, `close` and `chdir` turn a reference that the call holds into one of the process, or the
other way.
-/

namespace Xv6

open Function Finset List

/-! ### The file table -/

namespace Ftable

variable {F F' : Ftable} {p : ProcId} {f : FileId}

theorem filealloc_cases {r : Option FileId} (hs : F.filealloc = (r, F')) :
    r = none ∧ F' = F ∧ (∀ f, (F.file f).ref ≠ 0) ∨
      ∃ f, r = some f ∧ (F.file f).ref = 0 ∧ F' = F.setFile f { F.file f with ref := 1 } := by
  unfold filealloc at hs
  split at hs
  next hfind =>
    cases hs
    exact .inl ⟨rfl, rfl, fun f => by simpa using find?_eq_none.1 hfind f (mem_finRange f)⟩
  next f hfind =>
    cases hs
    exact .inr ⟨f, rfl, by simpa using find?_some hfind, rfl⟩

theorem fdalloc_cases {r : Option Fd} (hs : F.fdalloc p f = (r, F')) :
    r = none ∧ F' = F ∧ (∀ fd, F.ofile p fd ≠ none) ∨
      ∃ fd, r = some fd ∧ F' = F.setFd p fd (some f) := by
  unfold fdalloc at hs
  split at hs
  next hfind =>
    cases hs
    refine .inl ⟨rfl, rfl, fun fd => ?_⟩
    simpa using find?_eq_none.1 hfind fd (mem_finRange fd)
  next fd hfind =>
    cases hs
    exact .inr ⟨fd, rfl, rfl⟩

end Ftable

namespace Sysfile

open Outcome

variable {s s' t : Sysfile} {i ip : ℕ} {held held' lk : List ℕ} {p : ProcId} {f : FileId}

/-- `sys_open` fails for want of a descriptor or a file, and changes nothing; or a free file is
opened. -/
theorem open_cases {F F' : Ftable} (h : F.Inv 0 []) (ha : F.Alive p) {x : Ftable.Target}
    {r : Option ℕ} (hs : F.sysOpen p (some x) = .ok (r, F')) :
    F'.Inv 0 [] ∧ F'.state = F.state ∧
      (r = none ∧ F' = F ∧
          (x.isDevice = true ∨ (∀ f, (F.file f).ref ≠ 0) ∨ ∀ fd, F.ofile p fd ≠ none) ∨
        ∃ fd f, r = some fd ∧ (F.file f).type = .none ∧ (∀ i, OnInode (F'.file f) i ↔ i = x.ip) ∧
          ∀ g, g ≠ f → F'.file g = F.file g) := by
  have hinv : F'.Inv 0 [] := by
    obtain ⟨r', F₁, heq, hinv, -⟩ := h.sysOpen ha (some x)
    cases heq.symm.trans hs
    exact hinv
  refine ⟨hinv, ?_⟩
  unfold Ftable.sysOpen at hs
  dsimp only at hs
  split_ifs at hs with hmajor
  · cases hs
    exact ⟨rfl, .inl ⟨rfl, rfl, .inl hmajor.1⟩⟩
  rcases hr : F.filealloc with ⟨r1, F₁⟩
  rw [hr] at hs
  rcases Ftable.filealloc_cases hr with ⟨rfl, rfl, hfull⟩ | ⟨f, rfl, href, rfl⟩
  · cases hs
    exact ⟨rfl, .inl ⟨rfl, rfl, .inr (.inl hfull)⟩⟩
  have htype : (F.file f).type = .none := (h.counts.typed f).2 (.inl href)
  dsimp only at hs
  rcases hr2 : (F.setFile f { F.file f with ref := 1 }).fdalloc p f with ⟨r2, F₂⟩
  rw [hr2] at hs
  rcases Ftable.fdalloc_cases hr2 with ⟨rfl, rfl, hfull⟩ | ⟨fd, rfl, rfl⟩
  · -- the entry is as it was before `filealloc`
    have hback : ({ F.file f with ref := 0, type := .none } : Ftable.File) = F.file f := by
      rw [← href, ← htype]
    simp [Ftable.fileclose, Ftable.setFile, htype, Except.map, hback] at hs
    obtain ⟨rfl, rfl⟩ := hs
    exact ⟨rfl, .inl ⟨rfl, rfl, .inr (.inr hfull)⟩⟩
  · cases hs
    refine ⟨rfl, .inr ⟨fd, f, rfl, htype, fun i => ?_, fun g hg => ?_⟩⟩
    · simp only [Ftable.openFile, Ftable.setFd, Ftable.setFile, update_self, OnInode]
      split_ifs <;> simp [eq_comm]
    · simp only [Ftable.openFile, Ftable.setFd, Ftable.setFile, update_of_ne hg]

/-- `sys_close` gives one reference to the file up; the last one clears its entry. -/
theorem close_cases {F F' : Ftable} (h : F.Inv 0 []) (ha : F.Alive p) {n : ℤ} {fd : Fd}
    (hfd : F.argfd p n = some (fd, f)) {r : Option ℕ} (hs : F.sysClose p n = .ok (r, F')) :
    F'.Inv 0 [] ∧ F'.state = F.state ∧ r = some 0 ∧
      (∀ g, g ≠ f → F'.file g = F.file g) ∧
      ((F.file f).ref = 1 ∧ (F'.file f).type = .none ∨
        (F.file f).ref ≠ 1 ∧ ∀ i, OnInode (F'.file f) i ↔ OnInode (F.file f) i) := by
  have hinv : F'.Inv 0 [] := by
    obtain ⟨r', F₁, heq, hinv, -⟩ := h.sysClose ha n
    cases heq.symm.trans hs
    exact hinv
  refine ⟨hinv, ?_⟩
  unfold Ftable.sysClose at hs
  rw [hfd] at hs
  obtain ⟨F₁, hclose, heq⟩ := map_eq_ok.1 hs
  cases heq
  unfold Ftable.fileclose at hclose
  dsimp only at hclose
  split_ifs at hclose with hlow hmore
  · cases hclose
    refine ⟨rfl, rfl, fun g hg => ?_, .inr ⟨?_, fun i => ?_⟩⟩
    · exact update_of_ne hg ..
    · simp only [Ftable.setFd] at hmore
      omega
    · simp [Ftable.setFile, Ftable.setFd, OnInode]
  · have hone : (F.file f).ref = 1 := by
      simp only [Ftable.setFd] at hlow hmore
      omega
    have hresult : F'.state = F.state ∧
        F'.file = update F.file f { F.file f with ref := 0, type := .none } := by
      split at hclose
      · cases hclose
        exact ⟨Ftable.pipeclose_state, Ftable.pipeclose_file⟩
      all_goals
        cases hclose
        exact ⟨rfl, rfl⟩
    rw [hresult.2]
    refine ⟨hresult.1, rfl, fun g hg => update_of_ne hg .., .inl ⟨hone, ?_⟩⟩
    rw [update_self]

/-! ### References that change hands -/

/-- One more file is open on inode `ip`. -/
theorem card_onInode {F F' : FileId → Ftable.File} (hold : ∀ i, ¬ OnInode (F f) i)
    (hnew : ∀ i, OnInode (F' f) i ↔ i = ip) (hother : ∀ g, g ≠ f → F' g = F g) (i : ℕ) :
    (univ.filter fun g => OnInode (F' g) i).card =
      (univ.filter fun g => OnInode (F g) i).card + [ip].count i := by
  by_cases hi : i = ip
  · have hinsert : (univ.filter fun g => OnInode (F' g) i) =
        insert f (univ.filter fun g => OnInode (F g) i) := by
      ext g
      by_cases hg : g = f
      · simp [hg, hnew, hi]
      · simp [hg, hother g hg]
    rw [hinsert, card_insert_of_notMem (by simp [hold]), hi, count_singleton_self]
  · have hsame : (univ.filter fun g => OnInode (F' g) i) =
        univ.filter fun g => OnInode (F g) i := by
      ext g
      by_cases hg : g = f
      · simp [hg, hnew, hi, hold]
      · simp [hother g hg]
    rw [hsame, count_eq_zero_of_not_mem (by simpa using hi), add_zero]

theorem Work.move (h : Work s held lk) (href : s'.ref = s.ref) (hvalid : s'.valid = s.valid)
    (hlocked : s'.locked = s.locked) (hnode : s'.node = s.node) (hsub : ∀ i ∈ lk, i ∈ held')
    (husers : ∀ i, s'.users i + held'.count i = s.users i + held.count i) : Work s' held' lk where
  refs i := by rw [href, husers, h.refs]
  locked := by rw [hlocked]; exact h.locked
  sub := hsub
  loaded := by rw [hvalid]; exact h.loaded
  linked := by rw [hnode, href, hvalid]; exact h.linked
  typed := by rw [hnode, href, hvalid]; exact h.typed

theorem alive_congr {F F' : Ftable} (h : F'.state = F.state) (p : ProcId) :
    F'.Alive p ↔ F.Alive p := by
  simp only [Ftable.Alive, h]

theorem Work.openFile (h : Work s [ip] []) {F' : Ftable} (hstate : F'.state = s.files.state)
    (hold : (s.files.file f).type = .none) (hnew : ∀ i, OnInode (F'.file f) i ↔ i = ip)
    (hother : ∀ g, g ≠ f → F'.file g = s.files.file g) : Work { s with files := F' } [] [] := by
  refine h.move rfl rfl rfl rfl nofun fun i => ?_
  have hcard := card_onInode (F := s.files.file) (fun i => by simp [OnInode, hold]) hnew hother i
  simp only [users, alive_congr hstate, hcard, count_nil]
  omega

theorem Work.closeFile (h : Work s [] []) {F' : Ftable} (hstate : F'.state = s.files.state)
    (hold : ∀ i, OnInode (s.files.file f) i ↔ i = ip) (hnew : (F'.file f).type = .none)
    (hother : ∀ g, g ≠ f → F'.file g = s.files.file g) : Work { s with files := F' } [ip] [] := by
  refine h.move rfl rfl rfl rfl nofun fun i => ?_
  have hcard := card_onInode (F := F'.file) (fun i => by simp [OnInode, hnew]) hold
    (fun g hg => (hother g hg).symm) i
  simp only [users, alive_congr hstate, hcard, count_nil]
  omega

theorem Work.sameFiles (h : Work s held lk) {F' : Ftable} (hstate : F'.state = s.files.state)
    (hsame : ∀ g i, OnInode (F'.file g) i ↔ OnInode (s.files.file g) i) :
    Work { s with files := F' } held lk := by
  refine h.move rfl rfl rfl rfl h.sub fun i => ?_
  simp only [users, alive_congr hstate, hsame]

/-- The new working directory is counted, and the old one is not. -/
theorem Work.setCwd (h : Work s [ip] []) (hp : s.files.Alive p) :
    Work { s with cwd := update s.cwd p ip } [s.cwd p] [] := by
  refine h.move rfl rfl rfl rfl nofun fun i => ?_
  have hcount : ∀ c : ProcId → ℕ, (univ.filter fun q => s.files.Alive q ∧ c q = i).card =
      (univ.filter fun q => s.files.Alive q ∧ q ≠ p ∧ c q = i).card + [c p].count i := by
    intro c
    by_cases hi : c p = i
    · have hinsert : (univ.filter fun q => s.files.Alive q ∧ c q = i) =
          insert p (univ.filter fun q => s.files.Alive q ∧ q ≠ p ∧ c q = i) := by
        ext q
        by_cases hq : q = p
        · simp [hq, hp, hi]
        · simp [hq]
      rw [hinsert, card_insert_of_notMem (by simp), hi, count_singleton_self]
    · have hsame : (univ.filter fun q => s.files.Alive q ∧ c q = i) =
          univ.filter fun q => s.files.Alive q ∧ q ≠ p ∧ c q = i := by
        ext q
        by_cases hq : q = p
        · simp [hq, hi]
        · simp [hq]
      rw [hsame, count_eq_zero_of_not_mem (by simpa using fun heq => hi heq.symm), add_zero]
  have hothers : (univ.filter fun q =>
      s.files.Alive q ∧ q ≠ p ∧ update s.cwd p ip q = i) =
        univ.filter fun q => s.files.Alive q ∧ q ≠ p ∧ s.cwd q = i := by
    ext q
    by_cases hq : q = p
    · simp [hq]
    · simp [hq]
  have hnew := hcount (update s.cwd p ip)
  rw [hothers, update_self] at hnew
  have hold := hcount s.cwd
  simp only [users]
  omega

end Sysfile
end Xv6
