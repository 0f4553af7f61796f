import Xv6.Fork.Preserve

/-!
# When `fork` fails

A call of `fork` that has claimed a slot comes to its end.  If one of its allocations fails it
returns -1; by then the slot is free again, its lock has been released once, and all pages are back
on the free list; no other slot and no page of another slot has been touched on the way.

This needs that nobody claims the slot between the two calls of `freeproc` that `allocthread` and
`allocproc` make when there is no memory for the backup page: the second one is made without the
lock of the slot.
-/

namespace Xv6.Fork

open Function Vm Transition Kernel Slot Pos

variable {k k₀ k' : Kernel} {n : ProcId → ℕ} {x y : Tid} {q r : ProcId} {m m' : Mem}

/-! ### Where runs start -/

/-- No thread is in `fork`, `exit` or `wait`. -/
structure AtRest (k : Kernel) : Prop where
  mem : MemOk k.mem k.slot fun q => npages (k.slot q).sz
  lock : ∀ l, k.lock l = none
  state : ∀ q, StateOk (k.slot q) (npages (k.slot q).sz)
  pos : ∀ x, k.pos x = .dead ∨ k.pos x = .user ∧ (k.slot x.1).state = .runnable ∧
    ((k.thread x).state = .runnable ∨ (k.thread x).state = .running)
  solo : ∀ q t u, k.pos (q, t) ≠ .dead → k.pos (q, u) ≠ .dead → t = u

theorem AtRest.inv (h : AtRest k) : Inv k fun q => npages (k.slot q).sz := by
  have hclaim : ∀ x q, (k.pos x).claim ≠ some q := fun x q => by
    rcases h.pos x with hx | ⟨hx, -⟩ <;> rw [hx] <;> rintro ⟨⟩
  refine ⟨h.mem, fun x l => ?_, h.state, fun x => ?_,
    fun x y q hx => absurd hx (hclaim x q), h.solo⟩
  · rw [h.lock]
    rcases h.pos x with hx | ⟨hx, -⟩ <;> simp [hx, locks]
  · rcases h.pos x with hx | ⟨hx, hst, hth⟩
    · constructor <;> rw [hx] <;> simp [live, leaving, claim, freed, attempt]
    · exact posOk_plain (by rw [hx]; rfl) hst hth

theorem uvminit_ok {p : Slot} {r : ℕ} {code : Idx → Pte} (h : SlotOk m p 0)
    (hr : p.pagetable = some r) (hm : uvminit m r code = some m') : Works m m' p p 1 := by
  have hspace := h.space r hr
  have hsame : ({ p with pagetable := some r } : Slot) = p := by rw [← hr]
  unfold uvminit at hm
  rcases kalloc_cases m with ⟨-, hk⟩ | ⟨b, m1, hk, ht⟩
  · rw [hk] at hm
    cases hm
  rw [hk] at hm
  have ht : Taken m (m1.memset b 0) b := ht.update fun _ => Pte.fill 0
  obtain ⟨m2, hreg, hw, ⟨hmap, hs, hb, -⟩ | ⟨m3, hmap, -⟩⟩ := hspace.mapPage
    (PTE_W ||| PTE_R ||| PTE_X ||| PTE_U) (by decide) ht (by decide)
  · rw [Nat.zero_mul] at hmap
    simp only [hmap] at hm
    cases hm
    have hwork := Works.retable h hs (fun c => by
      rw [hreg, mem_region]
      simp only [own_table hr]) (hreg ▸ hw)
    rw [hsame] at hwork
    exact hwork.trans (.fill hwork.ok hwork.pool hr rfl hb code)
  · rw [Nat.zero_mul] at hmap
    simp only [hmap] at hm
    cases hm

theorem memOk_free (hp : Pool m) : MemOk m (fun _ => .free) fun _ => npages 0 :=
  ⟨hp, fun _ => slotOk_free m, fun _ _ _ => by rw [pages_free]; exact Set.empty_disjoint _⟩

/-- **`userinit`** leaves the table at rest. -/
theorem userinit_atRest {code : Idx → Pte} (hp : Pool m) (hk : Kernel.userinit m code = some k) :
    AtRest k := by
  unfold Kernel.userinit at hk
  rcases kalloc_cases m with ⟨-, hk1⟩ | ⟨tf, m1, hk1, ht1⟩
  · rw [hk1] at hk
    cases hk
  have hfree := slotOk_free m
  have hw1 : Works m m1 .free { free with trapframe := some tf } (npages 0) := by
    refine .take .frame hfree hp ht1 rfl (fun m => ?_) rfl hfree.idle hfree.size
    funext a
    cases a with
    | frame | backup t | table P => rfl
  obtain ⟨m2, hin, ⟨hm2, -⟩ | ⟨r, hm2, hspace, hreg⟩⟩ :=
    procPagetable_ok tf hw1.pool.nodup hw1.pool.managed
  · simp only [hk1, hm2] at hk
    cases hk
  have hw2 := Works.retable hw1.ok hspace (fun c => by
    rw [hreg]
    change c ∈ m1.free ↔ _
    simp [own, free, cleared]) (hreg ▸ hin)
  rcases kalloc_cases m2 with ⟨-, hk3⟩ | ⟨b, m3, hk3, ht3⟩
  · simp only [hk1, hm2, hk3] at hk
    cases hk
  simp only [hk1, hm2, hk3] at hk
  obtain ⟨m4, hm4, hk⟩ := Option.bind_eq_some_iff.1 hk
  set p : Slot :=
    { state := .runnable, pid := 1, parent := none, trapframe := some tf
      pagetable := some r, sz := PGSIZE
      threads := update (fun _ => Thread.free) 0 ⟨.runnable, some b⟩ } with hpdef
  have hfits : PGSIZE ≤ TRAPFRAME := by decide
  have hone : npages PGSIZE = 1 := by decide
  have hthreads : ∀ t, t ≠ 0 → p.threads t = .free := fun t ht =>
    update_of_ne ht _ fun _ => Thread.free
  have hthread : p.threads 0 = ⟨.runnable, some b⟩ :=
    update_self (0 : ThreadId) ⟨.runnable, some b⟩ fun _ => Thread.free
  have hw3 : Works m2 m3 { free with trapframe := some tf, pagetable := some r } p 0 := by
    refine .take (.backup 0) hw2.ok hw2.pool ht3 rfl (fun m => ?_) rfl (fun t ht => ?_) hfits
    · funext a
      cases a with
      | frame | table P => rfl
      | backup t =>
        by_cases h0 : t = 0
        · subst h0
          rw [update_self, own, hthread]
        · rw [update_of_ne (by simpa using h0), own, hthreads t h0]
          rfl
    · by_cases h0 : t = 0
      · subst h0
        rw [hthread] at ht
        cases ht
      · exact hthreads t h0
  have hw := ((hw1.trans hw2).trans hw3).trans (uvminit_ok hw3.ok rfl hm4)
  have hmem := ((memOk_free hp).work 0 hw).1
  cases hk
  have hslot : ∀ q, q ≠ 0 → update (fun _ => free) (0 : ProcId) p q = .free :=
    fun q hq => update_of_ne hq ..
  have hslot0 : update (fun _ => free) (0 : ProcId) p 0 = p := update_self ..
  have hpos : ∀ x : Tid, x ≠ (0, 0) →
      update (fun _ => dead) ((0, 0) : Tid) .user x = .dead :=
    fun x hx => update_of_ne hx ..
  refine ⟨?_, fun _ => rfl, fun q => ?_, fun x => ?_, fun q t u ht hu => ?_⟩
  · have hn : (fun q => npages (update (fun _ => free) (0 : ProcId) p q).sz) =
        update (fun _ => npages 0) 0 1 := by
      funext q
      by_cases hq : q = 0
      · subst hq
        rw [hslot0, update_self]
        exact hone
      · rw [hslot q hq, update_of_ne hq]
        rfl
    change MemOk m4 _ (fun q => npages (update (fun _ => free) (0 : ProcId) p q).sz)
    rw [hn]
    exact hmem
  · change StateOk (update (fun _ => free) (0 : ProcId) p q)
      (npages (update (fun _ => free) (0 : ProcId) p q).sz)
    by_cases hq : q = 0
    · subst hq
      have hst : p.state = .runnable := rfl
      constructor
      · intro hun
        rw [hslot0, hst] at hun
        cases hun
      · intro hused
        rw [hslot0, hst] at hused
        cases hused
      · intro _
        rw [hslot0]
        rfl
      · intro hz
        rw [hslot0, hst] at hz
        cases hz
      · exact fun _ => Eq.refl _
    · rw [hslot q hq]
      exact stateOk_free
  · by_cases hx : x = (0, 0)
    · subst hx
      refine .inr ⟨update_self (0, 0) user fun _ => dead, ?_, .inl ?_⟩
      · change (update (fun _ => free) (0 : ProcId) p 0).state = _
        rw [hslot0]
      · change ((update (fun _ => free) (0 : ProcId) p 0).threads 0).state = _
        rw [hslot0, hthread]
    · exact .inl (hpos x hx)
  · by_cases hq : q = 0
    · subst hq
      have h0 : ∀ t, update (fun _ => dead) ((0, 0) : Tid) .user (0, t) ≠ .dead →
          t = 0 := by
        intro t ht
        by_contra hne
        exact ht (hpos _ (by simpa using hne))
      rw [h0 t ht, h0 u hu]
    · exact absurd (hpos (q, t) (by simp [hq])) ht

/-! ### The end of a call -/

/-- The call takes back what it has done. -/
def Pos.undoing : Pos → Bool
  | .undo _ _ | .drop _ _ | .again _ => true
  | _ => false

/-- How many steps of the call are left at most. -/
def Kernel.rank (k : Kernel) (x : Tid) : ℕ :=
  match k.pos x with
  | .frame _ => npages (k.slot x.1).sz + 7
  | .table _ => npages (k.slot x.1).sz + 6
  | .thread _ => npages (k.slot x.1).sz + 5
  | .copy _ _ i => npages (k.slot x.1).sz - i + 4
  | .undo _ _ => 3
  | .drop _ _ => 2
  | .again _ => 1
  | _ => 0

/-- A step of a call of `fork` that has claimed slot `q`. -/
structure Turn (k k' : Kernel) (x : Tid) (q : ProcId) : Prop where
  alone : ∀ y, y ≠ x → (k.pos y).claim ≠ some q -- Nobody else has claimed the slot
  only : Only k k' q
  /-- The call is nearer to its end, or the child is set up, or the call has failed. -/
  next : (k'.pos x).attempt = some q ∧ k'.rank x < k.rank x ∨ (∃ t, k'.pos x = .made q t) ∨
    Failed k' x q
  /-- Once an allocation has failed, the call fails. -/
  fails : (k.pos x).undoing = true → (k'.pos x).undoing = true ∨ Failed k' x q

theorem Inv.turn (h : Inv k n) (ha : (k.pos x).attempt = some q) (flag : Bool) :
    ∃ k', k.go x flag = some k' ∧ Turn k k' x q := by
  have halone : ∀ y, y ≠ x → (k.pos y).claim ≠ some q := by
    intro y hy hc
    rcases Inv.attempt_cases ha with hx | hx
    · exact hy (h.unique y x q hc hx)
    · have h1 := ((h.pos y).claim q hc).1
      rw [(h.pos x).freed q hx] at h1
      cases h1
  have hlive : (k.pos x).live = true := by
    cases hp : k.pos x <;> rw [hp] at ha <;> first | (cases ha; done) | rfl
  -- the process of the thread is another slot
  have hne : x.1 ≠ q := by
    rintro rfl
    have hst := ((h.pos x).live hlive).1
    rcases Inv.attempt_cases ha with hx | hx
    · rw [((h.pos x).claim _ hx).1] at hst
      cases hst
    · rw [(h.pos x).freed _ hx] at hst
      cases hst
  have hsz : ∀ k', Only k k' q → (k'.slot x.1).sz = (k.slot x.1).sz := fun k' ho => by
    rw [ho.slot x.1 hne]
  cases hp : k.pos x <;> rw [hp] at ha <;> first | (cases ha; done) | skip
  case frame q' =>
    cases ha
    obtain ⟨k', -, hk, -, ho, hn⟩ := h.go_frame hp flag
    refine ⟨k', hk, halone, ho, .inl ?_, by rw [hp]; rintro ⟨⟩⟩
    rcases hn with hn | hn <;> simp [rank, hp, hn, hsz k' ho, attempt]
  case table q' =>
    cases ha
    obtain ⟨k', -, hk, -, ho, hn⟩ := h.go_table hp flag
    refine ⟨k', hk, halone, ho, .inl ?_, by rw [hp]; rintro ⟨⟩⟩
    rcases hn with hn | hn <;> simp [rank, hp, hn, hsz k' ho, attempt]
  case thread q' =>
    cases ha
    obtain ⟨k', -, hk, -, ho, hn⟩ := h.go_thread hp flag
    refine ⟨k', hk, halone, ho, .inl ?_, by rw [hp]; rintro ⟨⟩⟩
    rcases hn with hn | hn <;> simp [rank, hp, hn, hsz k' ho, attempt]
  case copy q' t i =>
    cases ha
    obtain ⟨k', -, hk, -, ho, ⟨hi, hn⟩ | hn | hn⟩ := h.go_copy hp flag
    · refine ⟨k', hk, halone, ho, .inl ⟨by rw [hn]; rfl, ?_⟩, by rw [hp]; rintro ⟨⟩⟩
      simp only [rank, hp, hn, hsz k' ho]
      omega
    · refine ⟨k', hk, halone, ho, .inl ⟨by rw [hn]; rfl, ?_⟩, by rw [hp]; rintro ⟨⟩⟩
      simp only [rank, hp, hn]
      omega
    · exact ⟨k', hk, halone, ho, .inr (.inl ⟨t, hn⟩), by rw [hp]; rintro ⟨⟩⟩
  case undo q' b =>
    cases ha
    obtain ⟨k', -, hk, -, ho, hn⟩ := h.go_undo hp flag
    refine ⟨k', hk, halone, ho, .inl ⟨by rw [hn]; rfl, ?_⟩, fun _ => .inl (by rw [hn]; rfl)⟩
    simp [rank, hp, hn]
  case drop q' b =>
    cases ha
    obtain ⟨k', -, hk, -, ho, hn | hf⟩ := h.go_drop hp flag
    · refine ⟨k', hk, halone, ho, .inl ⟨by rw [hn]; rfl, ?_⟩, fun _ => .inl (by rw [hn]; rfl)⟩
      simp [rank, hp, hn]
    · exact ⟨k', hk, halone, ho, .inr (.inr hf), fun _ => .inr hf⟩
  case again q' =>
    cases ha
    obtain ⟨k', -, hk, -, ho, hf⟩ := h.go_again hp flag
    exact ⟨k', hk, halone, ho, .inr (.inr hf), fun _ => .inr hf⟩

theorem inv_of_reach {tr : List Action} (h0 : AtRest k₀)
    (hr : Reach step Kernel.Unhurried k₀ tr k) : ∃ n, Inv k n :=
  hr.state_invariant (I := fun k => ∃ n, Inv k n) ⟨_, h0.inv⟩
    fun _ _ _ ⟨_, h⟩ hg hs => h.step hg hs

/-- **A failed `fork` is invisible to everybody else**, in runs in which no slot is claimed between
the two calls of `freeproc` of a failed `allocthread`.  Whenever a thread `x` on a CPU is in a call
of `fork` that has claimed slot `q` and not yet set it up, its next step is possible, nobody else
has claimed the slot, no other slot and no page of another slot is touched, and the call comes
nearer to its end; and if an allocation has failed, the call returns -1, with the slot free, its
lock released once, and all pages back on the free list. -/
theorem failed_fork_is_invisible {tr : List Action} (h₀ : AtRest k₀)
    (hr : Reach step Kernel.Unhurried k₀ tr k) (ha : (k.pos x).attempt = some q)
    (hcpu : k.OnCpu x) (flag : Bool) : ∃ k', k.step (.go x flag) = some k' ∧ Turn k k' x q := by
  obtain ⟨n, h⟩ := inv_of_reach h₀ hr
  obtain ⟨k', hk, ht⟩ := h.turn ha flag
  refine ⟨k', ?_, ht⟩
  simp only [step]
  rw [if_pos hcpu, hk]

/-- **Every page has one owner.** In every state of such a run the free list has no page twice, and
only pages of the allocator; a page that a slot owns is one of these too, but not free, and neither
this slot at another place nor another slot owns it; and a slot that is not in use owns nothing. -/
theorem pages_have_one_owner {tr : List Action} (h₀ : AtRest k₀)
    (hr : Reach step Kernel.Unhurried k₀ tr k) :
    Pool k.mem ∧
    (∀ q a b, (k.slot q).own k.mem a = some b → b ∉ k.mem.free ∧ Managed k.mem b) ∧
    (∀ q r a a' b, (k.slot q).own k.mem a = some b → (k.slot r).own k.mem a' = some b →
      q = r ∧ a = a') ∧
    ∀ q a, (k.slot q).state = .unused → (k.slot q).own k.mem a = none := by
  obtain ⟨n, h⟩ := inv_of_reach h₀ hr
  refine ⟨h.mem.pool, fun q => (h.mem.ok q).sound.good, fun q r a a' b ha ha' => ?_,
    fun q a hst => ?_⟩
  · by_cases hqr : q = r
    · subst hqr
      exact ⟨rfl, (h.mem.ok q).sound.exclusive a a' b ha ha'⟩
    · exact (Set.disjoint_left.1 (h.mem.disjoint q r hqr) ⟨a, ha⟩ ⟨a', ha'⟩).elim
  · rw [(h.state q).unused hst]
    cases a <;> rfl

/-! ### Two processes in a small memory -/

/-- A memory with `pages` free pages. -/
def smallMem (pages : ℕ) : Mem :=
  { kend := 0x80020, trampoline := 0x80007, free := (List.range pages).map (· + 0x80100)
    word := fun _ _ => .zero }

theorem pool_smallMem : Pool (smallMem 20) where
  nodup := by decide +kernel
  managed := by
    have hall : ∀ b ∈ (smallMem 20).free, 0x80020 ≤ b ∧ b < PHYSTOP := by decide +kernel
    exact hall

/-- Thread `x` makes `i` steps. -/
def goes (x : Tid) (i : ℕ) : List Action := List.replicate i (.go x true)

/-- The first process forks; then both processes fork, and for the first one there is no memory for
the backup page. -/
def twoForks : List Action :=
  [.dispatch (0, 0), .fork (0, 0)] ++ goes (0, 0) 13 ++
    [.dispatch (1, 0), .fork (0, 0), .fork (1, 0)]
    ++ goes (0, 0) 8

instance (k : Kernel) : ∀ a, Decidable (k.Unhurried a)
  | .go x _ => inferInstanceAs (Decidable (∀ q, k.pos x = .scan q → (k.slot q).state = .unused →
      ∀ y, k.pos y ≠ .again q))
  | .dispatch _ | .yield _ | .fork _ | .exit _ | .wait _ => .isTrue trivial

theorem failed_fork_is_invisible_twoForks : ∃ k₀ k k', AtRest k₀ ∧
    Reach step Kernel.Unhurried k₀ twoForks.reverse k ∧ k.pos (0, 0) = .undo 2 true ∧
    k.step (.go (0, 0) true) = some k' ∧ Turn k k' (0, 0) 2 := by
  obtain ⟨k₀, hk₀, k, hk, hpos, hrunning⟩ : ∃ k₀ ∈ Kernel.userinit (smallMem 20) fun _ => .zero,
      ∃ k ∈ runWhen step Kernel.Unhurried k₀ twoForks, k.pos (0, 0) = .undo 2 true ∧
      (k.thread (0, 0)).state = .running := by decide +kernel
  have h₀ := userinit_atRest pool_smallMem hk₀
  have hr := reach_of_runWhen hk
  obtain ⟨k', hk', hturn⟩ := failed_fork_is_invisible h₀ hr (x := (0, 0)) (q := 2)
    (by rw [hpos]; rfl) (.inl hrunning) true
  exact ⟨k₀, k, k', h₀, hr, hpos, hk', hturn⟩

theorem pages_have_one_owner_twoForks : ∃ k₀ k b, AtRest k₀ ∧
    Reach step Kernel.Unhurried k₀ twoForks.reverse k ∧ (k.slot 2).trapframe = some b ∧
    b ∉ k.mem.free ∧ ∀ q a, (k.slot q).own k.mem a = some b → q = 2 := by
  obtain ⟨k₀, hk₀, k, hk, hframe⟩ : ∃ k₀ ∈ Kernel.userinit (smallMem 20) fun _ => .zero,
      ∃ k ∈ runWhen step Kernel.Unhurried k₀ twoForks,
      (k.slot 2).trapframe.isSome = true := by decide +kernel
  obtain ⟨b, hb⟩ := Option.isSome_iff_exists.1 hframe
  have h₀ := userinit_atRest pool_smallMem hk₀
  have hr := reach_of_runWhen hk
  obtain ⟨-, hgood, hone, -⟩ := pages_have_one_owner h₀ hr
  exact ⟨k₀, k, b, h₀, hr, hb, (hgood 2 .frame b hb).1, fun q a ha => (hone q 2 a .frame b ha hb).1⟩

/-- The first process is about to call `freeproc` a second time, without the lock, when the second
one has claimed the slot and put its trapframe page there: the page is freed and the slot is free
again, while the second process goes on to set it up. -/
theorem claimed_slot_is_freed : ∃ k₀ k k' b, AtRest k₀ ∧
    Reach step Always k₀ (twoForks ++ goes (0, 0) 2 ++ goes (1, 0) 6).reverse k ∧
    k.pos (0, 0) = .again 2 ∧ k.pos (1, 0) = .table 2 ∧ (k.slot 2).state = .used ∧
    (k.slot 2).trapframe = some b ∧ k.step (.go (0, 0) true) = some k' ∧
    k'.pos (1, 0) = .table 2 ∧ (k'.slot 2).state = .unused ∧ (k'.slot 2).trapframe = none ∧
    b ∈ k'.mem.free := by
  obtain ⟨k₀, hk₀, k, hk, k', hk', h1, h2, h3, h4, h5, h6, h7, h8⟩ :
      ∃ k₀ ∈ Kernel.userinit (smallMem 20) fun _ => .zero,
      ∃ k ∈ run step k₀ (twoForks ++ goes (0, 0) 2 ++ goes (1, 0) 6),
      ∃ k' ∈ k.step (.go (0, 0) true), k.pos (0, 0) = .again 2 ∧ k.pos (1, 0) = .table 2 ∧
      (k.slot 2).state = .used ∧ (k.slot 2).trapframe = some 0x80111 ∧ k'.pos (1, 0) = .table 2 ∧
      (k'.slot 2).state = .unused ∧ (k'.slot 2).trapframe = none ∧
      0x80111 ∈ k'.mem.free := by decide +kernel
  exact ⟨k₀, k, k', 0x80111, userinit_atRest pool_smallMem hk₀,
    reach_always hk, h1, h2, h3, h4, hk', h5, h6, h7, h8⟩

end Xv6.Fork
