import Xv6.Fork.Invariant

/-!
# The steps of `fork`, `exit` and `wait`

Each step keeps the invariant.  The steps in which a call of `fork` sets up the slot it has claimed,
or takes back what it has done, are always possible, touch no other slot (`Only`) and bring the call
nearer to its end.
-/

namespace Xv6.Fork

open Function Vm Outcome Kernel Option Pos Slot Finset

variable {k k' : Kernel} {n : ProcId → ℕ} {x y : Tid} {q r : ProcId} {p p' : Pos} {s : Slot}
  {c : ℕ}

/-- Only slot `q` is changed, and of memory only free pages and pages of this slot. -/
structure Only (k k' : Kernel) (q : ProcId) : Prop where
  slot : ∀ r, r ≠ q → k'.slot r = k.slot r
  own : ∀ r, r ≠ q → (k'.slot r).own k'.mem = (k.slot r).own k.mem
  word : ∀ r, r ≠ q → ∀ b ∈ (k.slot r).pages k.mem, k'.mem.word b = k.mem.word b

theorem Change.only (h : Change k k' n x q s c) (hi : Inv k n) : Only k k' q :=
  ⟨fun _ hr => h.slot_of_ne hr, fun _ hr => h.own_of_ne hi hr,
    fun r hr => ((hi.mem.work q h.work).2 r hr).2⟩

theorem only_same (hmem : k'.mem = k.mem) (hslot : k'.slot = k.slot) (q : ProcId) : Only k k' q :=
  ⟨fun _ _ => by rw [hslot], fun _ _ => by rw [hslot, hmem], fun _ _ _ _ => by rw [hmem]⟩

/-- From position `p` a thread may go to `p'` without a change of the slots. -/
structure Pos.Goes (p p' : Pos) : Prop where
  exec : p ≠ .dead
  live : p'.live = true → p.live = true
  leaving : p'.leaving = true → p.leaving = true
  claim : ∀ q, p'.claim = some q → p.claim = some q ∧ ∀ s c, p.Stage s c → p'.Stage s c
  freed : ∀ q, p'.freed = some q → p.freed = some q
  copy : ∀ q t i, p' ≠ .copy q t i
  attempt : ∀ q, p'.attempt = some q → p.attempt = some q

theorem Inv.move (h : Inv k n) (k' : Kernel) (p' : Pos) (hgoes : (k.pos x).Goes p')
    (hmem : k'.mem = k.mem)
    (hslot : k'.slot = k.slot) (hpos : k'.pos = update k.pos x p')
    (hlocks : k'.Locks) (hcall : ∀ y, y ≠ x → k'.call y = k.call y)
    (hnote : ∀ q, p'.attempt = some q → (k'.call x).slot = (k.call x).slot ∧
      (k'.call x).releases = p'.releases ∧ (k'.call x).pages = (k.call x).pages) :
    Inv k' n := by
  have hx : k'.pos x = p' := by rw [hpos, update_self]
  have hself := h.pos x
  have hchange : Change k k' n x x.1 (k.slot x.1) (n x.1) := by
    refine
      { work := ?_
        slot := by rw [hslot, update_eq_self]
        locks := hlocks
        state := h.state x.1
        pos := fun y hy => by rw [hpos, update_of_ne hy]
        call := hcall
        other := fun y _ => .inl ⟨hmem, rfl, rfl⟩
        self := ?_
        fresh := fun r hr => .inl (hgoes.claim r (hx ▸ hr)).1
        exec := fun _ => hgoes.exec }
    · rw [hmem]
      exact .keep (h.mem.ok x.1) h.mem.pool rfl rfl (h.mem.ok x.1).idle (h.mem.ok x.1).size
    · rw [update_eq_self]
      constructor
      · intro hl
        unfold Kernel.thread
        rw [hslot]
        exact hself.live (hgoes.live (hx ▸ hl))
      · intro hl
        rw [hslot]
        exact hself.leaving (hgoes.leaving (hx ▸ hl))
      · intro r hr
        obtain ⟨hr', hstage⟩ := hgoes.claim r (hx ▸ hr)
        rw [hslot, hx]
        exact (hself.claim r hr').imp_right fun hs => hstage _ _ hs
      · intro r hr
        rw [hslot]
        exact hself.freed r (hgoes.freed r (hx ▸ hr))
      · intro r t i hc
        exact absurd (hx.symm.trans hc) (hgoes.copy r t i)
      · intro r hr
        rw [hx] at hr
        have hn := hself.noted r (hgoes.attempt r hr)
        obtain ⟨h1, h2, h3⟩ := hnote r hr
        refine ⟨h1.trans hn.slot, ?_, ?_⟩
        · rw [hx, h2]
        · rw [h3, hslot, hmem]
          exact hn.pages
  have hinv := hchange.inv h
  rwa [update_eq_self] at hinv

theorem Inv.apart (h : Inv k n) (hc : (k.pos x).claim = some q) (s : Slot) (hy : y ≠ x) :
    Apart k q s y := by
  have hused := ((h.pos x).claim q hc).1
  refine ⟨fun hyc => hy (h.unique y x q hyc hc), fun hyf => ?_, fun hyq hyd => ?_⟩
  · have := (h.pos y).freed q hyf
    rw [hused] at this
    cases this
  · refine absurd (h.dead_of_state (x := y) ?_ ?_) hyd
    · rw [hyq, hused]
      decide
    · rw [hyq, hused]
      decide

/-- The slot that a thread sets up, at a position that is known. -/
theorem Inv.claimed {p : Pos} (h : Inv k n) (hp : k.pos x = p) (hc : p.claim = some q) :
    (k.pos x).claim = some q ∧ (k.slot q).state = .used ∧ p.Stage (k.slot q) (n q) := by
  subst hp
  exact ⟨hc, (h.pos x).claim q hc⟩

/-- The process of an executing thread has not been claimed. -/
theorem Inv.claim_ne (h : Inv k n) (hl : (k.pos y).live = true) (hc : (k.pos x).claim = some q) :
    y.1 ≠ q := by
  rintro rfl
  have h1 := ((h.pos y).live hl).1
  rw [((h.pos x).claim _ hc).1] at h1
  cases h1

/-- A step that works on the slot the thread has claimed. -/
theorem Inv.build (h : Inv k n) (k' : Kernel) (p' : Pos) (hc : (k.pos x).claim = some q)
    (hl : (k.pos x).live = true)
    (w : Works k.mem k'.mem (k.slot q) s c) (hslot : k'.slot = update k.slot q s)
    (hpos : k'.pos = update k.pos x p') (hlocks : k'.Locks) (hs : StateOk s c)
    (hleaving : p'.leaving = false)
    (hclaim : ∀ r, p'.claim = some r → r = q ∧ s.state = .used ∧ p'.Stage s c)
    (hfreed : ∀ r, p'.freed = some r → r = q ∧ s.state = .unused)
    (hcopied : ∀ r t i, p' = .copy r t i → i ≤ npages (k.slot x.1).sz)
    (hcall : ∀ y, y ≠ x → k'.call y = k.call y)
    (hnote : ∀ r, p'.attempt = some r → r = q ∧ (k.pos x).attempt = some q ∧
      p'.releases = (k.pos x).releases ∧ (k'.call x).slot = (k.call x).slot ∧
      (k'.call x).releases = (k.call x).releases ∧
      (k'.call x).pages = ((k.call x).pages ∪ k.mem.free.toFinset) \ k'.mem.free.toFinset) :
    Inv k' (update n q c) ∧ Only k k' q := by
  have hx : k'.pos x = p' := by rw [hpos, update_self]
  have hne : x.1 ≠ q := h.claim_ne hl hc
  have hslotx : k'.slot x.1 = k.slot x.1 := by rw [hslot, update_of_ne hne]
  have hslotq : k'.slot q = s := by rw [hslot, update_self]
  have hself := h.pos x
  have hchange : Change k k' n x q s c := by
    refine
      { work := w
        slot := hslot
        locks := hlocks
        state := hs
        pos := fun y hy => by rw [hpos, update_of_ne hy]
        call := hcall
        other := fun y hy => .inr (h.apart hc s hy)
        self := ?_
        fresh := fun r hr => .inl ?_
        exec := fun _ hd => by rw [hd] at hl; cases hl }
    · constructor
      · intro _
        unfold Kernel.thread
        rw [hslotx]
        exact hself.live hl
      · intro hlv
        rw [hx, hleaving] at hlv
        cases hlv
      · intro r hr
        rw [hx] at hr ⊢
        obtain ⟨rfl, hused, hstage⟩ := hclaim r hr
        rw [hslotq, update_self]
        exact ⟨hused, hstage⟩
      · intro r hr
        rw [hx] at hr
        obtain ⟨rfl, hun⟩ := hfreed r hr
        rw [hslotq]
        exact hun
      · intro r t i hci
        rw [hslotx]
        exact hcopied r t i (hx ▸ hci)
      · intro r hr
        rw [hx] at hr
        obtain ⟨rfl, ha, hrel, h1, h2, h3⟩ := hnote r hr
        have hn := hself.noted r ha
        refine ⟨h1.trans hn.slot, ?_, ?_⟩
        · rw [h2, hx, hrel]
          exact hn.releases
        · have hold : ∀ b, b ∈ (k.call x).pages ↔ b ∈ (k.slot r).pages k.mem := fun b =>
            Set.ext_iff.1 hn.pages b
          rw [hslotq, w.pages_eq, h3]
          ext b
          simp only [mem_sdiff, mem_union, List.mem_toFinset, Set.mem_sdiff, hold]
          change (b ∈ (k.slot r).pages k.mem ∨ b ∈ k.mem.free) ∧ b ∉ k'.mem.free ↔
            (b ∈ k.mem.free ∨ b ∈ (k.slot r).pages k.mem) ∧ b ∉ k'.mem.free
          rw [or_comm]
    · rw [hx] at hr
      rw [(hclaim r hr).1]
      exact hc
  exact ⟨hchange.inv h, hchange.only h⟩

theorem stateOk_used (hs : s.state = .used)
    (ht : ∀ t, (s.threads t).state = .unused ∨ (s.threads t).state = .used) : StateOk s c := by
  constructor
  · intro h
    rw [hs] at h
    cases h
  · exact fun _ => ht
  · intro h
    rw [hs] at h
    cases h
  · intro h
    rw [hs] at h
    cases h
  · exact fun h => absurd hs h

theorem stateOk_free : StateOk .free (npages 0) :=
  ⟨fun _ => rfl, nofun, nofun, nofun, fun _ => rfl⟩

variable {t : ThreadId}

theorem Slot.One.threads (h : s.One t) (u : ThreadId) :
    (s.threads u).state = .unused ∨ (s.threads u).state = .used := by
  by_cases hu : u = t
  · rw [hu]
    exact .inr h.1
  · rw [h.2 u hu]
    exact .inl rfl

theorem one_setThread {th : Thread} (hth : th.state = .used)
    (hfree : ∀ u, s.threads u = .free) : (s.setThread t th).One t := by
  unfold Slot.One setThread
  constructor
  · simp [hth]
  · intro u hu
    simp only [update_of_ne hu]
    exact hfree u

theorem Pos.live_of_claim (h : p.claim = some q) :
    p.live = true ∧ p.leaving = false ∧ p.freed = none := by
  cases p <;> first | (cases h; done) | exact ⟨rfl, rfl, rfl⟩

/-! ### Setting up a slot -/

theorem setMem_setSlot (k : Kernel) (x : Tid) (m : Mem) (q : ProcId) :
    (k.setMem x m).setSlot q (k.slot q) = k.setMem x m := by
  simp [setSlot, setMem]

/-- A step of a call that sets up the slot it has claimed. -/
theorem Inv.setUp {m : Mem} (h : Inv k n) (p' : Pos) (hc : (k.pos x).claim = some q)
    (ha : (k.pos x).attempt = some q) (w : Works k.mem m (k.slot q) s c)
    (hp' : p'.claim = some q) (hlock : p'.locks x.1 = (k.pos x).locks x.1)
    (hrel : p'.releases = (k.pos x).releases) (hused : s.state = .used)
    (hth : ∀ t, (s.threads t).state = .unused ∨ (s.threads t).state = .used)
    (hstage : p'.Stage s c) (hcopied : ∀ r t i, p' = .copy r t i → i ≤ npages (k.slot x.1).sz) :
    Inv (((k.setMem x m).setSlot q s).goto x p') (update n q c) ∧
      Only k (((k.setMem x m).setSlot q s).goto x p') q := by
  obtain ⟨-, hleaving, hfreed⟩ := live_of_claim hp'
  have heq : ∀ r, p'.claim = some r → r = q := fun r hr => some.inj (hr.symm.trans hp')
  refine h.build _ p' hc (live_of_claim hc).1 w rfl rfl (h.locks.same rfl rfl hlock)
    (stateOk_used hused hth) hleaving (fun r hr => ⟨heq r hr, hused, hstage⟩) (fun r hr => ?_)
    hcopied (fun y hy => update_of_ne hy ..) fun r hr => ⟨?_, ha, hrel, ?_⟩
  · rw [hfreed] at hr
    cases hr
  · rcases Inv.attempt_cases hr with hr | hr
    · exact heq r hr
    · rw [hfreed] at hr
      cases hr
  · simp [setMem, goto, setSlot]

/-- `allocproc` takes the trapframe page, or fails. -/
theorem Inv.go_frame (h : Inv k n) (hp : k.pos x = .frame q) (flag : Bool) :
    ∃ k' n', k.go x flag = some k' ∧ Inv k' n' ∧ Only k k' q ∧
      (k'.pos x = .table q ∨ k'.pos x = .undo q false) := by
  obtain ⟨hc, hused, htf, hpt, hth, hsz, hn⟩ := h.claimed hp rfl
  have ha : (k.pos x).attempt = some q := by rw [hp]; rfl
  have hok := h.mem.ok q
  have hthreads : ∀ t, ((k.slot q).threads t).state = .unused ∨
      ((k.slot q).threads t).state = .used := fun t => by rw [hth t]; exact .inl rfl
  rcases kalloc_cases k.mem with ⟨-, hk⟩ | ⟨b, m1, hk, ht⟩
  · -- no memory
    obtain ⟨hinv, honly⟩ := h.setUp (.undo q false) hc ha
      (.keep hok h.mem.pool rfl rfl hok.idle hok.size) rfl (by rw [hp]; rfl) (by rw [hp]; rfl) hused
      hthreads ⟨hthreads, hn⟩ nofun
    refine ⟨_, _, ?_, hinv, honly, .inr (update_self ..)⟩
    unfold go
    simp only [hp, hk]
    rw [setMem_setSlot]
  · have hw : Works k.mem m1 (k.slot q) { k.slot q with trapframe := some b } (n q) := by
      refine .take .frame hok h.mem.pool ht htf (fun m => ?_) rfl hok.idle hok.size
      funext a
      cases a with
      | frame | backup t | table P => rfl
    obtain ⟨hinv, honly⟩ := h.setUp (.table q) hc ha hw rfl (by rw [hp]; rfl)
      (by rw [hp]; rfl) hused hthreads ⟨rfl, hpt, hth, hsz, hn⟩ nofun
    refine ⟨_, _, ?_, hinv, honly, .inl (update_self ..)⟩
    unfold go
    simp only [hp, hk]

/-- `allocproc` makes the page table, or fails. -/
theorem Inv.go_table (h : Inv k n) (hp : k.pos x = .table q) (flag : Bool) :
    ∃ k' n', k.go x flag = some k' ∧ Inv k' n' ∧ Only k k' q ∧
      (k'.pos x = .thread q ∨ k'.pos x = .undo q false) := by
  obtain ⟨hc, hused, htf, hpt, hth, hsz, hn⟩ := h.claimed hp rfl
  have ha : (k.pos x).attempt = some q := by rw [hp]; rfl
  obtain ⟨tf, htf⟩ := isSome_iff_exists.1 htf
  have hok := h.mem.ok q
  have hthreads : ∀ t, ((k.slot q).threads t).state = .unused ∨
      ((k.slot q).threads t).state = .used := fun t => by rw [hth t]; exact .inl rfl
  obtain ⟨m, hw, ⟨hm, hnd, hfree⟩ | ⟨r, hm, hspace, hreg⟩⟩ :=
    procPagetable_ok tf h.mem.pool.nodup h.mem.pool.managed
  · -- no memory
    obtain ⟨hinv, honly⟩ := h.setUp (.undo q false) hc ha
      (.shuffle hok h.mem.pool hpt hw hnd hfree) rfl (by rw [hp]; rfl) (by rw [hp]; rfl) hused
      hthreads ⟨hthreads, hn⟩ (by simp)
    refine ⟨_, _, ?_, hinv, honly, .inr (update_self ..)⟩
    unfold go
    simp only [hp, htf, hm, bind_eq_bind, bind_some]
    rw [setMem_setSlot]
  · have hnone : ∀ P, (k.slot q).own k.mem (.table P) = none := fun P => by
      rw [own, hpt]
      rfl
    have hwork : Works k.mem m (k.slot q) { k.slot q with pagetable := some r } 0 := by
      refine .retable hok hspace (fun b => ?_) (hreg ▸ hw)
      rw [hreg]
      change b ∈ k.mem.free ↔ _
      simp [hnone]
    obtain ⟨hinv, honly⟩ := h.setUp (.thread q) hc ha hwork rfl (by rw [hp]; rfl)
      (by rw [hp]; rfl) hused hthreads
      ⟨rfl, hth, hsz, by change 0 = npages (k.slot q).sz; rw [hsz]; rfl⟩ (by simp)
    refine ⟨_, _, ?_, hinv, honly, .inl (update_self ..)⟩
    unfold go
    simp only [hp, htf, hm, bind_eq_bind, bind_some]

theorem freeThread_eq (hth : ∀ t, s.threads t = .free) : freeThread s = some 0 := by
  unfold freeThread
  simp only [hth]
  rfl

/-- `allocthread` takes the backup page, or fails. -/
theorem Inv.go_thread (h : Inv k n) (hp : k.pos x = .thread q) (flag : Bool) :
    ∃ k' n', k.go x flag = some k' ∧ Inv k' n' ∧ Only k k' q ∧
      (k'.pos x = .copy q 0 0 ∨ k'.pos x = .undo q true) := by
  obtain ⟨hc, hused, hpt, hth, hsz, hn⟩ := h.claimed hp rfl
  have ha : (k.pos x).attempt = some q := by rw [hp]; rfl
  have hok := h.mem.ok q
  have hnone : (k.slot q).own k.mem (.backup 0) = none := by
    rw [own, hth 0]
    rfl
  have hidle := fun b => idle_setThread (t := 0) (p := k.slot q) hok
    (by simp : (⟨.used, b⟩ : Thread).state = .unused → (⟨.used, b⟩ : Thread) = .free)
  rcases kalloc_cases k.mem with ⟨-, hk⟩ | ⟨b, m1, hk, ht⟩
  · have hone : ((k.slot q).setThread 0 ⟨.used, none⟩).One 0 := one_setThread rfl hth
    have hw : Works k.mem k.mem (k.slot q) ((k.slot q).setThread 0 ⟨.used, none⟩) (n q) := by
      refine .keep hok h.mem.pool ?_ rfl (hidle none) hok.size
      rw [own_setThread]
      exact update_eq_self_iff.2 hnone.symm
    obtain ⟨hinv, honly⟩ := h.setUp (.undo q true) hc ha hw rfl (by rw [hp]; rfl)
      (by rw [hp]; rfl) hused hone.threads ⟨hone.threads, hn⟩ (by simp)
    refine ⟨_, _, ?_, hinv, honly, .inr (update_self ..)⟩
    unfold go
    simp only [hp, hk, freeThread_eq hth]
  · have hone : ((k.slot q).setThread 0 ⟨.used, some b⟩).One 0 := one_setThread rfl hth
    have hw : Works k.mem m1 (k.slot q) ((k.slot q).setThread 0 ⟨.used, some b⟩) (n q) :=
      .take (.backup 0) hok h.mem.pool ht hnone (fun m => own_setThread m _ 0 _) rfl
        (hidle (some b)) hok.size
    obtain ⟨hinv, honly⟩ := h.setUp (.copy q 0 0) hc ha hw rfl (by rw [hp]; rfl)
      (by rw [hp]; rfl) hused hone.threads ⟨hpt, hone, hsz, by rw [hn, hsz]; rfl⟩
      (fun r t i hi => by cases hi; exact Nat.zero_le _)
    refine ⟨_, _, ?_, hinv, honly, .inl (update_self ..)⟩
    unfold go
    simp only [hp, hk, freeThread_eq hth]

theorem copies_iff {sz i : ℕ} (h : sz ≤ TRAPFRAME) : i * PGSIZE < sz ↔ i < npages sz := by
  have hPG : PGSIZE = 4096 := rfl
  rw [npages_eq h, hPG]
  omega

/-- `uvmcopy` copies the next page, or fails, or is done. -/
theorem Inv.go_copy {i : ℕ} (h : Inv k n) (hp : k.pos x = .copy q t i)
    (flag : Bool) :
    ∃ k' n', k.go x flag = some k' ∧ Inv k' n' ∧ Only k k' q ∧
      (i < npages (k.slot x.1).sz ∧ k'.pos x = .copy q t (i + 1) ∨ k'.pos x = .undo q false ∨
        k'.pos x = .made q t) := by
  obtain ⟨hc, hused, hpt, hone, hsz, hn⟩ := h.claimed hp rfl
  have ha : (k.pos x).attempt = some q := by rw [hp]; rfl
  have hl : (k.pos x).live = true := by rw [hp]; rfl
  obtain ⟨new, hnew⟩ := isSome_iff_exists.1 hpt
  have hok := h.mem.ok q
  -- the parent
  obtain ⟨hrun, -⟩ := (h.pos x).live hl
  obtain ⟨old, hold⟩ := isSome_iff_exists.1 ((h.state x.1).runnable hrun)
  have hokx := h.mem.ok x.1
  have hnx : n x.1 = npages (k.slot x.1).sz := (h.state x.1).count (by rw [hrun]; decide)
  have hspace := hok.space new hnew
  rw [hn] at hspace
  have hle := (h.pos x).copied q t i hp
  have hgo : k.go x flag = k.copyStep x q t i := by
    unfold go
    rw [hp]
  have hsame : ({ k.slot q with pagetable := some new } : Slot) = k.slot q := by rw [← hnew]
  have hreg : ∀ b, b ∈ Vm.region k.mem new ↔
      b ∈ k.mem.free ∨ ∃ P, (k.slot q).own k.mem (.table P) = some b := fun b => by
    rw [mem_region]
    simp only [own_table hnew]
  rw [hgo]
  by_cases hlt : i * PGSIZE < (k.slot x.1).sz
  · have hi := (copies_iff hokx.size).1 hlt
    have hsx := hokx.space old hold
    rw [hnx] at hsx
    obtain ⟨e, he, hf⟩ := hsx.mapped i (.inl hi)
    have hbound := hsx.bound
    obtain ⟨m, b, hm, hs, hr, hw⟩ := copyPage_ok hspace (by omega) he hf
    cases b with
    | true =>
      have hwork := Works.retable hok hs (fun c => by rw [hr]; exact hreg c) (hr ▸ hw)
      rw [hsame] at hwork
      obtain ⟨hinv, honly⟩ := h.setUp (.copy q t (i + 1)) hc ha hwork rfl
        (by rw [hp]; rfl) (by rw [hp]; rfl) hused hone.threads ⟨hpt, hone, hsz, rfl⟩
        (fun r u j hj => by cases hj; exact hi)
      refine ⟨_, _, ?_, hinv, honly, .inl ⟨hi, update_self ..⟩⟩
      unfold copyStep
      simp only [hold, hnew, bind_eq_bind, bind_some, hm]
      rw [if_pos hlt, setMem_setSlot]
    | false =>
      -- the pages copied so far are given back
      obtain ⟨m', hm', hs', hr', hw'⟩ := hs.unmap
      have hr'' := hr'.trans hr
      have hwork := Works.retable hok hs' (fun c => by rw [hr'']; exact hreg c)
        (hr'' ▸ hw.trans (hr ▸ hw'))
      rw [hsame] at hwork
      obtain ⟨hinv, honly⟩ := h.setUp (.undo q false) hc ha hwork rfl
        (by rw [hp]; rfl) (by rw [hp]; rfl) hused hone.threads
        ⟨hone.threads, by rw [hsz]; rfl⟩ nofun
      refine ⟨_, _, ?_, hinv, honly, .inr (.inl (update_self ..))⟩
      unfold copyStep
      simp only [hold, hnew, bind_eq_bind, bind_some, hm]
      simp only [if_false, Bool.false_eq_true] at hm'
      rw [if_pos hlt, setMem_setSlot, hm']
  · have hi : i = npages (k.slot x.1).sz := by
      have := mt (copies_iff hokx.size).2 hlt
      omega
    have hwork : Works k.mem k.mem (k.slot q) { k.slot q with sz := (k.slot x.1).sz } (n q) := by
      refine .keep hok h.mem.pool ?_ rfl hok.idle hokx.size
      funext a
      cases a with
      | frame | backup t | table P => rfl
    have hone' : Slot.One { k.slot q with sz := (k.slot x.1).sz } t := hone
    obtain ⟨hinv, honly⟩ := h.build
      (((k.setSlot q { k.slot q with sz := (k.slot x.1).sz }).setCall x
        { k.call x with pid := (k.slot q).pid }).goto x (.made q t)) (.made q t) hc hl hwork rfl rfl
      (h.locks.same rfl rfl (by rw [hp]; rfl)) (stateOk_used hused hone'.threads) rfl
      (fun r hr => ⟨(some.inj hr).symm, hused, hpt, hone', hn.trans hi⟩) nofun nofun
      (fun y hy => update_of_ne hy ..) nofun
    refine ⟨_, _, ?_, hinv, honly, .inr (.inr (update_self ..))⟩
    unfold copyStep
    simp only [hold, hnew, bind_eq_bind, bind_some]
    rw [if_neg hlt]
    simp [setSlot]

/-! ### Taking it back -/

theorem Inv.go_undo {again : Bool} (h : Inv k n) (hp : k.pos x = .undo q again) (flag : Bool) :
    ∃ k' n', k.go x flag = some k' ∧ Inv k' n' ∧ Only k k' q ∧ k'.pos x = .drop q again := by
  obtain ⟨hc, hused, hth, hn⟩ := h.claimed hp rfl
  have ha : (k.pos x).attempt = some q := by rw [hp]; rfl
  have hok := h.mem.ok q
  rw [hn] at hok
  obtain ⟨m, hm, hw⟩ := freeproc_ok hok h.mem.pool fun t hrun => by
    rcases hth t with ht | ht <;> rw [hrun] at ht <;> cases ht
  obtain ⟨hinv, honly⟩ := h.build (((k.setMem x m).setSlot q .free).goto x (.drop q again))
    (.drop q again) hc (by rw [hp]; rfl) hw rfl rfl (h.locks.same rfl rfl (by rw [hp]; rfl))
    stateOk_free rfl nofun
    (fun r hr => ⟨(some.inj hr).symm, rfl⟩) nofun (fun y hy => update_of_ne hy ..)
    fun r hr => ⟨(some.inj hr).symm, ha, by rw [hp]; rfl, by
      simp [setMem, goto, setSlot]⟩
  refine ⟨_, _, ?_, hinv, honly, update_self ..⟩
  unfold go freeSlot
  simp only [hp, hm, bind_eq_bind, bind_some]

/-- A failed call of `fork` is over. -/
structure Failed (k : Kernel) (x : Tid) (q : ProcId) : Prop where
  pos : k.pos x = .user
  ret : (k.call x).ret = some (-1)
  claimed : (k.call x).slot = some q
  releases : (k.call x).releases = 1
  pages : (k.call x).pages = ∅
  slot : k.slot q = .free
  lock : k.lock (.proc q) ≠ some x

/-- A call that has freed its slot has given back all pages. -/
theorem Inv.freed_noted (h : Inv k n) (hf : (k.pos x).freed = some q) : k.slot q = .free ∧
    (k.call x).slot = some q ∧ (k.call x).releases = (k.pos x).releases ∧ (k.call x).pages = ∅ := by
  have hfree := (h.state q).unused ((h.pos x).freed q hf)
  have ha : (k.pos x).attempt = some q := by
    cases hp : k.pos x <;> rw [hp] at hf <;> first | (cases hf; done) | exact hf
  have hn := (h.pos x).noted q ha
  refine ⟨hfree, hn.slot, hn.releases, ?_⟩
  have hpages := hn.pages
  rw [hfree, pages_free] at hpages
  exact eq_empty_of_forall_notMem fun b hb => by
    have : b ∈ ({b | b ∈ (k.call x).pages} : Set ℕ) := hb
    rw [hpages] at this
    exact this

/-- A lock that is held at the position of a thread can be released. -/
theorem Inv.release_ok {l : Lk} (h : Inv k n) (hl : l ∈ (k.pos x).locks x.1) :
    Spinlock.release k.lock x l = some (update k.lock l none) := by
  unfold Spinlock.release
  rw [if_pos ((h.locks x l).2 hl)]

theorem Inv.go_drop {again : Bool} (h : Inv k n) (hp : k.pos x = .drop q again) (flag : Bool) :
    ∃ k' n', k.go x flag = some k' ∧ Inv k' n' ∧ Only k k' q ∧
      (k'.pos x = .again q ∨ Failed k' x q) := by
  obtain ⟨hfree, hslot, hrel, hpages⟩ := h.freed_noted (x := x) (q := q) (by rw [hp]; rfl)
  rw [hp] at hrel
  have hlock := h.release_ok (x := x) (l := .proc q) (by rw [hp]; exact List.mem_singleton_self _)
  have hlocks : ∀ l', l' ∈ ([] : List Lk) ↔ l' ≠ .proc q ∧ l' ∈ (k.pos x).locks x.1 := by
    intro l'
    rw [hp]
    simp [Pos.locks]
  have hgo : k.go x flag = if again then
        some (({ k with lock := update k.lock (.proc q) none }.setCall x
          { k.call x with releases := (k.call x).releases + 1 }).goto x (.again q))
      else some (({ k with lock := update k.lock (.proc q) none }.setCall x
          { k.call x with releases := (k.call x).releases + 1 }).ret x (-1)) := by
    unfold Kernel.go Kernel.releaseSlot Kernel.release
    simp only [hp, hlock, Option.bind_eq_bind, Option.bind_some]
  rw [hgo]
  cases again with
  | true =>
    have hinv := h.move (({ k with lock := update k.lock (.proc q) none }.setCall x
        { k.call x with releases := (k.call x).releases + 1 }).goto x (.again q)) (.again q)
      (by rw [hp]; constructor <;> simp [Pos.live, Pos.leaving, Pos.claim, Pos.freed, Pos.attempt])
      rfl rfl rfl (h.locks.release (p := .again q) (x := x) hlock rfl hlocks)
      (fun y hy => update_of_ne hy ..)
      (fun r _ => by simp [Kernel.goto, Kernel.setCall, hrel, Pos.releases])
    exact ⟨_, _, rfl, hinv, only_same (by rfl) (by rfl) q, .inl (update_self ..)⟩
  | false =>
    have hinv := h.move (({ k with lock := update k.lock (.proc q) none }.setCall x
        { k.call x with releases := (k.call x).releases + 1 }).ret x (-1)) .user
      (by rw [hp]; constructor <;> simp [Pos.live, Pos.leaving, Pos.claim, Pos.freed, Pos.attempt])
      rfl rfl rfl (h.locks.release (p := .user) (x := x) hlock rfl hlocks)
      (fun y hy => by simp [Kernel.ret, Kernel.goto, Kernel.setCall, hy]) (by rintro _ ⟨⟩)
    refine ⟨_, _, rfl, hinv, only_same (by rfl) (by rfl) q, .inr ?_⟩
    constructor
    · exact update_self ..
    · simp [Kernel.ret, Kernel.goto, Kernel.setCall]
    · simp [Kernel.ret, Kernel.goto, Kernel.setCall, hslot]
    · simp [Kernel.ret, Kernel.goto, Kernel.setCall, hrel, Pos.releases]
    · simp [Kernel.ret, Kernel.goto, Kernel.setCall, hpages]
    · exact hfree
    · simp [Kernel.ret, Kernel.goto, Kernel.setCall]

/-- The second `freeproc` finds a free slot. -/
theorem Inv.go_again (h : Inv k n) (hp : k.pos x = .again q) (flag : Bool) :
    ∃ k' n', k.go x flag = some k' ∧ Inv k' n' ∧ Only k k' q ∧ Failed k' x q := by
  obtain ⟨hfree, hslot, hrel, hpages⟩ := h.freed_noted (x := x) (q := q) (by rw [hp]; rfl)
  rw [hp] at hrel
  have hgo : k.go x flag = some ((k.setMem x k.mem).ret x (-1)) := by
    unfold go freeSlot
    simp only [hp, hfree, freeproc_free, bind_eq_bind, bind_some]
    rw [← hfree, setMem_setSlot]
  have hinv := h.move ((k.setMem x k.mem).ret x (-1)) .user
    (by rw [hp]; constructor <;> simp [live, leaving, claim, freed, attempt])
    rfl rfl rfl (h.locks.same rfl rfl (by rw [hp]; rfl))
    (fun y hy => by simp [ret, goto, setCall, setMem, hy]) nofun
  refine ⟨_, _, hgo, hinv, only_same (by rfl) (by rfl) q, ?_⟩
  constructor
  · exact update_self ..
  · simp [ret, goto, setCall]
  · simp [ret, goto, setCall, setMem, hslot]
  · simp [ret, goto, setCall, setMem, hrel, releases]
  · simp [ret, goto, setCall, setMem, hpages]
  · exact hfree
  · intro hlock
    have hheld : Lk.proc q ∈ (k.pos x).locks x.1 := (h.locks x _).1 hlock
    rw [hp] at hheld
    cases hheld

/-! ### The other steps -/

section

variable {l : Lk} {lock : Lk → Option Tid}

/-- Positions at which nothing is known but that the thread executes. -/
def Pos.plain : Pos → Bool
  | .user | .scan _ | .busy _ | .started _ | .closing | .exiting | .waiting | .check _ | .passed _
  | .reaped _ | .waited _ => true
  | _ => false

theorem Pos.goes_plain (hp : p.live = true) (h : p'.plain = true) : p.Goes p' := by
  constructor
  · rintro rfl
    cases hp
  · exact fun _ => hp
  all_goals cases p' <;> first | (cases h; done) | nofun

theorem Pos.attempt_plain (h : p'.plain = true) (q : ProcId) : p'.attempt ≠ some q := by
  cases p' <;> first | (cases h; done) | nofun

theorem Inv.acquireTo (h : Inv k n) (hlock : Spinlock.acquire k.lock x l = some lock)
    (hp : k.pos x = p) (hlive : p.live = true) (hplain : p'.plain = true)
    (hlocks : p'.locks x.1 = l :: p.locks x.1) : Inv ({ k with lock := lock }.goto x p') n := by
  subst hp
  exact h.move _ p' (Pos.goes_plain hlive hplain) rfl rfl rfl
    (h.locks.acquire (l := l) hlock rfl hlocks) (fun _ _ => rfl)
    fun q hq => absurd hq (Pos.attempt_plain hplain q)

theorem Inv.releaseTo (h : Inv k n) (p' : Pos) (hlock : Spinlock.release k.lock x l = some lock)
    (hgoes : (k.pos x).Goes p') (hp : ∀ l', l' ∈ p'.locks x.1 ↔ l' ≠ l ∧ l' ∈ (k.pos x).locks x.1)
    (hatt : ∀ q, p'.attempt ≠ some q) : Inv ({ k with lock := lock }.goto x p') n :=
  h.move _ p' hgoes rfl rfl rfl (h.locks.release (l := l) hlock rfl hp) (fun _ _ => rfl)
    fun q hq => absurd hq (hatt q)

theorem Inv.releasePlain (h : Inv k n) (p' : Pos)
    (hlock : Spinlock.release k.lock x l = some lock) (hp : k.pos x = p) (hlive : p.live = true)
    (hplain : p'.plain = true)
    (hlocks : ∀ l', l' ∈ p'.locks x.1 ↔ l' ≠ l ∧ l' ∈ p.locks x.1) :
    Inv ({ k with lock := lock }.goto x p') n := by
  subst hp
  exact h.releaseTo p' hlock (Pos.goes_plain hlive hplain) hlocks (Pos.attempt_plain hplain)

/-- What a call has noted does not matter where no attempt is made. -/
theorem Inv.setCall (h : Inv k n) (hatt : ∀ q, (k.pos x).attempt ≠ some q) (c : Call) :
    Inv (k.setCall x c) n := by
  refine ⟨h.mem, h.locks, h.state, fun y => ?_, h.unique, h.solo⟩
  have hy := h.pos y
  refine ⟨hy.live, hy.leaving, hy.claim, hy.freed, hy.copied, fun q hq => ?_⟩
  have hne : y ≠ x := by
    rintro rfl
    exact hatt q hq
  obtain ⟨h1, h2, h3⟩ := hy.noted q hq
  have hcall : (k.setCall x c).call y = k.call y := update_of_ne hne ..
  exact ⟨by rw [hcall]; exact h1, by rw [hcall]; exact h2, by rw [hcall]; exact h3⟩

/-- **`reparent`.** -/
theorem Inv.reparent (h : Inv k n) (q : ProcId) : Inv (k.reparent q) n := by
  have hslot : ∀ r, ∃ o, (k.reparent q).slot r = { k.slot r with parent := o } := by
    intro r
    unfold Kernel.reparent
    by_cases hr : (k.slot r).parent = some q
    · exact ⟨some k.initproc, if_pos hr⟩
    · exact ⟨(k.slot r).parent, if_neg hr⟩
  have hown : ∀ r, ((k.reparent q).slot r).own k.mem = (k.slot r).own k.mem := by
    intro r
    obtain ⟨o, ho⟩ := hslot r
    rw [ho]
    funext a
    cases a with
    | frame | backup t | table P => rfl
  have hpages : ∀ r, ((k.reparent q).slot r).pages k.mem = (k.slot r).pages k.mem := fun r => by
    unfold pages
    rw [hown]
  refine ⟨⟨h.mem.pool, fun r => ?_, fun r r' hne => ?_⟩, h.locks, fun r => ?_, fun y => ?_,
    h.unique, h.solo⟩
  · obtain ⟨o, ho⟩ := hslot r
    have hok := h.mem.ok r
    refine ⟨hown r ▸ hok.sound, ?_, ?_, ?_⟩
    · rw [ho]
      exact hok.space
    · rw [ho]
      exact hok.idle
    · rw [ho]
      exact hok.size
  · change Disjoint (((k.reparent q).slot r).pages k.mem) (((k.reparent q).slot r').pages k.mem)
    rw [hpages, hpages]
    exact h.mem.disjoint r r' hne
  · obtain ⟨o, ho⟩ := hslot r
    have hst := h.state r
    refine ⟨fun hun => ?_, ?_, ?_, ?_, ?_⟩
    · -- a free slot has no parent
      have hfree := hst.unused (by rw [ho] at hun; exact hun)
      unfold Kernel.reparent
      simp [hfree, Slot.free, Slot.cleared]
    · rw [ho]
      exact hst.used
    · rw [ho]
      exact hst.runnable
    · rw [ho]
      exact hst.zombie
    · rw [ho]
      exact hst.count
  · have hy := h.pos y
    obtain ⟨o, ho⟩ := hslot y.1
    refine ⟨?_, ?_, fun r hr => ?_, fun r hr => ?_, ?_, fun r hr => ?_⟩
    · unfold Kernel.thread
      rw [ho]
      exact hy.live
    · rw [ho]
      exact hy.leaving
    · obtain ⟨o', ho'⟩ := hslot r
      obtain ⟨h1, h2⟩ := hy.claim r hr
      rw [ho']
      refine ⟨h1, ?_⟩
      change (k.pos y).Stage _ _
      cases hp : k.pos y <;> rw [hp] at h2 <;> exact h2
    · obtain ⟨o', ho'⟩ := hslot r
      rw [ho']
      exact hy.freed r hr
    · rw [ho]
      exact hy.copied
    · obtain ⟨h1, h2, h3⟩ := hy.noted r hr
      exact ⟨h1, h2, h3.trans (hpages r).symm⟩

theorem Inv.born (h : Inv k n) (hst : (k.slot q).state = .runnable)
    (hth : ((k.slot q).threads t).state = .runnable) (hdead : ∀ u, k.pos (q, u) = .dead) :
    Inv (k.goto (q, t) .user) n := by
  have hself : (k.goto (q, t) .user).pos (q, t) = .user := update_self ..
  have hother : ∀ y, y ≠ (q, t) → (k.goto (q, t) .user).pos y = k.pos y := fun y hy =>
    update_of_ne hy ..
  refine ⟨h.mem, h.locks.same rfl rfl (by rw [hdead]; rfl), h.state, fun y => ?_,
    fun y z r hy hz => ?_, fun r u v hu hv => ?_⟩
  · by_cases hy : y = (q, t)
    · subst hy
      constructor
      · exact fun _ => ⟨hst, .inl hth⟩
      all_goals rw [hself]; nofun
    · have hpos := h.pos y
      have heq := hother y hy
      refine ⟨?_, ?_, ?_, ?_, ?_, fun r hr => ?_⟩
      · rw [heq]
        exact hpos.live
      · rw [heq]
        exact hpos.leaving
      · rw [heq]
        exact hpos.claim
      · rw [heq]
        exact hpos.freed
      · rw [heq]
        exact hpos.copied
      · rw [heq] at hr
        obtain ⟨h1, h2, h3⟩ := hpos.noted r hr
        exact ⟨h1, by rw [heq]; exact h2, h3⟩
  · have hne : ∀ y, ((k.goto (q, t) .user).pos y).claim = some r → y ≠ (q, t) := by
      rintro y hy rfl
      rw [hself] at hy
      cases hy
    rw [hother y (hne y hy)] at hy
    rw [hother z (hne z hz)] at hz
    exact h.unique y z r hy hz
  · by_cases hr : r = q
    · subst hr
      have honly : ∀ u, (k.goto (r, t) .user).pos (r, u) ≠ .dead → u = t := by
        intro u hu
        by_contra hne
        rw [hother _ (by simp [hne])] at hu
        exact hu (hdead u)
      rw [honly u hu, honly v hv]
    · rw [hother _ (by simp [hr])] at hu hv
      exact h.solo r u v hu hv

end

end Xv6.Fork
