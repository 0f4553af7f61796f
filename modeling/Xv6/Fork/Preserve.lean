import Xv6.Fork.Steps
import Xv6.Lib.Run

/-!
# The invariant along runs

A free slot is claimed, a child starts, a process exits and is freed by its parent: each of these
changes one slot.  With the steps of `Xv6.Fork.Steps` this gives that every step keeps the
invariant, if it does not claim a slot that another thread is about to free a second time.
-/

namespace Xv6.Fork

open Function Vm Outcome Pos Kernel Option Slot List

variable {k k' : Kernel} {n : ProcId → ℕ} {x y : Tid} {q r : ProcId} {p p' : Pos} {s : Slot}
  {c : ℕ} {flag : Bool} {l : Lk} {lock : Lk → Option Tid}

theorem goto_pos (k : Kernel) (x : Tid) (p : Pos) : (k.goto x p).pos x = p :=
  update_self ..

theorem Inv.free_lock (h : Inv k n) (hlock : Spinlock.acquire k.lock x l = some lock) (y : Tid) :
    l ∉ (k.pos y).locks y.1 := Spinlock.Consistent.free h.locks hlock y

/-- `allocproc` claims a free slot. -/
theorem Inv.claimTo (h : Inv k n) (hp : k.pos x = .scan q)
    (hlock : Spinlock.acquire k.lock x (.proc q) = some lock) (hun : (k.slot q).state = .unused)
    (hagain : ∀ y, k.pos y ≠ .again q) (pid : ℤ) :
    Inv (({ k with lock := lock, nextpid := pid + 1 }.setSlot q
      { k.slot q with pid := pid, state := .used }).setCall x { Call.start with slot := some q }
        |>.goto x (.frame q)) (update n q (n q)) := by
  have hfree := (h.state q).unused hun
  have hlive := (h.pos x).live (by rw [hp]; rfl)
  have hne : x.1 ≠ q := by
    rintro rfl
    rw [hun] at hlive
    cases hlive.1
  have hn : n q = npages 0 := by
    rw [(h.state q).count (by rw [hun]; decide), hfree]
    rfl
  have hok := h.mem.ok q
  refine Change.inv (k := k)
    { work := ?_
      slot := rfl
      locks := h.locks.acquire (l := .proc q) hlock rfl (by rw [hp]; rfl)
      state := stateOk_used rfl fun t => by
        rw [hfree]
        exact .inl rfl
      pos := fun y hy => update_of_ne hy ..
      call := fun y hy => update_of_ne hy ..
      other := fun y hy => .inr ⟨fun hc => ?_, fun hf => ?_, fun hq hd => ?_⟩
      self := ?_
      fresh := fun r hr => .inr ?_
      exec := fun _ hd => by rw [hp] at hd; cases hd } h
  · refine .keep hok h.mem.pool ?_ rfl hok.idle hok.size
    funext a
    cases a with
    | frame | backup t | table P => rfl
  · have := ((h.pos y).claim q hc).1
    rw [hun] at this
    cases this
  · -- the lock of the slot is free
    have hnot := h.free_lock hlock y
    cases hy' : k.pos y <;> rw [hy'] at hf hnot <;> first | (cases hf; done) | skip
    · cases hf
      exact hnot (mem_singleton_self _)
    · cases hf
      exact hagain y hy'
  · refine absurd (h.dead_of_state (x := y) ?_ ?_) hd
    · rw [hq, hun]
      decide
    · rw [hq, hun]
      decide
  · have hx : ∀ u : Kernel, (u.goto x (.frame q)).pos x = .frame q := fun u =>
      update_self ..
    have hslotx : update k.slot q { k.slot q with pid := pid, state := .used } x.1 =
      k.slot x.1 := update_of_ne hne ..
    have hslotq : update k.slot q { k.slot q with pid := pid, state := .used } q =
      { k.slot q with pid := pid, state := .used } := update_self ..
    constructor
    · intro _
      change (update k.slot q _ x.1).state = _ ∧
        (((update k.slot q _ x.1).threads x.2).state = _ ∨
          ((update k.slot q _ x.1).threads x.2).state = _)
      rw [hslotx]
      exact hlive
    · rw [hx]
      nofun
    · intro r hr
      rw [hx] at hr ⊢
      cases hr
      change (update k.slot q _ q).state = _ ∧ Pos.Stage _ (update k.slot q _ q) _
      rw [hslotq, update_self, hfree]
      exact ⟨rfl, rfl, rfl, fun _ => rfl, rfl, hn⟩
    · rw [hx]
      nofun
    · rw [hx]
      nofun
    · intro r hr
      rw [hx] at hr
      cases hr
      constructor
      · simp [Kernel.goto, Kernel.setCall, Kernel.setSlot]
      · simp [Kernel.goto, Kernel.setCall, Kernel.setSlot, Call.start, Pos.releases]
      · have hpages : ({ k.slot q with pid := pid, state := .used } : Slot).pages k.mem = ∅ := by
          rw [hfree]
          exact pages_free k.mem
        change {b | b ∈ (update k.call x _ x).pages} =
          (update k.slot q _ q).pages k.mem
        rw [update_self, hslotq, hpages]
        simp [Call.start]
  · have hr' : some q = some r := by
      have hx : (update k.pos x (frame q)) x = .frame q := update_self ..
      change (update k.pos x (frame q) x).claim = some r at hr
      rwa [hx] at hr
    cases hr'
    rw [hun]
    decide

/-- `fork` starts the child. -/
theorem Inv.startTo {t : ThreadId} (h : Inv k n) (hp : k.pos x = .start q t)
    (hlock : Spinlock.acquire k.lock x (.proc q) = some lock) :
    Inv ((({ k with lock := lock }.setSlot q
      (({ k.slot q with state := .runnable } : Slot).setThread t
      { (k.slot q).threads t with state := .runnable })).goto (q, t) .user).goto x (.started q))
      (update n q (n q)) := by
  obtain ⟨hc, hused, hpt, hone, hn⟩ := h.claimed hp rfl
  have hl : (k.pos x).live = true := by rw [hp]; rfl
  have hok := h.mem.ok q
  have hne : x.1 ≠ q := h.claim_ne hl hc
  set s : Slot := ({ k.slot q with state := .runnable } : Slot).setThread t
    { (k.slot q).threads t with state := .runnable } with hs
  have hst : s.state = .runnable := rfl
  have hw : Works k.mem k.mem (k.slot q) s (n q) := by
    refine .keep hok h.mem.pool ?_ rfl (fun u hu => ?_) hok.size
    · rw [hs, own_setThread]
      exact update_eq_self_iff.2 rfl
    · rw [hs] at hu ⊢
      unfold setThread at hu ⊢
      by_cases hut : u = t
      · subst hut
        simp at hu
      · simp only [update_of_ne hut] at hu ⊢
        exact hok.idle u hu
  have hstate : StateOk s (n q) := by
    constructor
    · rw [hst]
      nofun
    · rw [hst]
      nofun
    · exact fun _ => hpt
    · rw [hst]
      nofun
    · exact fun _ => hn
  obtain ⟨hinv, -⟩ := h.build (({ k with lock := lock }.setSlot q s).goto x (.started q))
    (.started q) hc hl hw rfl rfl (h.locks.acquire (l := .proc q) hlock rfl (by rw [hp]; rfl))
    hstate
    rfl nofun nofun nofun (fun _ _ => rfl) nofun
  have hslot : (({ k with lock := lock }.setSlot q s).goto x (.started q)).slot q = s :=
    update_self ..
  have hborn := hinv.born (q := q) (t := t) (by rw [hslot, hst]) (by
    rw [hslot, hs]
    simp [setThread]) fun u => by
      change update k.pos x (.started q) (q, u) = .dead
      rw [update_of_ne (fun heq => hne (by rw [← heq]))]
      exact h.dead_of_state (by rw [hused]; decide) (by rw [hused]; decide)
  have hcomm : (({ k with lock := lock }.setSlot q s).goto (q, t) .user).goto x (.started q) =
      (({ k with lock := lock }.setSlot q s).goto x (.started q)).goto (q, t) .user := by
    unfold goto
    rw [update_comm (fun heq => hne (congrArg Prod.fst heq).symm)]
  rw [hcomm]
  exact hborn

/-- `exit` marks the process. -/
theorem Inv.markTo (h : Inv k n) (hp : k.pos x = .exiting)
    (hlock : Spinlock.acquire k.lock x (.proc x.1) = some lock) :
    Inv (({ k with lock := lock }.setSlot x.1 (exitMark (k.slot x.1))).goto x .exited)
      (update n x.1 (n x.1)) := by
  obtain ⟨hrun, -⟩ := (h.pos x).live (by rw [hp]; rfl)
  have hok := h.mem.ok x.1
  have hmark : ∀ t, ((exitMark (k.slot x.1)).threads t).state = .unused ∧
        (exitMark (k.slot x.1)).threads t = (k.slot x.1).threads t ∨
      ((exitMark (k.slot x.1)).threads t).state = .zombie := by
    intro t
    unfold exitMark
    by_cases ht : ((k.slot x.1).threads t).state ≠ .unused ∧
      ((k.slot x.1).threads t).state ≠ .zombie
    · exact .inr (by simp only [if_pos ht])
    · simp only [if_neg ht]
      rw [not_and_or, not_not, not_not] at ht
      exact ht.imp_left fun hu => ⟨hu, trivial⟩
  refine Change.inv (k := k)
    { work := ?_
      slot := rfl
      locks := h.locks.acquire (l := .proc x.1) hlock rfl (by rw [hp]; rfl)
      state := ⟨by rintro ⟨⟩, by rintro ⟨⟩, by rintro ⟨⟩,
        fun _ t => (hmark t).imp_left fun hu => hu.1,
        fun _ => (h.state x.1).count (by rw [hrun]; decide)⟩
      pos := fun y hy => update_of_ne hy ..
      call := fun _ _ => rfl
      other := fun y hy => .inr ⟨fun hc => ?_, fun hf => ?_, fun hq hd => ?_⟩
      self := ?_
      fresh := fun r hr => ?_
      exec := fun _ hd => by rw [hp] at hd; cases hd } h
  · refine .keep hok h.mem.pool ?_ rfl (fun t ht => ?_) hok.size
    · funext a
      cases a with
      | frame | table P => rfl
      | backup t =>
        simp only [own, exitMark]
        split_ifs <;> rfl
    · rcases hmark t with ⟨hu, heq⟩ | hz
      · rw [heq] at hu ⊢
        exact hok.idle t hu
      · rw [ht] at hz
        cases hz
  · have := ((h.pos y).claim _ hc).1
    rw [hrun] at this
    cases this
  · have := (h.pos y).freed _ hf
    rw [hrun] at this
    cases this
  · have hxd : k.pos (x.1, x.2) ≠ .dead := by
      change k.pos x ≠ .dead
      rw [hp]
      simp
    have hyd : k.pos (x.1, y.2) ≠ .dead := by rwa [← hq]
    exact absurd (Prod.ext hq (h.solo x.1 y.2 x.2 hyd hxd)) hy
  · have hx : (update k.pos x exited) x = .exited := update_self ..
    constructor
    · change (update k.pos x exited x).live = true → _
      rw [hx]
      rintro ⟨⟩
    · intro _
      change (update k.slot x.1 _ x.1).state = _
      rw [update_self]
      rfl
    · change ∀ q, (update k.pos x exited x).claim = some q → _
      rw [hx]
      rintro _ ⟨⟩
    · change ∀ q, (update k.pos x exited x).freed = some q → _
      rw [hx]
      rintro _ ⟨⟩
    · change ∀ q t i, update k.pos x exited x = .copy q t i → _
      rw [hx]
      simp
    · change ∀ q, (update k.pos x exited x).attempt = some q → _
      rw [hx]
      rintro _ ⟨⟩
  · change (update k.pos x exited x).claim = some r at hr
    rw [update_self] at hr
    cases hr

/-- At a plain position only the process of the thread matters. -/
theorem posOk_plain (hp : (k.pos x).plain = true) (hst : (k.slot x.1).state = .runnable)
    (hth : (k.thread x).state = .runnable ∨ (k.thread x).state = .running) : PosOk k n x := by
  have hleaving : (k.pos x).leaving = false := by
    cases hx : k.pos x <;> rw [hx] at hp <;> first | (cases hp; done) | rfl
  constructor
  · exact fun _ => ⟨hst, hth⟩
  · rw [hleaving]
    nofun
  all_goals
    intro q
    cases hx : k.pos x <;> rw [hx] at hp <;> first | (cases hp; done) | nofun

/-- `wait` frees a child that has exited. -/
theorem Inv.reapTo {np : ProcId} (h : Inv k n) (hp : k.pos x = .check np)
    (hlock : Spinlock.acquire k.lock x (.proc np) = some lock)
    (hz : (k.slot np).state = .zombie) : ∃ m, freeproc k.mem (k.slot np) = .ok (m, .free) ∧
      Inv (({ k with lock := lock, mem := m }.setSlot np .free).goto x (.reaped np))
        (update n np (npages 0)) := by
  have hlive := (h.pos x).live (by rw [hp]; rfl)
  have hne : x.1 ≠ np := by
    rintro rfl
    rw [hz] at hlive
    cases hlive.1
  have hok := h.mem.ok np
  rw [(h.state np).count (by rw [hz]; decide)] at hok
  obtain ⟨m, hm, hw⟩ := freeproc_ok hok h.mem.pool fun t ht => by
    rcases (h.state np).zombie hz t with hu | hu <;> rw [ht] at hu <;> cases hu
  refine ⟨m, hm, Change.inv (k := k)
    { work := hw
      slot := rfl
      locks := h.locks.acquire (l := .proc np) hlock rfl (by rw [hp]; rfl)
      state := stateOk_free
      pos := fun y hy => update_of_ne hy ..
      call := fun _ _ => rfl
      other := fun y hy => .inr ⟨fun hc => ?_, fun hf => ?_, fun hq hd => ?_⟩
      self := ?_
      fresh := fun r hr => ?_
      exec := fun _ hd => by rw [hp] at hd; cases hd } h⟩
  · have := ((h.pos y).claim _ hc).1
    rw [hz] at this
    cases this
  · have := (h.pos y).freed _ hf
    rw [hz] at this
    cases this
  · -- it has been switched out
    have hnot := h.free_lock hlock y
    have hlv : ¬ (k.pos y).live = true := fun hl => by
      have := ((h.pos y).live hl).1
      rw [hq, hz] at this
      cases this
    exfalso
    cases hy' : k.pos y <;> rw [hy'] at hlv hd hnot <;>
      first | exact hlv rfl | exact hd rfl | exact hnot (by rw [hq]; simp [Pos.locks])
  · have hx : (update k.pos x (Pos.reaped np)) x = .reaped np := update_self ..
    have hslotx : update k.slot np free x.1 = k.slot x.1 := update_of_ne hne ..
    refine posOk_plain ?_ ?_ ?_
    · change (update k.pos x (reaped np) x).plain = true
      rw [hx]
      rfl
    · change (update k.slot np free x.1).state = _
      rw [hslotx]
      exact hlive.1
    · change ((update k.slot np free x.1).threads x.2).state = _ ∨
        ((update k.slot np free x.1).threads x.2).state = _
      rw [hslotx]
      exact hlive.2
  · change (update k.pos x (reaped np) x).claim = some r at hr
    rw [update_self] at hr
    cases hr

theorem Inv.sched {st : ProcState} (h : Inv k n)
    (hst : (k.thread x).state = .runnable ∨ (k.thread x).state = .running)
    (hst' : st = .runnable ∨ st = .running) :
    Inv (k.setThreadState x st) (update n x.1 (n x.1)) := by
  have hok := h.mem.ok x.1
  have hstate := h.state x.1
  have hcontra : ∀ st1 st2 : ProcState, ((k.thread x).state = st1 ∨ (k.thread x).state = st2) →
      st1 ≠ .runnable → st1 ≠ .running → st2 ≠ .runnable → st2 ≠ .running → False := by
    intro st1 st2 h' h1 h2 h3 h4
    rcases hst with hs | hs <;> rcases h' with h' | h' <;> rw [hs] at h' <;> simp_all
  have hun : (k.slot x.1).state ≠ .unused := fun hu => by
    refine hcontra .unused .unused (.inl ?_) ?_ ?_ ?_ ?_
    · unfold Kernel.thread
      rw [hstate.unused hu]
      rfl
    all_goals decide
  have hus : (k.slot x.1).state ≠ .used := fun hu =>
    hcontra _ _ (hstate.used hu x.2) (by decide) (by decide) (by decide) (by decide)
  have hzo : (k.slot x.1).state ≠ .zombie := fun hu =>
    hcontra _ _ (hstate.zombie hu x.2) (by decide) (by decide) (by decide) (by decide)
  set s := (k.slot x.1).setThread x.2 { k.thread x with state := st } with hs
  have hthread : s.threads x.2 = { k.thread x with state := st } := update_self ..
  have hother : ∀ t, t ≠ x.2 → s.threads t = (k.slot x.1).threads t := fun t ht =>
    update_of_ne ht ..
  have hslot : ∀ r, r ≠ x.1 → (k.setThreadState x st).slot r = k.slot r := fun r hr =>
    update_of_ne hr ..
  have hslotx : (k.setThreadState x st).slot x.1 = s := update_self ..
  refine Change.inv (k := k) (p := s) (x := x)
    { work := ?_
      slot := rfl
      locks := h.locks
      state := ⟨fun hu => absurd hu hun, fun hu => absurd hu hus, hstate.runnable,
        fun hu => absurd hu hzo, hstate.count⟩
      pos := fun _ _ => rfl
      call := fun _ _ => rfl
      other := fun y hy => .inr ⟨fun hc => ?_, fun hf => ?_, fun hq _ => ⟨rfl, ?_, rfl⟩⟩
      self := ?_
      fresh := fun r hr => .inl hr
      exec := fun hd => hd } h
  · refine .keep hok h.mem.pool ?_ rfl (fun t ht => ?_) hok.size
    · rw [hs, own_setThread]
      exact update_eq_self_iff.2 rfl
    · by_cases htx : t = x.2
      · rw [htx, hthread] at ht
        rcases hst' with hst' | hst' <;> rw [hst'] at ht <;> cases ht
      · rw [hother t htx] at ht ⊢
        exact hok.idle t ht
  · exact hus ((h.pos y).claim _ hc).1
  · exact hun ((h.pos y).freed _ hf)
  · exact hother y.2 fun heq => hy (Prod.ext hq heq)
  · have hx := h.pos x
    have htarget : ∀ r, (k.pos x).claim = some r ∨ (k.pos x).freed = some r → r ≠ x.1 := by
      rintro r (hr | hr) rfl
      · exact hus (hx.claim _ hr).1
      · exact hun (hx.freed _ hr)
    rw [update_eq_self]
    refine ⟨fun hl => ⟨?_, ?_⟩, fun hl => ?_, fun r hr => ?_, fun r hr => ?_, fun r t i hi => ?_,
      fun r hr => ?_⟩
    · rw [hslotx]
      exact (hx.live hl).1
    · unfold Kernel.thread
      rw [hslotx, hthread]
      exact hst'
    · exact absurd (hx.leaving hl) hzo
    · rw [hslot r (htarget r (.inl hr))]
      exact hx.claim r hr
    · rw [hslot r (htarget r (.inr hr))]
      exact hx.freed r hr
    · rw [hslotx]
      exact hx.copied r t i hi
    · obtain ⟨h1, h2, h3⟩ := hx.noted r hr
      refine ⟨h1, h2, ?_⟩
      rw [hslot r (htarget r (Inv.attempt_cases hr))]
      exact h3

/-! ### Runs -/

theorem acquire_some (h : k.acquire x l = some k') :
    ∃ lock, Spinlock.acquire k.lock x l = some lock ∧ k' = { k with lock := lock } := by
  obtain ⟨lock, hlock, hk⟩ := bind_eq_some_iff.1 h
  exact ⟨lock, hlock, (some.inj hk).symm⟩

theorem release_some (h : k.release x l = some k') :
    ∃ lock, Spinlock.release k.lock x l = some lock ∧ k' = { k with lock := lock } := by
  obtain ⟨lock, hlock, hk⟩ := bind_eq_some_iff.1 h
  exact ⟨lock, hlock, (some.inj hk).symm⟩

theorem releaseSlot_some (h : k.releaseSlot x q = some k') :
    ∃ lock, Spinlock.release k.lock x (.proc q) = some lock ∧
      k' = { k with lock := lock }.setCall x
        { k.call x with releases := (k.call x).releases + 1 } := by
  obtain ⟨k1, hk1, hk⟩ := bind_eq_some_iff.1 h
  obtain ⟨lock, hlock, rfl⟩ := release_some hk1
  exact ⟨lock, hlock, (some.inj hk).symm⟩

/-- The scan of `wait` goes on to a child, or ends. -/
theorem waitFrom_eq (k : Kernel) (x : Tid) (i : ℕ) (o : Pos) :
    k.waitFrom x i o = k.goto x o ∨ ∃ np, k.waitFrom x i o = k.goto x (.check np) := by
  unfold waitFrom
  cases k.nextChild x.1 i with
  | none => exact .inl rfl
  | some np => exact .inr ⟨np, rfl⟩

section

variable (h : Inv k n) (hs : k.go x flag = some k')

include h hs

/-- The steps of `allocproc` and `fork` up to the claim, and after the slot has been set up. -/
theorem Inv.go_fork
    (hscan : ∀ q, k.pos x = .scan q → (k.slot q).state = .unused → ∀ y, k.pos y ≠ .again q)
    (hp : (∃ q, k.pos x = .scan q) ∨ (∃ q, k.pos x = .busy q) ∨ (∃ q t, k.pos x = .made q t) ∨
      (∃ q t, k.pos x = .adopt q t) ∨ (∃ q t, k.pos x = .adopted q t) ∨
      (∃ q t, k.pos x = .start q t) ∨ ∃ q, k.pos x = .started q) : ∃ n', Inv k' n' := by
  unfold go at hs
  rcases hp with ⟨q, hp⟩ | ⟨q, hp⟩ | ⟨q, t, hp⟩ | ⟨q, t, hp⟩ | ⟨q, t, hp⟩ | ⟨q, t, hp⟩ | ⟨q, hp⟩ <;>
    simp only [hp, bind_eq_bind] at hs <;>
    obtain ⟨k1, hk1, hs⟩ := bind_eq_some_iff.1 hs
  · obtain ⟨lock, hlock, rfl⟩ := acquire_some hk1
    split_ifs at hs with hun
    · cases hs
      exact ⟨_, h.claimTo hp hlock hun (hscan q hp hun) k.nextpid⟩
    · cases hs
      exact ⟨n, h.acquireTo hlock hp rfl rfl rfl⟩
  · obtain ⟨lock, hlock, rfl⟩ := release_some hk1
    cases hq : nextSlot q with
    | some q' =>
      rw [hq] at hs
      cases hs
      exact ⟨n, h.releasePlain _ hlock hp rfl rfl fun l' => by simp [Pos.locks]⟩
    | none =>
      rw [hq] at hs
      cases hs
      refine ⟨n, (h.releasePlain .user hlock hp rfl rfl fun l' => by
        simp [Pos.locks]).setCall (x := x) (fun q hq => ?_) _⟩
      rw [goto_pos] at hq
      cases hq
  · obtain ⟨lock, hlock, rfl⟩ := releaseSlot_some hk1
    cases hs
    refine ⟨n, (h.releaseTo (.adopt q t) hlock ?_ (fun l' => ?_) (by rintro _ ⟨⟩)).setCall (x := x)
      (fun r hr => ?_) _⟩
    · rw [hp]
      constructor <;> simp [Pos.live, Pos.leaving, Pos.claim, Pos.freed, Pos.attempt, Pos.Stage]
    · rw [hp]
      simp [Pos.locks]
    · rw [goto_pos] at hr
      cases hr
  · obtain ⟨lock, hlock, rfl⟩ := acquire_some hk1
    cases hs
    obtain ⟨hc, hused, hstage⟩ := h.claimed hp rfl
    have hok := h.mem.ok q
    have hw : Works k.mem k.mem (k.slot q) { k.slot q with parent := some x.1 } (n q) := by
      refine .keep hok h.mem.pool ?_ rfl hok.idle hok.size
      funext a
      cases a with
      | frame | backup t | table P => rfl
    have hinv := h.build (s := { k.slot q with parent := some x.1 })
      (({ k with lock := lock }.setSlot q
        { k.slot q with parent := some x.1 }).goto x (.adopted q t)) (.adopted q t) hc
      (by rw [hp]; rfl) hw rfl rfl (h.locks.acquire (l := .wait) hlock rfl (by rw [hp]; rfl))
      (stateOk_used hused (h.state q |>.used hused)) rfl
      (fun r hr => ⟨(some.inj hr).symm, hused, hstage⟩) (by rintro _ ⟨⟩) (by simp)
      (fun _ _ => rfl) (by rintro _ ⟨⟩)
    exact ⟨_, hinv.1⟩
  · obtain ⟨lock, hlock, rfl⟩ := release_some hk1
    cases hs
    refine ⟨n, h.releaseTo (.start q t) hlock ?_ (fun l' => ?_) (by rintro _ ⟨⟩)⟩
    · rw [hp]
      constructor <;> simp [Pos.live, Pos.leaving, Pos.claim, Pos.freed, Pos.attempt, Pos.Stage]
    · rw [hp]
      simp [Pos.locks]
  · obtain ⟨lock, hlock, rfl⟩ := acquire_some hk1
    cases hs
    exact ⟨_, h.startTo hp hlock⟩
  · obtain ⟨lock, hlock, rfl⟩ := release_some hk1
    cases hs
    refine ⟨n, (h.releasePlain .user hlock hp rfl rfl fun l' => by
      simp [Pos.locks]).setCall (x := x) (fun r hr => ?_) _⟩
    rw [goto_pos] at hr
    cases hr

/-- The steps of `exit`. -/
theorem Inv.go_exit
    (hp : k.pos x = .closing ∨ k.pos x = .exiting ∨ k.pos x = .exited ∨ k.pos x = .gone) :
    ∃ n', Inv k' n' := by
  unfold go at hs
  rcases hp with hp | hp | hp | hp <;> simp only [hp, bind_eq_bind] at hs <;>
    obtain ⟨k1, hk1, hs⟩ := bind_eq_some_iff.1 hs
  · obtain ⟨lock, hlock, rfl⟩ := acquire_some hk1
    cases hs
    exact ⟨n, (h.reparent x.1).acquireTo hlock hp rfl rfl rfl⟩
  · obtain ⟨lock, hlock, rfl⟩ := acquire_some hk1
    cases hs
    exact ⟨_, h.markTo hp hlock⟩
  · obtain ⟨lock, hlock, rfl⟩ := release_some hk1
    cases hs
    refine ⟨n, h.releaseTo .gone hlock ?_ (fun l' => ?_) (by rintro _ ⟨⟩)⟩
    · rw [hp]
      constructor <;> simp [live, leaving, claim, freed, attempt]
    · rw [hp]
      simp only [Pos.locks, List.mem_cons, List.not_mem_nil, or_false]
      constructor
      · rintro rfl
        exact ⟨by simp, .inl rfl⟩
      · rintro ⟨hne, hl | hl⟩
        · exact hl
        · exact absurd hl hne
  · obtain ⟨lock, hlock, rfl⟩ := release_some hk1
    cases hs
    refine ⟨n, h.releaseTo .dead hlock ?_ (fun l' => ?_) (by rintro _ ⟨⟩)⟩
    · rw [hp]
      constructor <;> simp [Pos.live, Pos.leaving, Pos.claim, Pos.freed, Pos.attempt]
    · rw [hp]
      simp [Pos.locks]

/-- The steps of `wait`. -/
theorem Inv.go_wait
    (hp : k.pos x = .waiting ∨ (∃ np, k.pos x = .check np) ∨ (∃ np, k.pos x = .passed np) ∨
      (∃ np, k.pos x = .reaped np) ∨ ∃ b, k.pos x = .waited b) : ∃ n', Inv k' n' := by
  have hrest : ∀ (np : ProcId) (l' : Lk), l' ∈ [Lk.wait] ↔
      l' ≠ .proc np ∧ l' ∈ [Lk.proc np, Lk.wait] := by
    intro np l'
    simp only [mem_cons, not_mem_nil, or_false]
    constructor
    · rintro rfl
      exact ⟨by simp, .inr rfl⟩
    · rintro ⟨hne, hl | hl⟩
      · exact absurd hl hne
      · exact hl
  unfold go at hs
  rcases hp with hp | ⟨np, hp⟩ | ⟨np, hp⟩ | ⟨np, hp⟩ | ⟨b, hp⟩ <;>
    simp only [hp, bind_eq_bind] at hs <;>
    obtain ⟨k1, hk1, hs⟩ := bind_eq_some_iff.1 hs
  · obtain ⟨lock, hlock, rfl⟩ := acquire_some hk1
    cases hs
    rcases waitFrom_eq { k with lock := lock } x 0 (.waited false) with heq | ⟨np, heq⟩
    · rw [heq]
      exact ⟨n, h.acquireTo hlock hp rfl rfl rfl⟩
    · rw [heq]
      exact ⟨n, h.acquireTo hlock hp rfl rfl rfl⟩
  · obtain ⟨lock, hlock, rfl⟩ := acquire_some hk1
    split_ifs at hs with hz hf
    · obtain ⟨m, hm, hinv⟩ := h.reapTo hp hlock hz
      rw [hm] at hs
      cases hs
      exact ⟨_, hinv⟩
    · cases hs
      exact ⟨n, h.acquireTo hlock hp rfl rfl rfl⟩
    · cases hs
      exact ⟨n, h.acquireTo hlock hp rfl rfl rfl⟩
  · obtain ⟨lock, hlock, rfl⟩ := release_some hk1
    cases hs
    rcases waitFrom_eq { k with lock := lock } x (np.val + 1) (.waited !flag) with heq | ⟨np, heq⟩
    · rw [heq]
      exact ⟨n, h.releasePlain _ hlock hp rfl rfl (hrest _)⟩
    · rw [heq]
      exact ⟨n, h.releasePlain _ hlock hp rfl rfl (hrest _)⟩
  · obtain ⟨lock, hlock, rfl⟩ := release_some hk1
    cases hs
    exact ⟨n, h.releasePlain _ hlock hp rfl rfl (hrest np)⟩
  · obtain ⟨lock, hlock, rfl⟩ := release_some hk1
    cases hs
    cases b with
    | true | false => exact ⟨n, h.releasePlain _ hlock hp rfl rfl fun l' => by simp [Pos.locks]⟩

theorem Inv.go
    (hscan : ∀ q, k.pos x = .scan q → (k.slot q).state = .unused → ∀ y, k.pos y ≠ .again q) :
    ∃ n', Inv k' n' := by
  -- in an attempt the step is one that the lemmas above describe
  have hdet : (∃ k' n', k.go x flag = some k' ∧ Inv k' n') → ∃ n', Inv k' n' := by
    rintro ⟨k1, n1, hk1, hinv⟩
    rw [hk1] at hs
    cases hs
    exact ⟨n1, hinv⟩
  cases hp : k.pos x with
  | frame q =>
    obtain ⟨k1, n1, hk1, hinv, -⟩ := h.go_frame hp flag
    exact hdet ⟨k1, n1, hk1, hinv⟩
  | table q =>
    obtain ⟨k1, n1, hk1, hinv, -⟩ := h.go_table hp flag
    exact hdet ⟨k1, n1, hk1, hinv⟩
  | thread q =>
    obtain ⟨k1, n1, hk1, hinv, -⟩ := h.go_thread hp flag
    exact hdet ⟨k1, n1, hk1, hinv⟩
  | copy q t i =>
    obtain ⟨k1, n1, hk1, hinv, -⟩ := h.go_copy hp flag
    exact hdet ⟨k1, n1, hk1, hinv⟩
  | undo q b =>
    obtain ⟨k1, n1, hk1, hinv, -⟩ := h.go_undo hp flag
    exact hdet ⟨k1, n1, hk1, hinv⟩
  | drop q b =>
    obtain ⟨k1, n1, hk1, hinv, -⟩ := h.go_drop hp flag
    exact hdet ⟨k1, n1, hk1, hinv⟩
  | again q =>
    obtain ⟨k1, n1, hk1, hinv, -⟩ := h.go_again hp flag
    exact hdet ⟨k1, n1, hk1, hinv⟩
  | scan q => exact h.go_fork hs hscan (.inl ⟨q, hp⟩)
  | busy q => exact h.go_fork hs hscan (.inr (.inl ⟨q, hp⟩))
  | made q t => exact h.go_fork hs hscan (.inr (.inr (.inl ⟨q, t, hp⟩)))
  | adopt q t => exact h.go_fork hs hscan (.inr (.inr (.inr (.inl ⟨q, t, hp⟩))))
  | adopted q t => exact h.go_fork hs hscan (.inr (.inr (.inr (.inr (.inl ⟨q, t, hp⟩)))))
  | start q t => exact h.go_fork hs hscan (.inr (.inr (.inr (.inr (.inr (.inl ⟨q, t, hp⟩))))))
  | started q => exact h.go_fork hs hscan (.inr (.inr (.inr (.inr (.inr (.inr ⟨q, hp⟩))))))
  | closing => exact h.go_exit hs (.inl hp)
  | exiting => exact h.go_exit hs (.inr (.inl hp))
  | exited => exact h.go_exit hs (.inr (.inr (.inl hp)))
  | gone => exact h.go_exit hs (.inr (.inr (.inr hp)))
  | waiting => exact h.go_wait hs (.inl hp)
  | check np => exact h.go_wait hs (.inr (.inl ⟨np, hp⟩))
  | passed np => exact h.go_wait hs (.inr (.inr (.inl ⟨np, hp⟩)))
  | reaped np => exact h.go_wait hs (.inr (.inr (.inr (.inl ⟨np, hp⟩))))
  | waited b => exact h.go_wait hs (.inr (.inr (.inr (.inr ⟨b, hp⟩))))
  | user | dead =>
    unfold Kernel.go at hs
    simp only [hp] at hs
    cases hs

end

/-- **Every step** that does not claim a slot which is about to be freed again keeps the
invariant. -/
theorem Inv.step {a : Action} (h : Inv k n) (hg : k.Unhurried a) (hs : k.step a = some k') :
    ∃ n', Inv k' n' := by
  have hcall : ∀ x, k.pos x = .user → ∀ p', p'.plain = true → p'.locks x.1 = [] →
      Inv (k.goto x p') n := fun x hp p' hp' hl' =>
    h.move _ p' (goes_plain (by rw [hp]; rfl) hp') rfl rfl rfl
      (h.locks.same rfl rfl (by rw [hl', hp]; rfl)) (fun _ _ => rfl)
      fun q hq => absurd hq (Pos.attempt_plain hp' q)
  cases a <;> simp only [Kernel.step] at hs
  case dispatch x =>
    split_ifs at hs with hc
    cases hs
    exact ⟨_, h.sched (.inl hc.2.2) (.inr rfl)⟩
  case yield x =>
    split_ifs at hs with hc
    cases hs
    exact ⟨_, h.sched (.inr hc.2.2) (.inl rfl)⟩
  case fork x =>
    split_ifs at hs with hc
    cases hs
    refine ⟨n, (hcall x hc.2 (.scan 0) rfl rfl).setCall (x := x) (fun q hq => ?_) .start⟩
    rw [goto_pos] at hq
    cases hq
  case exit x =>
    split_ifs at hs with hc
    cases hs
    exact ⟨n, hcall x hc.2.1 .closing rfl rfl⟩
  case wait x =>
    split_ifs at hs with hc
    cases hs
    exact ⟨n, hcall x hc.2 .waiting rfl rfl⟩
  case go x flag =>
    split_ifs at hs with hc
    exact h.go hs hg

end Xv6.Fork
