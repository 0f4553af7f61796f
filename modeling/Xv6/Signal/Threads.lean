import Xv6.Lib.Run
import Xv6.Signal.Trap

/-!
# The threads of a process and its signals (`kernel/trap.c`, `kernel/proc.c`)

Several threads of one process go through `usertrapret`.  A step is the unlocked read of
`signal_handling_flag`, or what a thread does from one `acquire` of `p->lock` to the next `release`:
in `handle_pendding_sinals`, in the handlers that take the lock, and in `userhandler`.  Other
processes send signals between any two steps.

A thread is inside a handler from its `userhandler` to its `sigret`.  `ran` counts the executions
of `userhandler(i)`, `sent` the signals that `kill` has added to the pending set.  Nothing calls
`sigprocmask`.
-/

namespace Xv6

open Function Transition Option Proc

/-- Where a thread stands. -/
inductive Team.Place
  | user
  | kernel -- In the kernel, before `usertrapret`
  | checked -- `usertrapret` has read a zero in `signal_handling_flag`
  | freezing -- In the freeze loop, back from `yield`
  | thaw -- In the freeze loop, before `sigContHandler`
  | thawed -- After that handler, before `SIGCONT` is taken off
  | handler (i : Fin 32) (a : Action) -- Before the stop or continue handler that signal `i` selects
  | handled (i : Fin 32) -- After that handler, before the signal is taken off
  | deliver (i : Fin 32) -- `handle_pendding_sinals` has returned `i`
  | leaving -- In `usertrapret`, done with the signals
  deriving DecidableEq, Repr

/-- The threads of a process. -/
structure Team where
  proc : Proc
  place : ThreadId → Team.Place
  inside : ThreadId → Bool
  sent : Fin 32 → ℕ
  ran : Fin 32 → ℕ

namespace Team

/-- The steps of the threads, and a signal from another process. -/
inductive Act
  /-- The thread leaves user mode with these registers; its program has left `mem` behind. -/
  | trap (t : ThreadId) (regs : UserRegs) (mem : UserMem)
  | sigret (t : ThreadId)
  | go (t : ThreadId) (hart : Hart) (stub : List Byte) -- The next step of `usertrapret`
  | kill (i : Fin 32)

def goto (s : Team) (t : ThreadId) (c : Place) : Team :=
  { s with place := update s.place t c }

def setProc (s : Team) (p : Proc) : Team := { s with proc := p }

/-- From the test of the freeze loop to the next `release`: the process, and where the thread
stands then. -/
def pass (p : Proc) : Proc × Place :=
  if p.frozen = 1 then (p, if isSet p.penddingSignals SIGCONT then .thaw else .freezing)
  else
    match scan p with
    | none => (p, .leaving)
    | some (i, .kill) => (perform p 0 i .kill, .leaving)
    | some (i, .ignore) => (perform p 0 i .ignore, .leaving)
    | some (i, .deliver) => (p, .deliver i)
    | some (i, a) => (p, .handler i a)

def passOn (s : Team) (t : ThreadId) (p : Proc) : Team :=
  (s.setProc (pass p).1).goto t (pass p).2

/-- The next step of `usertrapret`. -/
def go (s : Team) (t : ThreadId) (hart : Hart) (stub : List Byte) : Option Team :=
  let p := s.proc
  match s.place t with
  | .kernel => some (s.goto t (if p.signalHandlingFlag = 0 then .checked else .leaving))
  | .checked => (saveFrame p t).map fun p => s.passOn t p
  | .freezing => some (s.passOn t p)
  | .thaw => some ((s.setProc p.sigContHandler).goto t .thawed)
  | .thawed => some (s.passOn t (p.clearSignal SIGCONT))
  | .handler i .stop => some ((s.setProc p.sigStopHandler).goto t (.handled i))
  | .handler i _ => some ((s.setProc p.sigContHandler).goto t (.handled i))
  | .handled i => some ((s.setProc (p.clearSignal i)).goto t .leaving)
  | .deliver i =>
    (userhandler stub p t i).map fun p =>
      { (s.setProc p).goto t .leaving with
        inside := update s.inside t true
        ran := update s.ran i (s.ran i + 1) }
  | .leaving =>
    match enterUser hart p t with
    | .user p => some ((s.setProc p).goto t .user)
    | _ => none
  | .user => none

/-- `kill`: a signal that is pending already is not counted again. -/
def kill (s : Team) (i : Fin 32) : Team :=
  { s.setProc (s.proc.arrive (sigBit i)) with
    sent := if isSet s.proc.penddingSignals i then s.sent
      else update s.sent i (s.sent i + 1) }

/-- One step.  A thread that `usertrap` ends takes none. -/
def step (s : Team) : Act → Option Team
  | .trap t regs mem =>
    if s.place t = .user ∧ s.proc.doomed t = false then
      (saveRegs s.proc t regs).map fun p =>
        (s.setProc { p with pagetable := some mem }).goto t .kernel
    else none
  | .sigret t =>
    if s.place t = .kernel ∧ s.inside t = true then
      ((Xv6.sigret s.proc t).bind fun p => p.setA0 t 0).map fun p =>
        { s.setProc p with inside := update s.inside t false }
    else none
  | .go t hart stub => s.go t hart stub
  | .kill i => some (s.kill i)

/-- The threads of `p`, each in user mode or in the kernel, none inside a handler. -/
def start (p : Proc) (place : ThreadId → Place) : Team := ⟨p, place, fun _ => false, 0, 0⟩

/-- The signal that `handle_pendding_sinals` returns in the next step of `t`. -/
def chosen (s : Team) (t : ThreadId) : Option (Fin 32) :=
  let next := match s.place t with
    | .checked | .freezing => (pass s.proc).2
    | .thawed => (pass (s.proc.clearSignal SIGCONT)).2
    | _ => .leaving
  match next with
  | .deliver i => some i
  | _ => none

/-! ### What a step can do -/

/-- The process keeps its flag and masks and gets no new signals. -/
structure Calm (p p' : Proc) : Prop where
  flag : p'.signalHandlingFlag = p.signalHandlingFlag
  mask : p'.signalMask = p.signalMask
  backup : p'.signalMaskBackup = p.signalMaskBackup
  pending : ∀ i, isSet p'.penddingSignals i = true → isSet p.penddingSignals i = true

namespace Calm

variable {p p' q : Proc} {t : ThreadId}

theorem of_eq (hflag : p'.signalHandlingFlag = p.signalHandlingFlag)
    (hmask : p'.signalMask = p.signalMask) (hbackup : p'.signalMaskBackup = p.signalMaskBackup)
    (hpending : p'.penddingSignals = p.penddingSignals) : Calm p p' :=
  ⟨hflag, hmask, hbackup, fun i hi => by rwa [hpending] at hi⟩

theorem refl (p : Proc) : Calm p p := of_eq rfl rfl rfl rfl

theorem trans (h : Calm p p') (h' : Calm p' q) : Calm p q :=
  ⟨h'.flag.trans h.flag, h'.mask.trans h.mask, h'.backup.trans h.backup,
    fun i hi => h.pending i (h'.pending i hi)⟩

theorem clearSignal (p : Proc) (i : Fin 32) : Calm p (p.clearSignal i) := by
  refine ⟨rfl, rfl, rfl, fun k hk => ?_⟩
  simp only [Proc.clearSignal, isSet_clear, Bool.and_eq_true] at hk
  exact hk.1

theorem pass (p : Proc) : Calm p (pass p).1 := by
  unfold Team.pass
  by_cases hf : p.frozen = 1
  · rw [if_pos hf]
    exact refl p
  · rw [if_neg hf]
    split
    · exact refl p
    · exact (of_eq rfl rfl rfl rfl : Calm p p.sigKillHandler).trans (clearSignal _ _)
    · exact clearSignal _ _
    · exact refl p
    · exact refl p

theorem saveFrame (h : saveFrame p t = some p') : Calm p p' := by
  obtain ⟨f, -, h⟩ := bind_eq_some_iff.1 h
  obtain ⟨b, -, h⟩ := bind_eq_some_iff.1 h
  cases h
  exact of_eq rfl rfl rfl rfl

theorem saveRegs {r : UserRegs} (h : saveRegs p t r = some p') : Calm p p' := by
  obtain ⟨f, -, h⟩ := bind_eq_some_iff.1 h
  cases h
  exact of_eq rfl rfl rfl rfl

theorem enterUser {hart : Hart} (h : enterUser hart p t = .user p') : Calm p p' := by
  unfold Xv6.enterUser at h
  split at h
  · cases h
  · cases h
    exact of_eq rfl rfl rfl rfl

end Calm

variable {i : Fin 32}

/-- A signal is delivered that is pending, while the flag is zero. -/
theorem pass_deliver {p : Proc} (h : (pass p).2 = .deliver i) :
    isSet p.penddingSignals i = true ∧ p.signalHandlingFlag = 0 := by
  unfold pass at h
  split_ifs at h
  split at h <;> cases h
  next hscan =>
    obtain ⟨hd, -⟩ := scan_eq_some hscan
    unfold dispatch at hd
    split_ifs at hd with hset <;> exact hset

/-- What is done next depends on the signals and on `frozen` alone. -/
theorem pass_place_congr {p q : Proc} (hf : q.frozen = p.frozen)
    (hp : q.penddingSignals = p.penddingSignals) (hs : scan q = scan p) :
    (pass q).2 = (pass p).2 := by
  unfold pass
  rw [hf, hp, hs]
  by_cases hf : p.frozen = 1
  · rw [if_pos hf, if_pos hf]
  · rw [if_neg hf, if_neg hf]
    split <;> rfl

theorem pass_saveFrame {p p' : Proc} {t : ThreadId} (h : saveFrame p t = some p') :
    (pass p').2 = (pass p).2 := by
  obtain ⟨f, -, h⟩ := bind_eq_some_iff.1 h
  obtain ⟨b, -, h⟩ := bind_eq_some_iff.1 h
  cases h
  exact pass_place_congr rfl rfl (scan_congr fun _ => rfl)

/-- The threads inside handlers and the two counts stay. -/
structure SameCounts (s s' : Team) : Prop where
  inside : s'.inside = s.inside
  sent : s'.sent = s.sent
  ran : s'.ran = s.ran

/-- What a step can do. -/
inductive Effect (s s' : Team) : Act → Prop
  /-- No signal is chosen, delivered or sent. -/
  | calm {a : Act} (hp : Calm s.proc s'.proc) (hc : SameCounts s s')
      (hplace : ∀ u i, s'.place u = .deliver i → s.place u = .deliver i) : Effect s s' a
  /-- `handle_pendding_sinals` returns `i`. -/
  | choose {t : ThreadId} {i : Fin 32} {hart : Hart} {stub : List Byte}
      (hp : Calm s.proc s'.proc) (hc : SameCounts s s')
      (hset : isSet s.proc.penddingSignals i = true) (hflag : s.proc.signalHandlingFlag = 0)
      (hplace : s'.place = update s.place t (.deliver i)) (hchosen : s.chosen t ≠ none) :
      Effect s s' (.go t hart stub)
  /-- `userhandler(i)`. -/
  | deliver {t : ThreadId} {i : Fin 32} {hart : Hart} {stub : List Byte}
      (hat : s.place t = .deliver i) (hplace : s'.place = update s.place t .leaving)
      (hflag : s'.proc.signalHandlingFlag = 1)
      (hbackup : s'.proc.signalMaskBackup = s.proc.signalMask)
      (hpending : ∀ k, isSet s'.proc.penddingSignals k = true →
        isSet s.proc.penddingSignals k = true ∧ k ≠ i)
      (hinside : s'.inside = update s.inside t true) (hsent : s'.sent = s.sent)
      (hran : s'.ran = update s.ran i (s.ran i + 1)) : Effect s s' (.go t hart stub)
  | sigret {t : ThreadId} (hat : s.place t = .kernel) (hwas : s.inside t = true)
      (hplace : s'.place = s.place) (hflag : s'.proc.signalHandlingFlag = 0)
      (hmask : s'.proc.signalMask = s.proc.signalMaskBackup)
      (hpending : s'.proc.penddingSignals = s.proc.penddingSignals)
      (hinside : s'.inside = update s.inside t false) (hsent : s'.sent = s.sent)
      (hran : s'.ran = s.ran) : Effect s s' (.sigret t)
  | kill {i : Fin 32} (hplace : s'.place = s.place)
      (hflag : s'.proc.signalHandlingFlag = s.proc.signalHandlingFlag)
      (hmask : s'.proc.signalMask = s.proc.signalMask)
      (hbackup : s'.proc.signalMaskBackup = s.proc.signalMaskBackup)
      (hpending : ∀ k, isSet s'.proc.penddingSignals k =
        (isSet s.proc.penddingSignals k || decide (k = i)))
      (hinside : s'.inside = s.inside)
      (hsent : ∀ k, s'.sent k =
        s.sent k + if k = i ∧ isSet s.proc.penddingSignals i = false then 1 else 0)
      (hran : s'.ran = s.ran) : Effect s s' (.kill i)

variable {s s' : Team} {t : ThreadId} {hart : Hart} {stub : List Byte}

/-- A thread that moves to a place where it delivers nothing. -/
theorem place_goto {c : Place} (hc : ∀ i, c ≠ .deliver i) (u : ThreadId) (i : Fin 32)
    (h : (s.goto t c).place u = .deliver i) : s.place u = .deliver i := by
  by_cases hu : u = t
  · subst hu
    simp only [goto, update_self] at h
    exact absurd h (hc i)
  · simpa only [goto, update_of_ne hu] using h

variable {a : Act}

theorem effect_goto {p : Proc} {c : Place} (hp : Calm s.proc p)
    (hc : ∀ i, c ≠ .deliver i) : Effect s ((s.setProc p).goto t c) a :=
  .calm hp ⟨rfl, rfl, rfl⟩ fun u i h => place_goto (s := s.setProc p) hc u i h

theorem effect_passOn {p : Proc} (hp : Calm s.proc p)
    (hchosen : ∀ i, (pass p).2 = .deliver i → s.chosen t ≠ none) :
    Effect s (s.passOn t p) (.go t hart stub) := by
  have hp' : Calm s.proc (pass p).1 := hp.trans (.pass p)
  by_cases hc : ∃ i, (pass p).2 = .deliver i
  · obtain ⟨i, hi⟩ := hc
    obtain ⟨hset, hflag⟩ := pass_deliver hi
    refine .choose hp' ⟨rfl, rfl, rfl⟩ (hp.pending i hset) (hp.flag.symm.trans hflag) ?_
      (hchosen i hi)
    simp only [passOn, goto, setProc, hi]
  · exact effect_goto hp' fun i hi => hc ⟨i, hi⟩

theorem effect_deliver {p : Proc} (hat : s.place t = .deliver i)
    (h : userhandler stub s.proc t i = some p) :
    Effect s { (s.setProc p).goto t .leaving with
      inside := update s.inside t true
      ran := update s.ran i (s.ran i + 1) } (.go t hart stub) := by
  obtain ⟨f, -, h⟩ := bind_eq_some_iff.1 h
  obtain ⟨b, -, h⟩ := bind_eq_some_iff.1 h
  obtain ⟨m, -, h⟩ := bind_eq_some_iff.1 h
  cases h
  refine .deliver hat rfl rfl rfl (fun k hk => ?_) rfl rfl rfl
  have hk : isSet (s.proc.penddingSignals &&& ~~~sigBit i) k = true := hk
  simpa using hk

theorem go_effect (h : s.go t hart stub = some s') : Effect s s' (.go t hart stub) := by
  unfold go at h
  dsimp only at h
  cases hat : s.place t <;> rw [hat] at h
  case user => cases h
  case kernel =>
    cases h
    refine effect_goto (.refl s.proc) fun i => ?_
    split_ifs <;> nofun
  case checked =>
    obtain ⟨p, hp, rfl⟩ := map_eq_some_iff.1 h
    refine effect_passOn (.saveFrame hp) fun i hi => ?_
    rw [pass_saveFrame hp] at hi
    simp [chosen, hat, hi]
  case freezing =>
    cases h
    refine effect_passOn (.refl _) fun i hi => ?_
    simp [chosen, hat, hi]
  case thaw =>
    cases h
    exact effect_goto (.of_eq rfl rfl rfl rfl) nofun
  case thawed =>
    cases h
    refine effect_passOn (.clearSignal _ _) fun i hi => ?_
    simp [chosen, hat, hi]
  case handler i a =>
    cases a <;> cases h <;> exact effect_goto (.of_eq rfl rfl rfl rfl) nofun
  case handled i =>
    cases h
    exact effect_goto (.clearSignal _ _) nofun
  case deliver i =>
    obtain ⟨p, hp, rfl⟩ := map_eq_some_iff.1 h
    exact effect_deliver hat hp
  case leaving =>
    dsimp only at h
    split at h
    next p hp =>
      cases h
      exact effect_goto (.enterUser hp) nofun
    next => cases h

theorem sigret_effect (h : s.step (.sigret t) = some s') : Effect s s' (.sigret t) := by
  simp only [step] at h
  split_ifs at h with hat
  obtain ⟨p', hp', rfl⟩ := map_eq_some_iff.1 h
  obtain ⟨p, hp, hp'⟩ := bind_eq_some_iff.1 hp'
  obtain ⟨f, -, hp'⟩ := bind_eq_some_iff.1 hp'
  obtain ⟨g, -, hp⟩ := bind_eq_some_iff.1 hp
  obtain ⟨b, -, hp⟩ := bind_eq_some_iff.1 hp
  cases hp
  cases hp'
  exact .sigret hat.1 hat.2 rfl rfl rfl rfl rfl rfl rfl

theorem kill_effect (s : Team) (i : Fin 32) : Effect s (s.kill i) (.kill i) := by
  refine .kill rfl rfl rfl rfl (fun k => ?_) rfl (fun k => ?_) rfl
  · simp [kill, setProc, arrive]
  · cases hset : isSet s.proc.penddingSignals i with
    | true => simp [kill, hset]
    | false =>
      by_cases hk : k = i
      · subst hk
        simp [kill, hset]
      · simp [kill, hset, hk]

theorem step_effect (h : s.step a = some s') : Effect s s' a := by
  cases a with
  | trap t regs mem =>
    simp only [step] at h
    split_ifs at h
    obtain ⟨p, hp, rfl⟩ := map_eq_some_iff.1 h
    exact effect_goto ((Calm.saveRegs hp).trans (.of_eq rfl rfl rfl rfl)) nofun
  | sigret t => exact sigret_effect h
  | go t hart stub => exact go_effect h
  | kill i =>
    cases h
    exact kill_effect s i

/-! ### The invariant -/

/-- Signal `i` is pending, or a thread is about to run its handler. -/
def Due (s : Team) (i : Fin 32) : Prop :=
  isSet s.proc.penddingSignals i = true ∨ ∃ t, s.place t = .deliver i

instance (s : Team) (i : Fin 32) : Decidable (s.Due i) := by
  unfold Due; infer_instance

/-- The executions of `userhandler(i)` so far, with the one that is due. -/
def spent (s : Team) (i : Fin 32) : ℕ := s.ran i + if s.Due i then 1 else 0

/-- The signals `i` that were there for delivery so far, for a process that started as `p₀`. -/
def given (p₀ : Proc) (s : Team) (i : Fin 32) : ℕ :=
  s.sent i + if isSet p₀.penddingSignals i then 1 else 0

structure Inv (p₀ : Proc) (s : Team) : Prop where
  one : ∀ t u i j, s.place t = .deliver i → s.place u = .deliver j → t = u
  idle : ∀ t i, s.place t = .deliver i → s.proc.signalHandlingFlag = 0
  unique : ∀ t u, s.inside t = true → s.inside u = true → t = u
  busy : ∀ t, s.inside t = true → s.proc.signalHandlingFlag ≠ 0
  flag : s.proc.signalHandlingFlag ≠ 0 → ∃ t, s.inside t = true
  mask : s.proc.signalHandlingFlag = 0 → s.proc.signalMask = p₀.signalMask
  backup : s.proc.signalHandlingFlag ≠ 0 → s.proc.signalMaskBackup = p₀.signalMask
  count : ∀ i, s.spent i ≤ given p₀ s i

/-- The condition on the steps: `handle_pendding_sinals` chooses a signal for `userhandler` only
while no other thread stands between the two functions with such a signal. -/
def Orderly (s : Team) : Act → Prop
  | .go t _ _ => s.chosen t ≠ none → ∀ u i, s.place u ≠ .deliver i
  | _ => True

instance (s : Team) (a : Act) : Decidable (s.Orderly a) :=
  match a with
  | .go t _ _ => inferInstanceAs (Decidable (s.chosen t ≠ none → ∀ u i, s.place u ≠ .deliver i))
  | .trap .. | .sigret _ | .kill _ => .isTrue trivial

theorem spent_le (hran : s'.ran = s.ran) (hdue : s'.Due i → s.Due i) : s'.spent i ≤ s.spent i := by
  unfold spent
  rw [hran]
  by_cases hd : s'.Due i
  · rw [if_pos hd, if_pos (hdue hd)]
  · rw [if_neg hd]
    exact Nat.le_add_right _ _

namespace Inv

variable {p₀ : Proc}

theorem start {p₀ : Proc} {place : ThreadId → Place} (hflag : p₀.signalHandlingFlag = 0)
    (hplace : ∀ t, place t = .user ∨ place t = .kernel) : Inv p₀ (start p₀ place) := by
  have hnot : ∀ t i, place t ≠ .deliver i := fun t i ht => by
    rcases hplace t with h | h <;> rw [h] at ht <;> cases ht
  refine ⟨fun t _ i _ ht => absurd ht (hnot t i), fun t i ht => absurd ht (hnot t i), nofun, nofun,
    fun h => absurd hflag h, fun _ => rfl, fun h => absurd hflag h, fun i => ?_⟩
  have hdue : (Team.start p₀ place).Due i ↔ isSet p₀.penddingSignals i = true :=
    or_iff_left fun ⟨t, ht⟩ => hnot t i ht
  simp only [spent, given, hdue]
  exact le_rfl

section

variable (h : Inv p₀ s)

include h

theorem count_keep (hsent : s'.sent = s.sent) (hran : s'.ran = s.ran)
    (hdue : s'.Due i → s.Due i) : s'.spent i ≤ given p₀ s' i := by
  have hcount := h.count i
  unfold given at hcount ⊢
  rw [hsent]
  exact (spent_le hran hdue).trans hcount

theorem calm (hp : Calm s.proc s'.proc) (hc : SameCounts s s')
    (hplace : ∀ u i, s'.place u = .deliver i → s.place u = .deliver i) : Inv p₀ s' where
  one t u i j ht hu := h.one t u i j (hplace t i ht) (hplace u j hu)
  idle t i ht := hp.flag.trans (h.idle t i (hplace t i ht))
  unique t u := by rw [hc.inside]; exact h.unique t u
  busy t := by rw [hc.inside, hp.flag]; exact h.busy t
  flag := by rw [hc.inside, hp.flag]; exact h.flag
  mask := by rw [hp.flag, hp.mask]; exact h.mask
  backup := by rw [hp.flag, hp.backup]; exact h.backup
  count i := h.count_keep hc.sent hc.ran fun hd =>
    hd.imp (hp.pending i) fun ⟨t, ht⟩ => ⟨t, hplace t i ht⟩

theorem choose (hp : Calm s.proc s'.proc) (hc : SameCounts s s')
    (hset : isSet s.proc.penddingSignals i = true) (hflag : s.proc.signalHandlingFlag = 0)
    (hplace : s'.place = update s.place t (.deliver i))
    (hfree : ∀ u j, s.place u ≠ .deliver j) : Inv p₀ s' := by
  have hat : ∀ u j, s'.place u = .deliver j → u = t ∧ j = i := fun u j hu => by
    rw [hplace] at hu
    by_cases hut : u = t
    · subst hut
      rw [update_self] at hu
      cases hu
      exact ⟨rfl, rfl⟩
    · rw [update_of_ne hut] at hu
      exact absurd hu (hfree u j)
  refine ⟨fun u v j k hu hv => (hat u j hu).1.trans (hat v k hv).1.symm,
    fun u j hu => hp.flag.trans hflag, ?_, ?_, ?_, ?_, ?_, fun j => ?_⟩
  · rw [hc.inside]; exact h.unique
  · rw [hc.inside, hp.flag]; exact h.busy
  · rw [hc.inside, hp.flag]; exact h.flag
  · rw [hp.flag, hp.mask]; exact h.mask
  · rw [hp.flag, hp.backup]; exact h.backup
  · refine h.count_keep hc.sent hc.ran fun hd => ?_
    rcases hd with hd | ⟨u, hu⟩
    · exact .inl (hp.pending j hd)
    · rw [(hat u j hu).2]
      exact .inl hset

/-- The one signal on its way to `userhandler` gets there. -/
theorem nobody (hat : s.place t = .deliver i)
    (hplace : s'.place = update s.place t .leaving) (u : ThreadId) (j : Fin 32) :
    s'.place u ≠ .deliver j := by
  intro hu
  rw [hplace] at hu
  by_cases hut : u = t
  · subst hut
    rw [update_self] at hu
    cases hu
  · rw [update_of_ne hut] at hu
    exact hut (h.one u t j i hu hat)

theorem count_deliver (hat : s.place t = .deliver i) (hplace : s'.place = update s.place t .leaving)
    (hpending : ∀ k, isSet s'.proc.penddingSignals k = true →
      isSet s.proc.penddingSignals k = true ∧ k ≠ i) (hsent : s'.sent = s.sent)
    (hran : s'.ran = update s.ran i (s.ran i + 1)) (k : Fin 32) : s'.spent k ≤ given p₀ s' k := by
  have hdue : s'.Due k → s.Due k ∧ k ≠ i := by
    rintro (hd | ⟨u, hu⟩)
    · exact ⟨.inl (hpending k hd).1, (hpending k hd).2⟩
    · exact absurd hu (h.nobody hat hplace u k)
  have hcount := h.count k
  unfold given spent at hcount ⊢
  rw [hsent, hran]
  by_cases hk : k = i
  · subst hk
    have hwas : s.Due k := .inr ⟨t, hat⟩
    rw [if_pos hwas] at hcount
    rw [update_self, if_neg fun hd => (hdue hd).2 rfl]
    exact hcount
  · rw [update_of_ne hk]
    by_cases hd : s'.Due k
    · rw [if_pos (hdue hd).1] at hcount
      rwa [if_pos hd]
    · rw [if_neg hd]
      omega

theorem count_kill (hplace : s'.place = s.place) (hpending : ∀ k, isSet s'.proc.penddingSignals k =
    (isSet s.proc.penddingSignals k || decide (k = i))) (hsent : ∀ k, s'.sent k =
      s.sent k + if k = i ∧ isSet s.proc.penddingSignals i = false then 1 else 0)
    (hran : s'.ran = s.ran) (k : Fin 32) : s'.spent k ≤ given p₀ s' k := by
  have hcount := h.count k
  unfold given at hcount ⊢
  rw [hsent]
  by_cases hk : k = i ∧ isSet s.proc.penddingSignals i = false
  · have hle : s'.spent k ≤ s.spent k + 1 := by
      unfold spent
      rw [hran]
      split_ifs <;> omega
    rw [if_pos hk]
    omega
  · rw [if_neg hk]
    refine (spent_le hran fun hd => ?_).trans hcount
    unfold Due at hd
    rw [hpending, hplace, Bool.or_eq_true, decide_eq_true_iff] at hd
    rcases hd with (hd | rfl) | hd
    · exact .inl hd
    · exact .inl (by simpa using hk)
    · exact .inr hd

theorem step (hg : s.Orderly a) (he : Effect s s' a) : Inv p₀ s' := by
  cases he with
  | calm hp hc hplace => exact h.calm hp hc hplace
  | choose hp hc hset hflag hplace hchosen =>
    exact h.choose hp hc hset hflag hplace (hg hchosen)
  | @deliver t i _ _ hat hplace hflag hbackup hpending hinside hsent hran =>
    have hzero : s.proc.signalHandlingFlag = 0 := h.idle t i hat
    have hone : s'.proc.signalHandlingFlag ≠ 0 := by rw [hflag]; decide
    have honly : ∀ u, s'.inside u = true → u = t := fun u hu => by
      rw [hinside] at hu
      by_contra hut
      rw [update_of_ne hut] at hu
      exact h.busy u hu hzero
    exact ⟨fun u _ j _ hu => absurd hu (h.nobody hat hplace u j),
      fun u j hu => absurd hu (h.nobody hat hplace u j),
      fun u v hu hv => (honly u hu).trans (honly v hv).symm, fun _ _ => hone,
      fun _ => ⟨t, by rw [hinside, update_self]⟩, fun hz => absurd hz hone,
      fun _ => hbackup.trans (h.mask hzero),
      h.count_deliver hat hplace hpending hsent hran⟩
  | @sigret t hat hwas hplace hflag hmask hpending hinside hsent hran =>
    have hbusy : s.proc.signalHandlingFlag ≠ 0 := h.busy t hwas
    have hnone : ∀ u, s'.inside u ≠ true := fun u hu => by
      rw [hinside] at hu
      by_cases hut : u = t
      · subst hut
        rw [update_self] at hu
        cases hu
      · rw [update_of_ne hut] at hu
        exact hut (h.unique u t hu hwas)
    refine ⟨by rw [hplace]; exact h.one, fun _ _ _ => hflag, fun u _ hu => absurd hu (hnone u),
      fun u hu => absurd hu (hnone u), fun hne => absurd hflag hne,
      fun _ => hmask.trans (h.backup hbusy), fun hne => absurd hflag hne, fun k => ?_⟩
    refine h.count_keep hsent hran fun hd => ?_
    unfold Due at hd ⊢
    rwa [hpending, hplace] at hd
  | @kill i hplace hflag hmask hbackup hpending hinside hsent hran =>
    exact ⟨by rw [hplace]; exact h.one, by rw [hplace, hflag]; exact h.idle,
      by rw [hinside]; exact h.unique, by rw [hinside, hflag]; exact h.busy,
      by rw [hinside, hflag]; exact h.flag, by rw [hflag, hmask]; exact h.mask,
      by rw [hflag, hbackup]; exact h.backup, h.count_kill hplace hpending hsent hran⟩

end

end Inv

/-- User handlers of a process with several threads, in every run in which
`handle_pendding_sinals` chooses a signal for `userhandler` only while no other thread is about to
run a handler: each execution of `userhandler(i)` has used up its own signal `i`, one that was
sent by a `kill` that found it not pending or was pending at the start; at most one thread is
inside a handler; and while none is, the signal mask is the initial one. -/
theorem handlers_run_once {p₀ : Proc} {place : ThreadId → Place}
    (hflag : p₀.signalHandlingFlag = 0) (hplace : ∀ t, place t = .user ∨ place t = .kernel)
    {tr : List Act} {s : Team} (h : Reach Team.step Team.Orderly (start p₀ place) tr s) :
    (∀ i, s.ran i ≤ s.sent i + if isSet p₀.penddingSignals i then 1 else 0) ∧
      (∀ t u, s.inside t = true → s.inside u = true → t = u) ∧
      ((∀ t, s.inside t = false) → s.proc.signalMask = p₀.signalMask) := by
  have hinv : Inv p₀ s := h.state_invariant (.start hflag hplace)
    fun s a s' hs hg hstep => hs.step hg (step_effect hstep)
  refine ⟨fun i => (Nat.le_add_right _ _).trans (hinv.count i), hinv.unique, fun hnone => ?_⟩
  refine hinv.mask ?_
  by_contra hne
  obtain ⟨t, ht⟩ := hinv.flag hne
  rw [hnone t] at ht
  cases ht

/-- A process with two threads in the kernel and a user handler for signal 2, which blocks
signal 0. -/
def twoThreads : Proc :=
  { zero with
    pagetable := some fun _ => none
    signalHandlers := update (fun _ => SIG_DFL) 2 100
    signalHandlersMask := update (fun _ => 0) 2 1
    threads := fun _ =>
      { Thread.zero with trapframe := some default, userTrapFrameBackup := some default } }

/-- The next step of a thread, on a hart of zeros. -/
def turn (t : ThreadId) : Act := .go t ⟨0, 0, 0, 0⟩ []

def trapIn (t : ThreadId) : Act := .trap t default fun _ => none

theorem handlers_run_once_two : ∃ tr s,
    Reach Team.step Team.Orderly (start twoThreads fun _ => .kernel) tr s ∧
      s.ran 2 = 1 ∧ s.sent 2 = 1 ∧ s.ran 2 ≤ s.sent 2 ∧ (∀ t, s.inside t = false) ∧
      s.proc.signalMask = twoThreads.signalMask := by
  obtain ⟨s, hs, he⟩ : ∃ s ∈ runWhen Team.step Team.Orderly (start twoThreads fun _ => .kernel)
      [.kill 2, turn 0, turn 1, turn 0, turn 0, turn 1, turn 1, turn 0, trapIn 0, .sigret 0],
      s.ran 2 = 1 ∧ s.sent 2 = 1 ∧ (∀ t, s.inside t = false) := by decide
  have hreach := reach_of_runWhen hs
  obtain ⟨hran, -, hmask⟩ := handlers_run_once (by decide) (fun _ => .inr rfl) hreach
  exact ⟨_, s, hreach, he.1, he.2.1, by simpa [twoThreads, zero] using hran 2, he.2.2,
    hmask he.2.2⟩

/-- Two threads take signal 2 at the same time. -/
def bothChoose : List Act :=
  [.kill 2, turn 0, turn 1, turn 0, turn 1, turn 0, turn 1]

/-- Both leave the handler. -/
def bothReturn : List Act := [turn 0, turn 1, trapIn 0, trapIn 1, .sigret 0, .sigret 1]

/-- One `kill` leads to two executions of `userhandler`, with two threads inside the handler at
once; after both `sigret`s the mask of the handler is left. -/
theorem handler_runs_twice : ∃ s s',
    Reach Team.step Always (start twoThreads fun _ => .kernel)
      bothChoose.reverse s ∧ s.sent 2 = 1 ∧ s.ran 2 = 2 ∧ s.inside 0 = true ∧ s.inside 1 = true ∧
    Reach Team.step Always (start twoThreads fun _ => .kernel)
      (bothChoose ++ bothReturn).reverse s' ∧ (∀ t, s'.inside t = false) ∧
      s'.proc.signalMask ≠ twoThreads.signalMask := by
  obtain ⟨s, hs, he⟩ : ∃ s ∈ run Team.step (start twoThreads fun _ => .kernel) bothChoose,
      s.sent 2 = 1 ∧ s.ran 2 = 2 ∧ s.inside 0 = true ∧ s.inside 1 = true := by decide
  obtain ⟨s', hs', hnone, hmask⟩ :
      ∃ s ∈ run Team.step (start twoThreads fun _ => .kernel) (bothChoose ++ bothReturn),
      (∀ t, s.inside t = false) ∧ s.proc.signalMask = 1 := by decide
  refine ⟨s, s', reach_always hs, he.1, he.2.1, he.2.2.1, he.2.2.2, reach_always hs', hnone, ?_⟩
  rw [hmask]
  decide

end Team

end Xv6
