import Xv6.Pipe.Model

/-!
# Pipes as queues of bytes

The buffer of a pipe holds a list, in the sense of `Ring.Holds`: a turn of `pipewrite` adds a byte
at its end, a turn of `piperead` takes the first one.  `piperead` counts the byte as read before it
copies it, so the byte is lost if the copy fails; as long as the copies succeed, what has been
stored for readers and what the buffer holds make up what has been taken from writers.
-/

namespace Xv6.Pipe

open Transition List

variable {T P : Type} {s s' : Pipe T P}

/-- The part of the state that the queue is made of. -/
structure View where
  data : ℕ → Byte
  nread : UInt
  nwrite : UInt
  accepted : List Byte
  delivered : List Byte

def view (s : Pipe T P) : View := ⟨s.data, s.nread, s.nwrite, s.accepted, s.delivered⟩

/-- What a step can do to the queue; `fails` says that the copy to user memory fails. -/
inductive Effect (fails : Prop) (v v' : View) : Prop
  | none (h : v' = v)
  /-- `pipewrite` stores a byte. -/
  | accept (ch : Byte) (hroom : v.nwrite ≠ v.nread + BitVec.ofNat 32 PIPESIZE)
      (h : v' = { v with
        data := Function.update v.data (v.nwrite.toNat % PIPESIZE) ch
        nwrite := v.nwrite + 1
        accepted := v.accepted ++ [ch] })
  /-- `piperead` takes a byte and copies it. -/
  | deliver (hne : v.nread ≠ v.nwrite)
      (h : v' = { v with
        nread := v.nread + 1
        delivered := v.delivered ++ [v.data (v.nread.toNat % PIPESIZE)] })
  /-- `piperead` takes a byte and fails to copy it. -/
  | lose (hfails : fails) (hne : v.nread ≠ v.nwrite) (h : v' = { v with nread := v.nread + 1 })

/-- The copies to user memory succeed. -/
def CopiesOut (s : Pipe T P) : Act T P → Prop
  | .go t _ copyout => ∀ n i, s.pos t = .copying n i → copyout = true
  | _ => True

section

variable [DecidableEq T] {proc : T → P} {t : T} {fails : Prop}

theorem acquire_view {p : Pos} (h : s.acquire t p = some s') : s'.view = s.view := by
  unfold acquire at h
  split_ifs at h
  cases h
  rfl

theorem effect_writeStep (n : ℤ) (i : ℕ) (copyin : Option Byte) :
    Effect fails s.view (s.writeStep proc t n i copyin).view := by
  unfold writeStep
  split_ifs with hi hleave hfull
  · exact .none rfl
  · exact .none rfl
  · cases copyin with
    | none => exact .none rfl
    | some ch => exact .accept ch hfull rfl
  · exact .none rfl

theorem effect_copyStep (n : ℤ) (i : ℕ) {copyout : Bool} (hfails : copyout = false → fails) :
    Effect fails s.view (s.copyStep t n i copyout).view := by
  unfold copyStep
  split_ifs with hi hout
  · exact .deliver hi.2 rfl
  · exact .lose (hfails (Bool.eq_false_iff.2 hout)) hi.2 rfl
  · exact .none rfl

variable [DecidableEq P] {a : Act T P}

theorem step_effect (h : s.step proc a = some s') : Effect (¬ s.CopiesOut a) s.view s'.view := by
  cases a with
  | pipewrite t n | piperead t n =>
    simp only [step] at h
    split_ifs at h
    cases h
    exact .none rfl
  | go t copyin copyout =>
    simp only [step, go] at h
    split at h
    · exact .none (acquire_view h)
    · cases h
      exact effect_writeStep _ _ copyin
    · exact .none (acquire_view h)
    · exact .none (acquire_view h)
    · cases h
      unfold waitStep
      split_ifs <;> exact .none rfl
    · exact .none (acquire_view h)
    · next n i hp =>
      cases h
      refine effect_copyStep n i fun hout hG => ?_
      rw [hG n i hp] at hout
      cases hout
    · cases h
  | pipeclose t writable =>
    simp only [step] at h
    split_ifs at h
    cases h
    cases writable <;> exact .none rfl
  | kill p =>
    cases h
    exact .none rfl
  | rouse t =>
    simp only [step] at h
    split at h <;> cases h <;> exact .none rfl

end

/-! ### The queue -/

/-- The buffer holds `xs`. -/
def View.Holds (v : View) (xs : List Byte) : Prop := Ring.Holds PIPESIZE v.data v.nread v.nwrite xs

theorem pipesize_dvd : PIPESIZE ∣ 2 ^ 32 := by decide

theorem pipesize_lt : PIPESIZE < 2 ^ 32 := by decide

variable {v v' : View} {xs : List Byte} {fails : Prop}

/-- A step leaves the buffer with a list.  If no byte is lost, what is delivered and what is in the
buffer still make up what is accepted. -/
theorem Effect.holds (he : Effect fails v v') (h : v.Holds xs) :
    ∃ xs', v'.Holds xs' ∧
      (¬ fails → v.accepted = v.delivered ++ xs → v'.accepted = v'.delivered ++ xs') := by
  cases he with
  | none heq =>
    subst heq
    exact ⟨xs, h, fun _ heq => heq⟩
  | accept ch hroom heq =>
    subst heq
    have hlt : xs.length < PIPESIZE := by
      refine lt_of_le_of_ne h.length_le fun hfull => hroom ?_
      exact (h.stop_eq_iff pipesize_lt le_rfl).2 hfull
    refine ⟨xs ++ [ch], h.push pipesize_dvd hlt ch, fun _ heq => ?_⟩
    simp only [heq, append_assoc]
  | deliver hne heq =>
    subst heq
    obtain ⟨ch, xs', rfl⟩ := exists_cons_of_ne_nil
      fun hnil => hne ((h.empty_iff pipesize_lt).2 hnil)
    refine ⟨xs', h.pop pipesize_dvd, fun _ heq => ?_⟩
    simp only [h.first, heq, append_assoc, singleton_append]
  | lose hfails hne heq =>
    subst heq
    obtain ⟨ch, xs', rfl⟩ := exists_cons_of_ne_nil
      fun hnil => hne ((h.empty_iff pipesize_lt).2 hnil)
    exact ⟨xs', h.pop pipesize_dvd, fun hno => absurd hfails hno⟩

section

variable [DecidableEq T] [DecidableEq P] {proc : T → P} {k : UInt} {tr : List (Act T P)}

/-- In every run, whether or not its copies succeed, the counters differ by at most `PIPESIZE`. -/
theorem counters_bounded {G : Pipe T P → Act T P → Prop} (h : Reach (step proc) G (start k) tr s) :
    (s.nwrite - s.nread).toNat ≤ PIPESIZE := by
  obtain ⟨xs, hxs⟩ : ∃ xs, s.view.Holds xs := by
    refine h.state_invariant (I := fun s : Pipe T P => ∃ xs, s.view.Holds xs) ⟨[], ?_⟩ ?_
    · exact Ring.holds_nil k
    · rintro s a s' ⟨xs, hxs⟩ - hs
      obtain ⟨xs', hxs', -⟩ := (step_effect hs).holds hxs
      exact ⟨xs', hxs'⟩
  exact (hxs.toNat_sub pipesize_lt).trans_le hxs.length_le

/-- **Pipes are lossless queues** as long as the copies to user memory succeed: the counters differ
by at most `PIPESIZE`, and the bytes stored for readers, followed by those in the buffer, are the
bytes accepted from writers. -/
theorem pipe_lossless (h : Reach (step proc) CopiesOut (start k) tr s) :
    (s.nwrite - s.nread).toNat ≤ PIPESIZE ∧ s.delivered <+: s.accepted ∧
      s.accepted.length = s.delivered.length + (s.nwrite - s.nread).toNat := by
  have hinv : ∃ xs, s.view.Holds xs ∧ s.accepted = s.delivered ++ xs := by
    refine h.state_invariant
      (I := fun s : Pipe T P => ∃ xs, s.view.Holds xs ∧ s.accepted = s.delivered ++ xs)
      ⟨[], ?_, rfl⟩ ?_
    · exact Ring.holds_nil k
    · rintro s a s' ⟨xs, hxs, heq⟩ hG hs
      obtain ⟨xs', hxs', hkeep⟩ := (step_effect hs).holds hxs
      exact ⟨xs', hxs', hkeep (not_not.2 hG) heq⟩
  obtain ⟨xs, hxs, heq⟩ := hinv
  have hsub : (s.nwrite - s.nread).toNat = xs.length := hxs.toNat_sub pipesize_lt
  refine ⟨counters_bounded h, ⟨xs, heq.symm⟩, ?_⟩
  rw [hsub, heq, length_append]

end

/-- A writer and a reader of different processes; the counters wrap around. -/
def twoBytes : List (Act (Fin 2) (Fin 2)) :=
  [.piperead 1 2, .go 1 none true, .go 1 none true, .pipewrite 0 2, .go 0 none true,
    .go 0 (some 97) true, .go 0 (some 98) true, .go 0 none true, .go 1 none true, .go 1 none true,
    .go 1 none true, .go 1 none true]

instance (s : Pipe (Fin 2) (Fin 2)) (a : Act (Fin 2) (Fin 2)) : Decidable (s.CopiesOut a) :=
  match a with
  | .go t _ copyout =>
    match hp : s.pos t, copyout with
    | _, true => .isTrue fun _ _ _ => rfl
    | .copying n i, false => .isFalse fun h => Bool.false_ne_true (h n i hp)
    | .idle, false | .writeCall _, false | .writing _ _, false | .writeSleep _ _, false
    | .writeWoken _ _, false | .readCall _, false | .waiting _, false | .readSleep _, false
    | .readWoken _, false => .isTrue fun _ _ h => nomatch hp.symm.trans h
  | .pipewrite _ _ | .piperead _ _ | .pipeclose _ _ | .kill _ | .rouse _ => .isTrue trivial

theorem pipe_lossless_wrap : ∃ s : Pipe (Fin 2) (Fin 2),
    Reach (step id) CopiesOut (start (-1)) twoBytes.reverse s ∧
    s.nread = 1 ∧ s.accepted = [97, 98] ∧ s.delivered <+: s.accepted := by
  obtain ⟨s, hs, heq⟩ : ∃ s ∈ runWhen (step id) CopiesOut (start (-1)) twoBytes,
      s.nread = 1 ∧ s.accepted = [97, 98] := by decide
  have hreach := reach_of_runWhen hs
  exact ⟨s, hreach, heq.1, heq.2, (pipe_lossless hreach).2.1⟩

/-- The first reader cannot store the first byte; the second byte is the first that is read. -/
theorem pipe_loses_byte : ∃ s : Pipe (Fin 2) (Fin 2),
    Reach (step id) Always (start 0)
      [.go 1 none true, .go 1 none true, .go 1 none true, .piperead 1 1, .go 1 none false,
        .go 1 none true, .go 1 none true, .piperead 1 1, .go 0 none true, .go 0 (some 98) true,
        .go 0 (some 97) true, .go 0 none true, .pipewrite 0 2] s ∧
    s.accepted = [97, 98] ∧ s.delivered = [98] ∧ ¬ s.delivered <+: s.accepted := by
  obtain ⟨s, hs, heq⟩ : ∃ s ∈ run (step id) (start 0) ([.pipewrite 0 2, .go 0 none true,
      .go 0 (some 97) true, .go 0 (some 98) true, .go 0 none true, .piperead 1 1, .go 1 none true,
      .go 1 none true, .go 1 none false, .piperead 1 1, .go 1 none true, .go 1 none true,
      .go 1 none true] : List (Act (Fin 2) (Fin 2))), s.accepted = [97, 98] ∧
      s.delivered = [98] := by decide
  refine ⟨s, reach_always hs, heq.1, heq.2, ?_⟩
  rw [heq.1, heq.2]
  decide

end Xv6.Pipe
