import Xv6.Lib.Run
import Xv6.Proc.Steps

/-!
# Signal handlers are installed as a whole

`sigaction` fills one local `Kact`, first from the table of handlers for `oldact`, then from user
memory for `act`, and looks at the result of neither copy.  Here: exactly if both structures are
there and the first copy does not change the second structure, a call that returns 0 has stored the
old entry and installed the new one.
-/

namespace Xv6

open Transition Segment List BitVec Word Option Function Proc Table

/-! ### What a call is meant to do -/

/-- The entry of a signal. -/
def Proc.entry (p : Proc) (i : Fin 32) : Word × UInt := (p.signalHandlers i, p.signalHandlersMask i)

/-- The handler and the mask that a `struct sigaction` holds. -/
def actionOf (bs : List Byte) : Word × UInt :=
  (ofBytes bs, (ofBytes (bs.drop 8)).setWidth 32)

/-- The bytes of the handler and the mask in a `struct sigaction`; the other four are padding. -/
def actionSize : ℕ := 12

/-- The handler and the mask of a `struct sigaction` at `a` are in user memory. -/
def Mapped (m : UserMem) (a : Word) : Prop :=
  ∀ k < actionSize, m.byte (a + BitVec.ofNat 64 k) ≠ none

/-- The `struct sigaction` at `a` holds the handler and the mask. -/
def Holds (m : UserMem) (a : Word) (e : Word × UInt) : Prop :=
  ∀ k < actionSize, m.byte (a + BitVec.ofNat 64 k) = some ((sigactionBytes e.1 e.2 []).getD k 0)

/-- The signals that `sigaction` refuses. -/
def Refused (signum : ℤ) : Prop := signum < 0 ∨ 31 < signum ∨ signum = 9 ∨ signum = 17

/-- The two structures are there, where asked for, and storing `src` in one of them does not change
the other. -/
structure Copies (m : UserMem) (src : List Byte) (act oldact : Word) : Prop where
  old : oldact ≠ 0 → Mapped m oldact
  new : act ≠ 0 → Mapped m act
  kept : oldact ≠ 0 → act ≠ 0 → ∀ k < actionSize,
    (copyout m oldact src).1.byte (act + BitVec.ofNat 64 k) = m.byte (act + BitVec.ofNat 64 k)

/-- The entry of signal `i` is replaced as a whole. -/
structure Installed (p q : Proc) (m m' : UserMem) (i : Fin 32) (act oldact : Word) : Prop where
  old : oldact ≠ 0 → Holds m' oldact (p.entry i)
  new : if act = 0 then q.entry i = p.entry i else Holds m act (q.entry i)
  others : ∀ j ≠ i, q.entry j = p.entry j

variable {m : UserMem} {act oldact a : Word} {junk : List Byte}

/-! ### The two copies -/

theorem extractLsb_foldr (bs : List Byte) {k : ℕ} (hk : k < 8) :
    (bs.foldr (fun b (w : Word) => w <<< 8 ||| b.setWidth 64) 0).extractLsb' (8 * k) 8 =
      bs.getD k 0 := by
  induction bs generalizing k with
  | nil => simp
  | cons b bs ih =>
    refine eq_of_getLsbD_eq fun j hj => ?_
    simp only [foldr_cons, getLsbD_extractLsb', getLsbD_or,
      getLsbD_shiftLeft, getLsbD_setWidth, hj, decide_true, Bool.true_and]
    cases k with
    | zero => simp [hj, show j < 64 by omega]
    | succ k =>
      have hbit := congrArg (·.getLsbD j) (ih (k := k) (by omega))
      simp only [getLsbD_extractLsb', hj, decide_true, Bool.true_and] at hbit
      rw [show 8 * (k + 1) + j - 8 = 8 * k + j by omega, hbit, getD_cons_succ,
        getLsbD_of_ge b _ (by omega)]
      simp [show 8 * (k + 1) + j < 64 by omega, show ¬ 8 * (k + 1) + j < 8 by omega]

/-- The bytes of an entry that has been read from bytes. -/
theorem getD_sigactionBytes_actionOf (bs : List Byte) {k : ℕ} (hk : k < actionSize) :
    (sigactionBytes (actionOf bs).1 (actionOf bs).2 []).getD k 0 = bs.getD k 0 := by
  have hsize : actionSize = 12 := rfl
  have hbyte : ∀ (cs : List Byte) {j : ℕ}, j < 8 →
      (ofBytes cs).extractLsb' (8 * j) 8 = cs.getD j 0 := fun cs j hj => by
    rw [ofBytes, extractLsb_foldr _ hj]
    simp [hj]
  by_cases h8 : k < 8
  · simp [sigactionBytes, actionOf, bytes, getElem?_append, h8, hbyte bs h8]
  · obtain ⟨j, rfl⟩ := Nat.exists_eq_add_of_le (Nat.not_lt.1 h8)
    have hj := hbyte (bs.drop 8) (show j < 8 by omega)
    have hw : (((ofBytes (bs.drop 8)).setWidth 32).setWidth 64).extractLsb' (8 * j) 8 =
        (ofBytes (bs.drop 8)).extractLsb' (8 * j) 8 := by
      refine eq_of_getLsbD_eq fun i hi => ?_
      simp [hi, show 8 * j + i < 32 by omega, show 8 * j + i < 64 by omega]
    rw [getD_eq_getElem?_getD, getElem?_drop] at hj
    simp [sigactionBytes, actionOf, bytes, getElem?_append, hw, hj, h8,
      show j < 4 by omega]

/-- Bytes that are there lie below `MAXVA`. -/
theorem Mapped.toNat_add (h : Mapped m a) {k : ℕ} (hk : k < actionSize) :
    (a + BitVec.ofNat 64 k).toNat = a.toNat + k := by
  have hlow : (pgRoundDown a).toNat < 2 ^ 38 := by
    have h0 := h 0 (by decide)
    rw [BitVec.add_zero] at h0
    by_contra hmax
    refine h0 ?_
    have hle : MAXVA ≤ pgRoundDown a := by
      rw [le_def]
      exact Nat.not_lt.1 hmax
    rw [UserMem.byte, walkaddr, if_pos hle, map_none]
  have hsize : actionSize = 12 := rfl
  have hPG : PGSIZE = 4096 := rfl
  rw [toNat_pgRoundDown, hPG] at hlow
  rw [BitVec.toNat_add, BitVec.toNat_ofNat]
  omega

theorem Holds.mapped {e : Word × UInt} (h : Holds m a e) : Mapped m a := fun k hk => by
  rw [h k hk]
  exact some_ne_none _

theorem mapped_copyout {bs : List Byte} : Mapped (copyout m oldact bs).1 a ↔ Mapped m a :=
  forall₂_congr fun _ _ => not_congr (byte_copyout_eq_none ..)

/-- A structure that `copyout` has written. -/
theorem holds_copyout {e : Word × UInt} {pad : List Byte} (h : Mapped m a) :
    Holds (copyout m a (sigactionBytes e.1 e.2 pad)).1 a e := by
  intro k hk
  have hsize : actionSize = 12 := rfl
  have hlen : (sigactionBytes e.1 e.2 []).length = 12 := by simp [sigactionBytes, bytes]
  have happ : sigactionBytes e.1 e.2 pad = sigactionBytes e.1 e.2 [] ++ pad := by
    simp [sigactionBytes]
  obtain ⟨c, -, hend, hbyte⟩ := copyoutLoop_spec (sigactionBytes e.1 e.2 pad).length m a
    (sigactionBytes e.1 e.2 pad)
  have hc : 12 ≤ c := by
    by_contra hlt
    refine h c (by omega) (hend le_rfl ?_)
    rw [happ, length_append]
    omega
  rw [copyout, hbyte, h.toNat_add hk, if_pos (by omega), Nat.add_sub_cancel_left, happ,
    getD_eq_getElem?_getD, getElem?_append_left (by omega), getD_eq_getElem?_getD]

/-- The entry that is read from bytes that are there. -/
theorem holds_copyin (rest : List Byte) (h : Mapped m a) :
    Holds m a (actionOf ((copyin m a sigactionSize).1 ++ rest)) := by
  intro k hk
  obtain ⟨c, -, -, hend, hcopy⟩ := copyinLoop_spec m a (Nat.le_refl sigactionSize)
  have hsize : actionSize = 12 := rfl
  have hc : actionSize ≤ c := by
    by_contra hlt
    exact h c (by omega) (hend (by unfold sigactionSize; omega))
  obtain ⟨b, hb⟩ := ne_none_iff_exists'.1 (h k hk)
  have hlen : ∀ f : ℕ → Byte, k < (table c f).length := fun f => by
    rw [length_table]
    omega
  rw [getD_sigactionBytes_actionOf _ hk, copyin, hcopy, getD_eq_getElem?_getD,
    getElem?_append_left (hlen _), List.getElem?_eq_getElem (hlen _), getElem_table, hb]
  rfl

theorem Holds.congr {m' : UserMem} {e : Word × UInt} (h : Holds m' a e) : Holds m a e ↔
    ∀ k < actionSize, m'.byte (a + BitVec.ofNat 64 k) = m.byte (a + BitVec.ofNat 64 k) :=
  forall₂_congr fun k hk => by rw [h k hk, eq_comm]

variable {p : Proc} {signum : ℤ}

/-- What is copied to `oldact`. -/
def Proc.stored (p : Proc) (i : Fin 32) (junk : List Byte) : List Byte :=
  sigactionBytes (p.signalHandlers i) (p.signalHandlersMask i) (junk.drop 12)

theorem sigaction_installed_iff (junk : List Byte) (hm : p.pagetable = some m) {i : Fin 32}
    (hsig : ¬ Refused i.val) :
    ∃ (m' : UserMem) (q : Proc), sigaction p i.val act oldact junk = some (0, q) ∧
      q.pagetable = some m' ∧
      (Installed p q m m' i act oldact ↔ Copies m (p.stored i junk) act oldact) := by
  obtain ⟨m', hm'⟩ : ∃ m', m' =
    if oldact = 0 then m else (copyout m oldact (p.stored i junk)).1 := ⟨_, rfl⟩
  have hmapped : ∀ a, Mapped m' a ↔ Mapped m a := fun a => by
    rw [hm']
    split_ifs
    · rfl
    · exact mapped_copyout
  -- the old entry is stored
  have hold : (oldact ≠ 0 → Holds m' oldact (p.entry i)) ↔ (oldact ≠ 0 → Mapped m oldact) := by
    refine forall_congr' fun h => ⟨fun hh => (hmapped _).1 hh.mapped, fun hh => ?_⟩
    rw [hm', if_neg h]
    exact holds_copyout (e := p.entry i) hh
  unfold sigaction
  rw [dif_neg (by exact hsig), hm]
  simp only [bind_eq_bind, bind_some, Int.toNat_natCast, Fin.eta]
  rw [← stored, ← hm']
  by_cases hact : act = 0
  · rw [if_pos hact]
    refine ⟨m', _, rfl, rfl, fun h => ⟨hold.1 h.old, absurd hact, fun _ => absurd hact⟩,
      fun h => ⟨hold.2 h.old, ?_, fun _ _ => rfl⟩⟩
    rw [if_pos hact]
    rfl
  -- and the new one is what `act` held before the first copy
  have hread : ∀ rest, Mapped m act →
      Holds m' act (actionOf ((copyin m' act sigactionSize).1 ++ rest)) :=
    fun rest h => holds_copyin rest ((hmapped act).2 h)
  rw [if_neg hact]
  refine ⟨m', _, rfl, rfl, fun h => ?_, fun h => ?_⟩
  · have hnew := h.new
    simp only [if_neg hact, entry, update_self] at hnew
    refine ⟨hold.1 h.old, fun _ => hnew.mapped, fun h0 _ => ?_⟩
    rw [if_neg h0] at hm'
    exact hm' ▸ (hread _ hnew.mapped).congr.1 hnew
  · refine ⟨hold.2 h.old, ?_, fun j hj => ?_⟩
    · simp only [if_neg hact, entry, update_self]
      refine (hread _ (h.new hact)).congr.2 ?_
      rw [hm']
      split_ifs with h0
      · exact fun _ _ => rfl
      · exact h.kept h0 hact
    · simp only [entry, update_of_ne hj]

/-! ### The two entries that stay -/

theorem Table.Change.default {s : Table} {a : Act} {q : ProcId} {p p' : Proc}
    (hs : ∀ r, (s.proc r).Default) (hc : Change s a q p p') (h : p.Default) : p'.Default := by
  cases hc with
  | fields _ _ _ _ hdfl => exact hdfl hs h
  | _ => exact h

theorem Table.default_of_reach {k : Pages} {mem : UserMem} {s0 s : Table} {tr : List Act}
    (hboot : userinit k mem = some s0) (h : Reach step Always s0 tr s) :
    ∀ q, (s.proc q).Default := by
  refine h.state_invariant (I := fun s => ∀ q, (s.proc q).Default) ?_ ?_
  · obtain ⟨s, hzero, heff⟩ := userinit_effect hboot
    have hs : ∀ r, (s.proc r).Default := fun r => hzero r ▸ ⟨rfl, rfl⟩
    exact fun q => heff.invariant (fun hc => hc.default hs) (hs q)
  · intro s a s' hs _ hstep q
    exact (step_effect hstep).invariant (fun hc => hc.default hs) (hs q)

/-- **When `sigaction` is atomic:** a signal is refused, or the two structures are there and the
first copy does not change the second one.  In no state of any run does the entry of `SIGKILL` or
`SIGSTOP` differ from the default. -/
theorem sigaction_atomic_iff (junk : List Byte) (hm : p.pagetable = some m) (signum : ℤ)
    (act oldact : Word) :
    (((∃ (i : Fin 32) (m' : UserMem) (q : Proc), signum = i.val ∧
        sigaction p signum act oldact junk = some (0, q) ∧ q.pagetable = some m' ∧
        Installed p q m m' i act oldact) ∨
      ∃ q, sigaction p signum act oldact junk = some (-1, q) ∧ ∀ i, q.entry i = p.entry i) ↔
    Refused signum ∨ ∃ i : Fin 32, signum = i.val ∧ Copies m (p.stored i junk) act oldact) ∧
    ∀ k mem s₀ tr s, userinit k mem = some s₀ → Reach step Always s₀ tr s →
      ∀ q, (s.proc q).signalHandlers SIGKILL = SIG_DFL ∧
        (s.proc q).signalHandlers SIGSTOP = SIG_DFL := by
  refine ⟨?_, fun k mem s₀ tr s hboot h => default_of_reach hboot h⟩
  by_cases hsig : Refused signum
  · refine iff_of_true (.inr ⟨p, ?_, fun _ => rfl⟩) (.inl hsig)
    unfold sigaction
    exact dif_pos hsig
  obtain ⟨i, rfl⟩ : ∃ i : Fin 32, signum = i.val := by
    unfold Refused at hsig
    exact ⟨⟨signum.toNat, by omega⟩, by simp only; omega⟩
  obtain ⟨m', q, hq, hpt, hiff⟩ := sigaction_installed_iff junk hm hsig
  constructor
  · rintro (⟨j, m'', q', hj, hq', hpt', hinst⟩ | ⟨q', hq', -⟩)
    · cases hq.symm.trans hq'
      cases hpt.symm.trans hpt'
      obtain rfl : i = j := by omega
      exact .inr ⟨i, rfl, hiff.1 hinst⟩
    · cases hq.symm.trans hq'
  · rintro (href | ⟨j, hj, hcopies⟩)
    · exact absurd href hsig
    · obtain rfl : i = j := by omega
      exact .inl ⟨i, m', q, rfl, hq, hpt, hiff.2 hcopies⟩

/-- One page of memory, which holds the offsets of its bytes. -/
def offsets : UserMem := fun va => if va = 0 then some fun i => BitVec.ofNat 8 i.val else none

def onePage : Proc := { zero with pagetable := some offsets }

/-- The structure at address 16 is installed, the old entry is stored at address 32. -/
theorem sigaction_atomic_page : ∃ q, sigaction onePage 2 16 32 (List.replicate 16 0) = some (0, q) ∧
    Holds offsets 16 (q.entry 2) := by
  have hcopies : Copies offsets (onePage.stored 2 (List.replicate 16 0)) 16 32 := by
    refine ⟨fun _ => ?_, fun _ => ?_, fun _ _ => ?_⟩ <;> simp only [Mapped, actionSize] <;> decide
  rcases (sigaction_atomic_iff (p := onePage) (List.replicate 16 0) rfl 2 16 32).1.2
    (.inr ⟨2, rfl, hcopies⟩) with ⟨i, m', q, hi, hq, -, h⟩ | ⟨q, hq, -⟩
  · obtain rfl : i = 2 := by omega
    exact ⟨q, hq, h.new⟩
  · have hret : (sigaction onePage 2 16 32 (List.replicate 16 0)).map Prod.fst = some 0 := by decide
    rw [hq] at hret
    cases hret

/-- Two calls that return 0.  With `act` not mapped the entry is what the stack held; with `act` and
`oldact` the same the old entry is installed again, and not what `act` held. -/
theorem sigaction_junk :
    ((sigaction onePage 2 4096 0 (List.replicate 16 0x41)).map fun r => (r.1, r.2.entry 2)) =
      some (0, 0x4141414141414141, 0x41414141) ∧
    ((sigaction onePage 2 16 16 (List.replicate 16 0)).map fun r => (r.1, r.2.entry 2)) =
      some (0, 0, 0) ∧
    Holds offsets 16 (0x1716151413121110, 0x1b1a1918) := by
  unfold Holds actionSize
  decide

end Xv6
