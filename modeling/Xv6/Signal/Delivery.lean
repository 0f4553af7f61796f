import Xv6.Signal.RoundTrip

/-!
# What the delivery of a signal writes to user memory

`userhandler` copies two things to the user's stack: the saved frame and the stub that calls
`sigret`.  The stub goes below the frame, where `sp` points after it has been lowered twice.  The
frame is copied to the `sp` of the backup, which `handle_pendding_sinals` took before `sp` was
lowered: it overwrites the stack of the interrupted program from its `sp` on upwards.
-/

namespace Xv6

open Option BitVec

variable {gaps : List UInt} {late : UInt} {stub : List Byte} {p p₁ q : Proc} {t : ThreadId}
  {F : Trapframe} {i : Fin 32} {m : UserMem}

theorem userhandler_memory (hF : (p.threads t).trapframe = some F) (hm : p.pagetable = some m)
    (hdeliver : handlePenddingSinals gaps p t = .done (some i) p₁)
    (huser : userhandler stub (p₁.arrive late) t i = some q) :
    q.pagetable = some (copyout
      (copyout m F.sp { F with sp := F.sp - BitVec.ofNat 64 trapframeSize }.bytes).1
      (F.sp - BitVec.ofNat 64 trapframeSize - BitVec.ofNat 64 stub.length) stub).1 := by
  obtain ⟨-, -, f, hf, hp1⟩ := handle_deliver hdeliver
  obtain rfl : F = f := some.inj (hF.symm.trans hf)
  obtain ⟨g, hg, huser⟩ := bind_eq_some_iff.1 huser
  obtain ⟨b, hb, huser⟩ := bind_eq_some_iff.1 huser
  obtain ⟨m', hm', huser⟩ := bind_eq_some_iff.1 huser
  have hthread : (p₁.arrive late).threads t =
      { p.threads t with userTrapFrameBackup := some F } := by
    rw [hp1]
    simp [Proc.arrive]
  rw [hthread] at hg hb
  obtain rfl : F = g := some.inj (hF.symm.trans hg)
  obtain rfl : F = b := some.inj hb
  have hpt : (p₁.arrive late).pagetable = some m := by
    rw [hp1]
    exact hm
  obtain rfl : m = m' := some.inj (hpt.symm.trans hm')
  cases huser
  rfl

/-- The stub is copied to below the interrupted stack pointer. -/
theorem byte_copyout_stub (m : UserMem) {sp va : Word} (hstub : stub.length ≤ 8) (hva : sp ≤ va) :
    (copyout m (sp - BitVec.ofNat 64 trapframeSize - BitVec.ofNat 64 stub.length) stub).1.byte va =
      m.byte va := by
  set dst := sp - BitVec.ofNat 64 trapframeSize - BitVec.ofNat 64 stub.length with hdst
  have hsp := sp.isLt
  have hva' : sp.toNat ≤ va.toNat := hva
  have htoNat : dst.toNat = (sp.toNat + 2 ^ 64 - trapframeSize - stub.length) % 2 ^ 64 := by
    rw [hdst, toNat_sub, toNat_sub, toNat_ofNat, toNat_ofNat,
      trapframeSize]
    omega
  rw [trapframeSize] at htoNat
  by_cases hwrap : sp.toNat < 288 + stub.length
  · -- the destination has wrapped around, and is above all user memory
    have hnone : walkaddr m (pgRoundDown dst) = none := by
      refine if_pos ?_
      rw [le_def, toNat_pgRoundDown]
      have hmax : MAXVA.toNat = 2 ^ 38 := rfl
      have hPG : PGSIZE = 4096 := rfl
      rw [hmax, hPG]
      omega
    rw [copyout_of_none stub hnone]
  · refine byte_copyout (.inr ?_)
    omega

/-- **Delivery and live memory.** If the page of the interrupted stack pointer is not there, the
delivery of a signal to a user handler changes no user byte at or above that stack pointer. -/
theorem delivery_keeps_live_memory (hF : (p.threads t).trapframe = some F)
    (hm : p.pagetable = some m) (hstub : stub.length ≤ 8)
    (hdeliver : handlePenddingSinals gaps p t = .done (some i) p₁)
    (huser : userhandler stub (p₁.arrive late) t i = some q)
    (hpage : walkaddr m (pgRoundDown F.sp) = none) :
    ∃ m', q.pagetable = some m' ∧ ∀ va, F.sp ≤ va → m'.byte va = m.byte va := by
  refine ⟨_, userhandler_memory hF hm hdeliver huser, fun va hva => ?_⟩
  rw [byte_copyout_stub _ hstub hva, copyout_of_none _ hpage]

/-- The delivery of a signal, with no signal arriving meanwhile: the signal, and the process
before and after `userhandler`. -/
def deliver (stub : List Byte) (p : Proc) (t : ThreadId) : Option (Fin 32 × Proc × Proc) :=
  match handlePenddingSinals [] p t with
  | .done (some i) p₁ => (userhandler stub (p₁.arrive 0) t i).map fun q => (i, p₁, q)
  | _ => none

theorem deliver_eq_some (h : deliver stub p t = some (i, p₁, q)) :
    handlePenddingSinals [] p t = .done (some i) p₁ ∧
      userhandler stub (p₁.arrive 0) t i = some q := by
  unfold deliver at h
  split at h
  next hdeliver =>
    obtain ⟨q', huser, heq⟩ := map_eq_some_iff.1 h
    cases heq
    exact ⟨hdeliver, huser⟩
  · cases h

/-- The process of `interrupted 5` with its stack pointer at `sp`; the page at 0x1000 is mapped. -/
def interruptedAt (sp : Word) : Proc :=
  (interrupted 5).setFrame 0 { interruptedFrame 5 with sp }

/-- The stack pointer is in the page below the mapped one, which is not there. -/
theorem delivery_keeps_live_memory_below : ∃ i p₁ q m m',
    handlePenddingSinals [] (interruptedAt 0xf00) 0 = .done (some i) p₁ ∧
    userhandler quietReturn.stub (p₁.arrive 0) 0 i = some q ∧
    (interruptedAt 0xf00).pagetable = some m ∧ q.pagetable = some m' ∧
    m.byte 0x1000 = some 0 ∧ m'.byte 0x1000 = some 0 := by
  have hrun : ((deliver quietReturn.stub (interruptedAt 0xf00) 0).map fun x => x.1) = some 1 := by
    decide
  obtain ⟨⟨i, p₁, q⟩, hx, -⟩ := map_eq_some_iff.1 hrun
  obtain ⟨hdeliver, huser⟩ := deliver_eq_some hx
  obtain ⟨m', hm', hsame⟩ := delivery_keeps_live_memory
    (F := { interruptedFrame 5 with sp := 0xf00 }) rfl rfl (by decide) hdeliver huser (by decide)
  refine ⟨i, p₁, q, _, m', hdeliver, huser, rfl, hm', by decide, ?_⟩
  rw [hsame _ (by decide)]
  decide

/-- A byte of the interrupted stack, 48 above `sp`, is overwritten with a byte of the frame. -/
theorem delivery_overwrites_stack : ∃ i p₁ q m m',
    handlePenddingSinals [] (interruptedAt 0x1800) 0 = .done (some i) p₁ ∧
    userhandler quietReturn.stub (p₁.arrive 0) 0 i = some q ∧
    (interruptedAt 0x1800).pagetable = some m ∧ q.pagetable = some m' ∧
    ((interruptedAt 0x1800).threads 0).trapframe.map (fun f => f.sp) = some 0x1800 ∧
    m.byte 0x1830 = some 0 ∧ m'.byte 0x1830 = some 0xe0 := by
  have hrun : ((deliver quietReturn.stub (interruptedAt 0x1800) 0).bind fun x =>
      x.2.2.pagetable.bind fun m' => m'.byte 0x1830) = some 0xe0 := by
    decide +kernel
  obtain ⟨⟨i, p₁, q⟩, hx, hmem⟩ := bind_eq_some_iff.1 hrun
  obtain ⟨m', hm', hbyte⟩ := bind_eq_some_iff.1 hmem
  obtain ⟨hdeliver, huser⟩ := deliver_eq_some hx
  exact ⟨i, p₁, q, _, m', hdeliver, huser, rfl, hm', rfl, by decide, hbyte⟩

end Xv6
