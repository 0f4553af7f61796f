import Xv6.Fork.Model
import Xv6.Vm.Space
import Mathlib.Data.Set.BooleanAlgebra
import Mathlib.Order.CompletePartialOrder

/-!
# The pages of a slot

A slot of the process table owns its trapframe page, the backup pages of its threads and the pages
of its page table.  What the functions of `fork` do to a slot (`Works`) keeps this in order, writes
only to free pages and to pages of the slot, and loses no page: the free pages and those of the slot
are together the same as before.  Hence the pages of the other slots stay as they are.
-/

namespace Xv6.Fork

open Function Vm Outcome Slot List

variable {m m' m'' : Mem} {p p' p'' : Slot} {n n' b r : ℕ}

/-- Where a slot keeps a page. -/
inductive Place
  | frame
  | backup (t : ThreadId)
  | table (P : List Idx)
  deriving DecidableEq

/-- The page that the slot owns at a place. -/
def Slot.own (m : Mem) (p : Slot) : Place → Option ℕ
  | .frame => p.trapframe
  | .backup t => (p.threads t).backup
  | .table P => p.pagetable.bind fun r => tableOwn m r P

theorem own_table (hr : p.pagetable = some r) (P : List Idx) :
    p.own m (.table P) = tableOwn m r P := by
  rw [own, hr, Option.bind_some]

/-- What the slot owns depends on the words of its page-table pages. -/
theorem own_congr (h : ∀ r, p.pagetable = some r → ∀ P b, P.length ≤ 2 → node m r P = some b →
    m'.word b = m.word b) : p.own m' = p.own m := by
  funext a
  cases a with
  | frame | backup t => rfl
  | table P =>
    cases hr : p.pagetable with
    | none => rw [own, own, hr]; rfl
    | some r => rw [own_table hr, own_table hr, tableOwn_congr (h r hr)]

/-- The pages that the slot owns. -/
def Slot.pages (m : Mem) (p : Slot) : Set ℕ := {b | ∃ a, p.own m a = some b}

/-- The free pages and the pages of the slot. -/
def Slot.region (m : Mem) (p : Slot) : Set ℕ := {b | b ∈ m.free ∨ b ∈ p.pages m}

/-- Pages of the allocator. -/
def Managed (m : Mem) (b : ℕ) : Prop := m.kend ≤ b ∧ b < PHYSTOP

/-- The free list. -/
structure Pool (m : Mem) : Prop where
  nodup : m.free.Nodup
  managed : ∀ b ∈ m.free, Managed m b

/-- A slot with `n` pages of user memory. -/
structure SlotOk (m : Mem) (p : Slot) (n : ℕ) : Prop where
  sound : Ownership.Sound (p.own m) fun b => b ∉ m.free ∧ Managed m b
  space : ∀ r, p.pagetable = some r → Space m r n
  idle : ∀ t, (p.threads t).state = .unused → p.threads t = .free
  size : p.sz ≤ TRAPFRAME

theorem SlotOk.not_free (h : SlotOk m p n) (hb : b ∈ p.pages m) : b ∉ m.free := by
  obtain ⟨a, ha⟩ := hb
  exact (h.sound.good a b ha).1

theorem SlotOk.managed (h : SlotOk m p n) (hp : Pool m) (hb : b ∈ p.region m) : Managed m b := by
  rcases hb with hb | ⟨a, ha⟩
  · exact hp.managed b hb
  · exact (h.sound.good a b ha).2

theorem slotOk_free (m : Mem) : SlotOk m .free (npages 0) where
  sound := by
    constructor
    · intro a b h
      cases a <;> cases h
    · intro a c b h
      cases a <;> cases h
  space r h := by cases h
  idle t _ := rfl
  size := Nat.zero_le _

theorem pages_free (m : Mem) : free.pages m = ∅ := by
  ext b
  constructor
  · rintro ⟨a, ha⟩
    cases a <;> cases ha
  · intro h
    cases h

/-- From `p` in memory `m` the slot becomes `p'` in memory `m'`, with `n` pages of user memory. -/
structure Works (m m' : Mem) (p p' : Slot) (n : ℕ) : Prop where
  ok : SlotOk m' p' n
  pool : Pool m'
  conserve : p'.region m' = p.region m
  within : Within m m' (p.region m)

theorem Works.trans (h : Works m m' p p' n) (h' : Works m' m'' p' p'' n') :
    Works m m'' p p'' n' where
  ok := h'.ok
  pool := h'.pool
  conserve := h'.conserve.trans h.conserve
  within := h.within.trans (h.conserve ▸ h'.within)

/-- The pages of the slot after the work are those that are not free. -/
theorem Works.pages_eq (h : Works m m' p p' n) : p'.pages m' = p.region m \ {b | b ∈ m'.free} := by
  rw [← h.conserve]
  ext b
  constructor
  · intro hb
    exact ⟨.inr hb, h.ok.not_free hb⟩
  · rintro ⟨hb | hb, hfree⟩
    · exact absurd hb hfree
    · exact hb

theorem Works.keep (h : SlotOk m p n) (hp : Pool m) (hown : p'.own m = p.own m)
    (htable : p'.pagetable = p.pagetable)
    (hidle : ∀ t, (p'.threads t).state = .unused → p'.threads t = .free)
    (hsize : p'.sz ≤ TRAPFRAME) : Works m m p p' n where
  ok := ⟨hown ▸ h.sound, fun r hr => h.space r (htable ▸ hr), hidle, hsize⟩
  pool := hp
  conserve := by
    unfold Slot.region pages
    rw [hown]
  within := .refl m _

theorem Works.frame {p2 : Slot} {n2 : ℕ} (w : Works m m' p p' n) (h : SlotOk m p2 n2)
    (hd : Disjoint (p.pages m) (p2.pages m)) :
    SlotOk m' p2 n2 ∧ p2.own m' = p2.own m ∧ ∀ b ∈ p2.pages m, m'.word b = m.word b := by
  have hout : ∀ b, b ∈ p2.pages m → b ∉ p.region m := by
    rintro b hb (hfree | hp)
    · exact h.not_free hb hfree
    · exact Set.disjoint_left.1 hd hp hb
  have hfree : ∀ b, b ∈ p2.pages m → b ∉ m'.free := by
    intro b hb hfree
    refine hout b hb ?_
    rw [← w.conserve]
    exact .inl hfree
  have hword : ∀ b ∈ p2.pages m, m'.word b = m.word b := fun b hb => w.within.word b (hout b hb)
  have htree : ∀ r, p2.pagetable = some r → ∀ P b, P.length ≤ 2 → node m r P = some b →
      m'.word b = m.word b := by
    intro r hr P b hP hb
    refine hword b ⟨.table P, ?_⟩
    rw [own_table hr, tableOwn_of_le hP, hb]
  have hown := own_congr htree
  refine ⟨⟨?_, fun r hr => ?_, h.idle, h.size⟩, hown, hword⟩
  · rw [hown]
    refine h.sound.mono (fun _ _ hb => hb) fun a b ha hb => ⟨hfree b ⟨a, ha⟩, ?_⟩
    unfold Managed
    rw [w.within.kend]
    exact hb.2
  · refine (h.space r hr).frame (htree r hr) w.pool.nodup (fun P b hb => hfree b ⟨.table P, ?_⟩)
      (fun b hb => ?_) w.within.kend
    · rw [own_table hr, hb]
    · have hman := w.pool.managed b hb
      unfold Managed at hman
      rwa [w.within.kend] at hman

/-! ### Single pages -/

/-- The rule for the work on a slot: pages move between the free list and the slot, and none is in
two places. -/
theorem Works.of (h : SlotOk m p n) (hp : Pool m) (hw : Within m m' (p.region m))
    (hnd : m'.free.Nodup) (hreg : ∀ c, c ∈ p'.region m' ↔ c ∈ p.region m)
    (hfree : ∀ a c, p'.own m' a = some c → c ∉ m'.free)
    (hinj : ∀ a d c, p'.own m' a = some c → p'.own m' d = some c → a = d)
    (hspace : ∀ r, p'.pagetable = some r → Space m' r n')
    (hidle : ∀ t, (p'.threads t).state = .unused → p'.threads t = .free)
    (hsize : p'.sz ≤ TRAPFRAME) : Works m m' p p' n' := by
  have hman : ∀ c ∈ p'.region m', Managed m' c := fun c hc => by
    unfold Managed
    rw [hw.kend]
    exact h.managed hp ((hreg c).1 hc)
  exact ⟨⟨⟨fun a c hc => ⟨hfree a c hc, hman c (.inr ⟨a, hc⟩)⟩, hinj⟩, hspace, hidle, hsize⟩,
    ⟨hnd, fun c hc => hman c (.inl hc)⟩, Set.ext hreg, hw⟩

/-- The page table stays in order if its pages stay as they are and none becomes free. -/
theorem SlotOk.keeps_space (h : SlotOk m p n) (hp : Pool m) (hr : p.pagetable = some r)
    (hword : ∀ P c, P.length ≤ 2 → node m r P = some c → m'.word c = m.word c)
    (hnd : m'.free.Nodup) (hout : ∀ P c, p.own m (.table P) = some c → c ∉ m'.free)
    (hsub : ∀ c ∈ m'.free, c ∈ p.region m) (hkend : m'.kend = m.kend) : Space m' r n :=
  (h.space r hr).frame hword hnd (fun P c hc => hout P c ((own_table hr P).trans hc))
    (fun c hc => h.managed hp (hsub c hc)) hkend

theorem Works.take {m1 : Mem} (a : Place) (h : SlotOk m p n) (hp : Pool m) (ht : Taken m m1 b)
    (hnone : p.own m a = none) (hown : ∀ m, p'.own m = update (p.own m) a (some b))
    (htable : p'.pagetable = p.pagetable)
    (hidle : ∀ t, (p'.threads t).state = .unused → p'.threads t = .free)
    (hsize : p'.sz ≤ TRAPFRAME) : Works m m1 p p' n := by
  have hb : ∀ d, p.own m d ≠ some b := fun d hd => h.not_free ⟨d, hd⟩ ht.mem
  have hmem : ∀ c, c ∈ m.free ↔ c = b ∨ c ∈ m1.free := fun c => by rw [ht.free, mem_cons]
  have hnd : m1.free.Nodup := (nodup_cons.1 (ht.free ▸ hp.nodup)).2
  have htree : ∀ r, p.pagetable = some r → ∀ P c, P.length ≤ 2 → node m r P = some c →
      m1.word c = m.word c := by
    intro r hr P c hP hc
    refine ht.word ?_
    rintro rfl
    exact hb (.table P) (by rw [own_table hr, tableOwn_of_le hP, hc])
  have hout : ∀ d c, p.own m d = some c → c ∉ m1.free := fun d c hd hc =>
    h.not_free ⟨d, hd⟩ ((hmem c).2 (.inr hc))
  have hown' : p'.own m1 = update (p.own m) a (some b) := by rw [hown, own_congr htree]
  have hsound : Ownership.Sound (p'.own m1) fun c => c ∉ m1.free := hown' ▸
    Ownership.Sound.grant ⟨hout, h.sound.exclusive⟩ hb (fun _ hc => hc) (ht.not_free hp.nodup) a
  refine .of h hp (ht.within.mono fun c hc => hc ▸ .inl ht.mem) hnd (fun c => ?_) hsound.good
    hsound.exclusive (fun r hr => ?_) hidle hsize
  · change (c ∈ m1.free ∨ ∃ d, p'.own m1 d = some c) ↔ (c ∈ m.free ∨ ∃ d, p.own m d = some c)
    rw [hown', Ownership.exists_grant hnone, hmem, or_assoc, or_left_comm]
  · rw [htable] at hr
    exact h.keeps_space hp hr (htree r hr) hnd (fun P => hout _)
      (fun c hc => .inl ((hmem c).2 (.inr hc))) ht.within.kend

theorem Works.give {m1 : Mem} (a : Place) (ha : ∀ P, a ≠ .table P) (h : SlotOk m p n) (hp : Pool m)
    (hb : p.own m a = some b) (hg : Given m m1 b)
    (hown : ∀ m, p'.own m = update (p.own m) a none) (htable : p'.pagetable = p.pagetable)
    (hidle : ∀ t, (p'.threads t).state = .unused → p'.threads t = .free)
    (hsize : p'.sz ≤ TRAPFRAME) : Works m m1 p p' n := by
  have hmem : ∀ c, c ∈ m1.free ↔ c = b ∨ c ∈ m.free := fun c => by rw [hg.free, mem_cons]
  have hnd : m1.free.Nodup := hg.free ▸ nodup_cons.2 ⟨h.not_free ⟨a, hb⟩, hp.nodup⟩
  -- no other place owns the page, nor is it free
  have hout : ∀ d c, p.own m d = some c → d ≠ a → c ∉ m1.free := by
    intro d c hd hne hc
    rcases (hmem c).1 hc with rfl | hc
    · exact hne (h.sound.exclusive d a c hd hb)
    · exact h.not_free ⟨d, hd⟩ hc
  have htree : ∀ r, p.pagetable = some r → ∀ P c, P.length ≤ 2 → node m r P = some c →
      m1.word c = m.word c := by
    intro r hr P c hP hc
    refine hg.within.word c fun hcb => ?_
    exact hout (.table P) c (by rw [own_table hr, tableOwn_of_le hP, hc]) (ha P).symm
      ((hmem c).2 (.inl hcb))
  have hown' : p'.own m1 = update (p.own m) a none := by rw [hown, own_congr htree]
  have hnone : p'.own m1 a = none := by rw [hown', update_self]
  have hback : p.own m = update (p'.own m1) a (some b) := by
    rw [hown', update_idem, ← hb, update_eq_self]
  have hleft : ∀ d c, p'.own m1 d = some c → d ≠ a ∧ p.own m d = some c := by
    intro d c hd
    have hda : d ≠ a := by
      rintro rfl
      rw [hnone] at hd
      cases hd
    rw [hback, update_of_ne hda]
    exact ⟨hda, hd⟩
  refine .of h hp (hg.within.mono fun c hc => hc ▸ .inr ⟨a, hb⟩) hnd (fun c => ?_)
    (fun d c hd => hout d c (hleft d c hd).2 (hleft d c hd).1)
    (fun d e c hd he => h.sound.exclusive d e c (hleft d c hd).2 (hleft e c he).2) (fun r hr => ?_)
    hidle hsize
  · change (c ∈ m1.free ∨ ∃ d, p'.own m1 d = some c) ↔ (c ∈ m.free ∨ ∃ d, p.own m d = some c)
    rw [hback, Ownership.exists_grant hnone, hmem, or_assoc, or_left_comm]
  · rw [htable] at hr
    refine h.keeps_space hp hr (htree r hr) hnd (fun P c hc => hout _ c hc (ha P).symm)
      (fun c hc => ?_) hg.within.kend
    rcases (hmem c).1 hc with rfl | hc
    · exact .inr ⟨a, hb⟩
    · exact .inl hc

/-! ### The page table -/

theorem Place.table_or (a : Place) : (∃ P, a = .table P) ∨ ∀ P, a ≠ .table P := by
  cases a with
  | table P => exact .inl ⟨P, rfl⟩
  | frame | backup t => exact .inr fun P => by simp

theorem own_of_not_table {a : Place} (ha : ∀ P, a ≠ .table P) (o : Option ℕ) :
    own m' { p with pagetable := o } a = p.own m a := by
  cases a with
  | frame | backup t => rfl
  | table P => exact absurd rfl (ha P)

/-- The page table is made, or changed, out of the free pages and those of the page table. -/
theorem Works.retable (h : SlotOk m p n) (hspace : Space m' r n')
    (hreg : ∀ c, c ∈ Vm.region m' r ↔ c ∈ m.free ∨ ∃ P, p.own m (.table P) = some c)
    (hw : Within m m' (Vm.region m' r)) : Works m m' p { p with pagetable := some r } n' := by
  have htable : ∀ P, own m' { p with pagetable := some r } (.table P) = tableOwn m' r P :=
    fun P => own_table rfl P
  have hin : ∀ c ∈ Vm.region m' r, c ∈ p.region m := fun c hc =>
    ((hreg c).1 hc).imp_right fun ⟨P, hP⟩ => ⟨_, hP⟩
  -- what the slot owns elsewhere is not in the tree
  have hout : ∀ a c, (∀ P, a ≠ .table P) → p.own m a = some c → c ∉ Vm.region m' r := by
    intro a c ha hc hmem
    rcases (hreg c).1 hmem with hfree | ⟨P, hP⟩
    · exact (h.sound.good a c hc).1 hfree
    · exact ha P (h.sound.exclusive a _ c hc hP)
  have hcase : ∀ a c, own m' { p with pagetable := some r } a = some c →
      (∃ P, a = .table P ∧ tableOwn m' r P = some c) ∨ (∀ P, a ≠ .table P) ∧
      p.own m a = some c := by
    intro a c hc
    rcases a.table_or with ⟨P, rfl⟩ | ha
    · exact .inl ⟨P, rfl, (htable P).symm.trans hc⟩
    · exact .inr ⟨ha, (own_of_not_table ha _).symm.trans hc⟩
  have hman : ∀ c, c ∈ p.region m → Managed m' c := fun c hc => by
    by_cases hmem : c ∈ Vm.region m' r
    · exact hspace.managed c hmem
    · rcases hc with hfree | ⟨a, ha⟩
      · exact absurd ((hreg c).2 (.inl hfree)) hmem
      · unfold Managed
        rw [hw.kend]
        exact (h.sound.good a c ha).2
  refine ⟨⟨⟨fun a c hc => ?_, fun a d c ha hd => ?_⟩, fun r' hr' => ?_, h.idle, h.size⟩,
    ⟨hspace.ok.nodup, fun c hc => hspace.managed c (.inl hc)⟩, Set.ext fun c => ⟨?_, ?_⟩,
    hw.mono hin⟩
  · rcases hcase a c hc with ⟨P, rfl, hP⟩ | ⟨ha, hc⟩
    · exact ⟨hspace.ok.sound.good P c hP, hspace.managed c (.inr ⟨P, hP⟩)⟩
    · exact ⟨fun hfree => hout a c ha hc (.inl hfree), hman c (.inr ⟨a, hc⟩)⟩
  · rcases hcase a c ha with ⟨P, rfl, hP⟩ | ⟨hat, ha⟩ <;>
      rcases hcase d c hd with ⟨Q, rfl, hQ⟩ | ⟨hdt, hd⟩
    · rw [hspace.ok.sound.exclusive P Q c hP hQ]
    · exact absurd (.inr ⟨P, hP⟩) (hout d c hdt hd)
    · exact absurd (.inr ⟨Q, hQ⟩) (hout a c hat ha)
    · exact h.sound.exclusive a d c ha hd
  · cases hr'
    exact hspace
  · rintro (hfree | ⟨a, ha⟩)
    · exact hin c (.inl hfree)
    · rcases hcase a c ha with ⟨P, -, hP⟩ | ⟨-, ha⟩
      · exact hin c (.inr ⟨P, hP⟩)
      · exact .inr ⟨a, ha⟩
  · have hback : c ∈ Vm.region m' r → c ∈ Slot.region m' { p with pagetable := some r } := fun hc =>
      hc.imp_right fun ⟨P, hP⟩ => ⟨_, (htable P).trans hP⟩
    rintro (hfree | ⟨a, ha⟩)
    · exact hback ((hreg c).2 (.inl hfree))
    · rcases a.table_or with ⟨P, rfl⟩ | hat
      · exact hback ((hreg c).2 (.inr ⟨P, ha⟩))
      · exact .inr ⟨a, (own_of_not_table hat _).trans ha⟩

/-- Free pages are taken and given back, by a slot without a page table. -/
theorem Works.shuffle (h : SlotOk m p n) (hp : Pool m) (hr : p.pagetable = none)
    (hw : Within m m' {b | b ∈ m.free}) (hnd : m'.free.Nodup)
    (hfree : ∀ b, b ∈ m'.free ↔ b ∈ m.free) : Works m m' p p n := by
  have hown : p.own m' = p.own m := own_congr fun r hr' => by rw [hr] at hr'; cases hr'
  refine .of h hp (hw.mono fun b hb => .inl hb) hnd (fun c => ?_) (fun a c hc => ?_) ?_
    (fun r hr' => by rw [hr] at hr'; cases hr') h.idle h.size
  · unfold Slot.region pages
    simp only [hown, hfree]
  · rw [hown] at hc
    rw [hfree]
    exact h.not_free ⟨a, hc⟩
  · rw [hown]
    exact h.sound.exclusive

theorem Works.fill {P : List Idx} (h : SlotOk m p n) (hp : Pool m) (hr : p.pagetable = some r)
    (hP : P.length = 3) (hb : tableOwn m r P = some b) (f : Idx → Pte) :
    Works m { m with word := update m.word b f } p p n := by
  have hspace := h.space r hr
  have hword : ∀ Q c, Q.length ≤ 2 → node m r Q = some c →
      update m.word b f c = m.word c := by
    intro Q c hQ hc
    refine update_of_ne ?_ ..
    rintro rfl
    have hPQ := hspace.ok.sound.exclusive P Q c hb ((tableOwn_of_le hQ).trans hc)
    rw [hPQ] at hP
    omega
  have hown : p.own { m with word := update m.word b f } = p.own m := by
    refine own_congr fun r' hr' => ?_
    rw [hr] at hr'
    cases hr'
    exact hword
  refine ⟨⟨hown ▸ h.sound, fun r' hr' => ?_, h.idle, h.size⟩, ⟨hp.nodup, hp.managed⟩, ?_, ?_⟩
  · rw [hr] at hr'
    cases hr'
    exact hspace.frame hword hp.nodup (fun P c hc => hspace.ok.sound.good P c hc) hp.managed rfl
  · unfold Slot.region pages
    rw [hown]
  · exact .update (.inr ⟨.table P, (own_table hr P).trans hb⟩) rfl rfl rfl

theorem Works.untable (h : SlotOk m p n) (hp : Pool m) (hr : p.pagetable = some r)
    (ht : TreeFreed m m' r) (n' : ℕ) : Works m m' p { p with pagetable := none } n' := by
  have hreg : ∀ c, c ∈ m'.free ↔ c ∈ m.free ∨ ∃ P, p.own m (.table P) = some c := fun c => by
    rw [ht.free, mem_region]
    simp only [own_table hr]
  have hleft : ∀ a c, own m' { p with pagetable := none } a = some c →
      (∀ P, a ≠ .table P) ∧ p.own m a = some c := by
    intro a c ha
    cases a with
    | frame | backup t => exact ⟨fun P => by simp, ha⟩
    | table P => cases ha
  refine .of h hp (ht.within.mono fun c hc => ?_) ht.nodup (fun c => ⟨?_, ?_⟩)
    (fun a c ha hfree => ?_)
    (fun a d c ha hd => h.sound.exclusive a d c (hleft a c ha).2 (hleft d c hd).2) nofun
    h.idle h.size
  · exact ((hreg c).1 ((ht.free c).2 hc)).imp_right fun ⟨P, hP⟩ => ⟨_, hP⟩
  · rintro (hfree | ⟨a, ha⟩)
    · exact ((hreg c).1 hfree).imp_right fun ⟨P, hP⟩ => ⟨_, hP⟩
    · exact .inr ⟨a, (hleft a c ha).2⟩
  · rintro (hfree | ⟨a, ha⟩)
    · exact .inl ((hreg c).2 (.inl hfree))
    · rcases a.table_or with ⟨P, rfl⟩ | hat
      · exact .inl ((hreg c).2 (.inr ⟨P, ha⟩))
      · exact .inr ⟨a, (own_of_not_table hat _).trans ha⟩
  · obtain ⟨hat, ha⟩ := hleft a c ha
    rcases (hreg c).1 hfree with hfree | ⟨P, hP⟩
    · exact h.not_free ⟨a, ha⟩ hfree
    · exact hat P (h.sound.exclusive a _ c ha hP)

/-! ### `freeproc` -/

theorem own_setThread (m : Mem) (p : Slot) (t : ThreadId) (th : Thread) :
    (p.setThread t th).own m = update (p.own m) (.backup t) th.backup := by
  funext a
  cases a with
  | frame | table P => rfl
  | backup u =>
    by_cases hu : u = t
    · subst hu
      simp [own, setThread]
    · simp [own, setThread, hu]

theorem idle_setThread {t : ThreadId} {th : Thread} (h : SlotOk m p n)
    (hth : th.state = .unused → th = .free) (u : ThreadId)
    (hu : ((p.setThread t th).threads u).state = .unused) :
    (p.setThread t th).threads u = .free := by
  unfold setThread at hu ⊢
  by_cases hut : u = t
  · subst hut
    simp only [update_self] at hu ⊢
    exact hth hu
  · simp only [update_of_ne hut] at hu ⊢
    exact h.idle u hu

/-- `freethread` of a thread of the slot. -/
theorem freethread_ok (h : SlotOk m p n) (hp : Pool m) (t : ThreadId) :
    ∃ m', kfreeIf m (p.threads t).backup = .ok m' ∧ Works m m' p (p.setThread t .free) n := by
  have hidle := idle_setThread (t := t) (p := p) h (fun _ => rfl : Thread.free.state = .unused → _)
  cases hb : (p.threads t).backup with
  | none =>
    refine ⟨m, rfl, .keep h hp ?_ rfl hidle h.size⟩
    rw [own_setThread]
    exact update_eq_self_iff.2 hb.symm
  | some b =>
    have hown : p.own m (.backup t) = some b := hb
    obtain ⟨m1, hm1, hg⟩ := kfree_ok (h.sound.good _ b hown).2
    exact ⟨m1, hm1, .give (.backup t) (fun P => by simp) h hp hown hg
      (fun m => own_setThread m p t .free) rfl hidle h.size⟩

theorem freeThreads_ok (ts : List ThreadId) (h : SlotOk m p n) (hp : Pool m)
    (hrun : ∀ t, (p.threads t).state ≠ .running) :
    ∃ m' threads, freeThreads ts m p.threads = .ok (m', threads) ∧
      Works m m' p { p with threads := threads } n ∧
      (∀ t ∈ ts, threads t = .free) ∧ ∀ t, threads t = p.threads t ∨ threads t = .free := by
  induction ts generalizing m p with
  | nil => exact ⟨m, p.threads, rfl, .keep h hp rfl rfl h.idle h.size, by simp, fun _ => .inl rfl⟩
  | cons t ts ih =>
    by_cases hst : (p.threads t).state = .unused
    · -- nothing to free
      obtain ⟨m', threads, hm', hw, hfree, hor⟩ := ih h hp hrun
      refine ⟨m', threads, ?_, hw, fun u hu => ?_, hor⟩
      · rw [freeThreads, if_neg (fun hc => hc.1 hst), hm']
      · rcases mem_cons.1 hu with rfl | hu
        · rcases hor u with hu | hu
          · rw [hu, h.idle u hst]
          · exact hu
        · exact hfree u hu
    · obtain ⟨m1, hm1, hw1⟩ := freethread_ok h hp t
      have hrun1 : ∀ u, ((p.setThread t .free).threads u).state ≠ .running := by
        intro u
        unfold setThread
        by_cases hu : u = t
        · subst hu
          simp [Thread.free]
        · simp only [update_of_ne hu]
          exact hrun u
      obtain ⟨m', threads, hm', hw, hfree, hor⟩ := ih hw1.ok hw1.pool hrun1
      refine ⟨m', threads, ?_, hw1.trans hw, fun u hu => ?_, fun u => ?_⟩
      · rw [freeThreads, if_pos ⟨hst, hrun t⟩, hm1, ok_bind]
        exact hm'
      · rcases mem_cons.1 hu with rfl | hu
        · rcases hor u with hu | hu
          · rw [hu]
            exact update_self ..
          · exact hu
        · exact hfree u hu
      · rcases hor u with hu | hu
        · rw [hu]
          unfold setThread
          by_cases hut : u = t
          · subst hut
            exact .inr (update_self ..)
          · exact .inl (update_of_ne hut ..)
        · exact .inr hu

theorem freeFrame_ok (h : SlotOk m p n) (hp : Pool m) :
    ∃ m', kfreeIf m p.trapframe = .ok m' ∧ Works m m' p { p with trapframe := none } n := by
  cases hb : p.trapframe with
  | none =>
    refine ⟨m, rfl, .keep h hp ?_ rfl h.idle h.size⟩
    funext a
    cases a with
    | frame => exact hb.symm
    | backup t | table P => rfl
  | some b =>
    have hown : p.own m .frame = some b := hb
    obtain ⟨m1, hm1, hg⟩ := kfree_ok (h.sound.good _ b hown).2
    refine ⟨m1, hm1, .give .frame (fun P => by simp) h hp hown hg (fun m => ?_) rfl h.idle h.size⟩
    funext a
    cases a with
    | frame | backup t | table P => rfl

theorem freeTable_ok (h : SlotOk m p (npages p.sz)) (hp : Pool m) (n : ℕ) :
    ∃ m', freeTable m p = .ok m' ∧ Works m m' p { p with pagetable := none } n := by
  unfold freeTable
  cases hr : p.pagetable with
  | none =>
    have hown : own m { p with pagetable := none } = p.own m := by
      funext a
      cases a with
      | frame | backup t => rfl
      | table P => simp [own, hr]
    have hk := Works.keep h hp hown hr.symm h.idle h.size
    refine ⟨m, rfl, ⟨hk.ok.sound, fun r hr' => ?_, h.idle, h.size⟩, hp, hk.conserve, hk.within⟩
    cases hr'
  | some r =>
    obtain ⟨m1, hm1, ht⟩ := (h.space r hr).free
    exact ⟨m1, hm1, .untable h hp hr ht n⟩

/-- **`freeproc`** gives back all pages of a slot none of whose threads runs. -/
theorem freeproc_ok (h : SlotOk m p (npages p.sz)) (hp : Pool m)
    (hrun : ∀ t, (p.threads t).state ≠ .running) :
    ∃ m', freeproc m p = .ok (m', .free) ∧ Works m m' p .free (npages 0) := by
  obtain ⟨m1, threads, hm1, hw1, hfree, -⟩ := freeThreads_ok (finRange NTHREAD) h hp hrun
  have hthreads : threads = fun _ => .free := funext fun t => hfree t (mem_finRange t)
  subst hthreads
  obtain ⟨m2, hm2, hw2⟩ := freeFrame_ok hw1.ok hw1.pool
  obtain ⟨m3, hm3, hw3⟩ := freeTable_ok hw2.ok hw2.pool (npages 0)
  have hw4 : Works m3 m3 { p with threads := fun _ => .free, trapframe := none, pagetable := none }
      .free (npages 0) := by
    refine .keep hw3.ok hw3.pool ?_ rfl (fun _ _ => rfl) (Nat.zero_le _)
    funext a
    cases a <;> rfl
  have hm3 : freeTable m2 p = .ok m3 := hm3
  refine ⟨m3, ?_, ((hw1.trans hw2).trans hw3).trans hw4⟩
  rw [freeproc, hm1, ok_bind]
  simp only [hm2, ok_bind, hm3]
  rfl

theorem freeThreads_free (ts : List ThreadId) (m : Mem) :
    freeThreads ts m (fun _ => .free) = .ok (m, fun _ => .free) := by
  induction ts with
  | nil => rfl
  | cons t ts ih => rw [freeThreads, if_neg (fun hc => hc.1 rfl), ih]

/-- `freeproc` of a free slot does nothing. -/
theorem freeproc_free (m : Mem) : freeproc m .free = .ok (m, .free) := by
  unfold freeproc
  rw [show free.threads = fun _ => .free from rfl, freeThreads_free, ok_bind]
  rfl

/-! ### The whole table -/

/-- The slots own different pages; slot `q` has `n q` pages of user memory. -/
structure MemOk (m : Mem) (slot : ProcId → Slot) (n : ProcId → ℕ) : Prop where
  pool : Pool m
  ok : ∀ q, SlotOk m (slot q) (n q)
  disjoint : ∀ q r, q ≠ r → Disjoint ((slot q).pages m) ((slot r).pages m)

/-- The work on one slot keeps the table in order, and leaves the pages of the others alone. -/
theorem MemOk.work {slot : ProcId → Slot} {n : ProcId → ℕ} (h : MemOk m slot n) (q : ProcId)
    {n' : ℕ} (w : Works m m' (slot q) p' n') :
    MemOk m' (update slot q p') (update n q n') ∧
      ∀ r, r ≠ q → (slot r).own m' = (slot r).own m ∧
        ∀ b ∈ (slot r).pages m, m'.word b = m.word b := by
  have hframe := fun r (hr : r ≠ q) => w.frame (h.ok r) (h.disjoint q r hr.symm)
  have hpages : ∀ r, r ≠ q → (slot r).pages m' = (slot r).pages m := fun r hr => by
    unfold pages
    rw [(hframe r hr).2.1]
  have hd : ∀ r, r ≠ q → Disjoint (p'.pages m') ((slot r).pages m') := by
    intro r hr
    rw [hpages r hr, Set.disjoint_left]
    intro b hb hb'
    have hreg : b ∈ (slot q).region m := by
      rw [← w.conserve]
      exact .inr hb
    rcases hreg with hfree | hq
    · exact (h.ok r).not_free hb' hfree
    · exact Set.disjoint_left.1 (h.disjoint q r hr.symm) hq hb'
  refine ⟨⟨w.pool, fun r => ?_, fun r r' hne => ?_⟩, fun r hr => (hframe r hr).2⟩
  · by_cases hr : r = q
    · subst hr
      rw [update_self, update_self]
      exact w.ok
    · rw [update_of_ne hr, update_of_ne hr]
      exact (hframe r hr).1
  · by_cases hr : r = q <;> by_cases hr' : r' = q
    · exact absurd (hr.trans hr'.symm) hne
    · subst hr
      rw [update_self, update_of_ne hr']
      exact hd r' hr'
    · subst hr'
      rw [update_self, update_of_ne hr]
      exact (hd r hr).symm
    · rw [update_of_ne hr, update_of_ne hr', hpages r hr, hpages r' hr']
      exact h.disjoint r r' hne

end Xv6.Fork
