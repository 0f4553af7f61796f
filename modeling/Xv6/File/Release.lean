import Xv6.File.Invariant
import Xv6.Lib.Run

/-!
# References are released once

Every careful step keeps the invariant, so in a careful run no function meets a null pointer or a
counter below one, and when a process has exited its references are gone, each counted down once.
-/

namespace Xv6.Files

open Function Transition State List Option Place
open Tally

variable {s s' : State} {t : ThreadId} {p : Pc} {k : Place} {f : FileId} {i : InodeId}

/-! ### The steps keep the invariant -/

attribute [local simp] Pc.fileWeight Pc.inodeWeight Pc.closing Pc.putting Pc.place Place.uncounted
  keeps stale

theorem place_here (hpc : s.pc t = .here k) : s.place t = k := by
  unfold place
  rw [hpc]
  rfl

theorem nextFd_spec (fd : Fd) :
    (∃ fd', nextFd fd = some fd' ∧ ∀ x, x < fd' ↔ x ≤ fd) ∨ nextFd fd = none ∧ ∀ x, x ≤ fd := by
  unfold nextFd
  split_ifs with h
  · exact .inl ⟨_, rfl, fun x => by rw [Fin.lt_def, Fin.le_def]; exact Nat.lt_succ_iff⟩
  · refine .inr ⟨rfl, fun x => ?_⟩
    have hx := x.isLt
    rw [Fin.le_def]
    omega

/-- A place in `exit` between two descriptors, or after them. -/
def Place.Between (k : Place) : Prop := (∃ fd, k = .exitTest fd) ∨ k = .exitCwd

theorem exitNext_between (fd : Fd) : (exitNext fd).Between := by
  unfold exitNext
  split
  · exact .inl ⟨_, rfl⟩
  · exact .inr rfl

/-- The next turn of the loop in `exit`, when the descriptors so far are free. -/
theorem exitNext_fits {fd : Fd} (hbelow : ∀ x ≤ fd, s.ofile x = none) : (exitNext fd).Fits s := by
  unfold exitNext
  rcases nextFd_spec fd with ⟨fd', hnext, hlt⟩ | ⟨hnext, hall⟩
  · rw [hnext]
    exact fun x hx => hbelow x ((hlt x).1 hx)
  · rw [hnext]
    exact fun x => hbelow x (hall x)

section

variable (h : s.Inv)

include h

theorem callStep_inv (hpc : s.pc t = .here .user) {c : Call}
    (hG : s.CarefulCall t c) (hs : s.callStep t c = some s') : s'.Inv := by
  cases c with
  | exit =>
    cases hs
    have hquiet : ∀ t', t' ≠ t → (s.place t').exits = false := fun t' ht => by
      rw [place_here (hG t' ht)]
      rfl
    have hfits : (exitTest 0).Fits s := fun fd hfd => absurd hfd (Fin.not_lt_zero fd)
    exact goto_inv h (.here (.exitTest 0)) hpc nofun hquiet nofun nofun (fun _ => hG) hfits
      trivial h.free
      (fun _ => rfl) fun _ => rfl
  | close fd =>
    simp only [callStep] at hs
    split at hs
    · cases hs
      exact h
    · next f hf =>
      cases hs
      refine goto_inv h (.here (.closeZero fd f)) hpc nofun (fun t' _ => hG.1 t') (fun σ hσ => ?_)
        nofun nofun hf trivial h.free (fun _ => rfl) fun _ => rfl
      rw [mem_singleton.1 hσ]
      exact hG.2
  | dup fd =>
    simp only [callStep] at hs
    split at hs
    · cases hs
      exact h
    · next f hf =>
      cases hs
      refine goto_inv h (.here (.dupScan f fd 0)) hpc nofun (fun t' _ => hG.1 t') nofun
        (fun σ hσ => ?_) nofun hf trivial h.free (fun _ => rfl) fun _ => rfl
      rw [mem_singleton.1 hσ]
      exact hG.2
  | chdir root =>
    cases root with
    | none =>
      cases hs
      refine goto_inv h (.here (.idup s.cwd)) hpc nofun (fun t' _ => hG.1 t') nofun
        (fun σ hσ => ?_) nofun rfl trivial h.free (fun _ => rfl) fun _ => rfl
      rw [mem_singleton.1 hσ]
      exact hG.2
    | some root =>
      obtain ⟨s1, h1, hs⟩ := bind_eq_some_iff.1 hs
      unfold State.iget at h1
      split_ifs at h1
      cases h1
      cases hs
      refine goto_inv h (.here (.ilock root)) hpc nofun (fun t' _ => hG t') nofun nofun
        nofun trivial
        trivial h.free (fun _ => rfl) fun i => ?_
      rw [update_succ]
      simp

section

variable (hpc : s.pc t = .here k)

include hpc

/-- `exit` goes on with the next descriptor, after it has found this one free or made it so. -/
theorem exitNext_inv (hkind : (∃ fd, k = .exitTest fd) ∨ ∃ fd v, k = .exitZero fd v) {fd : Fd}
    {ofile : Fd → Option FileId} (hbelow : ∀ x ≤ fd, ofile x = none)
    (hfiles : ∀ f, tally s.ofile (ind · f) + (Pc.here k).fileWeight f = tally ofile (ind · f)) :
    (({ s with ofile := ofile } : State).goto t (.here (exitNext fd))).Inv := by
  have hplace := place_here hpc
  have hk : k.exits = true ∧ k ≠ .user ∧ k ≠ .exited ∧ ∀ i, (Pc.here k).inodeWeight i = 0 := by
    rcases hkind with ⟨fd0, rfl⟩ | ⟨fd0, v, rfl⟩ <;> exact ⟨rfl, nofun, nofun, fun _ => rfl⟩
  have hnext : (exitNext fd).owns = [] ∧ (exitNext fd).reads = [] ∧
      (∀ f, (Pc.here (exitNext fd)).fileWeight f = 0) ∧
        ∀ i, (Pc.here (exitNext fd)).inodeWeight i = 0 := by
    rcases exitNext_between fd with ⟨fd', hfd'⟩ | hfd' <;> rw [hfd'] <;>
      exact ⟨rfl, rfl, fun _ => rfl, fun _ => rfl⟩
  obtain ⟨howns, hreads, hfw, hiw⟩ := hnext
  refine write_inv h (.here (exitNext fd)) ofile s.cwd hpc hk.2.1 (fun σ hσ => ?_) (fun σ hσ => ?_)
    (fun σ => .inr (h.unused_of_exits (hplace ▸ hk.1) σ)) (fun _ => hk.1) (exitNext_fits hbelow)
    trivial (fun hnone => .inr ⟨hnone, hk.2.2.1⟩) (fun f => ?_) fun i => ?_
  · rw [Pc.place, howns] at hσ
    cases hσ
  · rw [Pc.place, hreads] at hσ
    cases hσ
  · rw [hfw f, hfiles f, add_zero]
  · rw [hiw i, hk.2.2.2 i]

/-- The steps of `exit`. -/
theorem exitStep_inv (hk : k.exits = true)
    (hs : s.placeStep t k .go = some s') : s'.Inv := by
  have hplace := place_here hpc
  have hfits := h.fits t
  rw [hplace] at hfits
  have hquiet : ∀ t', t' ≠ t → (s.place t').exits = false := fun t' => h.quiet (by
    rw [hpc]
    rintro ⟨⟩
    cases hk)
  have halone := h.alone t (hplace ▸ hk)
  cases k with
  | exitTest fd =>
    cases hs
    cases hfd : s.ofile fd with
    | none =>
      refine exitNext_inv h hpc (.inl ⟨fd, rfl⟩) (fun x hx => ?_) fun f => ?_
      · rcases hx.lt_or_eq with hlt | rfl
        · exact hfits x hlt
        · exact hfd
      · simp
    | some f =>
      exact goto_inv h (.here (.exitLoad fd)) hpc nofun hquiet nofun nofun (fun _ => halone)
        ⟨by rw [hfd]; nofun, hfits⟩ trivial h.free (fun _ => rfl) fun _ => rfl
  | exitLoad fd =>
    cases hs
    refine goto_inv h (.fileclose (s.ofile fd) (.exitZero fd (s.ofile fd))) hpc nofun hquiet nofun
      nofun (fun _ => halone) ⟨rfl, hfits.2⟩ hfits.1 h.free (fun f => ?_) fun i => rfl
    simp
  | exitZero fd v =>
    cases hs
    refine exitNext_inv h hpc (.inr ⟨fd, v, rfl⟩) (fun x hx => ?_) fun f => ?_
    · by_cases hxfd : x = fd
      · rw [hxfd, update_self]
      · rw [update_of_ne hxfd]
        exact hfits.2 x (lt_of_le_of_ne hx hxfd)
    · rw [tally_update, hfits.1]
      simp
  | exitCwd =>
    cases hs
    have hcwd := h.cwd_ne_none (t := t) (by rw [hpc]; nofun) (by rw [hplace]; nofun)
    refine goto_inv h (.iput s.cwd (.exitZeroCwd s.cwd)) hpc nofun hquiet nofun nofun
      (fun _ => halone) ⟨rfl, hfits⟩ hcwd h.free (fun f => rfl) fun i => ?_
    simp
  | exitZeroCwd old =>
    cases hs
    refine write_inv h (.here .exited) s.ofile none hpc nofun nofun nofun
      (fun σ => .inr (h.unused_of_exits (hplace ▸ rfl) σ)) (fun _ => rfl) ⟨rfl, hfits.2⟩ trivial
      (fun _ => .inl rfl) (fun f => rfl) fun i => ?_
    rw [hfits.1]
    simp
  | exited => cases hs
  | _ => cases hk

theorem State.Inv.same_or_unused {fd : Fd}
    (hfd : .fd fd ∈ k.owns) {v : Option FileId} (σ : Slot) :
    Same s { s with ofile := update s.ofile fd v } σ ∨ s.Unused t σ := by
  by_cases hσ : σ = .fd fd
  · rw [hσ]
    exact .inr (h.unused (by rw [place_here hpc]; exact hfd))
  · refine .inl ?_
    cases σ with
    | fd x => exact update_of_ne (fun hx => hσ (by rw [hx])) _ _
    | cwd => rfl

/-- The steps of `sys_close` and `sys_dup` after the first. -/
theorem fdStep_inv (hk : (∃ fd f, k = .closeZero fd f) ∨ (∃ f src fd, k = .dupScan f src fd) ∨
      (∃ f src fd, k = .dupStore f src fd) ∨ ∃ f src fd, k = .filedup f src fd)
    (hG : s.Careful (.thread t .go)) (hs : s.placeStep t k .go = some s') : s'.Inv := by
  have hplace := place_here hpc
  have hfits := h.fits t
  rw [hplace] at hfits
  have hbusy : s.pc t ≠ .here .user := by
    rw [hpc]
    rcases hk with ⟨_, _, rfl⟩ | ⟨_, _, _, rfl⟩ | ⟨_, _, _, rfl⟩ | ⟨_, _, _, rfl⟩ <;> nofun
  have hquiet : ∀ t', t' ≠ t → (s.place t').exits = false := fun t' => h.quiet hbusy
  rcases hk with ⟨fd, f, rfl⟩ | ⟨f, src, fd, rfl⟩ | ⟨f, src, fd, rfl⟩ | ⟨f, src, fd, rfl⟩
  · cases hs
    have hfd : s.ofile fd = some f := hfits
    refine write_inv h (.fileclose (some f) .user) (update s.ofile fd none) s.cwd hpc nofun
      nofun nofun (h.same_or_unused hpc (mem_singleton_self _)) nofun trivial nofun
      (fun hnone => absurd hnone (h.cwd_ne_none hbusy (by rw [hplace]; nofun))) (fun f' => ?_)
      fun i => rfl
    · rw [tally_update, hfd]
      simp
  · cases hs
    simp only [State.Careful, hpc] at hG
    cases hfd : s.ofile fd with
    | none =>
      refine goto_inv h (.here (.dupStore f src fd)) hpc nofun hquiet (fun σ hσ => ?_)
        (fun σ hσ => h.unowned (by rw [hplace]; exact mem_append_right _ hσ)) nofun
        ⟨hfits, hfd⟩ trivial h.free (fun _ => rfl) fun _ => rfl
      rw [mem_singleton.1 hσ]
      exact hG hfd
    | some g =>
      show (s.goto t (.here (dupNext f src fd))).Inv
      unfold dupNext
      split
      · next fd' _ =>
        exact goto_inv h (.here (.dupScan f src fd')) hpc nofun hquiet nofun
          (fun σ hσ => h.unowned (by rw [hplace]; exact mem_append_right _ hσ)) nofun hfits
          trivial h.free (fun _ => rfl) fun _ => rfl
      · exact goto_inv h (.here .user) hpc nofun hquiet nofun nofun nofun trivial trivial h.free
          (fun _ => rfl) fun _ => rfl
  · cases hs
    have hne : src ≠ fd := by
      rintro rfl
      exact absurd (hfits.1.symm.trans hfits.2) nofun
    refine write_inv h (.here (.filedup f src fd)) (update s.ofile fd (some f)) s.cwd hpc
      nofun (fun σ hσ => hσ) (fun σ hσ => mem_append_right _ hσ)
      (h.same_or_unused hpc (mem_singleton_self _)) nofun
      ⟨?_, update_self _ _ _, hne⟩ trivial
      (fun hnone => absurd hnone (h.cwd_ne_none hbusy (by rw [hplace]; nofun))) (fun f' => ?_)
      fun i => rfl
    · exact (update_of_ne hne _ _).trans hfits.1
    · rw [tally_update, hfits.2]
      simp
  · have hpos := h.one_le_ref_of_filedup hplace
    change (if s.ref f < 1 then some (s.stop .filedup)
      else some ((s.setRef f (s.ref f + 1)).goto t (.here .user))) = some s' at hs
    rw [if_neg (by omega)] at hs
    cases hs
    refine goto_inv h (.here .user) hpc nofun hquiet nofun nofun nofun trivial trivial
      (fun f' hzero => ?_) (fun f' => ?_) fun _ => rfl
    · rw [update_succ] at hzero
      by_cases hf : f' = f
      · subst hf
        rw [ind_self] at hzero
        omega
      · rw [ind_some, if_neg (Ne.symm hf), add_zero] at hzero
        exact h.free f' hzero
    · rw [update_succ]
      simp

/-- The steps of `sys_chdir` that read or write the working directory. -/
theorem cwdStep_inv (hk : (∃ v, k = .idup v) ∨ (∃ i, k = .chdirCwd i) ∨ ∃ v i, k = .chdirStore v i)
    (hG : s.Careful (.thread t .go)) (hs : s.placeStep t k .go = some s') : s'.Inv := by
  have hplace := place_here hpc
  have hfits := h.fits t
  rw [hplace] at hfits
  have hbusy : s.pc t ≠ .here .user ∧ s.place t ≠ .exited := by
    rw [hpc, hplace]
    rcases hk with ⟨_, rfl⟩ | ⟨_, rfl⟩ | ⟨_, _, rfl⟩ <;> exact ⟨nofun, nofun⟩
  have hquiet : ∀ t', t' ≠ t → (s.place t').exits = false := fun t' => h.quiet hbusy.1
  have hcwd := h.cwd_ne_none hbusy.1 hbusy.2
  rcases hk with ⟨v, rfl⟩ | ⟨i, rfl⟩ | ⟨v, i, rfl⟩
  · cases v with
    | none => exact absurd hfits hcwd
    | some i =>
      cases hs
      refine goto_inv h (.here (.ilock i)) hpc nofun hquiet nofun nofun nofun trivial trivial h.free
        (fun _ => rfl) fun j => ?_
      rw [update_succ]
      simp
  · cases hs
    simp only [State.Careful, hpc] at hG
    refine goto_inv h (.iput s.cwd (.chdirStore s.cwd i)) hpc nofun hquiet (fun σ hσ => ?_) nofun
      nofun rfl hcwd h.free (fun _ => rfl) fun j => ?_
    · rw [mem_singleton.1 hσ]
      exact hG
    · simp
  · cases hs
    refine write_inv h (.here .user) s.ofile (some i) hpc nofun nofun nofun (fun σ => ?_) nofun
      trivial trivial nofun (fun _ => rfl) fun j => ?_
    · cases σ with
      | fd fd => exact .inl rfl
      | cwd => exact .inr (h.unused (by rw [hplace]; exact mem_singleton_self _))
    · have hold : s.cwd = v := hfits
      rw [hold]
      simp

/-- The steps of `sys_chdir` that follow the path. -/
theorem walkStep_inv (hk : (∃ i, k = .ilock i) ∨ ∃ i, k = .locked i) {a : Act}
    (hs : s.placeStep t k a = some s') : s'.Inv := by
  have hplace := place_here hpc
  have hquiet : ∀ t', t' ≠ t → (s.place t').exits = false := fun t' => h.quiet (by
    rw [hpc]
    rcases hk with ⟨_, rfl⟩ | ⟨_, rfl⟩ <;> nofun)
  -- the lookup holds a reference, so the checks of `ilock` and `iunlock` succeed
  have hpos : ∀ i, k.keeps = some i → ¬ s.iref i < 1 := fun i hi => by
    have := h.one_le_iref (t := t) (i := i) (.inr (hplace ▸ hi))
    omega
  rcases hk with ⟨i, rfl⟩ | ⟨i, rfl⟩
  · cases a with
    | go =>
      change (if s.iref i < 1 then some (s.stop .ilock)
        else some (s.goto t (.here (.locked i)))) = some s' at hs
      rw [if_neg (hpos i rfl)] at hs
      cases hs
      exact goto_inv h (.here (.locked i)) hpc nofun hquiet nofun nofun nofun trivial trivial h.free
        (fun _ => rfl) fun _ => rfl
    | _ => cases hs
  · cases a with
    | next j =>
      obtain ⟨s1, h1, hs⟩ := bind_eq_some_iff.1 hs
      unfold State.iget at h1
      split_ifs at h1
      cases h1
      cases hs
      refine goto_inv h (.iunlockput i (.ilock j)) hpc nofun hquiet nofun nofun nofun
        trivial trivial
        h.free (fun _ => rfl) fun j' => ?_
      rw [update_succ]
      simp
      omega
    | missing =>
      cases hs
      refine goto_inv h (.iunlockput i .user) hpc nofun hquiet nofun nofun nofun trivial trivial
        h.free (fun _ => rfl) fun j' => ?_
      simp
    | found =>
      change (if s.iref i < 1 then some (s.stop .iunlock)
        else some (s.goto t (.here (.chdirCwd i)))) = some s' at hs
      rw [if_neg (hpos i rfl)] at hs
      cases hs
      exact goto_inv h (.here (.chdirCwd i)) hpc nofun hquiet nofun nofun nofun trivial trivial
        h.free (fun _ => rfl) fun _ => rfl
    | _ => cases hs

theorem placeStep_inv {a : Act}
    (hG : s.Careful (.thread t a)) (hs : s.placeStep t k a = some s') : s'.Inv := by
  cases k with
  | user =>
    cases a with
    | call c =>
      simp only [State.Careful, hpc] at hG
      exact callStep_inv h hpc hG hs
    | _ => cases hs
  | ilock i => exact walkStep_inv h hpc (.inl ⟨i, rfl⟩) hs
  | locked i => exact walkStep_inv h hpc (.inr ⟨i, rfl⟩) hs
  | exitTest | exitLoad | exitZero | exitCwd | exitZeroCwd | exited =>
    cases a with
    | go => exact exitStep_inv h hpc rfl hs
    | _ => cases hs
  | closeZero fd f =>
    cases a with
    | go => exact fdStep_inv h hpc (.inl ⟨fd, f, rfl⟩) hG hs
    | _ => cases hs
  | dupScan f src fd =>
    cases a with
    | go => exact fdStep_inv h hpc (.inr (.inl ⟨f, src, fd, rfl⟩)) hG hs
    | _ => cases hs
  | dupStore f src fd =>
    cases a with
    | go => exact fdStep_inv h hpc (.inr (.inr (.inl ⟨f, src, fd, rfl⟩))) hG hs
    | _ => cases hs
  | filedup f src fd =>
    cases a with
    | go => exact fdStep_inv h hpc (.inr (.inr (.inr ⟨f, src, fd, rfl⟩))) hG hs
    | _ => cases hs
  | idup v =>
    cases a with
    | go => exact cwdStep_inv h hpc (.inl ⟨v, rfl⟩) hG hs
    | _ => cases v <;> cases hs
  | chdirCwd i =>
    cases a with
    | go => exact cwdStep_inv h hpc (.inr (.inl ⟨i, rfl⟩)) hG hs
    | _ => cases hs
  | chdirStore v i =>
    cases a with
    | go => exact cwdStep_inv h hpc (.inr (.inr ⟨v, i, rfl⟩)) hG hs
    | _ => cases hs

end

/-- One reference to `f` less: only a file without references is free. -/
theorem State.Inv.free_pred {f' : FileId} (hmore : f' = f → 1 < s.ref f)
    (hzero : update s.ref f (s.ref f - 1) f' = 0) : s.ip f' = none := by
  rw [update_pred] at hzero
  by_cases hf : f' = f
  · have := hmore hf
    subst hf
    rw [ind_self] at hzero
    omega
  · rw [ind_some, if_neg (Ne.symm hf), sub_zero] at hzero
    exact h.free f' hzero

/-- `fileclose`, called by a thread that has a reference to the file. -/
theorem filecloseStep_inv (hpc : s.pc t = .fileclose (some f) k) : (s.filecloseStep t f k).Inv := by
  have hbusy : s.pc t ≠ .here .user := by rw [hpc]; nofun
  have hplace : s.place t = k := by unfold place; rw [hpc]; rfl
  have hpos := h.one_le_ref_of_closing (t := t) (f := f) (by rw [hpc]; rfl)
  -- in both cases the counter goes down by one
  have hfiles : ∀ f', update s.ref f (s.ref f - 1) f' + (s.pc t).fileWeight f' =
      s.ref f' + (Pc.here k).fileWeight f' := fun f' => by
    rw [update_pred, hpc]
    simp
    omega
  unfold filecloseStep
  rw [if_neg (by omega)]
  split_ifs with hmore
  · refine call_inv h (.here k) hbusy hplace.symm rfl h.fault rfl rfl rfl rfl trivial
      (fun f' hzero => h.free_pred (fun _ => hmore) hzero) hfiles fun i => ?_
    rw [hpc]
    rfl
  · have hlast : (0 : ℤ) = s.ref f - 1 := by omega
    rw [hlast]
    have hfree : ∀ f', update s.ref f (s.ref f - 1) f' = 0 →
        update s.ip f none f' = none := fun f' hzero => by
      by_cases hf : f' = f
      · rw [hf, update_self]
      · rw [update_of_ne hf]
        exact h.free_pred (fun heq => absurd heq hf) hzero
    have htally : ∀ i, tally (update s.ip f none) (ind · i) =
        tally s.ip (ind · i) - ind (s.ip f) i := fun i => by
      rw [tally_update, ind_none]
      omega
    cases hip : s.ip f with
    | none =>
      refine call_inv h (.here k) hbusy hplace.symm rfl h.fault rfl rfl rfl rfl trivial hfree hfiles
        fun i => ?_
      show s.iref i + _ + _ = s.iref i + tally (update s.ip f none) (ind · i) + _
      rw [htally, hip, hpc]
      simp
    | some j =>
      refine call_inv h (.iput (some j) k) hbusy hplace.symm rfl h.fault rfl rfl rfl rfl nofun hfree
        hfiles fun i => ?_
      show s.iref i + _ + _ = s.iref i + tally (update s.ip f none) (ind · i) + _
      rw [htally, hip, hpc]
      simp
      omega

/-- The end of `iput`: one reference to the inode less. -/
theorem putStep_inv (hbusy : s.pc t ≠ .here .user) (hplace : s.place t = k)
    (hput : ∀ j, (s.pc t).inodeWeight j = ind (some i) j + (Pc.here k).inodeWeight j)
    (hclose : (s.pc t).closing = none) : ((s.setIref i (s.iref i - 1)).goto t (.here k)).Inv := by
  refine call_inv h (.here k) hbusy hplace.symm rfl h.fault rfl rfl rfl rfl trivial h.free
    (fun f => ?_) fun j => ?_
  · show s.ref f + (ind (s.pc t).closing f - ind (s.place t).uncounted f) = _
    rw [hclose, hplace]
    rfl
  · show update s.iref i (s.iref i - 1) j + _ + _ = s.iref j + tally s.ip (ind · j) + _
    rw [update_pred, hput j]
    omega

theorem threadStep_inv {a : Act} (hG : s.Careful (.thread t a))
    (hs : s.threadStep t a = some s') : s'.Inv := by
  have hvalid := h.valid t
  unfold threadStep at hs
  cases hpc : s.pc t with
  | here k =>
    rw [hpc] at hs
    exact placeStep_inv h hpc hG hs
  | fileclose v k =>
    rw [hpc] at hs hvalid
    cases v with
    | none => exact absurd rfl hvalid
    | some f =>
      cases a with
      | go =>
        cases hs
        exact filecloseStep_inv h hpc
      | _ => cases hs
  | iunlockput i k =>
    rw [hpc] at hs
    have hpos := h.one_le_iref (t := t) (i := i) (.inl (by rw [hpc]; rfl))
    cases a with
    | go =>
      change (if s.iref i < 1 then some (s.stop .iunlock)
        else some (s.goto t (.iput (some i) k))) = some s' at hs
      rw [if_neg (by omega)] at hs
      cases hs
      refine call_inv h (.iput (some i) k) (by rw [hpc]; nofun) ?_ rfl h.fault rfl rfl rfl rfl nofun
        h.free (fun f => ?_) fun j => ?_
      · unfold place
        rw [hpc]
        rfl
      · rw [hpc]
        rfl
      · rw [hpc]
        rfl
    | _ => cases hs
  | iput v k =>
    rw [hpc] at hs hvalid
    have hplace : s.place t = k := by unfold place; rw [hpc]; rfl
    cases v with
    | none => exact absurd rfl hvalid
    | some i =>
      cases a with
      | put unlinked =>
        change (if s.iref i = 1 ∧ unlinked = true then some (s.goto t (.itrunc i k))
          else some ((s.setIref i (s.iref i - 1)).goto t (.here k))) = some s' at hs
        split_ifs at hs
        · cases hs
          refine call_inv h (.itrunc i k) (by rw [hpc]; nofun) hplace.symm rfl h.fault rfl
            rfl rfl rfl
            trivial h.free (fun f => ?_) fun j => ?_
          · rw [hpc]
            rfl
          · rw [hpc]
            rfl
        · cases hs
          refine putStep_inv h (by rw [hpc]; nofun) hplace (fun j => ?_) (by rw [hpc]; rfl)
          rw [hpc]
          simp
          omega
      | _ => cases hs
  | itrunc i k =>
    rw [hpc] at hs
    have hplace : s.place t = k := by unfold place; rw [hpc]; rfl
    cases a with
    | go =>
      cases hs
      refine putStep_inv h (by rw [hpc]; nofun) hplace (fun j => ?_) (by rw [hpc]; rfl)
      rw [hpc]
      simp
      omega
    | _ => cases hs

/-- What the other processes do leaves the slots and the positions alone. -/
theorem outside_inv (hpc : s'.pc = s.pc) (hofile : s'.ofile = s.ofile)
    (hcwd : s'.cwd = s.cwd) (hfault : s'.fault = s.fault)
    (hfree : ∀ f, s'.ref f = 0 → s'.ip f = none)
    (hfiles : ∀ f, s'.ref f + s.ext f = s.ref f + s'.ext f)
    (hinodes : ∀ i, s'.iref i + s.iext i + tally s.ip (ind · i) =
      s.iref i + s'.iext i + tally s'.ip (ind · i)) : s'.Inv := by
  have hplace : ∀ t, s'.place t = s.place t := fun t => by unfold place; rw [hpc]
  refine ⟨hfault.trans h.fault, fun t t' hne => ?_, fun t => ?_, fun t => ?_, fun t => ?_,
    fun hnone => ?_, hfree, fun f => ?_, fun i => ?_⟩
  · rw [hplace t, hplace t']
    exact h.excl t t' hne
  · rw [hplace t, hpc]
    exact h.alone t
  · rw [hplace t]
    exact (fits_congr hofile hcwd).2 (h.fits t)
  · rw [hpc]
    exact h.valid t
  · obtain ⟨t, ht⟩ := h.cwd (hcwd ▸ hnone)
    exact ⟨t, (hplace t).trans ht⟩
  · have := h.files f
    have := hfiles f
    rw [hofile, hpc]
    omega
  · have := h.inodes i
    have := hinodes i
    rw [hcwd, hpc]
    omega

theorem dropFile_inv (hext : 0 < s.ext f) : (s.dropFile f).Inv := by
  have hfiles : ∀ f', update s.ref f (s.ref f - 1) f' + s.ext f' =
      s.ref f' + (update s.ext f (s.ext f - 1) f' : ℕ) := fun f' => by
    rw [update_pred, cast_update_pred hext]
    omega
  unfold dropFile
  dsimp only
  split_ifs with hmore
  · exact outside_inv h rfl rfl rfl rfl (fun f' hzero => h.free_pred (fun _ => hmore) hzero) hfiles
      fun i => rfl
  · refine outside_inv h rfl rfl rfl rfl (fun f' hzero => ?_) hfiles fun i => ?_
    · show update s.ip f none f' = none
      by_cases hf : f' = f
      · rw [hf, update_self]
      · rw [update_of_ne hf]
        exact h.free_pred (fun heq => absurd heq hf) hzero
    · -- the reference to the inode passes from the file to the process that closes it
      have htally := tally_update s.ip (ind · i) f none
      cases hip : s.ip f with
      | none =>
        rw [hip] at htally
        show s.iref i + s.iext i + _ = s.iref i + s.iext i + tally (update s.ip f none) _
        rw [htally]
        simp
      | some j =>
        rw [hip] at htally
        show s.iref i + s.iext i + _ = s.iref i + (update s.iext j (s.iext j + 1) i : ℕ) +
          tally (update s.ip f none) _
        rw [htally, cast_update_succ, ind_none]
        omega

theorem otherStep_inv {o : Outside} (hs : s.otherStep o = some s') : s'.Inv := by
  -- one reference more, to a file that is not free afterwards
  have hsucc : ∀ {f f' : FileId}, 0 ≤ s.ref f → update s.ref f (s.ref f + 1) f' = 0 →
      s.ref f' = 0 ∧ f' ≠ f := fun {f f'} hf hzero => by
    rw [update_succ] at hzero
    by_cases hff : f' = f
    · subst hff
      rw [ind_self] at hzero
      omega
    · rw [ind_some, if_neg (Ne.symm hff), add_zero] at hzero
      exact ⟨hzero, hff⟩
  have hfiles : ∀ f f', update s.ref f (s.ref f + 1) f' + s.ext f' =
      s.ref f' + (update s.ext f (s.ext f + 1) f' : ℕ) := fun f f' => by
    rw [update_succ, cast_update_succ]
    omega
  cases o with
  | filealloc f v =>
    cases v with
    | none =>
      simp only [otherStep] at hs
      split_ifs at hs with hzero
      cases hs
      have hone : (1 : ℤ) = s.ref f + 1 := by omega
      rw [hone]
      exact outside_inv h rfl rfl rfl rfl (fun f' hf' => h.free f' (hsucc (by omega) hf').1)
        (hfiles f) fun i => rfl
    | some j =>
      simp only [otherStep] at hs
      split_ifs at hs with hcond
      cases hs
      have hone : (1 : ℤ) = s.ref f + 1 := by omega
      rw [hone]
      refine outside_inv h rfl rfl rfl rfl (fun f' hf' => ?_) (hfiles f) fun i => ?_
      · obtain ⟨hf0, hne⟩ := hsucc (by omega) hf'
        exact (update_of_ne hne _ _).trans (h.free f' hf0)
      · show s.iref i + s.iext i + _ = s.iref i + (update s.iext j (s.iext j - 1) i : ℕ) +
          tally (update s.ip f (some j)) _
        rw [tally_update, cast_update_pred hcond.2, h.free f hcond.1, ind_none]
        omega
  | filedup f =>
    simp only [otherStep] at hs
    split_ifs at hs with hext
    cases hs
    have hpos : 0 ≤ s.ref f := (Int.natCast_nonneg _).trans (h.ext_le_ref f)
    exact outside_inv h rfl rfl rfl rfl (fun f' hf' => h.free f' (hsucc hpos hf').1)
      (hfiles f) fun i => rfl
  | fileclose f =>
    simp only [otherStep] at hs
    split_ifs at hs with hext
    cases hs
    exact dropFile_inv h hext
  | iget j =>
    obtain ⟨s1, h1, hs⟩ := bind_eq_some_iff.1 hs
    unfold State.iget at h1
    split_ifs at h1
    cases h1
    cases hs
    refine outside_inv h rfl rfl rfl rfl h.free (fun _ => rfl) fun i => ?_
    show update s.iref j (s.iref j + 1) i + s.iext i + _ =
      s.iref i + (update s.iext j (s.iext j + 1) i : ℕ) + tally s.ip (ind · i)
    rw [update_succ, cast_update_succ]
    omega
  | iput j =>
    simp only [otherStep] at hs
    split_ifs at hs with hext
    cases hs
    refine outside_inv h rfl rfl rfl rfl h.free (fun _ => rfl) fun i => ?_
    show update s.iref j (s.iref j - 1) i + s.iext i + _ =
      s.iref i + (update s.iext j (s.iext j - 1) i : ℕ) + tally s.ip (ind · i)
    rw [update_pred, cast_update_pred hext]
    omega

theorem step_inv {e : Event} (hG : s.Careful e) (hs : s.step e = some s') : s'.Inv := by
  unfold step at hs
  rw [h.fault] at hs
  cases e with
  | thread t a => exact threadStep_inv h hG hs
  | other o => exact otherStep_inv h hs

end

/-! ### Careful runs -/

/-- The counters are right for a process whose threads are all outside the calls. -/
def State.Counted (s : State) : Prop :=
  (∀ f, s.ref f = s.ext f + tally s.ofile (ind · f)) ∧
    ∀ i, s.iref i = s.iext i + ind s.cwd i + tally s.ip (ind · i)

/-- A process before its threads make any of the calls. -/
structure State.Start (s : State) : Prop where
  fault : s.fault = none
  user : ∀ t, s.pc t = .here .user
  cwd : s.cwd ≠ none
  free : ∀ f, s.ref f = 0 → s.ip f = none
  counted : s.Counted

theorem State.Start.inv (h : s.Start) : s.Inv := by
  have hplace : ∀ t, s.place t = .user := fun t => place_here (h.user t)
  have hweight : (∀ f, tally s.pc (Pc.fileWeight f) = 0) ∧
      ∀ i, tally s.pc (Pc.inodeWeight i) = 0 :=
    ⟨fun f => tally_eq_zero fun t => by rw [h.user t]; rfl,
      fun i => tally_eq_zero fun t => by rw [h.user t]; rfl⟩
  refine ⟨h.fault, fun t t' _ σ hσ => ?_, fun t hexit => ?_, fun t => ?_, fun t => ?_,
    fun hnone => absurd hnone h.cwd, h.free, fun f => ?_, fun i => ?_⟩
  · rw [hplace t] at hσ
    cases hσ
  · rw [hplace t] at hexit
    cases hexit
  · rw [hplace t]
    trivial
  · rw [h.user t]
    trivial
  · rw [hweight.1 f, add_zero]
    exact h.counted.1 f
  · rw [hweight.2 i, add_zero]
    exact h.counted.2 i

/-- **References are released once.** In every state of a careful run no function has met a null
pointer or a counter below one; `fileclose` and `iput` are called on an object that still has a
reference; whenever all threads are outside the calls the counters are right; and when `exit` is
done, the references left are those of the other processes and of the files. -/
theorem references_released_once {s₀ : State} {tr : List Event} (h₀ : s₀.Start)
    (h : Reach step State.Careful s₀ tr s) : s.fault = none ∧
    (∀ t v k, s.pc t = .fileclose v k → ∃ f, v = some f ∧ 1 ≤ s.ref f) ∧
    (∀ t v k, s.pc t = .iput v k → ∃ i, v = some i ∧ 1 ≤ s.iref i) ∧
    ((∀ t, s.pc t = .here .user) → s.Counted) ∧
    ∀ t, s.pc t = .here .exited →
      (∀ f, s.ref f = s.ext f) ∧ ∀ i, s.iref i = s.iext i + tally s.ip (ind · i) := by
  have hinv : s.Inv := h.state_invariant h₀.inv fun _ _ _ hinv hG hs => step_inv hinv hG hs
  refine ⟨hinv.fault, fun t v k hpc => ?_, fun t v k hpc => ?_, fun huser => ?_, fun t hpc => ?_⟩
  · have hvalid := hinv.valid t
    rw [hpc] at hvalid
    obtain ⟨f, hf⟩ := ne_none_iff_exists'.1 hvalid
    exact ⟨f, hf, hinv.one_le_ref_of_closing (t := t) (by rw [hpc]; exact hf)⟩
  · have hvalid := hinv.valid t
    rw [hpc] at hvalid
    obtain ⟨i, hi⟩ := ne_none_iff_exists'.1 hvalid
    exact ⟨i, hi, hinv.one_le_iref (t := t) (.inl (by rw [hpc]; exact hi))⟩
  · refine ⟨fun f => ?_, fun i => ?_⟩
    · rw [hinv.files f, tally_eq_zero (g := Pc.fileWeight f) fun t => by rw [huser t]; rfl,
        add_zero]
    · rw [hinv.inodes i, tally_eq_zero (g := Pc.inodeWeight i) fun t => by rw [huser t]; rfl,
        add_zero]
  · have hplace := place_here hpc
    have hfits := hinv.fits t
    rw [hplace] at hfits
    -- the other threads are outside the calls
    have hpcs : ∀ t', s.pc t' = .here .user ∨ s.pc t' = .here .exited := fun t' => by
      by_cases ht : t' = t
      · exact .inr (ht ▸ hpc)
      · exact .inl (hinv.alone t (by rw [hplace]; rfl) t' ht)
    refine ⟨fun f => ?_, fun i => ?_⟩
    · rw [hinv.files f, tally_eq_zero (p := s.ofile) fun fd => by rw [hfits.2 fd]; rfl,
        tally_eq_zero (p := s.pc) fun t' => by rcases hpcs t' with hp | hp <;> rw [hp] <;> rfl,
        add_zero, add_zero]
    · rw [hinv.inodes i, hfits.1,
        tally_eq_zero (p := s.pc) fun t' => by rcases hpcs t' with hp | hp <;> rw [hp] <;> rfl,
        ind_none, add_zero, add_zero]

/-! ### Runs -/

instance (s : State) (t : ThreadId) (σ : Slot) : Decidable (s.Unused t σ) :=
  inferInstanceAs (Decidable (∀ t', t' ≠ t → σ ∉ (s.place t').uses))

instance (s : State) (t : ThreadId) (σ : Slot) : Decidable (s.Unowned t σ) :=
  inferInstanceAs (Decidable (∀ t', t' ≠ t → σ ∉ (s.place t').owns))

instance (s : State) : Decidable s.NoExit :=
  inferInstanceAs (Decidable (∀ t, (s.place t).exits = false))

instance (s : State) (t : ThreadId) (c : Call) : Decidable (s.CarefulCall t c) :=
  match c with
  | .exit => inferInstanceAs (Decidable (∀ t', t' ≠ t → s.pc t' = .here .user))
  | .close fd => inferInstanceAs (Decidable (s.NoExit ∧ s.Unused t (.fd fd)))
  | .dup fd => inferInstanceAs (Decidable (s.NoExit ∧ s.Unowned t (.fd fd)))
  | .chdir none => inferInstanceAs (Decidable (s.NoExit ∧ s.Unowned t .cwd))
  | .chdir (some _) => inferInstanceAs (Decidable s.NoExit)

instance (s : State) (e : Event) : Decidable (s.Careful e) := by
  unfold State.Careful
  split
  · infer_instance
  · split
    · split <;> infer_instance
    · infer_instance
    · infer_instance
    · infer_instance

instance : NeZero NFILE := ⟨by decide⟩

instance : NeZero NINODE := ⟨by decide⟩

/-- A process with two open files, one of them on inode 1, and inode 0 as working directory. -/
def twoFiles : State where
  ofile fd := if fd = 0 then some 0 else if fd = 1 then some 1 else none
  cwd := some 0
  ref f := if f = 0 ∨ f = 1 then 1 else 0
  ip f := if f = 0 then some 1 else none
  iref i := if i = 0 ∨ i = 1 then 1 else 0
  ext _ := 0
  iext _ := 0
  pc _ := .here .user
  fault := none

theorem twoFiles_start : twoFiles.Start where
  fault := rfl
  user _ := rfl
  cwd := nofun
  free := by decide
  counted := ⟨by decide +kernel, by decide +kernel⟩

/-- Thread `t` takes `n` steps without a choice. -/
def goes (t : ThreadId) (n : ℕ) : List Event := replicate n (.thread t .go)

/-- Thread 0 closes descriptor 0 while thread 1 duplicates descriptor 1 into it, and thread 1 goes
to another directory. -/
def closeDupChdir : List Event :=
  [.thread 0 (.call (.close 0)), .thread 1 (.call (.dup 1)), .thread 0 .go, .thread 1 .go,
    .thread 0 .go, .thread 1 .go, .thread 0 (.put false), .thread 1 .go,
    .thread 1 (.call (.chdir none)), .thread 1 .go, .thread 1 .go, .thread 1 (.next 2),
    .thread 1 .go, .thread 1 (.put false), .thread 1 .go, .thread 1 .found, .thread 1 .go,
    .thread 1 (.put false), .thread 1 .go, .thread 0 (.call .exit)]

/-- The end of `exit` in thread 0. -/
def exitEnd : List Event := [.thread 0 (.put false), .thread 0 .go]

/-- After that, thread 0 exits. -/
def closeDupExit : List Event := closeDupChdir ++ goes 0 23 ++ exitEnd

theorem references_released_once_exit : ∃ s, twoFiles.Start ∧
    runWhen step State.Careful twoFiles closeDupExit = some s ∧
    s.fault = none ∧ s.pc 0 = .here .exited ∧ s.ref 1 = s.ext 1 ∧
    s.iref 2 = s.iext 2 + tally s.ip (ind · 2) := by
  obtain ⟨s, hs, hpc⟩ : ∃ s ∈ runWhen step State.Careful twoFiles closeDupExit,
      s.pc 0 = .here .exited := by decide
  obtain ⟨hfault, -, -, -, hexit⟩ :=
    references_released_once twoFiles_start (reach_of_runWhen hs)
  exact ⟨s, twoFiles_start, hs, hfault, hpc, (hexit 0 hpc).1 1, (hexit 0 hpc).2 2⟩

/-- Both threads call `exit` and read descriptor 0 before one of them closes it. -/
def exitTogether : List Event :=
  [.thread 0 (.call .exit), .thread 1 (.call .exit), .thread 0 .go, .thread 1 .go, .thread 0 .go,
    .thread 1 .go, .thread 0 .go, .thread 1 .go]

/-- The start of `exit` in thread 0, up to the end of the first `fileclose`. -/
def exitStart : List Event :=
  [.thread 0 (.call .exit), .thread 0 .go, .thread 0 .go, .thread 0 .go, .thread 0 (.put false)]

/-- Thread 1 calls `exit` after thread 0. -/
def exitTwice : List Event :=
  exitStart ++ goes 0 20 ++ exitEnd ++ Event.thread 1 (.call .exit) :: goes 1 17 ++
    [Event.thread 1 (.put false)]

/-- Two threads that exit, as all threads of a killed process do, close a file twice or put a null
working directory. -/
theorem exit_releases_twice : twoFiles.Start ∧
    (∃ s, Reach step Always twoFiles exitTogether.reverse s ∧
      s.fault = some .fileclose) ∧
    ∃ s, Reach step Always twoFiles exitTwice.reverse s ∧
      s.fault = some .null := by
  have hreach : ∀ {es : List Event} {e : Fault},
      (run step twoFiles es).map (fun s => s.fault) = some (some e) →
      ∃ s, Reach step Always twoFiles es.reverse s ∧
        s.fault = some e := fun hrun => by
    obtain ⟨s, hs, hfault⟩ := map_eq_some_iff.1 hrun
    exact ⟨s, reach_always hs, hfault⟩
  exact ⟨twoFiles_start, hreach (by decide), hreach (by decide)⟩

end Xv6.Files
