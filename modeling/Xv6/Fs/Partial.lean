import Xv6.Fs.Files

/-!
# Writes that fail half way

`writei` copies the data block by block.  When `either_copyin` fails, the bytes in front of the
missing one have been copied into the buffer of the block already: `writei` does not call
`log_write` for it and does not count them, but `readi` sees them.
-/

namespace Xv6.Fs

open Outcome Segment Transition

variable {sb : Superblock} {s t : Fs} {i : ℕ} {src : Src}

/-- The first byte that is missing in the source is, in the file, the first byte of a block or of
the write, or in a block of which nothing was in the file. -/
def CleanFault (src : Src) (off n size : ℕ) : Prop :=
  ∀ k < n, src.byte k = none → (∀ j < k, src.byte j ≠ none) →
    min (off + k) size ≤ max off ((off + k) / BSIZE * BSIZE)

/-- **`writei` reports what it has changed.** For all contents, offsets, lengths and sources, if a
byte of the source is missing only where a block begins or nothing was in the file yet, and `writei`
returns `r ≥ 0`, then the first `r` bytes of the source are there, the contents of the file are as
before with these bytes written over them from `off` on, so that the size is the maximum of the old
one and `off + r`, the other files are as before, and `readi` returns the bytes of the new
contents. -/
theorem writei_reports_changes {off n : UInt} {r : ℤ} (h : s.Ready sb) (hv : s.valid i = true)
    (hclean : CleanFault src off.toNat n.toNat (s.contents sb i).length)
    (hr : 0 ≤ r) (hw : s.writei sb i src off n = .ok (r, t)) :
    (∀ k < r.toNat, src.byte k = some (src.data k)) ∧
    t.contents sb = Function.update (s.contents sb) i
      (overwrite (s.contents sb i) off.toNat (table r.toNat src.data)) ∧
    (t.inode i).size.toNat = max (s.inode i).size.toNat (off.toNat + r.toNat) ∧
    ∀ off' n' v dst u, t.readi sb i (.kernel []) off' n' = .ok ((v, dst), u) →
      dst = .kernel ((t.contents sb i).extract off'.toNat
        (min (off' + n').toNat (t.contents sb i).length)) := by
  obtain ⟨hoff, hmax, tot, q, sz, rfl, hended, hsz, hedit⟩ := writei_cases h hv hr hw
  rw [length_contents_of_valid h.1 hv] at hclean
  simp only [Int.toNat_natCast]
  have hcounted := hended.counted
  -- the bytes that are copied and not counted are not in the file
  have hpart : q ≤ tot ∨ (s.inode i).size.toNat ≤ off.toNat + tot := by
    rcases hended.why with ⟨rfl, rfl⟩ | ⟨hq, hnone, hblock⟩
    · exact .inl le_rfl
    · have := hclean q hq hnone fun j hj => hended.there j (Nat.zero_le j) hj
      rw [Nat.sub_zero] at hblock
      omega
  have htot := hended.total_le
  obtain ⟨hready, hcontents⟩ := hedit.overwritten h hv hoff (by omega) hcounted hpart hsz
  refine ⟨fun k hk => ?_, hcontents, by rw [hedit.size, hsz], fun off' n' v dst u hread => ?_⟩
  · have hthere := hended.there k (Nat.zero_le k) (by omega)
    obtain ⟨b, hb⟩ := Option.ne_none_iff_exists'.1 hthere
    rw [Src.data, hb, Option.getD_some]
  · exact (readi_spec hready (hedit.is_valid hv) hread).2.1

/-! ### A page that ends -/

/-- User memory with one page, full of nines. -/
def onePage : UserMem := fun va => if va = 0 then some fun _ => 9 else none

/-- A file of two bytes. -/
def twoSevens : Option Fs :=
  run (step smallDisk) (boot smallImage)
    [.iget 1, .ilock 1, .writei 1 (.kernel fun _ => 7) 0 2]

theorem ready_twoSevens (hs : twoSevens = some s)
    (hlen : ∀ i < 2, (s.contents smallDisk i).length ≤ 2) : s.Ready smallDisk := by
  refine ⟨(reach_always
    hs).state_invariant inv_smallImage fun _ _ _ hi _ hs => hi.step hs, fun i => ?_⟩
  by_cases hi : i < smallDisk.ninodes
  · exact (hlen i hi).trans (by decide)
  · rw [contents, if_neg hi]
    decide

/-- The page ends where the second block of the file begins: the first block is written. -/
theorem writei_reports_changes_one : ∃ s t : Fs, s.Ready smallDisk ∧
    s.writei smallDisk 1 (.user onePage 0xc00) 0 1025 = .ok (1024, t) ∧
    s.contents smallDisk 1 = [7, 7] ∧
    t.contents smallDisk 1 = table 1024 (Src.user onePage 0xc00).data := by
  obtain ⟨s, hs, hlen, htwo, hvalid, ⟨r, t⟩, ht, rfl⟩ : ∃ s ∈ twoSevens,
      (∀ i < 2, (s.contents smallDisk i).length ≤ 2) ∧ s.contents smallDisk 1 = [7, 7] ∧
      s.valid 1 = true ∧ ∃ x ∈ (s.writei smallDisk 1 (.user onePage 0xc00) 0 1025).toOption,
        x.1 = 1024 := by decide +kernel
  have hready := ready_twoSevens hs hlen
  have hw := toOption_eq_some.1 ht
  have hclean : CleanFault (.user onePage 0xc00) 0 1025 (s.contents smallDisk 1).length := by
    rw [htwo, CleanFault]
    decide +kernel
  obtain ⟨-, hcontents, -⟩ := writei_reports_changes hready hvalid hclean (by decide) hw
  refine ⟨s, t, hready, hw, htwo, ?_⟩
  rw [hcontents, Function.update_self, htwo]
  decide +kernel

/-- Two bytes are to be written, of which the second is not there: `writei` returns 0, and the
first byte of the file has changed. -/
theorem writei_changes_more : ∃ s t : Fs, s.Ready smallDisk ∧
    s.writei smallDisk 1 (.user onePage 0xfff) 0 2 = .ok (0, t) ∧
    s.contents smallDisk 1 = [7, 7] ∧ t.contents smallDisk 1 = [9, 7] := by
  obtain ⟨s, hs, hlen, htwo, ⟨r, t⟩, ht, rfl, hnew⟩ : ∃ s ∈ twoSevens,
      (∀ i < 2, (s.contents smallDisk i).length ≤ 2) ∧ s.contents smallDisk 1 = [7, 7] ∧
      ∃ x ∈ (s.writei smallDisk 1 (.user onePage 0xfff) 0 2).toOption,
        x.1 = 0 ∧ x.2.contents smallDisk 1 = [9, 7] := by decide
  exact ⟨s, t, ready_twoSevens hs hlen, toOption_eq_some.1 ht, htwo, hnew⟩

end Xv6.Fs
