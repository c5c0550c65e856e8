import Xv6Fs.Ownership

/-!
# No block leaks

`Consistent` says that a block in a slot of a dinode in use is marked in the bitmap and in no
other slot. The converse is that no block is lost: a marked block is in a slot of some dinode in
use. The bitmap of a formatted disk also marks the blocks of its own layout, which are in no slot,
so the converse is stated from a start: in every state a run of the inode layer reaches, a block
that was free at its start is marked exactly when it is in a slot of a dinode in use
(`reachable_bitmap_exact`).

Only `balloc` marks blocks, and `bmap` calls it for an empty slot of the map of the entry and
stores the block it returns there. `Claims ip s s'` says that every block marked in `s'` and free
in `s` is in a slot of `ip`, that bits are only set, and that the slots of `ip` that hold a block
keep it. The three fill routines of `bmap` make it true and it composes, so it holds across
`bmap`, the loop of `writei` and `writei`, which writes the entry to its dinode when the file
grows. The other steps mark nothing: `iput` clears exactly the bits of the map it truncates with
its dinode, and `ialloc` claims a free dinode, which no witness of the property names.
-/

namespace Xv6Fs

variable (P : Params)

/-- Every block in use in `s'` that was free in `s` is in a slot of cache entry `ip`; bits are
only set, and the slots of `ip` that hold a block keep it. -/
structure Claims (ip : Nat) (s s' : State) : Prop where
  marks : ∀ y, s.disk.allocated P y → s'.disk.allocated P y
  keep : ∀ τ, τ.Valid P → s.slot P ip τ ≠ 0 → s'.slot P ip τ = s.slot P ip τ
  claimed : ∀ y, s.disk.allocated P y = false → s'.disk.allocated P y → s'.HasBlock P ip y

/-- Every block in use in `s` that was free in `s₀` is in a slot of a dinode in use. -/
def NoLeak (s₀ s : State) : Prop :=
  ∀ y, s.disk.allocated P y → s₀.disk.allocated P y = false →
    ∃ i τ, τ.Valid P ∧ s.disk.InUse i ∧ s.disk.blk P i τ = y

variable {P}

namespace Claims

variable {ip : Nat} {s s' s'' : State}

theorem refl (ip : Nat) (s : State) : Claims P ip s s :=
  ⟨fun _ h => h, fun _ _ _ => rfl, fun y h h' => by rw [h] at h'; cases h'⟩

theorem trans (h : Claims P ip s s') (h' : Claims P ip s' s'') : Claims P ip s s'' where
  marks y hy := h'.marks y (h.marks y hy)
  keep τ hτ h0 := by rw [h'.keep τ hτ (by rwa [h.keep τ hτ h0]), h.keep τ hτ h0]
  claimed y hy hy'' := by
    cases hy' : s'.disk.allocated P y
    · exact h'.claimed y hy' hy''
    · obtain ⟨τ, hτ, hval, h0⟩ := h.claimed y hy hy'
      exact ⟨τ, hτ, by rw [h'.keep τ hτ (hval ▸ h0), hval], h0⟩

/-- A step that keeps the bitmap and the slots of `ip`. -/
theorem of_frame (hslot : ∀ τ, τ.Valid P → s'.slot P ip τ = s.slot P ip τ)
    (halloc : ∀ y, s'.disk.allocated P y = s.disk.allocated P y) : Claims P ip s s' :=
  ⟨fun y hy => by rw [halloc]; exact hy, fun τ hτ _ => hslot τ hτ,
    fun y hy hy' => by rw [halloc, hy] at hy'; cases hy'⟩

/-- A fill of slot `σ` of `ip` with the block `a`, the one bit it sets. -/
theorem of_fill {σ : Slot} {a : Nat} (g : Grows P ip s s') (hσ : σ.Valid P) (ha : a ≠ 0)
    (hs : s'.slot P ip σ = a)
    (hnew : ∀ y, s'.disk.allocated P y → s.disk.allocated P y ∨ y = a) : Claims P ip s s' :=
  ⟨g.marks, g.keep, fun y hy hy' => (hnew y hy').elim (fun h => by rw [hy] at h; cases h)
    fun h => ⟨σ, hσ, by rw [hs, h], by rw [h]; exact ha⟩⟩

end Claims

section Fill

variable {s s' : State}

/-- A fill routine of `bmap` sets one bit, that of the block `balloc` returns. -/
theorem balloc_new {s₁ : State} {x : Nat} (hb : balloc P s = .ok (x, s₁))
    (hbit : s'.disk.bitmap = s₁.disk.bitmap) (y : Nat) (hy : s'.disk.allocated P y) :
    s.disk.allocated P y ∨ y = x := by
  obtain ⟨-, -, rfl⟩ := balloc_eq_ok hb
  have h : s'.disk.allocated P y = (s.claim P x).disk.allocated P y := by
    simp only [Disk.allocated, hbit]
  rw [h, claim_allocated, Bool.or_eq_true, decide_eq_true_eq] at hy
  exact hy.symm

theorem bmapAddr_claims {ip k a : Nat} {σ : Slot}
    (hσ : σ = .direct k ∧ k < P.NDIRECT ∨ σ = .indirect ∧ k = P.NDIRECT)
    (own : s.Owns P ip) (boot : s.disk.allocated P 0) (h : bmapAddr P s ip k = .ok (a, s')) :
    Claims P ip s s' := by
  obtain ⟨g, -, a0, hs, -⟩ := bmapAddr_spec hσ own boot h
  refine .of_fill g (by rcases hσ with ⟨rfl, hk⟩ | ⟨rfl, -⟩ <;> trivial) a0 hs ?_
  unfold bmapAddr at h
  split at h
  · obtain ⟨⟨x, s₁⟩, hb, h⟩ := bind_eq_ok h
    simp only [pure, Except.pure, Except.ok.injEq, Prod.mk.injEq] at h
    obtain ⟨rfl, rfl⟩ := h
    exact balloc_new hb rfl
  · cases h
    exact fun y hy => .inl hy

theorem bmapIndirect2_claims {ip a : Nat} (own : s.Owns P ip) (boot : s.disk.allocated P 0)
    (h : bmapIndirect2 P s ip = .ok (a, s')) : Claims P ip s s' := by
  obtain ⟨g, -, a0, hs, -⟩ := bmapIndirect2_spec own boot h
  refine .of_fill (σ := .indirect2) g trivial a0 hs ?_
  unfold bmapIndirect2 at h
  split at h
  · obtain ⟨⟨x, s₁⟩, hb, h⟩ := bind_eq_ok h
    simp only [pure, Except.pure, Except.ok.injEq, Prod.mk.injEq] at h
    obtain ⟨rfl, rfl⟩ := h
    exact balloc_new hb rfl
  · cases h
    exact fun y hy => .inl hy

theorem bmapEntry_claims {ip a : Nat} {σ π : Slot} (hσ : σ.Valid P)
    (hpar : σ.parent = some π) (hπ0 : s.slot P ip π ≠ 0) (own : s.Owns P ip)
    (boot : s.disk.allocated P 0) (h : bmapEntry P s (s.slot P ip π) σ.pos = .ok (a, s')) :
    Claims P ip s s' := by
  obtain ⟨g, -, a0, hs, -⟩ := bmapEntry_spec hσ hpar hπ0 own boot h
  refine .of_fill g hσ a0 hs ?_
  unfold bmapEntry at h
  split at h
  · obtain ⟨⟨x, s₁⟩, hb, h⟩ := bind_eq_ok h
    simp only [pure, Except.pure, Except.ok.injEq, Prod.mk.injEq] at h
    obtain ⟨rfl, rfl⟩ := h
    exact balloc_new hb rfl
  · cases h
    exact fun y hy => .inl hy

/-- `bmap` claims for `ip` every block it marks: on each of its paths, the fill routines in
turn. -/
theorem bmap_claims {ip bn a : Nat} (own : s.Owns P ip) (boot : s.disk.allocated P 0)
    (h : bmap P s ip bn = .ok (a, s')) : Claims P ip s s' := by
  unfold bmap at h
  split at h
  · exact bmapAddr_claims (σ := .direct bn) (.inl ⟨rfl, ‹_›⟩) own boot h
  dsimp only at h
  split at h
  · rename_i hi
    obtain ⟨⟨ind, s1⟩, h1, h2⟩ := bind_eq_ok h
    obtain ⟨g1, o1, i0, hs1, -⟩ := bmapAddr_spec (σ := .indirect) (.inr ⟨rfl, rfl⟩) own boot h1
    rw [← hs1] at h2 i0
    exact (bmapAddr_claims (σ := .indirect) (.inr ⟨rfl, rfl⟩) own boot h1).trans
      (bmapEntry_claims (σ := .entry (bn - P.NDIRECT)) hi rfl i0 o1 (g1.marks 0 boot) h2)
  split at h
  · rename_i hdd
    obtain ⟨⟨ind, s1⟩, h1, h2⟩ := bind_eq_ok h
    obtain ⟨⟨mid, s2⟩, h2, h3⟩ := bind_eq_ok h2
    have hv := leaf_valid hdd
    obtain ⟨g1, o1, i0, hs1, -⟩ := bmapIndirect2_spec own boot h1
    rw [← hs1] at h2 i0
    obtain ⟨g2, o2, m0, hs2, -⟩ := bmapEntry_spec
      (σ := .middle ((bn - P.NDIRECT - P.NINDIRECT) / P.NINDIRECT)) (π := .indirect2)
      hv.1 rfl i0 o1 (g1.marks 0 boot) h2
    rw [← hs2] at h3 m0
    exact ((bmapIndirect2_claims own boot h1).trans
      (bmapEntry_claims (σ := .middle ((bn - P.NDIRECT - P.NINDIRECT) / P.NINDIRECT))
        (π := .indirect2) hv.1 rfl i0 o1 (g1.marks 0 boot) h2)).trans
      (bmapEntry_claims (π := .middle _) hv rfl m0 o2 (g2.marks 0 (g1.marks 0 boot)) h3)
  · cases h

/-- The loop of `writei`, by induction on the fuel: `bmap`, then a write of the data block,
which keeps the bitmap and the map. -/
theorem writeiLoop_claims {ip : Nat} :
    ∀ {fuel off o : Nat} {s s' : State} {src : List UInt8}, s.Owns P ip →
      s.disk.allocated P 0 → writeiLoop P ip fuel s off src = .ok (o, s') → Claims P ip s s'
  | 0, _, _, s, _, _, _, _, h => by cases h; exact .refl _ s
  | fuel + 1, off, o, s, s', src, own, boot, h => by
    by_cases hsrc : src = []
    · subst hsrc
      rw [writeiLoop_nil] at h
      cases h
      exact .refl _ s
    rw [writeiLoop, if_neg hsrc] at h
    obtain ⟨⟨b, s1⟩, hb, h⟩ := bind_eq_ok h
    dsimp only at h
    obtain ⟨g1, own1, hb0, hbn, hs1, -⟩ := bmap_spec own boot hb
    obtain ⟨-, own2, slots2, -⟩ := writeBlock_spec (writeBytes (s1.disk.data b) (off % P.BSIZE)
      (src.take (min src.length (P.BSIZE - off % P.BSIZE)))) own1 hbn hs1 hb0
    exact ((bmap_claims own boot hb).trans (.of_frame slots2 fun _ => rfl)).trans
      (writeiLoop_claims own2 (g1.marks 0 boot) h)

/-- `writei` claims for `ip` every block it marks. -/
theorem writei_claims {ip off : Nat} {src : List UInt8} {r : Int} (own : s.Owns P ip)
    (boot : s.disk.allocated P 0) (h : writei P s ip src off = .ok (r, s')) :
    Claims P ip s s' := by
  unfold writei at h
  dsimp only at h
  split at h
  · split at h
    · cases h; exact .refl ip s
    split at h <;> cases h <;> exact .refl ip s
  split at h
  · cases h; exact .refl ip s
  split at h
  · cases h; exact .refl ip s
  obtain ⟨⟨o, t⟩, hl, h⟩ := bind_eq_ok h
  have hloop := writeiLoop_claims own boot hl
  dsimp only at h
  split at h <;> simp only [pure, Except.pure, Except.ok.injEq, Prod.mk.injEq] at h <;>
    obtain ⟨-, rfl⟩ := h
  · refine hloop.trans (.of_frame (fun τ _ => ?_) fun _ => rfl)
    exact congrFun (slot_congr (by rfl) (by simp) (by simp)) τ
  · exact hloop

end Fill

section Steps

variable {s s' : State}

/-- `ialloc` writes one dinode, which was free, and nothing else of the disk. -/
theorem ialloc_disk {dev : Nat} {type : FileType} {ip : Nat}
    (h : ialloc P s dev type = .ok (ip, s')) :
    ∃ inum, (s.disk.dinodes inum).type = .free ∧
      s'.disk = s.disk.setDinode inum { Dinode.zero with type := type } := by
  unfold ialloc at h
  split at h
  · rename_i inum hfind
    exact ⟨inum, by simpa using List.find?_some hfind, iget_disk h⟩
  · cases h

end Steps

namespace NoLeak

variable {dev : Nat} {s₀ s s' : State} (boot₀ : s₀.disk.allocated P 0)
  (nl : NoLeak P s₀ s) (c : Consistent P dev s)
include boot₀ nl c

/-- A step on the map of the held entry `ip` that claims for it every block it marks: a block
marked before keeps its slot, of `ip` or of another dinode, and a block it marks is in a slot of
`ip`, which is in the dinode of `ip`. -/
theorem oneInode {ip : Nat} (live : s.Live P ip) (one : OneInode P ip s s')
    (cl : Claims P ip s s') : NoLeak P s₀ s' := by
  intro y hy hy₀
  have hslot : ∀ τ, s'.slot P ip τ = s'.disk.blk P (s.icache ip).inum τ := fun τ => by
    rw [State.slot, ← one.written]; rfl
  have hu : s'.disk.InUse (s.icache ip).inum := (c.oneInode_inUse live one _).mpr (c.inUse live)
  cases hs : s.disk.allocated P y
  · obtain ⟨τ, hτ, hval, -⟩ := cl.claimed y hs hy
    exact ⟨_, τ, hτ, hu, (hslot τ).symm.trans hval⟩
  obtain ⟨i, τ, hτ, hi, hval⟩ := nl y hs hy₀
  by_cases hi0 : i = (s.icache ip).inum
  · subst hi0
    have hy0 : y ≠ 0 := by rintro rfl; rw [boot₀] at hy₀; cases hy₀
    have hkeep := cl.keep τ hτ (by rw [c.slot_eq live, hval]; exact hy0)
    exact ⟨_, τ, hτ, hu, by rw [← hslot, hkeep, c.slot_eq live, hval]⟩
  · exact ⟨i, τ, hτ, (c.oneInode_inUse live one i).mpr hi,
      (c.oneInode_blk live one hi0 hi hτ).trans hval⟩

/-- `iput` marks nothing: a block still marked after a truncation was in no slot of the
truncated inode, so its dinode is another one, left as it was. -/
theorem iput {ip : Nat} (hip : ip < P.NINODE) (href : 0 < (s.icache ip).ref)
    (h : Xv6Fs.iput P s ip = .ok s') : NoLeak P s₀ s' := by
  rcases c.iput_cases hip href h with rfl | ⟨live, hd, -, -, ha, hdin, -, -, -⟩
  · exact nl
  intro y hy hy₀
  obtain ⟨hys, hnot⟩ := (ha y).mp hy
  obtain ⟨i, τ, hτ, hi, hval⟩ := nl y hys hy₀
  have hi0 : i ≠ (s.icache ip).inum := by
    rintro rfl
    refine hnot ⟨τ, hτ, by rw [c.slot_eq live, hval], ?_⟩
    rintro rfl
    rw [boot₀] at hy₀
    cases hy₀
  refine ⟨i, τ, hτ, ?_, ?_⟩
  · rw [Disk.InUse, hdin i hi0]; exact hi
  · unfold Disk.blk; rw [hdin i hi0, hd]; exact hval

/-- Every step of the inode layer keeps the property. -/
theorem step (h : InodeStep P dev s s') : NoLeak P s₀ s' := by
  have of_disk : s'.disk = s.disk → NoLeak P s₀ s' := fun hd => by
    unfold NoLeak; rw [hd]; exact nl
  cases h with
  | readi live hoff hn h =>
    obtain ⟨r', h'⟩ := c.readi_ok live hoff hn
    rw [h'] at h
    cases h
    exact nl
  | writei live hoff hn h =>
    rcases c.writei_cases live hoff hn h with rfl | one
    · exact nl
    · exact oneInode boot₀ nl c live one (writei_claims (c.owns live) c.boot h)
  | iget h => exact of_disk (iget_disk h)
  | idup _ _ => exact of_disk rfl
  | ilock _ h => exact of_disk (ilock_disk h)
  | iunlock _ h => exact of_disk (iunlock_disk h)
  | iput hip href h => exact iput boot₀ nl c hip href h
  | ialloc h =>
    obtain ⟨inum, hfree, hd⟩ := ialloc_disk h
    intro y hy hy₀
    rw [hd, allocated_setDinode] at hy
    obtain ⟨i, τ, hτ, hi, hval⟩ := nl y hy hy₀
    have hi0 : i ≠ inum := by rintro rfl; exact hi hfree
    refine ⟨i, τ, hτ, ?_, ?_⟩ <;>
      simp only [hd, Disk.InUse, Disk.blk, Disk.setDinode_dinodes, Disk.setDinode_data,
        Function.update_noteq hi0]
    exacts [hi, hval]

/-- With the invariant, the property makes the bitmap exact on the blocks that were free at the
start: such a block is marked exactly when it is in a slot of a dinode in use. -/
theorem bitmap_exact : ∀ y, s₀.disk.allocated P y = false → (s.disk.allocated P y ↔
    ∃ i τ, τ.Valid P ∧ s.disk.InUse i ∧ s.disk.blk P i τ = y ∧ y ≠ 0) := by
  intro y hy₀
  have hy0 : y ≠ 0 := by rintro rfl; rw [boot₀] at hy₀; cases hy₀
  constructor
  · intro hy
    obtain ⟨i, τ, hτ, hi, hval⟩ := nl y hy hy₀
    exact ⟨i, τ, hτ, hi, hval, hy0⟩
  · rintro ⟨i, τ, hτ, hi, rfl, h0⟩
    exact c.used i τ hτ hi h0

end NoLeak

/-- On the blocks that were free at the start of a run of the inode layer from a consistent
state, the bitmap is exact in every state the run reaches: such a block is marked exactly when
it is in a slot of a dinode in use. No step loses a block it marks, and no block stays marked
once its file is truncated. -/
theorem reachable_bitmap_exact {dev : Nat} {s₀ s : State} (h₀ : Consistent P dev s₀)
    (hr : InodeReachable P dev s₀ s) :
    ∀ y, s₀.disk.allocated P y = false → (s.disk.allocated P y ↔
      ∃ i τ, τ.Valid P ∧ s.disk.InUse i ∧ s.disk.blk P i τ = y ∧ y ≠ 0) := by
  have key : Consistent P dev s ∧ NoLeak P s₀ s := by
    induction hr with
    | start => exact ⟨h₀, fun y hy hy₀ => by rw [hy] at hy₀; cases hy₀⟩
    | step _ hs ih => exact ⟨ih.1.step hs, ih.2.step h₀.boot ih.1 hs⟩
  exact key.2.bitmap_exact h₀.boot key.1

/-- The bitmap of the state reached from `sampleFs` by `writtenXFs_reach`, where `writei` has
taken a free block for `x`. -/
theorem reachable_bitmap_exact_sampleFs :
    Consistent Params.sample 1 sampleFs ∧
    ∃ s, InodeReachable Params.sample 1 sampleFs s ∧ (s.icache 1).size = 1 ∧
    ∀ y, sampleFs.disk.allocated Params.sample y = false →
      (s.disk.allocated Params.sample y ↔ ∃ i τ, τ.Valid Params.sample ∧
        s.disk.InUse i ∧ s.disk.blk Params.sample i τ = y ∧ y ≠ 0) := by
  obtain ⟨s, hr, hsize⟩ := writtenXFs_reach
  exact ⟨sampleFs_consistent, s, hr, hsize, reachable_bitmap_exact sampleFs_consistent hr⟩

end Xv6Fs
