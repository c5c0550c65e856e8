import Xv6Fs.System
import Xv6Fs.Dir

/-!
# Block ownership over runs of the inode layer

`Consistent` is the invariant of the inode layer. On disk, the blocks before the data region are
marked in the bitmap, the nonzero slots of the allocated dinodes hold pairwise distinct data
blocks, all marked, and no file but a device has a hole below its size. In the cache, an entry a
caller holds is a copy of its dinode, and no two referenced entries share an inode number, all
of them on the one device.

Every step keeps it. A step that works on the map of one held entry (`writei`) is described by
`OneInode`, and `Consistent.oneInode` says once why such a step keeps the invariant: the blocks
it adds were free, and it writes no block of another inode. `iput` of the last reference to an
unlinked inode frees exactly that inode's blocks (`itrunc_spec`) and its dinode. The other steps
change the cache only, or, for `ialloc`, turn a free dinode into an empty one.
-/

namespace Xv6Fs

variable (P : Params)

/-- The block in slot `τ` of dinode `i`. -/
def Disk.blk (d : Disk) (i : Nat) (τ : Slot) : Nat :=
  slotVal P d.data (d.dinodes i) τ

/-- Dinode `i` is allocated. -/
def Disk.InUse (d : Disk) (i : Nat) : Prop :=
  (d.dinodes i).type ≠ .free

/-- The invariant of the inode layer on the device `dev`. -/
structure Consistent (dev : Nat) (s : State) : Prop where
  formatted : s.disk.Formatted P
  inj : ∀ i j σ τ, σ.Valid P → τ.Valid P → s.disk.InUse i → s.disk.InUse j →
    s.disk.blk P i σ ≠ 0 → s.disk.blk P i σ = s.disk.blk P j τ → i = j ∧ σ = τ
  used : ∀ i σ, σ.Valid P → s.disk.InUse i → s.disk.blk P i σ ≠ 0 →
    s.disk.allocated P (s.disk.blk P i σ)
  region : ∀ i σ, σ.Valid P → s.disk.InUse i → s.disk.blk P i σ ≠ 0 →
    s.disk.dataStart P ≤ s.disk.blk P i σ
  holes : ∀ i, s.disk.InUse i → (s.disk.dinodes i).type ≠ .dev →
    ∀ p < (s.disk.dinodes i).size,
      p / P.BSIZE < P.MAXFILE ∧ s.disk.blk P i (blockSlot P (p / P.BSIZE)) ≠ 0
  coh : ∀ ip, s.Live P ip → (s.icache ip).toDinode = s.disk.dinodes (s.icache ip).inum
  alive : ∀ ip, s.Live P ip → (s.icache ip).type ≠ .free
  ident : ∀ ip ip', ip < P.NINODE → ip' < P.NINODE → 0 < (s.icache ip).ref →
    0 < (s.icache ip').ref → (s.icache ip).inum = (s.icache ip').inum → ip = ip'
  devs : ∀ ip, ip < P.NINODE → 0 < (s.icache ip).ref → (s.icache ip).dev = dev

/-- What a step on the map and size of the held entry `ip` may do: the rest of the cache and
the identity and flags of `ip` stay, its size does not shrink, the superblock stays, of the
dinodes only that of `ip` is written, with the entry; no used block that `ip` does not have is
written, bits are only set, a slot of `ip` that changes gets a block that was free, and `ip`
keeps the invariants of its file. -/
structure OneInode (ip : Nat) (s s' : State) : Prop where
  others : ∀ o, o ≠ ip → s'.icache o = s.icache o
  inum : (s'.icache ip).inum = (s.icache ip).inum
  ref : (s'.icache ip).ref = (s.icache ip).ref
  valid : (s'.icache ip).valid = (s.icache ip).valid
  busy : (s'.icache ip).busy = (s.icache ip).busy
  type : (s'.icache ip).type = (s.icache ip).type
  dev : (s'.icache ip).dev = (s.icache ip).dev
  size : (s.icache ip).size ≤ (s'.icache ip).size
  sb : s'.disk.sb = s.disk.sb
  dinodes : ∀ j, j ≠ (s.icache ip).inum → s'.disk.dinodes j = s.disk.dinodes j
  written : s'.disk.dinodes (s.icache ip).inum = (s'.icache ip).toDinode
  data : ∀ y, s.disk.allocated P y → ¬ s.HasBlock P ip y → s'.disk.data y = s.disk.data y
  marks : ∀ y, s.disk.allocated P y → s'.disk.allocated P y
  fresh : ∀ τ, τ.Valid P → s'.slot P ip τ ≠ 0 →
    s'.slot P ip τ = s.slot P ip τ ∨ s.disk.allocated P (s'.slot P ip τ) = false
  inv : s'.FileInv P ip

variable {P} {dev : Nat} {s s' : State}

namespace Consistent

variable (c : Consistent P dev s)
include c

theorem boot : s.disk.allocated P 0 := c.formatted.boot

/-- A held entry reads its map from its dinode. -/
theorem slot_eq {ip : Nat} (live : s.Live P ip) (τ : Slot) :
    s.slot P ip τ = s.disk.blk P (s.icache ip).inum τ := by
  rw [State.slot, c.coh ip live]
  rfl

theorem inUse {ip : Nat} (live : s.Live P ip) : s.disk.InUse (s.icache ip).inum := by
  rw [Disk.InUse, ← c.coh ip live]
  exact c.alive ip live

/-- A held entry owns its map. -/
theorem owns {ip : Nat} (live : s.Live P ip) : s.Owns P ip := by
  have hu := c.inUse live
  refine ⟨fun σ τ hσ hτ h0 heq => ?_, fun σ hσ h0 => ?_⟩
  · change s.slot P ip σ ≠ 0 at h0
    change s.slot P ip σ = s.slot P ip τ at heq
    rw [c.slot_eq live] at h0 heq
    rw [c.slot_eq live] at heq
    exact (c.inj _ _ σ τ hσ hτ hu hu h0 heq).2
  · change s.slot P ip σ ≠ 0 at h0
    change s.disk.allocated P (s.slot P ip σ)
    rw [c.slot_eq live] at h0 ⊢
    exact c.used _ σ hσ hu h0

/-- A held entry that is not a device has the invariants of its file. -/
theorem fileInv {ip : Nat} (live : s.Live P ip) (hdev : (s.icache ip).type ≠ .dev) :
    s.FileInv P ip := by
  refine ⟨c.owns live, c.formatted, fun τ hτ h0 => ?_, fun p hp => ?_⟩
  · rw [c.slot_eq live] at h0 ⊢
    exact c.region _ τ hτ (c.inUse live) h0
  have hd := c.coh ip live
  have hdev' : (s.disk.dinodes (s.icache ip).inum).type ≠ .dev := by rw [← hd]; exact hdev
  have hp' : p < (s.disk.dinodes (s.icache ip).inum).size := by rw [← hd]; exact hp
  obtain ⟨hpn, hpm⟩ := c.holes _ (c.inUse live) hdev' p hp'
  exact ⟨hpn, by rw [c.slot_eq live]; exact hpm⟩

/-- After a step on the map of the held entry `ip`, the same dinodes are in use. -/
theorem oneInode_inUse {ip : Nat} (live : s.Live P ip) (h : OneInode P ip s s') (j : Nat) :
    s'.disk.InUse j ↔ s.disk.InUse j := by
  by_cases hj : j = (s.icache ip).inum
  · subst hj
    rw [Disk.InUse, Disk.InUse, h.written, ← c.coh ip live]
    exact not_congr (by rw [h.type])
  · rw [Disk.InUse, Disk.InUse, h.dinodes j hj]

/-- After a step on the map of the held entry `ip`, every other dinode in use keeps its
slots: the step writes no block of theirs. -/
theorem oneInode_blk {ip : Nat} (live : s.Live P ip) (h : OneInode P ip s s') {j : Nat}
    (hj : j ≠ (s.icache ip).inum) (hu : s.disk.InUse j) {τ : Slot} (hτ : τ.Valid P) :
    s'.disk.blk P j τ = s.disk.blk P j τ := by
  unfold Disk.blk
  rw [h.dinodes j hj]
  refine slotVal_congr (fun ρ hρ _ h0 => h.data _ (c.used j ρ hρ hu h0) ?_) τ hτ
  rintro ⟨σ, hσ, hval, -⟩
  rw [c.slot_eq live] at hval
  exact hj (c.inj _ _ σ ρ hσ hρ (c.inUse live) hu (hval ▸ h0) hval).1.symm

/-- A step on the map of one held entry keeps the invariant. -/
theorem oneInode {ip : Nat} (live : s.Live P ip) (h : OneInode P ip s s') :
    Consistent P dev s' := by
  set i0 := (s.icache ip).inum with hi0
  have hslot' : ∀ τ, s'.slot P ip τ = s'.disk.blk P i0 τ := fun τ => by
    rw [State.slot, ← h.written]; rfl
  have hu0 := c.inUse live
  have hkey : ∀ x, (s'.icache x).ref = (s.icache x).ref ∧
      (s'.icache x).inum = (s.icache x).inum ∧ (s'.icache x).dev = (s.icache x).dev := by
    intro x
    by_cases hx : x = ip
    · subst hx; exact ⟨h.ref, h.inum, h.dev⟩
    · rw [h.others x hx]; exact ⟨rfl, rfl, rfl⟩
  have inUse_iff := c.oneInode_inUse live h
  -- the slots of every other allocated dinode stay
  have same : ∀ j, j ≠ i0 → s.disk.InUse j → ∀ τ, τ.Valid P →
      s'.disk.blk P j τ = s.disk.blk P j τ := fun j hj hu τ hτ => c.oneInode_blk live h hj hu hτ
  -- a block of `ip` is no block of another dinode
  have cross : ∀ j σ τ, j ≠ i0 → s.disk.InUse j → σ.Valid P → τ.Valid P →
      s'.disk.blk P i0 σ ≠ 0 → s'.disk.blk P i0 σ ≠ s'.disk.blk P j τ := by
    intro j σ τ hj hu hσ hτ h0 heq
    rw [same j hj hu τ hτ] at heq
    rw [← hslot'] at h0 heq
    rcases h.fresh σ hσ h0 with hk | hf
    · rw [hk, c.slot_eq live] at heq
      rw [hk, c.slot_eq live] at h0
      exact hj (c.inj _ _ σ τ hσ hτ hu0 hu h0 heq).1.symm
    · rw [heq] at hf h0
      rw [c.used j τ hτ hu h0] at hf
      cases hf
  refine ⟨h.inv.formatted, fun i j σ τ hσ hτ hi hj h0 heq => ?_, fun i σ hσ hi h0 => ?_,
    fun i σ hσ hi h0 => ?_, fun i hi hdev p hp => ?_, fun x hx => ?_, fun x hx => ?_,
    fun x y hx hy hxr hyr hxy => ?_, fun x hx hxr => ?_⟩
  · rw [inUse_iff] at hi hj
    by_cases hi' : i = i0 <;> by_cases hj' : j = i0
    · subst hi' hj'
      rw [← hslot'] at h0 heq
      rw [← hslot'] at heq
      exact ⟨rfl, h.inv.own.inj σ τ hσ hτ h0 heq⟩
    · subst hi'
      exact absurd heq (cross j σ τ hj' hj hσ hτ h0)
    · subst hj'
      exact absurd heq.symm (cross i τ σ hi' hi hτ hσ (heq ▸ h0))
    · rw [same i hi' hi σ hσ, same j hj' hj τ hτ] at heq
      rw [same i hi' hi σ hσ] at h0
      exact c.inj i j σ τ hσ hτ hi hj h0 heq
  · rw [inUse_iff] at hi
    by_cases hi' : i = i0
    · subst hi'
      rw [← hslot'] at h0 ⊢
      exact h.inv.own.used σ hσ h0
    · rw [same i hi' hi σ hσ] at h0 ⊢
      exact h.marks _ (c.used i σ hσ hi h0)
  · rw [inUse_iff] at hi
    by_cases hi' : i = i0
    · subst hi'
      rw [← hslot'] at h0 ⊢
      exact h.inv.region σ hσ h0
    · rw [same i hi' hi σ hσ] at h0 ⊢
      rw [Disk.dataStart, h.sb]
      exact c.region i σ hσ hi h0
  · have hi' := (inUse_iff i).mp hi
    by_cases hii : i = i0
    · subst hii
      rw [h.written] at hp
      obtain ⟨hpn, hpm⟩ := h.inv.holes p hp
      exact ⟨hpn, by rw [← hslot']; exact hpm⟩
    · rw [h.dinodes i hii] at hdev hp
      obtain ⟨hpn, hpm⟩ := c.holes i hi' hdev p hp
      exact ⟨hpn, by rw [same i hii hi' _ (blockSlot_valid hpn)]; exact hpm⟩
  · by_cases hxi : x = ip
    · subst hxi
      rw [h.inum, h.written]
    · have hx' : s.Live P x := by
        obtain ⟨hlt, hr, hv⟩ := hx
        rw [h.others x hxi] at hr hv
        exact ⟨hlt, hr, hv⟩
      have hne : (s.icache x).inum ≠ i0 := fun he =>
        hxi (c.ident x ip hx'.1 live.1 hx'.2.1 live.2.1 he)
      rw [h.others x hxi, h.dinodes _ hne]
      exact c.coh x hx'
  · by_cases hxi : x = ip
    · subst hxi
      rw [h.type]
      exact c.alive x live
    · obtain ⟨hlt, hr, hv⟩ := hx
      rw [h.others x hxi] at hr hv ⊢
      exact c.alive x ⟨hlt, hr, hv⟩
  · obtain ⟨hxr', hxi', -⟩ := hkey x
    obtain ⟨hyr', hyi', -⟩ := hkey y
    rw [hxr'] at hxr
    rw [hyr'] at hyr
    rw [hxi', hyi'] at hxy
    exact c.ident x y hx hy hxr hyr hxy
  · obtain ⟨hxr', -, hxd⟩ := hkey x
    rw [hxr'] at hxr
    rw [hxd]
    exact c.devs x hx hxr

/-- A step that changes the cache only keeps the invariant when it gives no reference to an
unreferenced entry and every entry it leaves held was held with the same dinode, or is a copy of
its dinode of a nonzero type. -/
theorem cacheOnly (hdisk : s'.disk = s.disk)
    (hkey : ∀ x < P.NINODE, 0 < (s'.icache x).ref → 0 < (s.icache x).ref ∧
      (s'.icache x).inum = (s.icache x).inum ∧ (s'.icache x).dev = (s.icache x).dev)
    (hlive : ∀ x, s'.Live P x → (s.Live P x ∧ (s'.icache x).toDinode = (s.icache x).toDinode) ∨
      ((s'.icache x).toDinode = s.disk.dinodes (s'.icache x).inum ∧
        (s'.icache x).type ≠ .free)) :
    Consistent P dev s' := by
  obtain ⟨formatted, inj, used, region, holes, coh, alive, ident, devs⟩ := c
  refine ⟨hdisk ▸ formatted, hdisk ▸ inj, hdisk ▸ used, hdisk ▸ region, hdisk ▸ holes,
    fun x hx => ?_, fun x hx => ?_, fun x y hx hy hxr hyr hxy => ?_, fun x hx hxr => ?_⟩
  · rcases hlive x hx with ⟨hx', hd⟩ | ⟨hd, -⟩
    · rw [hd, hdisk, (hkey x hx.1 hx.2.1).2.1]
      exact coh x hx'
    · rw [hd, hdisk]
  · rcases hlive x hx with ⟨hx', hd⟩ | ⟨-, ht⟩
    · have := congrArg Dinode.type hd
      simp only at this
      rw [this]
      exact alive x hx'
    · exact ht
  · obtain ⟨hxr', hxi, -⟩ := hkey x hx hxr
    obtain ⟨hyr', hyi, -⟩ := hkey y hy hyr
    rw [hxi, hyi] at hxy
    exact ident x y hx hy hxr' hyr' hxy
  · obtain ⟨hxr', -, hxd⟩ := hkey x hx hxr
    rw [hxd]
    exact devs x hx hxr'

/-- Replacing entry `ip` by one with the same identity, referenced only if it was, keeps the
invariant if the new entry is held only if the old one was, with the same dinode, or it is a
copy of its dinode of a nonzero type: `idup`, `iunlock`, `iput` without truncation, `ilock`,
and a hit of `iget`. -/
theorem setInode {ip : Nat} {e : Inode} (hinum : e.inum = (s.icache ip).inum)
    (hdev : e.dev = (s.icache ip).dev) (href : 0 < e.ref → 0 < (s.icache ip).ref)
    (hheld : ip < P.NINODE → 0 < e.ref → e.valid →
      ((s.icache ip).valid ∧ e.toDinode = (s.icache ip).toDinode) ∨
      (e.toDinode = s.disk.dinodes e.inum ∧ e.type ≠ .free)) :
    Consistent P dev (s.setInode ip e) := by
  have upd : ∀ x, (s.setInode ip e).icache x = if x = ip then e else s.icache x := fun x => by
    by_cases hx : x = ip
    · subst hx; simp
    · simp [hx]
  refine c.cacheOnly rfl (fun x _ hr => ?_) (fun x ⟨hlt, hr, hv⟩ => ?_)
  · rw [upd] at hr ⊢
    split
    · rename_i hx; subst hx; rw [if_pos rfl] at hr; exact ⟨href hr, hinum, hdev⟩
    · rename_i hx; rw [if_neg hx] at hr; exact ⟨hr, rfl, rfl⟩
  · rw [upd] at hr hv ⊢
    split
    · rename_i hx
      subst hx
      rw [if_pos rfl] at hr hv
      rcases hheld hlt hr hv with ⟨hv', hd⟩ | hnew
      · exact .inl ⟨⟨hlt, href hr, hv'⟩, hd⟩
      · exact .inr hnew
    · rename_i hx; rw [if_neg hx] at hr hv; exact .inl ⟨⟨hlt, hr, hv⟩, rfl⟩

/-- `ilock` keeps the invariant: it sets the busy flag, and loads an entry that is not valid
from its dinode, which must have a type. -/
theorem ilock {ip : Nat} (h : Xv6Fs.ilock s ip = .ok s') : Consistent P dev s' := by
  unfold Xv6Fs.ilock at h
  split at h
  · cases h
  split at h
  · cases h
  rename_i hr _
  simp only [State.setInode_icache, Function.update_same] at h
  split at h
  · cases h
    exact c.setInode rfl rfl (fun _ => by omega) fun _ _ hv => .inl ⟨hv, rfl⟩
  · split at h
    · cases h
    · rename_i ht
      cases h
      rw [State.setInode_setInode]
      exact c.setInode rfl rfl (fun _ => by omega) fun _ _ _ => .inr ⟨rfl, ht⟩

/-- `iunlock` keeps the invariant. -/
theorem iunlock {ip : Nat} (h : Xv6Fs.iunlock s ip = .ok s') : Consistent P dev s' := by
  unfold Xv6Fs.iunlock at h
  split at h
  · cases h
  · cases h
    exact c.setInode rfl rfl id fun _ _ hv => .inl ⟨hv, rfl⟩

/-- `iget` keeps the invariant: a hit adds a reference, and a claimed entry was unreferenced
and no referenced entry has its new identity. -/
theorem iget {inum ip : Nat} (h : Xv6Fs.iget P s dev inum = .ok (ip, s')) :
    Consistent P dev s' := by
  obtain ⟨hip, ⟨hr, -, -, rfl⟩ | ⟨h0, hno, rfl⟩⟩ := iget_cases h
  · exact c.setInode rfl rfl (fun _ => hr) fun _ _ hv => .inl ⟨hv, rfl⟩
  have upd : ∀ x, x ≠ ip → (s.setInode ip
      { s.icache ip with dev := dev, inum := inum, ref := 1, busy := false, valid := false }).icache
        x = s.icache x := fun x hx => by simp [hx]
  -- no other referenced entry has the identity
  have other : ∀ y, y < P.NINODE → y ≠ ip → 0 < (s.icache y).ref → (s.icache y).inum ≠ inum :=
    fun y hy _ hyr he => hno y hy ⟨hyr, c.devs y hy hyr, he⟩
  refine ⟨c.formatted, c.inj, c.used, c.region, c.holes, fun x hx => ?_, fun x hx => ?_,
    fun x y hx hy hxr hyr hxy => ?_, fun x hx hxr => ?_⟩
  · have hxi : x ≠ ip := by rintro rfl; simp [State.Live] at hx
    obtain ⟨hlt, hr', hv⟩ := hx
    rw [upd x hxi] at hr' hv ⊢
    exact c.coh x ⟨hlt, hr', hv⟩
  · have hxi : x ≠ ip := by rintro rfl; simp [State.Live] at hx
    obtain ⟨hlt, hr', hv⟩ := hx
    rw [upd x hxi] at hr' hv ⊢
    exact c.alive x ⟨hlt, hr', hv⟩
  · by_cases hxi : x = ip <;> by_cases hyi : y = ip
    · rw [hxi, hyi]
    · subst hxi
      rw [upd y hyi] at hyr hxy
      simp only [State.setInode_icache, Function.update_same] at hxy
      exact absurd hxy.symm (other y hy hyi hyr)
    · subst hyi
      rw [upd x hxi] at hxr hxy
      simp only [State.setInode_icache, Function.update_same] at hxy
      exact absurd hxy (other x hx hxi hxr)
    · rw [upd x hxi] at hxr hxy
      rw [upd y hyi] at hyr hxy
      exact c.ident x y hx hy hxr hyr hxy
  · by_cases hxi : x = ip
    · subst hxi; simp
    · rw [upd x hxi] at hxr ⊢
      exact c.devs x hx hxr

/-- The state after the inode of the held entry `ip` is freed keeps the invariant: the data and
the superblock as they were, of the bitmap exactly the blocks of `ip` cleared, which are data
blocks, its dinode free and the others as
they were, the entry no longer referenced and the other entries as they were. -/
theorem freed {ip : Nat} (live : s.Live P ip) (hdata : s'.disk.data = s.disk.data)
    (hsb : s'.disk.sb = s.disk.sb) (halloc : ∀ y, s'.disk.allocated P y = true ↔
      s.disk.allocated P y = true ∧ ¬ ∃ τ, τ.Valid P ∧ s.slot P ip τ = y ∧ y ≠ 0)
    (hdin : ∀ j, j ≠ (s.icache ip).inum → s'.disk.dinodes j = s.disk.dinodes j)
    (hfree : (s'.disk.dinodes (s.icache ip).inum).type = .free)
    (hothers : ∀ x, x ≠ ip → s'.icache x = s.icache x) (href : (s'.icache ip).ref = 0) :
    Consistent P dev s' := by
  set i0 := (s.icache ip).inum
  have hu0 := c.inUse live
  have hu : ∀ j, s'.disk.InUse j → j ≠ i0 ∧ s.disk.InUse j := fun j hj => by
    have hj0 : j ≠ i0 := by rintro rfl; exact hj hfree
    exact ⟨hj0, by rw [Disk.InUse, ← hdin j hj0]; exact hj⟩
  have same : ∀ j, j ≠ i0 → ∀ τ, s'.disk.blk P j τ = s.disk.blk P j τ := fun j hj τ => by
    unfold Disk.blk
    rw [hdin j hj, hdata]
  have notIp : ∀ j τ, j ≠ i0 → s.disk.InUse j → τ.Valid P → s.disk.blk P j τ ≠ 0 →
      ¬ ∃ σ, σ.Valid P ∧ s.slot P ip σ = s.disk.blk P j τ ∧ s.disk.blk P j τ ≠ 0 := by
    rintro j τ hj hju hτ h0 ⟨σ, hσ, hval, -⟩
    rw [c.slot_eq live] at hval
    exact hj (c.inj _ _ σ τ hσ hτ hu0 hju (hval ▸ h0) hval).1.symm
  have unheld : ∀ x, x < P.NINODE → 0 < (s'.icache x).ref → x ≠ ip ∧ s'.icache x = s.icache x :=
    fun x _ hr => by
      have hx : x ≠ ip := by rintro rfl; omega
      exact ⟨hx, hothers x hx⟩
  have hds : s'.disk.dataStart P = s.disk.dataStart P := by rw [Disk.dataStart, hsb]; rfl
  refine ⟨fun b hb => (halloc b).mpr ⟨c.formatted b (hds ▸ hb), ?_⟩,
    fun i j σ τ hσ hτ hi hj h0 heq => ?_, fun i σ hσ hi h0 => ?_, fun i σ hσ hi h0 => ?_,
    fun i hi hdev p hp => ?_, fun x hx => ?_, fun x hx => ?_, fun x y hx hy hxr hyr hxy => ?_,
    fun x hx hxr => ?_⟩
  · -- a block before the data region is in no slot
    rintro ⟨τ, hτ, hval, h0⟩
    rw [c.slot_eq live] at hval
    have := c.region _ τ hτ hu0 (hval ▸ h0)
    omega
  · obtain ⟨hi0, hi'⟩ := hu i hi
    obtain ⟨hj0, hj'⟩ := hu j hj
    rw [same i hi0, same j hj0] at heq
    rw [same i hi0] at h0
    exact c.inj i j σ τ hσ hτ hi' hj' h0 heq
  · obtain ⟨hi0, hi'⟩ := hu i hi
    rw [same i hi0] at h0 ⊢
    exact (halloc _).mpr ⟨c.used i σ hσ hi' h0, notIp i σ hi0 hi' hσ h0⟩
  · obtain ⟨hi0, hi'⟩ := hu i hi
    rw [same i hi0] at h0 ⊢
    rw [hds]
    exact c.region i σ hσ hi' h0
  · obtain ⟨hi0, hi'⟩ := hu i hi
    rw [hdin i hi0] at hdev hp
    rw [same i hi0]
    exact c.holes i hi' hdev p hp
  · obtain ⟨hlt, hr, hv⟩ := hx
    obtain ⟨hxi, he⟩ := unheld x hlt hr
    rw [he] at hr hv ⊢
    have hne : (s.icache x).inum ≠ i0 := fun h => hxi (c.ident x ip hlt live.1 hr live.2.1 h)
    rw [hdin _ hne]
    exact c.coh x ⟨hlt, hr, hv⟩
  · obtain ⟨hlt, hr, hv⟩ := hx
    obtain ⟨-, he⟩ := unheld x hlt hr
    rw [he] at hr hv ⊢
    exact c.alive x ⟨hlt, hr, hv⟩
  · obtain ⟨-, hex⟩ := unheld x hx hxr
    obtain ⟨-, hey⟩ := unheld y hy hyr
    rw [hex] at hxr hxy
    rw [hey] at hyr hxy
    exact c.ident x y hx hy hxr hyr hxy
  · obtain ⟨-, hex⟩ := unheld x hx hxr
    rw [hex] at hxr ⊢
    exact c.devs x hx hxr

/-- What `iput` of a referenced entry does: drop a reference, or, for the last reference to a
valid inode without links, truncate it, which frees exactly its blocks (`itrunc_spec`), free its
dinode and leave the entry unreferenced; the data, the superblock and the table of unlocked
inodes stay. -/
theorem iput_cases {ip : Nat} (hip : ip < P.NINODE) (href : 0 < (s.icache ip).ref)
    (h : Xv6Fs.iput P s ip = .ok s') :
    s' = s.setInode ip { s.icache ip with ref := (s.icache ip).ref - 1 } ∨
    (s.Live P ip ∧ s'.disk.data = s.disk.data ∧ s'.disk.sb = s.disk.sb ∧
      s'.unlocked = s.unlocked ∧ (∀ y, s'.disk.allocated P y = true ↔
        s.disk.allocated P y = true ∧ ¬ ∃ τ, τ.Valid P ∧ s.slot P ip τ = y ∧ y ≠ 0) ∧
      (∀ j, j ≠ (s.icache ip).inum → s'.disk.dinodes j = s.disk.dinodes j) ∧
      (s'.disk.dinodes (s.icache ip).inum).type = .free ∧
      (∀ x, x ≠ ip → s'.icache x = s.icache x) ∧ (s'.icache ip).ref = 0) := by
  unfold Xv6Fs.iput at h
  dsimp only at h
  split at h
  · rename_i hcond
    split at h
    · cases h
    have live : s.Live P ip := ⟨hip, href, hcond.2.1⟩
    have own : (s.setInode ip { s.icache ip with busy := true }).Owns P ip := by
      unfold State.Owns
      simp only [State.setInode_disk, State.setInode_icache, Function.update_same]
      exact c.owns live
    obtain ⟨t, fr, -, hit⟩ := itrunc_spec own
    rw [hit] at h
    cases h
    have hid : (t.icache ip).inum = (s.icache ip).inum := by rw [fr.meta]; simp [Inode.withMap]
    have hslot : ∀ τ, (s.setInode ip { s.icache ip with busy := true }).slot P ip τ =
        s.slot P ip τ := fun τ => by simp [State.slot]
    refine .inr ⟨live, ?_, ?_, ?_, fun y => ?_, fun j hj => ?_, ?_, fun x hx => ?_, ?_⟩
    · simp [fr.data]
    · simp [fr.sb]
    · simp [fr.unlocked]
    · have := fr.alloc y
      simp only [hslot, true_and] at this
      simpa [Disk.allocated] using this
    · simp [hid, Function.update_apply, hj, fr.dinodes]
    · simp [hid, Function.update_apply]
    · simp [hx, fr.others x hx]
    · have hr : (t.icache ip).ref = 1 := by rw [fr.meta]; simp [Inode.withMap, hcond.1]
      simp [hr]
  · cases h
    exact .inl rfl

/-- `iput` keeps the invariant: a reference dropped, or the blocks and the dinode of the inode
freed (`freed`). -/
theorem iput {ip : Nat} (hip : ip < P.NINODE) (href : 0 < (s.icache ip).ref)
    (h : Xv6Fs.iput P s ip = .ok s') : Consistent P dev s' := by
  rcases c.iput_cases hip href h with rfl | ⟨live, hd, hsb, -, ha, hdin, hf, ho, hr⟩
  · exact c.setInode rfl rfl (fun h => by omega) fun _ _ hv => .inl ⟨hv, rfl⟩
  · exact c.freed live hd hsb ha hdin hf ho hr

/-- `writei` of a held entry, on a range inside the file and inside `MAXFILE` blocks, is a
step on its map alone: the loop maps and writes blocks of the entry only, and when the file
grows `iupdate` writes the entry to its dinode; when it does not grow, every byte of the range
was mapped, so the loop mapped nothing and the entry is as it was. -/
theorem writei_oneInode {ip off : Nat} {src : List UInt8} {r : Int} (live : s.Live P ip)
    (hdev : (s.icache ip).type ≠ .dev) (hoff : off ≤ (s.icache ip).size)
    (hmax : off + src.length ≤ P.MAXFILE * P.BSIZE) (h : writei P s ip src off = .ok (r, s')) :
    OneInode P ip s s' := by
  have inv := c.fileInv live hdev
  have inv' := (writei_spec inv hdev hoff hmax h).2.2.2.2
  have hlt := P.maxBytes_lt
  rw [writei, if_neg hdev, u32_of_lt (by omega), if_neg (by omega), if_neg (by omega)] at h
  obtain ⟨⟨o, t⟩, hl, h⟩ := bind_eq_ok h
  have w := writeiLoop_spec inv.own inv.boot (Nat.le_refl _) hl
  have hmeta := w.writes.meta
  have fresh : ∀ τ, τ.Valid P → t.slot P ip τ ≠ 0 →
      t.slot P ip τ = s.slot P ip τ ∨ s.disk.allocated P (t.slot P ip τ) = false := by
    intro τ hτ h0
    by_cases hs0 : s.slot P ip τ = 0
    · exact (w.writes.fresh τ hτ hs0).elim (fun hz => absurd hz h0) .inr
    · exact .inl (w.writes.keep τ hτ hs0)
  dsimp only at h
  split at h
  · -- the file grew: the entry, with its new size, is written to its dinode
    simp only [pure, Except.pure, Except.ok.injEq, Prod.mk.injEq] at h
    obtain ⟨-, rfl⟩ := h
    have hslot : ∀ τ, (iupdate (t.setInode ip { t.icache ip with size := o }) ip).slot P ip τ =
        t.slot P ip τ :=
      congrFun (slot_congr rfl (by simp) (by simp))
    have hid : (t.icache ip).inum = (s.icache ip).inum := by rw [hmeta]; rfl
    rename_i hgrow
    refine ⟨fun x hx => ?_, ?_, ?_, ?_, ?_, ?_, ?_, ?_, ?_, fun j hj => ?_, ?_,
      fun y hy hno => ?_, fun y hy => ?_, fun τ hτ h0 => ?_, inv'⟩
    · rw [iupdate_icache, State.setInode_icache, Function.update_noteq hx, w.writes.others x hx]
    all_goals try (simp only [iupdate_icache, State.setInode_icache, Function.update_same]
                   rw [hmeta]; rfl)
    · have hsize : (t.icache ip).size = (s.icache ip).size := by rw [hmeta]; rfl
      simp only [iupdate_icache, State.setInode_icache, Function.update_same]
      omega
    · rw [iupdate_sb, State.setInode_disk, w.writes.sb]
    · rw [iupdate_dinodes, State.setInode_icache, Function.update_same, State.setInode_disk]
      show Function.update t.disk.dinodes (t.icache ip).inum _ j = _
      rw [hid, Function.update_noteq hj, w.writes.dinodes]
    · rw [iupdate_dinodes, iupdate_icache, State.setInode_icache, Function.update_same,
        State.setInode_disk]
      show Function.update t.disk.dinodes (t.icache ip).inum _ _ = _
      rw [hid, Function.update_same]
    · simp only [iupdate_data, State.setInode_disk]
      exact w.writes.data y hy hno
    · simp only [Disk.allocated, iupdate_bitmap, State.setInode_disk]
      exact w.writes.marks y hy
    · rw [hslot] at h0 ⊢
      exact fresh τ hτ h0
  · -- the file did not grow: the range was mapped and the loop left the cache as it was
    rename_i hgrow
    simp only [pure, Except.pure, Except.ok.injEq, Prod.mk.injEq] at h
    obtain ⟨-, rfl⟩ := h
    have hsize : (t.icache ip).size = (s.icache ip).size := by rw [hmeta]; rfl
    have hic : t.icache = s.icache := writeiLoop_icache inv.own (fun p h₁ h₂ =>
      inv.holes p (by rw [w.reached, hsize] at hgrow; omega)) hl
    refine ⟨fun x _ => by rw [hic], by rw [hic], by rw [hic], by rw [hic], by rw [hic],
      by rw [hic], by rw [hic], by rw [hic], w.writes.sb, fun j _ => by rw [w.writes.dinodes], ?_,
      w.writes.data, w.writes.marks, fresh, inv'⟩
    rw [w.writes.dinodes, hic, c.coh ip live]

/-- `readi` of a held entry returns and changes nothing: an entry with no holes has every
byte it reads mapped. -/
theorem readi_ok {ip off n : Nat} (live : s.Live P ip) (hoff : off < 2 ^ 32) (hn : n < 2 ^ 32) :
    ∃ r, readi P s ip off n = .ok (r, s) := by
  by_cases hdev : (s.icache ip).type = .dev
  · rw [readi, if_pos hdev]
    split
    · exact ⟨_, rfl⟩
    · split <;> exact ⟨_, rfl⟩
  · by_cases hr : (s.icache ip).size < off ∨ u32 (off + n) < off
    · rw [readi, if_neg hdev, if_pos hr]
      exact ⟨_, rfl⟩
    · rw [u32_lt_iff hoff hn] at hr
      exact ⟨_, readi_eq hdev (c.fileInv live hdev).holes (by omega) (by omega)⟩

/-- What `writei` of a held entry does: nothing, on a device or a range it refuses, or a step
on its map alone. -/
theorem writei_cases {ip off : Nat} {src : List UInt8} {r : Int} (live : s.Live P ip)
    (hoff : off < 2 ^ 32) (hn : src.length < 2 ^ 32)
    (h : Xv6Fs.writei P s ip src off = .ok (r, s')) : s' = s ∨ OneInode P ip s s' := by
  by_cases hdev : (s.icache ip).type = .dev
  · rw [Xv6Fs.writei, if_pos hdev] at h
    left
    split at h
    · cases h; rfl
    · split at h <;> cases h <;> rfl
  by_cases href : WriteiRefuses P s ip off src.length
  · rw [(writei_neg_one hdev hoff hn).2 href] at h
    cases h
    exact .inl rfl
  · unfold WriteiRefuses at href
    exact .inr (c.writei_oneInode live hdev (by omega) (by omega) h)

/-- `writei` of a held entry keeps the invariant. -/
theorem writei {ip off : Nat} {src : List UInt8} {r : Int} (live : s.Live P ip)
    (hoff : off < 2 ^ 32) (hn : src.length < 2 ^ 32) (h : writei P s ip src off = .ok (r, s')) :
    Consistent P dev s' := by
  rcases c.writei_cases live hoff hn h with rfl | one
  · exact c
  · exact c.oneInode live one

/-- Claiming the free dinode `inum` as an empty inode of some type keeps the invariant: it
has no blocks, and no held entry is on a free dinode. -/
theorem claimDinode {inum : Nat} {type : FileType} (hfree : (s.disk.dinodes inum).type = .free) :
    Consistent P dev
      ((s.setDisk (s.disk.setDinode inum { Dinode.zero with type := type })).log
        (.inode inum)) := by
  set s1 := (s.setDisk (s.disk.setDinode inum { Dinode.zero with type := type })).log
    (.inode inum)
  have hempty : ∀ τ, s1.disk.blk P inum τ = 0 := fun τ => by
    cases τ <;> simp [s1, Disk.blk, slotVal, middleVal, Dinode.zero]
  have same : ∀ j, j ≠ inum → ∀ τ, s1.disk.blk P j τ = s.disk.blk P j τ := fun j hj τ => by
    simp [s1, Disk.blk, hj]
  have inUse : ∀ j, j ≠ inum → (s1.disk.InUse j ↔ s.disk.InUse j) := fun j hj => by
    simp [s1, Disk.InUse, hj]
  have hlive : ∀ x, s.Live P x → (s.icache x).inum ≠ inum := fun x hx he => by
    have := congrArg Dinode.type (c.coh x hx)
    simp only at this
    rw [he, hfree] at this
    exact c.alive x hx this
  refine ⟨c.formatted, fun i j σ τ hσ hτ hi hj h0 heq => ?_, fun i σ hσ hi h0 => ?_,
    fun i σ hσ hi h0 => ?_, fun i hi hdev p hp => ?_, fun x hx => ?_, c.alive, c.ident, c.devs⟩
  · by_cases hi0 : i = inum
    · subst hi0; exact absurd (hempty σ) h0
    by_cases hj0 : j = inum
    · subst hj0; rw [hempty] at heq; exact absurd heq h0
    rw [same i hi0, same j hj0] at heq
    rw [same i hi0] at h0
    exact c.inj i j σ τ hσ hτ ((inUse i hi0).mp hi) ((inUse j hj0).mp hj) h0 heq
  · by_cases hi0 : i = inum
    · subst hi0; exact absurd (hempty σ) h0
    rw [same i hi0] at h0 ⊢
    exact c.used i σ hσ ((inUse i hi0).mp hi) h0
  · by_cases hi0 : i = inum
    · subst hi0; exact absurd (hempty σ) h0
    rw [same i hi0] at h0 ⊢
    exact c.region i σ hσ ((inUse i hi0).mp hi) h0
  · by_cases hi0 : i = inum
    · subst hi0; simp [s1, Dinode.zero] at hp
    have hd : s1.disk.dinodes i = s.disk.dinodes i := by simp [s1, hi0]
    rw [hd] at hdev hp
    rw [same i hi0]
    exact c.holes i ((inUse i hi0).mp hi) hdev p hp
  · have hd : s1.disk.dinodes (s.icache x).inum = s.disk.dinodes (s.icache x).inum := by
      simp [s1, hlive x hx]
    exact (c.coh x hx).trans hd.symm

/-- `ialloc` keeps the invariant: it claims a free dinode and `iget`s it. -/
theorem ialloc {type : FileType} {ip : Nat} (h : Xv6Fs.ialloc P s dev type = .ok (ip, s')) :
    Consistent P dev s' := by
  unfold Xv6Fs.ialloc at h
  split at h
  · rename_i inum hfind
    have hfree : (s.disk.dinodes inum).type = .free := by simpa using List.find?_some hfind
    exact (c.claimDinode hfree).iget h
  · cases h

/-- Every step of the inode layer keeps the invariant. -/
theorem step (h : InodeStep P dev s s') : Consistent P dev s' := by
  cases h with
  | readi live hoff hn h =>
    obtain ⟨r', h'⟩ := c.readi_ok live hoff hn
    rw [h'] at h
    cases h
    exact c
  | writei live hoff hn h => exact c.writei live hoff hn h
  | iget h => exact c.iget h
  | idup _ href => exact c.setInode rfl rfl (fun _ => href) fun _ _ hv => .inl ⟨hv, rfl⟩
  | ilock _ h => exact c.ilock h
  | iunlock _ h => exact c.iunlock h
  | iput hip href h => exact c.iput hip href h
  | ialloc h => exact c.ialloc h

end Consistent

/-- The invariant holds in every state a run from a consistent state reaches. -/
theorem Consistent.reachable {s₀ : State} (h₀ : Consistent P dev s₀)
    (hr : InodeReachable P dev s₀ s) : Consistent P dev s := by
  induction hr with
  | start => exact h₀
  | step _ hs ih => exact ih.step hs

/-- The slots of a sample dinode: its first block in slot `direct 0`, nothing elsewhere. -/
theorem slotVal_sample (t : FileType) (size b0 : Nat) (data : Nat → Nat → UInt8) (σ : Slot) :
    slotVal Params.sample data (Dinode.sample t size b0) σ = if σ = .direct 0 then b0 else 0 := by
  cases σ <;> simp [slotVal, Dinode.sample, middleVal, Dinode.zero, Params.sample]

/-- A zero dinode has no blocks. -/
theorem slotVal_zero (data : Nat → Nat → UInt8) (σ : Slot) :
    slotVal Params.sample data Dinode.zero σ = 0 := by
  cases σ <;> rfl

/-- The dinodes of `sampleFs`. -/
theorem sampleFs_dinodes (i : Nat) :
    sampleFs.disk.dinodes i =
      if i = 1 then Dinode.sample .dir 64 10 else if i = 2 then Dinode.sample .dir 48 11
      else if i = 3 then Dinode.sample .file 0 0 else if i = 4 then Dinode.sample .symlink 0 0
      else Dinode.zero := by
  rcases i with _ | _ | _ | _ | _ | i <;> rfl

/-- The blocks of `sampleFs`: block 10 for the root, 11 for `d`, none for the others. -/
theorem sampleFs_blk (i : Nat) (τ : Slot) :
    sampleFs.disk.blk Params.sample i τ =
      if τ = .direct 0 then (if i = 1 then 10 else if i = 2 then 11 else 0) else 0 := by
  rw [Disk.blk, sampleFs_dinodes]
  split_ifs <;> simp only [slotVal_sample, slotVal_zero, ite_self, *, if_true, if_false]

/-- A block of `sampleFs` sits in the first direct slot of the root or of `d`. -/
theorem sampleFs_blk_ne_zero {i : Nat} {τ : Slot} (h : sampleFs.disk.blk Params.sample i τ ≠ 0) :
    τ = .direct 0 ∧ (i = 1 ∧ sampleFs.disk.blk Params.sample i τ = 10 ∨
      i = 2 ∧ sampleFs.disk.blk Params.sample i τ = 11) := by
  rw [sampleFs_blk] at h ⊢
  split_ifs at h ⊢ <;> simp_all

theorem sampleFs_allocated (y : Nat) :
    sampleFs.disk.allocated Params.sample y = decide (y < 12) := by
  simp only [Disk.allocated, sampleFs, Params.BPB, Params.sample, decide_eq_decide]
  omega

/-- `sampleFs` is consistent: its first five blocks, up to the data region, are marked, its two
blocks are distinct, marked data blocks, and only the root is referenced in the cache, as a copy
of its dinode. -/
theorem sampleFs_consistent : Consistent Params.sample 1 sampleFs := by
  have hic : ∀ x, 0 < (sampleFs.icache x).ref → x = 0 := fun x hx => by
    by_contra h
    simp [sampleFs, h] at hx
  refine ⟨fun b hb => ?_, fun i j σ τ _ _ _ _ h0 heq => ?_, fun i σ _ _ h0 => ?_,
    fun i σ _ _ h0 => ?_, fun i _ _ p hp => ?_, fun x hx => ?_, fun x hx => ?_,
    fun x y _ _ hx hy _ => ?_, fun x _ hx => ?_⟩
  · rw [sampleFs_allocated]
    exact decide_eq_true (Nat.lt_of_lt_of_le (show b < 5 from hb) (by decide))
  · obtain ⟨rfl, ⟨rfl, hb⟩ | ⟨rfl, hb⟩⟩ := sampleFs_blk_ne_zero h0 <;>
      obtain ⟨rfl, ⟨rfl, hb'⟩ | ⟨rfl, hb'⟩⟩ := sampleFs_blk_ne_zero (heq ▸ h0) <;>
      first | exact ⟨rfl, rfl⟩ | omega
  · obtain ⟨-, ⟨-, hb⟩ | ⟨-, hb⟩⟩ := sampleFs_blk_ne_zero h0 <;> rw [hb] <;> rfl
  · obtain ⟨-, ⟨-, hb⟩ | ⟨-, hb⟩⟩ := sampleFs_blk_ne_zero h0 <;> rw [hb] <;> decide
  · -- only the two directories have bytes, all in their first block
    have hsz : (sampleFs.disk.dinodes i).size = if i = 1 then 64 else if i = 2 then 48 else 0 := by
      rcases i with _ | _ | _ | _ | _ | i <;> rfl
    rw [hsz] at hp
    have hp0 : p / Params.sample.BSIZE = 0 :=
      Nat.div_eq_of_lt (by show p < 512; split_ifs at hp <;> omega)
    rw [hp0, sampleFs_blk, if_pos (show blockSlot Params.sample 0 = .direct 0 from rfl)]
    exact ⟨by decide, by split_ifs at hp ⊢ <;> omega⟩
  · rw [hic x hx.2.1]; rfl
  · rw [hic x hx.2.1]; decide
  · rw [hic x hx, hic y hy]
  · rw [hic x hx]; rfl

/-- `sampleFs` after `iget` of `x` (inode 3) into entry 1, which it claims, and `ilock` of that
entry, which takes the flag and loads the dinode. -/
def lockedXFs : State :=
  ((sampleFs.setInode 1 ⟨Dinode.zero, 1, 3, 1, false, false⟩).setInode 1
    ⟨Dinode.zero, 1, 3, 1, true, false⟩).setInode 1 ⟨Dinode.sample .file 0 0, 1, 3, 1, true, true⟩

theorem lockedXFs_run : InodeReachable Params.sample 1 sampleFs lockedXFs :=
  .step (.step .start (@InodeStep.iget Params.sample 1 sampleFs _ 3 1 (by rfl)))
    (@InodeStep.ilock Params.sample 1 _ _ 1 (by decide) (by rfl))

/-- After `lockedXFs_run`, a `writei` of one byte at offset 0 to `x` returns: four blocks of
`sampleFs` are free, and the file grows to one byte, its first block taken by `balloc`. -/
theorem writtenXFs_reach :
    ∃ s, InodeReachable Params.sample 1 sampleFs s ∧ (s.icache 1).size = 1 := by
  have c := sampleFs_consistent.reachable lockedXFs_run
  have live : lockedXFs.Live Params.sample 1 := ⟨by decide, by decide, rfl⟩
  have hdev : (lockedXFs.icache 1).type ≠ .dev := by decide
  obtain ⟨s, hw, -⟩ := @writei_ok Params.sample lockedXFs 1 0 [7] hdev (by decide) (by decide)
    (by rw [freeCount_of_used_below (d := lockedXFs.disk) sampleFs_allocated]; decide)
  obtain ⟨-, -, hsize, -⟩ := writei_spec (c.fileInv live hdev) hdev (by decide) (by decide) hw
  exact ⟨s, .step lockedXFs_run (.writei live (by decide) (by decide) hw), by rw [hsize]; rfl⟩

end Xv6Fs
