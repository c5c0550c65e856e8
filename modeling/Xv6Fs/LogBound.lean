import Xv6Fs.FileWrite

/-!
# The blocks one transaction of `filewrite` logs

`filewrite` cuts a write into chunks of `max = ((LOGSIZE-1-1-2) / 2) * 512` bytes so that what
one transaction hands to `log_write` fits in the log: two blocks for each block of the chunk, a
data block and its bitmap block, one data block more for an unaligned chunk, the inode and one
index block. The block map here also has a double-indirect block, and a chunk that crosses into
its region may allocate that block and a second-level block on top of its data blocks, each with
a bitmap block of its own.

`ClaimsLogged s s'` says that every block in use in `s'` that was free in `s` is in the log of
`s'`, with its bitmap block, and that the bitmap and the log only grow. `balloc` makes it true
and every other step of `bmap` and `writei` keeps it, so it holds across `writei`
(`writei_claimsLogged`). On `fragFs`, whose bitmap blocks each have one free block, the first
chunk of a write at the end of a file of 139 blocks allocates the last single-indirect entry,
the double-indirect block, a second-level block and twelve data blocks: their fifteen data
blocks, their fifteen bitmap blocks and the inode are thirty-one blocks in one transaction,
one more than `LOGSIZE` (`filewrite_log_overflow`).
-/

namespace Xv6Fs

variable (P : Params)

/-- Every block in use in `s'` that was free in `s` is in the log of `s'`, with its bitmap
block; the bitmap and the log only grow. -/
structure ClaimsLogged (s s' : State) : Prop where
  marks : ∀ y, s.disk.allocated P y → s'.disk.allocated P y
  logged : ∀ b, b ∈ s.logged → b ∈ s'.logged
  claimed : ∀ y, s.disk.allocated P y = false → s'.disk.allocated P y →
    LogBlock.data y ∈ s'.logged ∧ LogBlock.bitmap (y / P.BPB) ∈ s'.logged

variable {P}

namespace ClaimsLogged

theorem refl (s : State) : ClaimsLogged P s s :=
  ⟨fun _ h => h, fun _ h => h, fun y h h' => by rw [h] at h'; cases h'⟩

theorem trans {s s' s'' : State} (h : ClaimsLogged P s s') (h' : ClaimsLogged P s' s'') :
    ClaimsLogged P s s'' where
  marks y hy := h'.marks y (h.marks y hy)
  logged b hb := h'.logged b (h.logged b hb)
  claimed y hy hy'' := by
    cases hy' : s'.disk.allocated P y
    · exact h'.claimed y hy' hy''
    · exact (h.claimed y hy hy').imp (h'.logged _) (h'.logged _)

/-- A step that keeps the bitmap and appends to the log. -/
theorem of_frame {s s' : State} (halloc : ∀ y, s'.disk.allocated P y = s.disk.allocated P y)
    (hlog : ∃ l, s'.logged = s.logged ++ l) : ClaimsLogged P s s' where
  marks y hy := by rw [halloc]; exact hy
  logged b hb := by obtain ⟨l, hl⟩ := hlog; rw [hl]; exact List.mem_append_left _ hb
  claimed y hy hy' := by rw [halloc, hy] at hy'; cases hy'

/-- `balloc` logs the bitmap block of the block it takes, and `bzero` the block. -/
theorem balloc {s s' : State} {x : Nat} (h : balloc P s = .ok (x, s')) :
    ClaimsLogged P s s' := by
  obtain ⟨-, -, rfl⟩ := balloc_eq_ok h
  refine ⟨fun y hy => by simp [hy], fun b hb => by simp [State.claim, bzero, hb],
    fun y hy hy' => ?_⟩
  obtain rfl : y = x := by simpa [hy] using hy'
  simp [State.claim, bzero]

end ClaimsLogged

/-- The fill routines and `bmap` itself change the bitmap only through `balloc`. -/
theorem bmapAddr_claimsLogged {s s' : State} {ip k a : Nat}
    (h : bmapAddr P s ip k = .ok (a, s')) : ClaimsLogged P s s' := by
  unfold bmapAddr at h
  split at h
  · obtain ⟨⟨x, s1⟩, hb, h⟩ := bind_eq_ok h
    simp only [pure, Except.pure, Except.ok.injEq, Prod.mk.injEq] at h
    obtain ⟨-, rfl⟩ := h
    exact (ClaimsLogged.balloc hb).trans (.of_frame (fun _ => rfl) ⟨[], by simp⟩)
  · cases h; exact .refl s

theorem bmapIndirect2_claimsLogged {s s' : State} {ip a : Nat}
    (h : bmapIndirect2 P s ip = .ok (a, s')) : ClaimsLogged P s s' := by
  unfold bmapIndirect2 at h
  split at h
  · obtain ⟨⟨x, s1⟩, hb, h⟩ := bind_eq_ok h
    simp only [pure, Except.pure, Except.ok.injEq, Prod.mk.injEq] at h
    obtain ⟨-, rfl⟩ := h
    exact (ClaimsLogged.balloc hb).trans (.of_frame (fun _ => rfl) ⟨[], by simp⟩)
  · cases h; exact .refl s

theorem bmapEntry_claimsLogged {s s' : State} {blk x a : Nat}
    (h : bmapEntry P s blk x = .ok (a, s')) : ClaimsLogged P s s' := by
  unfold bmapEntry at h
  split at h
  · obtain ⟨⟨y, s1⟩, hb, h⟩ := bind_eq_ok h
    simp only [pure, Except.pure, Except.ok.injEq, Prod.mk.injEq] at h
    obtain ⟨-, rfl⟩ := h
    exact (ClaimsLogged.balloc hb).trans (.of_frame (fun _ => rfl) ⟨[.data blk], by simp⟩)
  · cases h; exact .refl s

theorem bmap_claimsLogged {s s' : State} {ip bn a : Nat} (h : bmap P s ip bn = .ok (a, s')) :
    ClaimsLogged P s s' := by
  unfold bmap at h
  split at h
  · exact bmapAddr_claimsLogged h
  dsimp only at h
  split at h
  · obtain ⟨⟨ind, s1⟩, h1, h2⟩ := bind_eq_ok h
    exact (bmapAddr_claimsLogged h1).trans (bmapEntry_claimsLogged h2)
  split at h
  · obtain ⟨⟨ind, s1⟩, h1, h2⟩ := bind_eq_ok h
    obtain ⟨⟨mid, s2⟩, h2, h3⟩ := bind_eq_ok h2
    exact ((bmapIndirect2_claimsLogged h1).trans (bmapEntry_claimsLogged h2)).trans
      (bmapEntry_claimsLogged h3)
  · cases h

/-- The loop of `writei`, by induction on the fuel: `bmap`, then a logged write of the block. -/
theorem writeiLoop_claimsLogged {ip : Nat} :
    ∀ {fuel off o : Nat} {s s' : State} {src : List UInt8},
      writeiLoop P ip fuel s off src = .ok (o, s') → ClaimsLogged P s s'
  | 0, _, _, s, _, _, h => by cases h; exact .refl s
  | fuel + 1, off, o, s, s', src, h => by
    by_cases hsrc : src = []
    · subst hsrc
      rw [writeiLoop_nil] at h
      cases h
      exact .refl s
    rw [writeiLoop, if_neg hsrc] at h
    obtain ⟨⟨b, s1⟩, hb, h⟩ := bind_eq_ok h
    dsimp only at h
    refine (bmap_claimsLogged hb).trans (ClaimsLogged.trans ?_ (writeiLoop_claimsLogged h))
    exact .of_frame (fun _ => rfl) ⟨[.data b], by simp⟩

/-- `writei` changes the bitmap only through `balloc`. -/
theorem writei_claimsLogged {s s' : State} {ip off : Nat} {src : List UInt8} {r : Int}
    (h : writei P s ip src off = .ok (r, s')) : ClaimsLogged P s s' := by
  unfold writei at h
  dsimp only at h
  split at h
  · split at h
    · cases h; exact .refl s
    split at h <;> cases h <;> exact .refl s
  split at h
  · cases h; exact .refl s
  split at h
  · cases h; exact .refl s
  obtain ⟨⟨o, t⟩, hl, h⟩ := bind_eq_ok h
  have hloop := writeiLoop_claimsLogged hl
  dsimp only at h
  split at h <;> simp only [pure, Except.pure, Except.ok.injEq, Prod.mk.injEq] at h <;>
    obtain ⟨-, rfl⟩ := h
  · exact hloop.trans (.of_frame (fun _ => rfl) ⟨_, iupdate_logged _ _⟩)
  · exact hloop

/-- A `writei` that grows a file with the file invariants logs its inode, through `iupdate`. -/
theorem writei_logs_inode {s s' : State} {ip off : Nat} {src : List UInt8} {r : Int}
    (inv : s.FileInv P ip) (hdev : (s.icache ip).type ≠ .dev) (hoff : off ≤ (s.icache ip).size)
    (hmax : off + src.length ≤ P.MAXFILE * P.BSIZE)
    (hgrow : (s.icache ip).size < off + src.length) (h : writei P s ip src off = .ok (r, s')) :
    LogBlock.inode (s.icache ip).inum ∈ s'.logged := by
  have hlt := P.maxBytes_lt
  rw [writei, if_neg hdev, u32_of_lt (by omega), if_neg (by omega), if_neg (by omega)] at h
  obtain ⟨⟨o, t⟩, hl, h⟩ := bind_eq_ok h
  have w := writeiLoop_spec inv.own inv.boot (Nat.le_refl _) hl
  have hsize : (t.icache ip).size = (s.icache ip).size := by rw [w.writes.meta]; rfl
  have hinum : (t.icache ip).inum = (s.icache ip).inum := by rw [w.writes.meta]; rfl
  dsimp only at h
  rw [if_pos ⟨by omega, by rw [hsize, w.reached]; exact hgrow⟩] at h
  simp only [pure, Except.pure, Except.ok.injEq, Prod.mk.injEq] at h
  obtain ⟨-, rfl⟩ := h
  simp [hinum]

/-- The distinct blocks a log names, counted from below: for a list `Y` of blocks claimed
between `s` and `s'`, in pairwise distinct bitmap blocks, the log of `s'` names each block of
`Y` and each of their bitmap blocks, and an inode besides. -/
theorem card_logged_of_claimed {s s' : State} (h : ClaimsLogged P s s') {Y : List Nat}
    (hY : Y.Nodup) (hfree : ∀ y ∈ Y, s.disk.allocated P y = false)
    (hused : ∀ y ∈ Y, s'.disk.allocated P y)
    (hreg : ∀ y ∈ Y, ∀ z ∈ Y, y / P.BPB = z / P.BPB → y = z) {inum : Nat}
    (hino : LogBlock.inode inum ∈ s'.logged) :
    2 * Y.length + 1 ≤ s'.logged.toFinset.card := by
  let L := Y.map .data ++ Y.map (fun y => LogBlock.bitmap (y / P.BPB)) ++ [.inode inum]
  have hL : L.Nodup := by
    refine List.nodup_append.2 ⟨List.nodup_append.2 ⟨hY.map fun _ _ h => by cases h; rfl,
      hY.map_on fun y hy z hz h => hreg y hy z hz (LogBlock.bitmap.inj h), ?_⟩, by simp, ?_⟩
    · simp [List.Disjoint]
    · simp only [List.Disjoint, List.mem_append, List.mem_map, List.mem_singleton]
      rintro _ (⟨y, -, rfl⟩ | ⟨y, -, rfl⟩) ⟨⟩
  have hsub : L.toFinset ⊆ s'.logged.toFinset := by
    intro b hb
    simp only [List.mem_toFinset, L, List.mem_append, List.mem_map, List.mem_singleton] at hb ⊢
    rcases hb with (⟨y, hy, rfl⟩ | ⟨y, hy, rfl⟩) | rfl
    · exact (h.claimed y (hfree y hy) (hused y hy)).1
    · exact (h.claimed y (hfree y hy) (hused y hy)).2
    · exact hino
  calc 2 * Y.length + 1 = L.toFinset.card := by
        rw [List.toFinset_card_of_nodup hL]; simp [L]; omega
    _ ≤ s'.logged.toFinset.card := Finset.card_le_card hsub

/-- The single-indirect block of the file of `fragFs`: entries 0 to 126 hold blocks 112 to
238, entry 127 is empty. -/
def fragIndirect : Nat → UInt8 := fun i =>
  if i < 4 * 127 ∧ i % 4 = 0 then (112 + i / 4).toUInt8 else 0

/-- The file of `fragFs`: 139 blocks, blocks 100 to 111 in `addrs` and 112 to 238 in the
single-indirect block 240, the last one holding 100 bytes. -/
def fragFile : Dinode :=
  { Dinode.zero with
    type := .file, nlink := 1, size := 138 * 512 + 100,
    addrs := fun k => if k < 12 then k + 100 else if k = 12 then 240 else 0 }

/-- A disk of `42 * 4096` blocks, 42 bitmap blocks' worth, and 8 inodes, in which the last block
of each bitmap block is the only free one; the 47 blocks before the data region are in use.
Dinode 1 and every cache entry hold `fragFile`, each entry held once and unlocked, and file 0 is
open for writing at the end of it. -/
def fragFs : State :=
  { fullFileFs with
    disk := ⟨⟨42 * 4096, 8, by decide⟩, fun _ byte bit => !(byte == 511 && bit == 7),
      fun i => if i = 1 then fragFile else Dinode.zero,
      fun b => if b = 240 then fragIndirect else fun _ => 0⟩
    icache := fun _ => ⟨fragFile, 1, 1, 1, false, true⟩
    ftable := fun _ => ⟨.inode, 1, false, true, 0, 0, 138 * 512 + 100⟩ }

theorem fragFs_free (y : Nat) :
    fragFs.disk.allocated Params.sample y = false ↔ y % 4096 = 4095 := by
  simp only [Disk.allocated, fragFs, Params.BPB, Params.sample, Bool.not_eq_false',
    Bool.and_eq_true, beq_iff_eq]
  omega

theorem entry_fragIndirect (j : Nat) : entry fragIndirect j = if j < 127 then 112 + j else 0 := by
  have b0 : fragIndirect (4 * j) = if j < 127 then (112 + j).toUInt8 else 0 := by
    unfold fragIndirect
    rw [show 4 * j / 4 = j by omega]
    split_ifs <;> first | rfl | omega
  have bk : ∀ k, 0 < k → k < 4 → fragIndirect (4 * j + k) = 0 := fun k h0 h4 => by
    unfold fragIndirect; rw [if_neg (by omega)]
  unfold entry
  rw [b0, bk 1 (by decide) (by decide), bk 2 (by decide) (by decide), bk 3 (by decide) (by decide)]
  split_ifs with hj
  · simp [Nat.toUInt8, UInt8.toNat_ofNat_of_lt (show 112 + j < 256 by omega)]
  · rfl

/-- The slots of the file of `fragFs`. -/
theorem fragFs_slot (τ : Slot) : fragFs.slot Params.sample 0 τ =
    match τ with
    | .direct k => if k < 12 then k + 100 else if k = 12 then 240 else 0
    | .indirect => 240
    | .entry j => if j < 127 then 112 + j else 0
    | _ => 0 := by
  cases τ <;> simp [State.slot, slotVal, middleVal, fragFs, fragFile, Dinode.zero, Params.sample,
    entry_fragIndirect]

/-- The file of `fragFs` has the file invariants: the disk is formatted, its blocks 100 to 238
and 240 are distinct data blocks in use, and each of its 139 blocks is mapped. -/
theorem fragFs_fileInv : fragFs.FileInv Params.sample 0 := by
  have hv := fragFs_slot
  have hle : ∀ σ, fragFs.slot Params.sample 0 σ ≤ 240 := fun σ => by
    rw [hv]; cases σ <;> simp only <;> (try split_ifs) <;> omega
  -- the slot of a block of the file is read back from the block number
  have dec : ∀ ρ : Slot, ρ.Valid Params.sample → fragFs.slot Params.sample 0 ρ ≠ 0 →
      (if fragFs.slot Params.sample 0 ρ < 112 then Slot.direct (fragFs.slot Params.sample 0 ρ - 100)
        else if fragFs.slot Params.sample 0 ρ = 240 then .indirect
        else .entry (fragFs.slot Params.sample 0 ρ - 112)) = ρ := fun ρ hρ h => by
    rw [hv] at h ⊢
    cases ρ <;> simp only [Slot.Valid, Params.sample] at hρ h ⊢ <;> split_ifs at h ⊢ <;>
      first | rfl | omega | (congr 1; omega)
  refine ⟨⟨fun σ τ hσ hτ hne heq => ?_, fun σ _ _ => ?_⟩, fun b hb => ?_, fun σ _ h0 => ?_,
    fun p hp => ?_⟩
  · change fragFs.slot Params.sample 0 σ ≠ 0 at hne
    change fragFs.slot Params.sample 0 σ = fragFs.slot Params.sample 0 τ at heq
    rw [← dec σ hσ hne, ← dec τ hτ (heq ▸ hne), heq]
  · change fragFs.disk.allocated Params.sample (fragFs.slot Params.sample 0 σ) = true
    refine eq_true_of_ne_false fun h => ?_
    have := (fragFs_free _).1 h
    have := hle σ
    omega
  · refine eq_true_of_ne_false fun h => ?_
    have := (fragFs_free b).1 h
    have : b < 47 := hb
    omega
  · change 47 ≤ fragFs.slot Params.sample 0 σ
    rw [hv] at h0 ⊢
    cases σ <;> simp only at h0 ⊢ <;> (try split_ifs at h0 ⊢) <;> omega
  · have hbn : p / 512 ≤ 138 := by change p < 138 * 512 + 100 at hp; omega
    refine ⟨by simp only [Params.MAXFILE, Params.sample]; omega, ?_⟩
    change fragFs.slot Params.sample 0 (blockSlot Params.sample (p / 512)) ≠ 0
    rw [blockSlot, show Params.sample.NDIRECT = 12 from rfl,
      show Params.sample.NINDIRECT = 128 from rfl]
    split_ifs <;> rw [hv] <;> simp only <;> (try split_ifs) <;> omega

/-- The 42 free blocks of `fragFs`, one in each bitmap block. -/
theorem fragFs_freeCount : 42 ≤ fragFs.disk.freeCount Params.sample := by
  have hsub : (Finset.range 42).image (fun r => r * 4096 + 4095) ⊆
      (Finset.range fragFs.disk.sb.size).filter
        fun x => fragFs.disk.allocated Params.sample x = false := by
    intro y hy
    simp only [Finset.mem_image, Finset.mem_range] at hy
    obtain ⟨r, hr, rfl⟩ := hy
    simp only [Finset.mem_filter, Finset.mem_range, fragFs_free]
    exact ⟨by change _ < 42 * 4096; omega, by omega⟩
  calc 42 = ((Finset.range 42).image fun r => r * 4096 + 4095).card := by
        rw [Finset.card_image_of_injective _ fun a b h => by omega,
          Finset.card_range]
    _ ≤ fragFs.disk.freeCount Params.sample := Finset.card_le_card hsub

/-- The slots that a chunk written at the end of the file of `fragFs` fills: the last entry of
the single-indirect block, the double-indirect block, its first second-level block and the
first twelve entries of that block. -/
def overflowSlots : List Slot :=
  .entry 127 :: .indirect2 :: .middle 0 :: (List.range 12).map (.leaf 0)

theorem blockSlot_double_start {j : Nat} (hj : j < 12) :
    blockSlot Params.sample (140 + j) = .leaf 0 j := by
  have h1 : ¬ 140 + j < Params.sample.NDIRECT := by change ¬ 140 + j < 12; omega
  have h2 : ¬ 140 + j - Params.sample.NDIRECT < Params.sample.NINDIRECT := by
    change ¬ 140 + j - 12 < 128; omega
  rw [blockSlot, if_neg h1, if_neg h2]
  change Slot.leaf ((140 + j - 12 - 128) / 128) ((140 + j - 12 - 128) % 128) = _
  exact congrArg₂ Slot.leaf (by omega) (by omega)

/-- In `fragFs`, the transaction of the first chunk of a write at the end of file 0 hands more
blocks to `log_write` than `LOGSIZE`: after `begin_trans` and `ilock`, with an empty log,
`writei` of the `max` bytes of the chunk at `f->off` returns, and the log names thirty-one
distinct blocks: the fifteen blocks of `overflowSlots`, which `balloc` takes from fifteen
bitmap blocks, those fifteen bitmap blocks, and the inode. -/
theorem filewrite_log_overflow :
    ∃ s₁ s', ilock (beginTrans fragFs) 0 = .ok s₁ ∧ s₁.logged = [] ∧
      (fragFs.ftable 0).writable = true ∧ (fragFs.ftable 0).ip = 0 ∧
      (fragFs.ftable 0).off ≤ (fragFs.icache 0).size ∧
      writei Params.sample s₁ 0 (List.replicate (writeChunk Params.sample) 7)
        (fragFs.ftable 0).off = .ok (writeChunk Params.sample, s') ∧
      Params.sample.LOGSIZE < s'.logged.toFinset.card := by
  set s₁ := (beginTrans fragFs).setInode 0 { fragFs.icache 0 with busy := true } with hs₁
  have inv : s₁.FileInv Params.sample 0 :=
    (fileInv_content_congr (show s₁.disk = fragFs.disk from rfl)
      (show (s₁.icache 0).toDinode = (fragFs.icache 0).toDinode from rfl)).1 fragFs_fileInv
  have hdev : (s₁.icache 0).type ≠ .dev := by decide
  have hoff : (fragFs.ftable 0).off ≤ (s₁.icache 0).size := le_refl _
  have hmax : (fragFs.ftable 0).off + (List.replicate (writeChunk Params.sample) (7 : UInt8)).length
      ≤ Params.sample.MAXFILE * Params.sample.BSIZE := by
    rw [List.length_replicate]; decide
  obtain ⟨s', hw, -⟩ := writei_ok hdev hoff hmax (by
    rw [List.length_replicate]; exact le_trans (by decide) fragFs_freeCount)
  obtain ⟨-, -, hsize, -, inv'⟩ := writei_spec inv hdev hoff hmax hw
  rw [List.length_replicate] at hw hsize
  have hsz : (s'.icache 0).size = 77412 := by rw [hsize]; exact max_eq_right (Nat.le_add_right _ _)
  -- the fifteen slots were empty and now hold blocks
  have hleaf : ∀ j < 12, s'.slot Params.sample 0 (.leaf 0 j) ≠ 0 := fun j hj => by
    have := (inv'.holes ((140 + j) * 512) (by rw [hsz]; omega)).2
    rwa [show (140 + j) * 512 / Params.sample.BSIZE = 140 + j by
      rw [show Params.sample.BSIZE = 512 from rfl]; omega, blockSlot_double_start hj] at this
  have hmid := (slot_child (σ := .leaf 0 0) (π := .middle 0) rfl (hleaf 0 (by decide))).1
  have key : ∀ τ ∈ overflowSlots, τ.Valid Params.sample ∧ s₁.slot Params.sample 0 τ = 0 ∧
      s'.slot Params.sample 0 τ ≠ 0 := by
    intro τ hτ
    simp only [overflowSlots, List.mem_cons, List.mem_map, List.mem_range] at hτ
    rcases hτ with rfl | rfl | rfl | ⟨j, hj, rfl⟩
    · have h139 := (inv'.holes (139 * 512) (by rw [hsz]; decide)).2
      rw [show 139 * 512 / Params.sample.BSIZE = 139 from rfl,
        show blockSlot Params.sample 139 = .entry 127 from rfl] at h139
      exact ⟨by decide, by rw [show s₁.slot _ 0 = fragFs.slot _ 0 from rfl, fragFs_slot]; rfl,
        h139⟩
    · exact ⟨trivial, rfl, (slot_child (σ := .middle 0) (π := .indirect2) rfl hmid).1⟩
    · exact ⟨by decide, rfl, hmid⟩
    · exact ⟨⟨by decide, by change j < 128; omega⟩, rfl, hleaf j hj⟩
  -- their blocks were free, one in each bitmap block, and are in use now
  let Y := overflowSlots.map (s'.slot Params.sample 0)
  have hfree : ∀ y ∈ Y, s₁.disk.allocated Params.sample y = false := by
    intro y hy
    obtain ⟨τ, hτ, rfl⟩ := List.mem_map.1 hy
    obtain ⟨hv, hz, hne⟩ := key τ hτ
    exact (writei_fresh inv hdev hoff hmax hw hv hz).resolve_left hne
  have hused : ∀ y ∈ Y, s'.disk.allocated Params.sample y := by
    intro y hy
    obtain ⟨τ, hτ, rfl⟩ := List.mem_map.1 hy
    obtain ⟨hv, -, hne⟩ := key τ hτ
    exact inv'.own.used τ hv hne
  have hnodup : Y.Nodup := (show overflowSlots.Nodup by decide).map_on fun σ hσ τ hτ h =>
    inv'.own.inj σ τ (key σ hσ).1 (key τ hτ).1 (key σ hσ).2.2 h
  have hreg : ∀ y ∈ Y, ∀ z ∈ Y, y / Params.sample.BPB = z / Params.sample.BPB → y = z := by
    intro y hy z hz h
    have hy' := (fragFs_free y).1 (hfree y hy)
    have hz' := (fragFs_free z).1 (hfree z hz)
    change y / 4096 = z / 4096 at h
    omega
  have hino := writei_logs_inode inv hdev hoff hmax (by rw [List.length_replicate]; decide) hw
  have hcard := card_logged_of_claimed (writei_claimsLogged hw) hnodup hfree hused hreg hino
  have hlen : Y.length = 15 := by simp [Y, overflowSlots]
  refine ⟨s₁, s', ilock_held (by decide) rfl rfl, rfl, rfl, rfl, le_refl _, hw, ?_⟩
  rw [hlen] at hcard
  change 30 < _
  omega

end Xv6Fs
