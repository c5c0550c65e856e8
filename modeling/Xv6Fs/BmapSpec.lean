import Xv6Fs.Grows

/-!
# The specification of `bmap`

For a cache entry whose slots it owns, `bmap` returns the nonzero block in the slot of block
index `bn`, and what it changed is `Grows`. Each of its three fill routines either finds its
slot filled and changes nothing, or takes one block from `balloc` and puts it into the empty
slot; `slotVal_fill` and `grows_of_fill` do the rest.

`bmap` writes block numbers, never a size: the loops that scan a file up to its size, such as
that of `dirlookup`, see the same bound on every turn.
-/

namespace Xv6Fs

variable {P : Params}

@[simp]
theorem slot_ne_of_used {s : State} {ip x : Nat} {τ : Slot} (own : s.Owns P ip) (hτ : τ.Valid P)
    (hx : s.disk.allocated P x = false) (hne : s.slot P ip τ ≠ 0) : s.slot P ip τ ≠ x := by
  intro heq
  have := own.used τ hτ hne
  rw [State.slot] at heq; rw [heq, hx] at this; cases this

/-- A block `balloc` returns is nonzero: block zero is marked used. -/
theorem balloc_ne_zero {s s' : State} {x : Nat} (boot : s.disk.allocated P 0)
    (h : balloc P s = .ok (x, s')) : x ≠ 0 := by
  rintro rfl; rw [(balloc_eq_ok h).2.1] at boot; cases boot

/-- A block `balloc` returns is a `uint`. -/
theorem balloc_lt {s s' : State} {x : Nat} (h : balloc P s = .ok (x, s')) : x < 2 ^ 32 :=
  Nat.lt_trans (balloc_eq_ok h).1 s.disk.sb.size_lt

theorem ne_of_allocated {d : Disk} {x y : Nat} (hy : d.allocated P y)
    (hx : d.allocated P x = false) :
    y ≠ x := by
  rintro rfl; rw [hx] at hy; cases hy

/-- `bmapAddr` fills the root slot `addrs[k]` and no other. -/
theorem bmapAddr_spec {s s' : State} {ip k a : Nat} {σ : Slot}
    (hσ : σ = .direct k ∧ k < P.NDIRECT ∨ σ = .indirect ∧ k = P.NDIRECT)
    (own : s.Owns P ip) (boot : s.disk.allocated P 0) (h : bmapAddr P s ip k = .ok (a, s')) :
    Grows P ip s s' ∧ s'.Owns P ip ∧ a ≠ 0 ∧ s'.slot P ip σ = a ∧
      ∀ τ, τ.Valid P → τ ≠ σ → s'.slot P ip τ = s.slot P ip τ := by
  have hslot : ∀ t : State, t.slot P ip σ = (t.icache ip).addrs k := by
    intro t; rcases hσ with ⟨rfl, -⟩ | ⟨rfl, rfl⟩ <;> rfl
  have hroot : σ.parent = none := by rcases hσ with ⟨rfl, -⟩ | ⟨rfl, -⟩ <;> rfl
  unfold bmapAddr at h
  split at h
  · rename_i hz
    obtain ⟨⟨x, s1⟩, hb, hrest⟩ := bind_eq_ok h
    have hx0 := balloc_ne_zero boot hb
    have hx := balloc_lt hb
    obtain ⟨-, hfree, rfl⟩ := balloc_eq_ok hb
    simp only [pure, Except.pure, Except.ok.injEq, Prod.mk.injEq] at hrest
    obtain ⟨rfl, hs'⟩ := hrest
    have upd : ∀ τ, τ.Valid P → s'.slot P ip τ = if τ = σ then x else s.slot P ip τ := by
      rw [← hs']
      refine slotVal_fill (P := P) ((hslot s).trans hz) (fun π hπ => by simp [hroot] at hπ) hx0 hx
        (fun τ _ hτ => ?_) (by simp) (fun ρ hρ _ hne => ?_)
      · rcases hσ with ⟨rfl, hk⟩ | ⟨rfl, rfl⟩ <;> cases τ <;>
          simp [rootVal, Function.update_apply, Slot.Valid] at hτ ⊢ <;> omega
      · rw [if_neg (by simp [hroot])]
        exact Function.update_noteq (slot_ne_of_used own hρ hfree hne) _ _
    have frame : MapFrame ip s s' := by
      rw [← hs']
      exact ⟨by simp, by simp, fun o ho => by simp [ho], by simp; rfl, rfl, rfl, rfl⟩
    have grows := grows_of_fill frame own hfree ((hslot s).trans hz) upd
      (by rw [← hs']; simp)
      (fun y hy _ => by
        rw [← hs']; exact Function.update_noteq (ne_of_allocated hy hfree) _ _)
    refine ⟨grows.1, grows.2, hx0, ?_, fun τ hτ hne => by rw [upd τ hτ, if_neg hne]⟩
    rw [upd σ (by rcases hσ with ⟨rfl, hk⟩ | ⟨rfl, -⟩ <;> trivial), if_pos rfl]
  · rename_i hnz
    cases h
    exact ⟨Grows.refl ip s, own, hnz, hslot s, fun _ _ _ => rfl⟩

/-- `bmapIndirect2` fills the root slot `indirect2` and no other. -/
theorem bmapIndirect2_spec {s s' : State} {ip a : Nat} (own : s.Owns P ip)
    (boot : s.disk.allocated P 0) (h : bmapIndirect2 P s ip = .ok (a, s')) :
    Grows P ip s s' ∧ s'.Owns P ip ∧ a ≠ 0 ∧ s'.slot P ip .indirect2 = a ∧
      ∀ τ, τ.Valid P → τ ≠ .indirect2 → s'.slot P ip τ = s.slot P ip τ := by
  unfold bmapIndirect2 at h
  split at h
  · rename_i hz
    obtain ⟨⟨x, s1⟩, hb, hrest⟩ := bind_eq_ok h
    have hx0 := balloc_ne_zero boot hb
    have hx := balloc_lt hb
    obtain ⟨-, hfree, rfl⟩ := balloc_eq_ok hb
    simp only [pure, Except.pure, Except.ok.injEq, Prod.mk.injEq] at hrest
    obtain ⟨rfl, hs'⟩ := hrest
    have upd : ∀ τ, τ.Valid P → s'.slot P ip τ = if τ = .indirect2 then x else s.slot P ip τ := by
      rw [← hs']
      refine slotVal_fill (P := P) hz (fun π hπ => by cases hπ) hx0 hx
        (fun τ _ _ => ?_) (by simp) (fun ρ hρ _ hne => ?_)
      · cases τ <;> simp [rootVal]
      · rw [if_neg (by simp [Slot.parent])]
        exact Function.update_noteq (slot_ne_of_used own hρ hfree hne) _ _
    have frame : MapFrame ip s s' := by
      rw [← hs']
      exact ⟨by simp, by simp, fun o ho => by simp [ho], by simp; rfl, rfl, rfl, rfl⟩
    have grows := grows_of_fill (σ := .indirect2) frame own hfree hz upd (by rw [← hs']; simp)
      (fun y hy _ => by
        rw [← hs']; exact Function.update_noteq (ne_of_allocated hy hfree) _ _)
    exact ⟨grows.1, grows.2, hx0, by rw [upd .indirect2 trivial, if_pos rfl],
      fun τ hτ hne => by rw [upd τ hτ, if_neg hne]⟩
  · rename_i hnz
    cases h
    exact ⟨Grows.refl ip s, own, hnz, rfl, fun _ _ _ => rfl⟩

/-- `bmapEntry` fills the child slot `σ` of the index block in its parent slot `π`, and no
other slot. -/
theorem bmapEntry_spec {s s' : State} {ip a : Nat} {σ π : Slot} (hσ : σ.Valid P)
    (hpar : σ.parent = some π) (hπ0 : s.slot P ip π ≠ 0) (own : s.Owns P ip)
    (boot : s.disk.allocated P 0) (h : bmapEntry P s (s.slot P ip π) σ.pos = .ok (a, s')) :
    Grows P ip s s' ∧ s'.Owns P ip ∧ a ≠ 0 ∧ s'.slot P ip σ = a ∧
      ∀ τ, τ.Valid P → τ ≠ σ → s'.slot P ip τ = s.slot P ip τ := by
  have hπ := Slot.parent_valid hσ hpar
  have hslot : s.slot P ip σ = entry (s.disk.data (s.slot P ip π)) σ.pos := by
    rw [State.slot, slotVal_of_parent_some hpar, childVal, if_neg hπ0]
  unfold bmapEntry at h
  split at h
  · rename_i hz
    obtain ⟨⟨x, s1⟩, hb, hrest⟩ := bind_eq_ok h
    have hx0 := balloc_ne_zero boot hb
    have hx := balloc_lt hb
    obtain ⟨-, hfree, rfl⟩ := balloc_eq_ok hb
    simp only [pure, Except.pure, Except.ok.injEq, Prod.mk.injEq] at hrest
    obtain ⟨rfl, hs'⟩ := hrest
    have hblkx := slot_ne_of_used own hπ hfree hπ0
    have upd : ∀ τ, τ.Valid P → s'.slot P ip τ = if τ = σ then x else s.slot P ip τ := by
      rw [← hs']
      refine slotVal_fill (P := P) (hslot.trans hz) (fun π' hπ' => ?_) hx0 hx
        (fun τ hτ _ => ?_) ?_ (fun ρ hρ hidx hne => ?_)
      · rw [hpar] at hπ'; cases hπ'; exact hπ0
      · rw [if_neg (by rintro rfl; simp [hpar] at hτ)]; rfl
      · simp [Function.update_noteq hblkx.symm]
      · simp only [State.log_disk, State.setDisk_disk, Disk.setBlock_data, claim_data]
        by_cases hρπ : σ.parent = some ρ
        · rw [hpar] at hρπ; cases hρπ
          rw [if_pos hpar, Function.update_same, Function.update_noteq hblkx]
        · have hne' : s.slot P ip ρ ≠ s.slot P ip π := fun heq =>
            hρπ (by rw [own.inj ρ π hρ hπ hne heq, hpar])
          rw [if_neg hρπ, Function.update_noteq hne',
            Function.update_noteq (slot_ne_of_used own hρ hfree hne)]
    have frame : MapFrame ip s s' := by
      rw [← hs']
      exact ⟨by simp, by simp, fun o _ => by simp, by simp; rfl, rfl, rfl, rfl⟩
    have grows := grows_of_fill frame own hfree (hslot.trans hz) upd (by rw [← hs']; simp)
      (fun y hy hidx => by
        have hyπ : y ≠ s.slot P ip π := fun heq =>
          hidx ⟨π, hπ, Slot.parent_isIndex hpar, heq.symm, heq ▸ hπ0⟩
        rw [← hs']
        simp only [State.log_disk, State.setDisk_disk, Disk.setBlock_data, claim_data]
        rw [Function.update_noteq hyπ, Function.update_noteq (ne_of_allocated hy hfree)])
    exact ⟨grows.1, grows.2, hx0, by rw [upd σ hσ, if_pos rfl],
      fun τ hτ hne => by rw [upd τ hτ, if_neg hne]⟩
  · rename_i hnz
    cases h
    exact ⟨Grows.refl ip s, own, hnz, hslot, fun _ _ _ => rfl⟩

theorem blockSlot_double {bn : Nat} (h₁ : ¬ bn < P.NDIRECT) (h₂ : ¬ bn - P.NDIRECT < P.NINDIRECT) :
    blockSlot P bn = .leaf ((bn - P.NDIRECT - P.NINDIRECT) / P.NINDIRECT)
      ((bn - P.NDIRECT - P.NINDIRECT) % P.NINDIRECT) := by
  rw [blockSlot, if_neg h₁, if_neg h₂]

theorem leaf_valid {b : Nat} (h : b < P.NINDIRECT * P.NINDIRECT) :
    (Slot.leaf (b / P.NINDIRECT) (b % P.NINDIRECT)).Valid P := by
  have hpos : 0 < P.NINDIRECT := Nat.pos_of_ne_zero (by rintro h0; simp [h0] at h)
  exact ⟨(Nat.div_lt_iff_lt_mul hpos).mpr h, Nat.mod_lt b hpos⟩

theorem blockSlot_valid {bn : Nat} (h : bn < P.MAXFILE) : (blockSlot P bn).Valid P := by
  unfold Params.MAXFILE at h
  unfold blockSlot
  split_ifs with h₁ h₂
  · exact h₁
  · exact h₂
  · exact leaf_valid (by omega)

theorem blockSlot_not_isIndex (bn : Nat) : ¬ (blockSlot P bn).IsIndex := by
  unfold blockSlot
  split_ifs <;> exact id

theorem blockSlot_inj {bn bn' : Nat} (h : blockSlot P bn = blockSlot P bn') : bn = bn' := by
  unfold blockSlot at h
  split_ifs at h <;>
    simp only [Slot.direct.injEq, Slot.entry.injEq, Slot.leaf.injEq, reduceCtorEq] at h <;>
    try omega
  have e : bn - P.NDIRECT - P.NINDIRECT = bn' - P.NDIRECT - P.NINDIRECT := by
    rw [← Nat.div_add_mod (bn - _ - _) P.NINDIRECT, h.1, h.2, Nat.div_add_mod]
  omega

/-- `bmap` returns the nonzero block in the slot of `bn`, which is below `MAXFILE`, and only
grows the map of `ip`: besides that slot it fills at most the index slots on the way to it. -/
theorem bmap_spec {s s' : State} {ip bn a : Nat} (own : s.Owns P ip)
    (boot : s.disk.allocated P 0) (h : bmap P s ip bn = .ok (a, s')) :
    Grows P ip s s' ∧ s'.Owns P ip ∧ a ≠ 0 ∧ bn < P.MAXFILE ∧
      s'.slot P ip (blockSlot P bn) = a ∧
      ∀ τ, τ.Valid P → ¬ τ.IsIndex → τ ≠ blockSlot P bn → s'.slot P ip τ = s.slot P ip τ := by
  unfold bmap at h
  split at h
  · rename_i hd
    obtain ⟨g, o, a0, hs, fr⟩ := bmapAddr_spec (σ := .direct bn) (.inl ⟨rfl, hd⟩) own boot h
    rw [blockSlot, if_pos hd]
    exact ⟨g, o, a0, by unfold Params.MAXFILE; omega, hs, fun τ hτ _ hne => fr τ hτ hne⟩
  · rename_i hd
    dsimp only at h
    split at h
    · rename_i hi
      obtain ⟨⟨ind, s1⟩, h1, h2⟩ := bind_eq_ok h
      obtain ⟨g1, o1, i0, hs1, fr1⟩ := bmapAddr_spec (σ := .indirect) (.inr ⟨rfl, rfl⟩) own boot h1
      rw [← hs1] at h2 i0
      obtain ⟨g2, o2, a0, hs2, fr2⟩ := bmapEntry_spec (σ := .entry (bn - P.NDIRECT))
        (π := .indirect) hi rfl i0 o1 (g1.marks 0 boot) h2
      rw [blockSlot, if_neg hd, if_pos hi]
      exact ⟨g1.trans g2, o2, a0, by unfold Params.MAXFILE; omega, hs2,
        fun τ hτ hidx hne => (fr2 τ hτ hne).trans (fr1 τ hτ (by rintro rfl; exact hidx trivial))⟩
    · rename_i hi
      split at h
      · rename_i hdd
        obtain ⟨⟨ind, s1⟩, h1, h2⟩ := bind_eq_ok h
        obtain ⟨⟨mid, s2⟩, h2, h3⟩ := bind_eq_ok h2
        have hv := leaf_valid hdd
        obtain ⟨g1, o1, i0, hs1, fr1⟩ := bmapIndirect2_spec own boot h1
        rw [← hs1] at h2 i0
        obtain ⟨g2, o2, m0, hs2, fr2⟩ := bmapEntry_spec
          (σ := .middle ((bn - P.NDIRECT - P.NINDIRECT) / P.NINDIRECT)) (π := .indirect2)
          hv.1 rfl i0 o1 (g1.marks 0 boot) h2
        rw [← hs2] at h3 m0
        obtain ⟨g3, o3, a0, hs3, fr3⟩ := bmapEntry_spec (π := .middle _) hv rfl m0 o2
          (g2.marks 0 (g1.marks 0 boot)) h3
        rw [blockSlot_double hd hi]
        refine ⟨(g1.trans g2).trans g3, o3, a0, by unfold Params.MAXFILE; omega, hs3,
          fun τ hτ hidx hne => ?_⟩
        rw [fr3 τ hτ hne, fr2 τ hτ (by rintro rfl; exact hidx trivial),
          fr1 τ hτ (by rintro rfl; exact hidx trivial)]
      · cases h

/-- A child slot that holds a block has a parent that holds one, and is read from it. -/
theorem slot_child {s : State} {ip : Nat} {σ π : Slot} (hpar : σ.parent = some π)
    (h : s.slot P ip σ ≠ 0) :
    s.slot P ip π ≠ 0 ∧ entry (s.disk.data (s.slot P ip π)) σ.pos = s.slot P ip σ := by
  have heq := @slotVal_of_parent_some P s.disk.data (s.icache ip).toDinode σ π hpar
  simp only [State.slot, childVal] at h heq ⊢
  split at heq
  · exact absurd heq h
  · exact ⟨by assumption, heq.symm⟩

/-- A block index whose slot already holds a block: `bmap` returns it and changes nothing. -/
theorem bmap_of_mapped {s : State} {ip bn : Nat} (hbn : bn < P.MAXFILE)
    (hmap : s.slot P ip (blockSlot P bn) ≠ 0) :
    bmap P s ip bn = .ok (s.slot P ip (blockSlot P bn), s) := by
  unfold bmap
  split
  · rename_i hd
    rw [blockSlot, if_pos hd] at hmap ⊢
    rw [bmapAddr, if_neg (show (s.icache ip).addrs bn ≠ 0 from hmap)]
    rfl
  · rename_i hd
    dsimp only
    split
    · rename_i hi
      rw [blockSlot, if_neg hd, if_pos hi] at hmap ⊢
      obtain ⟨hind, hent⟩ := slot_child (σ := .entry (bn - P.NDIRECT)) (π := .indirect) rfl hmap
      rw [bmapAddr, if_neg (show (s.icache ip).addrs P.NDIRECT ≠ 0 from hind)]
      show bmapEntry P s (s.slot P ip .indirect) (Slot.entry (bn - P.NDIRECT)).pos = _
      rw [bmapEntry, if_neg (by rw [hent]; exact hmap), hent]
      rfl
    · rename_i hi
      rw [blockSlot_double hd hi] at hmap ⊢
      obtain ⟨hmid, hleaf⟩ := slot_child (σ := .leaf _ _) (π := .middle _) rfl hmap
      obtain ⟨hind2, hent⟩ := slot_child (σ := .middle _) (π := .indirect2) rfl hmid
      have hdd : bn - P.NDIRECT - P.NINDIRECT < P.NINDIRECT * P.NINDIRECT := by
        unfold Params.MAXFILE at hbn; omega
      rw [if_pos hdd]
      rw [bmapIndirect2, if_neg (show (s.icache ip).indirect2 ≠ 0 from hind2)]
      generalize (bn - P.NDIRECT - P.NINDIRECT) = b at hmid hleaf hent hmap ⊢
      show (bmapEntry P s (s.slot P ip .indirect2) (Slot.middle (b / P.NINDIRECT)).pos >>= _) = _
      rw [bmapEntry, if_neg (by rw [hent]; exact hmid), hent]
      show bmapEntry P s (s.slot P ip (.middle (b / P.NINDIRECT)))
        (Slot.leaf (b / P.NINDIRECT) (b % P.NINDIRECT)).pos = _
      rw [bmapEntry, if_neg (by rw [hleaf]; exact hmap), hleaf]
      rfl

/-- Below `MAXFILE`, `bmap` fails only when `balloc` runs out of blocks. -/
theorem bmap_error {s : State} {ip bn : Nat} {e : Fault} (hbn : bn < P.MAXFILE)
    (h : bmap P s ip bn = .error e) : e = .panic "balloc: out of blocks" := by
  -- each fill routine fails only through its `balloc`
  have fill : ∀ {x : Except Fault (Nat × State)} {f : Nat × State → Except Fault (Nat × State)},
      (x = .error e → e = .panic "balloc: out of blocks") →
      (∀ a, f a = .error e → e = .panic "balloc: out of blocks") →
      x >>= f = .error e → e = .panic "balloc: out of blocks" := fun hx hf h => by
    rcases bind_eq_error h with h | ⟨a, -, h⟩
    exacts [hx h, hf a h]
  have hb : ∀ t : State, balloc P t = .error e → e = .panic "balloc: out of blocks" :=
    fun t h => (balloc_eq_error h).1
  have hpure : ∀ a : Nat × State, (pure a : Except Fault (Nat × State)) = .error e →
      e = .panic "balloc: out of blocks" := fun _ h => by cases h
  have addr : ∀ t k, bmapAddr P t ip k = .error e → e = .panic "balloc: out of blocks" := by
    intro t k h; unfold bmapAddr at h; split at h
    exacts [fill (hb t) (fun _ => hpure _) h, by cases h]
  have ent : ∀ t blk x, bmapEntry P t blk x = .error e → e = .panic "balloc: out of blocks" := by
    intro t blk x h; unfold bmapEntry at h; split at h
    exacts [fill (hb t) (fun _ => hpure _) h, by cases h]
  have ind2 : ∀ t, bmapIndirect2 P t ip = .error e → e = .panic "balloc: out of blocks" := by
    intro t h; unfold bmapIndirect2 at h; split at h
    exacts [fill (hb t) (fun _ => hpure _) h, by cases h]
  unfold Params.MAXFILE at hbn
  unfold bmap at h
  split at h
  · exact addr _ _ h
  · dsimp only at h
    split at h
    · exact fill (addr _ _) (fun _ => ent _ _ _) h
    · rw [if_pos (by omega)] at h
      exact fill (ind2 _) (fun _ => fill (ent _ _ _) (fun _ => ent _ _ _)) h

/-- `bmapAddr` succeeds when a block is free, and uses at most one. -/
theorem bmapAddr_ok {s : State} (ip k : Nat) (h : 0 < s.disk.freeCount P) :
    ∃ a s', bmapAddr P s ip k = .ok (a, s') ∧ s.disk.freeCount P ≤ s'.disk.freeCount P + 1 := by
  unfold bmapAddr
  split
  · obtain ⟨x, hx, hc⟩ := balloc_ok_of_freeCount h
    rw [hx]
    exact ⟨x, _, rfl, by simp only [State.setInode_disk]; omega⟩
  · exact ⟨_, s, rfl, Nat.le_succ _⟩

/-- `bmapIndirect2` succeeds when a block is free, and uses at most one. -/
theorem bmapIndirect2_ok {s : State} (ip : Nat) (h : 0 < s.disk.freeCount P) :
    ∃ a s', bmapIndirect2 P s ip = .ok (a, s') ∧ s.disk.freeCount P ≤ s'.disk.freeCount P + 1 := by
  unfold bmapIndirect2
  split
  · obtain ⟨x, hx, hc⟩ := balloc_ok_of_freeCount h
    rw [hx]
    exact ⟨x, _, rfl, by simp only [State.setInode_disk]; omega⟩
  · exact ⟨_, s, rfl, Nat.le_succ _⟩

/-- `bmapEntry` succeeds when a block is free, and uses at most one. -/
theorem bmapEntry_ok {s : State} (blk x : Nat) (h : 0 < s.disk.freeCount P) :
    ∃ a s', bmapEntry P s blk x = .ok (a, s') ∧ s.disk.freeCount P ≤ s'.disk.freeCount P + 1 := by
  unfold bmapEntry
  split
  · obtain ⟨y, hy, hc⟩ := balloc_ok_of_freeCount h
    rw [hy]
    exact ⟨y, _, rfl, by simp only [State.log_disk, State.setDisk_disk, freeCount_setBlock]; omega⟩
  · exact ⟨_, s, rfl, Nat.le_succ _⟩

/-- With three free blocks, `bmap` below `MAXFILE` succeeds, and uses at most three. -/
theorem bmap_ok {s : State} (ip bn : Nat) (hbn : bn < P.MAXFILE) (h : 3 ≤ s.disk.freeCount P) :
    ∃ a s', bmap P s ip bn = .ok (a, s') ∧ s.disk.freeCount P ≤ s'.disk.freeCount P + 3 := by
  unfold Params.MAXFILE at hbn
  unfold bmap
  split
  · obtain ⟨a, s', h1, c1⟩ := bmapAddr_ok ip bn (by omega : 0 < s.disk.freeCount P)
    exact ⟨a, s', h1, by omega⟩
  · dsimp only
    split
    · obtain ⟨a1, s1, h1, c1⟩ := bmapAddr_ok ip P.NDIRECT
        (by omega : 0 < s.disk.freeCount P)
      obtain ⟨a2, s2, h2, c2⟩ := bmapEntry_ok a1 (bn - P.NDIRECT)
        (by omega : 0 < s1.disk.freeCount P)
      exact ⟨a2, s2, by rw [h1]; exact h2, by omega⟩
    · rw [if_pos (by omega)]
      obtain ⟨a1, s1, h1, c1⟩ := bmapIndirect2_ok ip (by omega : 0 < s.disk.freeCount P)
      obtain ⟨a2, s2, h2, c2⟩ := bmapEntry_ok a1
        ((bn - P.NDIRECT - P.NINDIRECT) / P.NINDIRECT) (by omega : 0 < s1.disk.freeCount P)
      obtain ⟨a3, s3, h3, c3⟩ := bmapEntry_ok a2
        ((bn - P.NDIRECT - P.NINDIRECT) % P.NINDIRECT) (by omega : 0 < s2.disk.freeCount P)
      refine ⟨a3, s3, ?_, by omega⟩
      rw [h1]
      show (bmapEntry P s1 a1 _ >>= _) = _
      rw [h2]
      exact h3

/-- `balloc` leaves the inode cache alone. -/
theorem balloc_icache {s s' : State} {x : Nat} (h : balloc P s = .ok (x, s')) :
    s'.icache = s.icache := by
  obtain ⟨-, -, rfl⟩ := balloc_eq_ok h
  rfl

/-- Rewriting a cache entry with its own size keeps the size of every entry. -/
theorem size_setInode {s : State} {ip : Nat} {ino : Inode} (h : ino.size = (s.icache ip).size)
    (x : Nat) : ((s.setInode ip ino).icache x).size = (s.icache x).size := by
  by_cases hx : x = ip
  · subst hx
    rw [State.setInode_icache, Function.update_same, h]
  · rw [State.setInode_icache, Function.update_noteq hx]

theorem bmapAddr_size {s s' : State} {ip k a : Nat} (h : bmapAddr P s ip k = .ok (a, s'))
    (x : Nat) : (s'.icache x).size = (s.icache x).size := by
  unfold bmapAddr at h
  split at h
  · obtain ⟨⟨y, s1⟩, hb, h⟩ := bind_eq_ok h
    simp only [pure, Except.pure, Except.ok.injEq, Prod.mk.injEq] at h
    obtain ⟨-, rfl⟩ := h
    refine (size_setInode ?_ x).trans ?_
    · rfl
    · rw [balloc_icache hb]
  · cases h; rfl

theorem bmapIndirect2_size {s s' : State} {ip a : Nat} (h : bmapIndirect2 P s ip = .ok (a, s'))
    (x : Nat) : (s'.icache x).size = (s.icache x).size := by
  unfold bmapIndirect2 at h
  split at h
  · obtain ⟨⟨y, s1⟩, hb, h⟩ := bind_eq_ok h
    simp only [pure, Except.pure, Except.ok.injEq, Prod.mk.injEq] at h
    obtain ⟨-, rfl⟩ := h
    refine (size_setInode ?_ x).trans ?_
    · rfl
    · rw [balloc_icache hb]
  · cases h; rfl

theorem bmapEntry_size {s s' : State} {blk j a : Nat} (h : bmapEntry P s blk j = .ok (a, s'))
    (x : Nat) : (s'.icache x).size = (s.icache x).size := by
  unfold bmapEntry at h
  split at h
  · obtain ⟨⟨y, s1⟩, hb, h⟩ := bind_eq_ok h
    simp only [pure, Except.pure, Except.ok.injEq, Prod.mk.injEq] at h
    obtain ⟨-, rfl⟩ := h
    rw [State.log_icache, State.setDisk_icache, balloc_icache hb]
  · cases h; rfl

/-- `bmap` keeps the size of every inode. -/
theorem bmap_size {s s' : State} {ip bn a : Nat} (h : bmap P s ip bn = .ok (a, s')) (x : Nat) :
    (s'.icache x).size = (s.icache x).size := by
  unfold bmap at h
  split at h
  · exact bmapAddr_size h x
  dsimp only at h
  split at h
  · obtain ⟨⟨ind, s1⟩, h1, h2⟩ := bind_eq_ok h
    rw [bmapEntry_size h2, bmapAddr_size h1]
  split at h
  · obtain ⟨⟨ind, s1⟩, h1, h2⟩ := bind_eq_ok h
    obtain ⟨⟨mid, s2⟩, h2, h3⟩ := bind_eq_ok h2
    rw [bmapEntry_size h3, bmapEntry_size h2, bmapIndirect2_size h1]
  · cases h

/-- A map without blocks owns them. -/
theorem State.Owns.of_empty {s : State} {ip : Nat} (hz : ∀ τ, s.slot P ip τ = 0) :
    s.Owns P ip :=
  ⟨fun σ _ _ _ h0 _ => absurd (hz σ) h0, fun σ _ h0 => absurd (hz σ) h0⟩

/-- A disk of two blocks, both in use, with an empty regular file in every cache entry. -/
def fullDisk : State where
  disk := ⟨⟨2, 1, by decide⟩, fun _ _ _ => true, fun _ => Dinode.zero, fun _ _ => 0⟩
  icache := fun _ => ⟨{ Dinode.zero with type := .file }, 1, 1, 1, true, true⟩
  unlocked := fun _ _ => 0
  ftable := fun _ => ⟨.none, 0, false, false, 0, 0, 0⟩
  devsw := fun _ => ⟨none, none⟩
  logged := []

/-- A disk of `2 ^ 20` blocks and 8 inodes as `mkfs` leaves it: the 261 blocks before the data
region are in use and every other block is free. Dinode 1 and every cache entry hold an empty
regular file. -/
def emptyDisk : State :=
  { fullDisk with
    disk := ⟨⟨2 ^ 20, 8, by decide⟩, fun k byte bit => k = 0 ∧ byte * 8 + bit < 261,
      fun i => if i = 1 then { Dinode.zero with type := .file } else Dinode.zero,
      fun _ _ => 0⟩ }

theorem emptyDisk_allocated (y : Nat) :
    emptyDisk.disk.allocated Params.sample y = decide (y < 261) := by
  simp only [Disk.allocated, emptyDisk, Params.BPB, Params.sample, decide_eq_decide]
  omega

theorem emptyDisk_formatted : emptyDisk.disk.Formatted Params.sample := fun b hb => by
  rw [emptyDisk_allocated]
  exact decide_eq_true (show b < 261 from hb)

end Xv6Fs
