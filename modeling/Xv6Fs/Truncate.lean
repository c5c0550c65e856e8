import Xv6Fs.Inode
import Xv6Fs.ContentSpec

/-!
# The specification of `itrunc`

On a cache entry whose map it owns, `itrunc` frees exactly the blocks of the entry, each once,
so no `bfree` it issues finds its bit clear; afterwards every slot is empty and the size is 0.

`Frees ip D s t` says that `t` is `s` with the blocks in the slots `D` of `ip` freed. A `bfree`
of the block of one more slot keeps it (`Frees.bfree`): the block is marked in `s`, and no slot
already freed holds it, since the slots of an owned map hold distinct blocks. Each loop of
`itrunc` is then an induction over its index list, and `itrunc_spec` chains the three loops.
-/

namespace Xv6Fs

variable {P : Params}

/-- The slot at position `j` of the index block in slot `π`. -/
def Slot.child : Slot → Nat → Slot
  | .indirect, j => .entry j
  | .indirect2, j => .middle j
  | .middle i, j => .leaf i j
  | σ, _ => σ

namespace Slot

variable {π : Slot}

theorem child_parent (h : π.IsIndex) (j : Nat) : (π.child j).parent = some π := by
  cases π <;> first | rfl | exact absurd h id

theorem child_pos (h : π.IsIndex) (j : Nat) : (π.child j).pos = j := by
  cases π <;> first | rfl | exact absurd h id

theorem child_valid (h : π.IsIndex) (hπ : π.Valid P) {j : Nat} (hj : j < P.NINDIRECT) :
    (π.child j).Valid P := by
  cases π <;> first | exact absurd h id | exact hj | exact ⟨hπ, hj⟩

theorem child_inj (h : π.IsIndex) {j k : Nat} (hjk : π.child j = π.child k) : j = k := by
  rw [← child_pos h j, hjk, child_pos h k]

end Slot

/-- The slot at position `j` under a nonempty index slot holds entry `j` of its block. -/
theorem slot_child_eq {s : State} {ip : Nat} {π : Slot} (h : π.IsIndex) (hπ0 : s.slot P ip π ≠ 0)
    (j : Nat) : s.slot P ip (π.child j) = entry (s.disk.data (s.slot P ip π)) j := by
  rw [State.slot, slotVal_of_parent_some (Slot.child_parent h j), childVal, if_neg hπ0,
    Slot.child_pos h]

/-- The slots under an empty index slot are empty. -/
theorem slot_child_zero {s : State} {ip : Nat} {π : Slot} (h : π.IsIndex) (hπ0 : s.slot P ip π = 0)
    (j : Nat) : s.slot P ip (π.child j) = 0 := by
  rw [State.slot, slotVal_of_parent_some (Slot.child_parent h j), childVal, if_pos hπ0]

variable (P) in
/-- `t` is `s` with the blocks in the slots `D` of `ip` freed: of the bitmap only their bits
are cleared, of the cache only the map of `ip` may differ, and the data are those of `s`. -/
structure Frees (ip : Nat) (D : Slot → Prop) (s t : State) extends MapFrame ip s t : Prop where
  data : t.disk.data = s.disk.data
  alloc : ∀ y, t.disk.allocated P y = true ↔
    s.disk.allocated P y = true ∧ ¬ ∃ τ, D τ ∧ τ.Valid P ∧ s.slot P ip τ = y ∧ y ≠ 0

namespace Frees

variable {ip : Nat} {D : Slot → Prop} {s t : State}

theorem refl (ip : Nat) (s : State) : Frees P ip (fun _ => False) s s :=
  ⟨MapFrame.refl ip s, rfl, fun y => by simp⟩

/-- Only the nonempty slots of `D` matter. -/
theorem congr_nonzero {D' : Slot → Prop} (h : Frees P ip D s t)
    (hD : ∀ τ, τ.Valid P → s.slot P ip τ ≠ 0 → (D τ ↔ D' τ)) : Frees P ip D' s t := by
  refine ⟨h.toMapFrame, h.data, fun y => ?_⟩
  rw [h.alloc]
  refine and_congr_right fun _ => not_congr ⟨?_, ?_⟩ <;> rintro ⟨τ, hτ, hv, hval, hy0⟩
  · exact ⟨τ, (hD τ hv (hval ▸ hy0)).mp hτ, hv, hval, hy0⟩
  · exact ⟨τ, (hD τ hv (hval ▸ hy0)).mpr hτ, hv, hval, hy0⟩

/-- `bfree` of the block of one more nonempty slot succeeds and frees that slot too. -/
theorem bfree (own : s.Owns P ip) (h : Frees P ip D s t) {σ : Slot} (hσ : σ.Valid P)
    (hnew : ¬ D σ) (h0 : s.slot P ip σ ≠ 0) :
    Xv6Fs.bfree P t (s.slot P ip σ) = .ok (t.release P (s.slot P ip σ)) ∧
      Frees P ip (fun τ => D τ ∨ τ = σ) s (t.release P (s.slot P ip σ)) := by
  have hmarked : t.disk.allocated P (s.slot P ip σ) = true := by
    refine (h.alloc _).mpr ⟨own.used σ hσ h0, fun ⟨τ, hτ, hv, hval, _⟩ => hnew ?_⟩
    rwa [← own.inj τ σ hv hσ (fun hz => h0 (hval.symm.trans hz)) hval]
  refine ⟨by rw [bfree_eq, if_pos hmarked], ⟨?_, by simp [h.data], fun y => ?_⟩⟩
  · exact ⟨by simp [h.sb], by simp [h.dinodes], fun o ho => by simp [h.others o ho],
      by rw [release_icache]; exact h.meta, by simp [h.unlocked], by simp [h.ftable],
      by simp [h.devsw]⟩
  · rw [release_allocated, Bool.and_eq_true, h.alloc]
    constructor
    · rintro ⟨hne, ha, hno⟩
      refine ⟨ha, fun ⟨τ, hτ, hv, hval, hy0⟩ => hτ.elim (fun hD => hno ⟨τ, hD, hv, hval, hy0⟩) ?_⟩
      rintro rfl
      simp [hval] at hne
    · rintro ⟨ha, hno⟩
      exact ⟨bne_iff_ne.mpr fun hy => hno ⟨σ, .inr rfl, hσ, hy.symm, hy ▸ h0⟩, ha,
        fun ⟨τ, hτ, hv, hval, hy0⟩ => hno ⟨τ, .inl hτ, hv, hval, hy0⟩⟩

/-- Changing the map of `ip` in the cache keeps `Frees`. -/
theorem setMap (h : Frees P ip D s t) (addrs : Nat → Nat) (indirect2 : Nat) :
    Frees P ip D s (t.setInode ip ((t.icache ip).withMap addrs indirect2)) :=
  ⟨⟨h.sb, h.dinodes, fun o ho => by simp [ho, h.others o ho],
    by simp only [State.setInode_icache, Function.update_same]; rw [h.meta]; rfl,
    h.unlocked, h.ftable, h.devsw⟩, h.data, h.alloc⟩

end Frees

/-- The loop over the entries of a nonempty index block of `ip` frees the slots under it. -/
theorem bfreeEntries_spec {s : State} {ip : Nat} {π : Slot} (own : s.Owns P ip) (hidx : π.IsIndex)
    (hπ : π.Valid P) (hπ0 : s.slot P ip π ≠ 0) :
    ∀ (js : List Nat) (D : Slot → Prop) (t : State), js.Nodup →
      (∀ j ∈ js, j < P.NINDIRECT ∧ ¬ D (π.child j)) → Frees P ip D s t →
      ∃ t', bfreeEntries P (s.disk.data (s.slot P ip π)) t js = .ok t' ∧ t'.icache = t.icache ∧
        Frees P ip (fun τ => D τ ∨ ∃ j ∈ js, τ = π.child j) s t'
  | [], D, t, _, _, h => ⟨t, rfl, rfl, h.congr_nonzero fun τ _ _ => by simp⟩
  | j :: js, D, t, hnd, hjs, h => by
    obtain ⟨hj, hnew⟩ := hjs j (List.mem_cons_self _ _)
    have hnd' := (List.nodup_cons.mp hnd)
    have hv := Slot.child_valid hidx hπ hj
    rw [bfreeEntries, ← slot_child_eq hidx hπ0]
    split
    · rename_i h0
      obtain ⟨hb, h1⟩ := h.bfree own hv hnew h0
      obtain ⟨t', ht', hic, h'⟩ := bfreeEntries_spec own hidx hπ hπ0 js _ _ hnd'.2
        (fun k hk => ⟨(hjs k (List.mem_cons_of_mem _ hk)).1, fun hD => hD.elim
          (hjs k (List.mem_cons_of_mem _ hk)).2
          fun he => hnd'.1 (Slot.child_inj hidx he ▸ hk)⟩) h1
      refine ⟨t', by rw [hb]; exact ht', by rw [hic]; rfl, h'.congr_nonzero fun τ _ _ => ?_⟩
      simp only [List.mem_cons, exists_eq_or_imp]
      exact or_assoc
    · rename_i h0
      obtain ⟨t', ht', hic, h'⟩ := bfreeEntries_spec own hidx hπ hπ0 js D t hnd'.2
        (fun k hk => hjs k (List.mem_cons_of_mem _ hk)) h
      refine ⟨t', ht', hic, h'.congr_nonzero fun τ _ hτ0 => ?_⟩
      simp only [List.mem_cons, exists_eq_or_imp]
      constructor
      · exact Or.imp_right Or.inr
      · rintro (hD | rfl | hrest)
        · exact .inl hD
        · exact absurd (not_not.mp h0) hτ0
        · exact .inr hrest

/-- The loop over the double-indirect block of `ip` frees the second-level slots and the slots
under them. -/
theorem bfreeMiddles_spec {s : State} {ip : Nat} (own : s.Owns P ip)
    (h20 : s.slot P ip .indirect2 ≠ 0) :
    ∀ (is : List Nat) (D : Slot → Prop) (t : State), is.Nodup →
      (∀ i ∈ is, i < P.NINDIRECT ∧ ¬ D (.middle i) ∧ ∀ j, ¬ D (.leaf i j)) → Frees P ip D s t →
      ∃ t', bfreeMiddles P (s.disk.data (s.slot P ip .indirect2)) t is = .ok t' ∧
        t'.icache = t.icache ∧
        Frees P ip (fun τ => D τ ∨ ∃ i ∈ is, τ = .middle i ∨ ∃ j, τ = .leaf i j) s t'
  | [], D, t, _, _, h => ⟨t, rfl, rfl, h.congr_nonzero fun τ _ _ => by simp⟩
  | i :: is, D, t, hnd, his, h => by
    obtain ⟨hi, hnewm, hnewl⟩ := his i (List.mem_cons_self _ _)
    have hnd' := List.nodup_cons.mp hnd
    have hrest : ∀ k ∈ is, k < P.NINDIRECT ∧ ¬ D (.middle k) ∧ ∀ j, ¬ D (.leaf k j) :=
      fun k hk => his k (List.mem_cons_of_mem _ hk)
    have hne : ∀ k ∈ is, k ≠ i := fun k hk hki => hnd'.1 (hki ▸ hk)
    rw [bfreeMiddles, ← slot_child_eq (π := .indirect2) trivial h20]
    split
    · rename_i h0
      -- the entries of the second-level block, then the block itself
      obtain ⟨t1, ht1, hic1, h1⟩ := bfreeEntries_spec (π := .middle i) own trivial hi h0
        (List.range P.NINDIRECT) D t (List.nodup_range _)
        (fun j hj => ⟨List.mem_range.mp hj, hnewl j⟩) h
      obtain ⟨hb, h2⟩ := h1.bfree own hi (σ := .middle i)
        (fun hD => hD.elim hnewm fun ⟨_, _, he⟩ => nomatch he) h0
      obtain ⟨t', ht', hic, h'⟩ := bfreeMiddles_spec own h20 is _ _ hnd'.2
        (fun k hk => ⟨(hrest k hk).1,
          fun hD => hD.elim (fun hD => hD.elim (hrest k hk).2.1 fun ⟨_, _, he⟩ => nomatch he)
            fun he => hne k hk (Slot.middle.inj he),
          fun j hD => hD.elim (fun hD => hD.elim ((hrest k hk).2.2 j)
            fun ⟨_, _, he⟩ => hne k hk (Slot.leaf.inj he).1) fun he => nomatch he⟩) h2
      refine ⟨t', ?_, by rw [hic]; exact hic1, h'.congr_nonzero fun τ hτ _ => ?_⟩
      · show (bfreeEntries P (t.disk.data (s.slot P ip (.middle i))) t _ >>= _) = _
        rw [h.data, ht1]
        show (Xv6Fs.bfree P t1 (s.slot P ip (.middle i)) >>= _) = _
        rw [hb]
        exact ht'
      · constructor
        · rintro (((hD | ⟨j, -, rfl⟩) | rfl) | ⟨k, hk, hτk⟩)
          · exact .inl hD
          · exact .inr ⟨i, List.mem_cons_self _ _, .inr ⟨j, rfl⟩⟩
          · exact .inr ⟨i, List.mem_cons_self _ _, .inl rfl⟩
          · exact .inr ⟨k, List.mem_cons_of_mem _ hk, hτk⟩
        · rintro (hD | ⟨k, hk, hτk⟩)
          · exact .inl (.inl (.inl hD))
          · rcases List.mem_cons.mp hk with rfl | hk
            · rcases hτk with rfl | ⟨j, rfl⟩
              · exact .inl (.inr rfl)
              · exact .inl (.inl (.inr ⟨j, List.mem_range.mpr hτ.2, rfl⟩))
            · exact .inr ⟨k, hk, hτk⟩
    · rename_i h0
      have h0' : s.slot P ip (.middle i) = 0 := not_not.mp h0
      obtain ⟨t', ht', hic, h'⟩ := bfreeMiddles_spec own h20 is D t hnd'.2 hrest h
      refine ⟨t', ht', hic, h'.congr_nonzero fun τ _ hτ0 => ⟨?_, ?_⟩⟩
      · rintro (hD | ⟨k, hk, hτk⟩)
        · exact .inl hD
        · exact .inr ⟨k, List.mem_cons_of_mem _ hk, hτk⟩
      · rintro (hD | ⟨k, hk, hτk⟩)
        · exact .inl hD
        · rcases List.mem_cons.mp hk with rfl | hk
          · rcases hτk with rfl | ⟨j, rfl⟩
            · exact absurd h0' hτ0
            · exact absurd (slot_child_zero (π := .middle k) trivial h0' j) hτ0
          · exact .inr ⟨k, hk, hτk⟩

/-- The loop over the direct entries of `ip` frees them and clears them in the cache. -/
theorem itruncDirect_spec {s : State} {ip : Nat} (own : s.Owns P ip) :
    ∀ (is : List Nat) (D : Slot → Prop) (t : State), is.Nodup →
      (∀ i ∈ is, i < P.NDIRECT ∧ ¬ D (.direct i) ∧
        (t.icache ip).addrs i = (s.icache ip).addrs i) → Frees P ip D s t →
      ∃ t', itruncDirect P ip t is = .ok t' ∧
        (∀ k, (t'.icache ip).addrs k = if k ∈ is then 0 else (t.icache ip).addrs k) ∧
        (t'.icache ip).indirect2 = (t.icache ip).indirect2 ∧
        Frees P ip (fun τ => D τ ∨ ∃ i ∈ is, τ = .direct i) s t'
  | [], D, t, _, _, h => ⟨t, rfl, fun _ => by simp, rfl, h.congr_nonzero fun τ _ _ => by simp⟩
  | i :: is, D, t, hnd, his, h => by
    obtain ⟨hi, hnew, haddr⟩ := his i (List.mem_cons_self _ _)
    have hnd' := List.nodup_cons.mp hnd
    have hne : ∀ k ∈ is, k ≠ i := fun k hk hki => hnd'.1 (hki ▸ hk)
    rw [itruncDirect]
    split
    · rename_i h0
      rw [haddr] at h0 ⊢
      obtain ⟨hb, h1⟩ := h.bfree own (σ := .direct i) hi hnew h0
      have h2 := h1.setMap
        (Function.update ((t.release P (s.slot P ip (.direct i))).icache ip).addrs i 0)
        ((t.release P (s.slot P ip (.direct i))).icache ip).indirect2
      obtain ⟨t', ht', haddrs, hind, h'⟩ := itruncDirect_spec own is _ _ hnd'.2
        (fun k hk => ⟨(his k (List.mem_cons_of_mem _ hk)).1,
          fun hD => hD.elim (his k (List.mem_cons_of_mem _ hk)).2.1
            fun he => hne k hk (Slot.direct.inj he),
          by simp [Inode.withMap, hne k hk, (his k (List.mem_cons_of_mem _ hk)).2.2]⟩) h2
      refine ⟨t', ?_, fun k => ?_, by rw [hind]; simp [Inode.withMap], h'.congr_nonzero
        fun τ _ _ => by simp only [List.mem_cons, exists_eq_or_imp]; exact or_assoc⟩
      · show (Xv6Fs.bfree P t (s.slot P ip (.direct i)) >>= _) = _
        rw [hb]
        exact ht'
      · rw [haddrs]
        by_cases hk : k = i
        · subst hk; simp [Inode.withMap]
        · simp [Inode.withMap, hk]
    · rename_i h0
      have h0' : (t.icache ip).addrs i = 0 := not_not.mp h0
      obtain ⟨t', ht', haddrs, hind, h'⟩ := itruncDirect_spec own is D t hnd'.2
        (fun k hk => his k (List.mem_cons_of_mem _ hk)) h
      refine ⟨t', ht', fun k => ?_, hind, h'.congr_nonzero fun τ _ hτ0 => ?_⟩
      · rw [haddrs]
        by_cases hk : k = i
        · subst hk; simp [h0']
        · simp [hk]
      · simp only [List.mem_cons, exists_eq_or_imp]
        constructor
        · exact Or.imp_right Or.inr
        · rintro (hD | rfl | hrest)
          · exact .inl hD
          · exact absurd (haddr.symm.trans h0') hτ0
          · exact .inr hrest

/-- The map of a cache entry with `addrs[0..NDIRECT]` and `indirect2` cleared. -/
def Inode.cleared (P : Params) (ino : Inode) : Inode :=
  ino.withMap (fun k => if k ≤ P.NDIRECT then 0 else ino.addrs k) 0

/-- The single-indirect part of `itrunc`, once the direct entries are freed and cleared: it
frees the block in `addrs[NDIRECT]` and the blocks its entries name, and clears that slot. -/
theorem itruncIndirect_spec {s t : State} {ip : Nat} (own : s.Owns P ip)
    (f : Frees P ip (fun τ => ∃ i, τ = .direct i) s t)
    (haddrs : ∀ k, (t.icache ip).addrs k =
      if k ∈ List.range P.NDIRECT then 0 else (s.icache ip).addrs k) :
    ∃ t', itruncIndirect P ip t = .ok t' ∧
      (∀ k, (t'.icache ip).addrs k = if k ≤ P.NDIRECT then 0 else (s.icache ip).addrs k) ∧
      (t'.icache ip).indirect2 = (t.icache ip).indirect2 ∧
      Frees P ip (fun τ => (∃ i, τ = .direct i) ∨ τ = .indirect ∨ ∃ j, τ = .entry j) s t' := by
  have hN : (t.icache ip).addrs P.NDIRECT = s.slot P ip .indirect := by
    rw [haddrs]; simp; rfl
  rw [itruncIndirect]
  split
  · rename_i h0
    rw [hN] at h0 ⊢
    obtain ⟨t', ht', hic', h'⟩ := bfreeEntries_spec (π := .indirect) own trivial trivial h0
      (List.range P.NINDIRECT) _ t (List.nodup_range _)
      (fun j hj => ⟨List.mem_range.mp hj, fun ⟨_, he⟩ => nomatch he⟩) f
    obtain ⟨hb, h2⟩ := h'.bfree own (σ := .indirect) trivial
      (by rintro (⟨_, he⟩ | ⟨_, _, he⟩) <;> exact nomatch he) h0
    refine ⟨_, ?_, fun k => ?_, by simp [hic', Inode.withMap], (h2.setMap
      (Function.update ((t'.release P (s.slot P ip .indirect)).icache ip).addrs P.NDIRECT 0)
      ((t'.release P (s.slot P ip .indirect)).icache ip).indirect2).congr_nonzero
        fun τ hτ _ => ?_⟩
    · rw [f.data, ht', bind_of_eq_ok rfl, hic', hN, bind_of_eq_ok hb]; rfl
    · simp only [State.setInode_icache, Function.update_same, release_icache, hic',
        Inode.withMap, Function.update_apply, haddrs, List.mem_range]
      split_ifs <;> first | rfl | omega
    · constructor
      · rintro ((hD | ⟨j, _, rfl⟩) | rfl)
        exacts [.inl hD, .inr (.inr ⟨j, rfl⟩), .inr (.inl rfl)]
      · rintro (hD | rfl | ⟨j, rfl⟩)
        exacts [.inl (.inl hD), .inr rfl, .inl (.inr ⟨j, List.mem_range.mpr hτ, rfl⟩)]
  · rename_i h0
    have h0' : s.slot P ip .indirect = 0 := hN ▸ not_not.mp h0
    refine ⟨t, rfl, fun k => ?_, rfl, f.congr_nonzero fun τ _ hτ0 => ⟨.inl, ?_⟩⟩
    · rw [haddrs]
      by_cases hk : k = P.NDIRECT
      · subst hk; simpa using h0'
      · simp only [List.mem_range]; split_ifs <;> first | rfl | omega
    · rintro (hD | rfl | ⟨j, rfl⟩)
      exacts [hD, absurd h0' hτ0, absurd (slot_child_zero (π := .indirect) trivial h0' j) hτ0]

/-- Every slot is a direct entry, the single-indirect slot or one of its entries, the
double-indirect slot, or a second-level slot or one of its entries. -/
theorem Slot.groups (τ : Slot) : ((∃ i, τ = .direct i) ∨ τ = .indirect ∨ ∃ j, τ = .entry j) ∨
    τ = .indirect2 ∨ ∃ i, τ = .middle i ∨ ∃ j, τ = .leaf i j := by
  cases τ with
  | direct i => exact .inl (.inl ⟨i, rfl⟩)
  | indirect => exact .inl (.inr (.inl rfl))
  | entry j => exact .inl (.inr (.inr ⟨j, rfl⟩))
  | indirect2 => exact .inr (.inl rfl)
  | middle i => exact .inr (.inr ⟨i, .inl rfl⟩)
  | leaf i j => exact .inr (.inr ⟨i, .inr ⟨j, rfl⟩⟩)

/-- The double-indirect part of `itrunc`, once the rest is freed: it frees the block in
`indirect2`, each second-level block and the blocks their entries name, and clears `indirect2`;
then every block of the map is freed. -/
theorem itruncIndirect2_spec {s t : State} {ip : Nat} (own : s.Owns P ip)
    (f : Frees P ip (fun τ => (∃ i, τ = .direct i) ∨ τ = .indirect ∨ ∃ j, τ = .entry j) s t)
    (hI2 : (t.icache ip).indirect2 = s.slot P ip .indirect2) :
    ∃ t', itruncIndirect2 P ip t = .ok t' ∧ (t'.icache ip).addrs = (t.icache ip).addrs ∧
      (t'.icache ip).indirect2 = 0 ∧ Frees P ip (fun _ => True) s t' := by
  rw [itruncIndirect2]
  split
  · rename_i h0
    rw [hI2] at h0 ⊢
    obtain ⟨t', ht', hic', h'⟩ := bfreeMiddles_spec own h0 (List.range P.NINDIRECT) _ t
      (List.nodup_range _) (fun i hi => ⟨List.mem_range.mp hi,
        by rintro (⟨_, he⟩ | he | ⟨_, he⟩) <;> exact (nomatch he),
        fun j => by rintro (⟨_, he⟩ | he | ⟨_, he⟩) <;> exact (nomatch he)⟩) f
    obtain ⟨hb, h3⟩ := h'.bfree own (σ := .indirect2) trivial
      (by rintro ((⟨_, he⟩ | he | ⟨_, he⟩) | ⟨_, _, he | ⟨_, he⟩⟩) <;> exact nomatch he) h0
    refine ⟨_, ?_, by simp [hic', Inode.withMap], by simp [Inode.withMap], (h3.setMap
      ((t'.release P (s.slot P ip .indirect2)).icache ip).addrs 0).congr_nonzero fun τ hτ _ =>
        ⟨fun _ => trivial, fun _ => ?_⟩⟩
    · rw [f.data, ht', bind_of_eq_ok rfl, hic', hI2, bind_of_eq_ok hb]; rfl
    · rcases τ.groups with hD | rfl | ⟨i, hτ⟩
      · exact .inl (.inl hD)
      · exact .inr rfl
      · refine .inl (.inr ⟨i, List.mem_range.mpr ?_, hτ⟩)
        rcases hτ with rfl | ⟨j, rfl⟩
        exacts [‹Slot.Valid P (.middle i)›, ‹Slot.Valid P (.leaf i j)›.1]
  · rename_i h0
    have h0' : s.slot P ip .indirect2 = 0 := hI2 ▸ not_not.mp h0
    refine ⟨t, rfl, rfl, hI2.trans h0', f.congr_nonzero fun τ _ hτ0 =>
      ⟨fun _ => trivial, fun _ => ?_⟩⟩
    rcases τ.groups with hD | rfl | ⟨i, rfl | ⟨j, rfl⟩⟩
    · exact hD
    · exact absurd h0' hτ0
    · exact absurd (slot_child_zero (π := .indirect2) trivial h0' i) hτ0
    · exact absurd (slot_child_zero (π := .middle i) trivial
        (slot_child_zero (π := .indirect2) trivial h0' i) j) hτ0

/-- `itrunc` of an owned map frees exactly the blocks of `ip`, each with its bit set, and clears
the map; it then writes the entry back with size 0. -/
theorem itrunc_spec {s : State} {ip : Nat} (own : s.Owns P ip) :
    ∃ t, Frees P ip (fun _ => True) s t ∧ t.icache ip = (s.icache ip).cleared P ∧
      itrunc P s ip = .ok (iupdate (t.setInode ip { t.icache ip with size := 0 }) ip) := by
  obtain ⟨t1, ht1, haddrs1, hind1, h1⟩ := itruncDirect_spec own (List.range P.NDIRECT)
    (fun _ => False) s (List.nodup_range _) (fun i hi => ⟨List.mem_range.mp hi, id, rfl⟩)
    (Frees.refl ip s)
  have f1 : Frees P ip (fun τ => ∃ i, τ = .direct i) s t1 :=
    h1.congr_nonzero fun τ hτ _ => ⟨fun h => h.elim False.elim fun ⟨i, _, he⟩ => ⟨i, he⟩,
      by rintro ⟨i, rfl⟩; exact .inr ⟨i, List.mem_range.mpr hτ, rfl⟩⟩
  obtain ⟨t2, ht2, haddrs2, hind2, f2⟩ := itruncIndirect_spec own f1 haddrs1
  obtain ⟨t3, ht3, haddrs3, hind3, f3⟩ := itruncIndirect2_spec own f2 (hind2.trans hind1)
  refine ⟨t3, f3, ?_, ?_⟩
  · rw [f3.meta, haddrs3, hind3, Inode.cleared]
    congr 1
    funext k
    exact haddrs2 k
  · rw [itrunc, bind_of_eq_ok ht1, bind_of_eq_ok ht2, bind_of_eq_ok ht3]; rfl


namespace Releases

variable {ip : Nat} {ino : Inode} {s t : State}

end Releases

end Xv6Fs
