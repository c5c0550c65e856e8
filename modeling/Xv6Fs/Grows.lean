import Xv6Fs.Slots

/-!
# What `bmap` and `writei` change

`SlotGrowth ip s s'` says that the block map of cache entry `ip` only grows: empty slots receive
blocks that were free and bitmap bits are only set, while the other cache entries, the dinodes
and the tables stay. `Grows` adds what `bmap` writes: of the blocks in use, only index blocks of
`ip`. `Writes` is the weaker relation of `writei`, which also writes data blocks of `ip`. All
three are reflexive and transitive, so the loops of `writei` and `readi`, which call `bmap` once
per block, inherit them from the single call.

`grows_of_fill` turns the slot update of `slotVal_fill` into `Grows` and the preservation of
`Owns`; the three fill routines of `bmap` are then a few lines each.
-/

namespace Xv6Fs

variable (P : Params)

namespace State

/-- The block in slot `τ` of cache entry `ip`. -/
@[reducible]
def slot (s : State) (ip : Nat) (τ : Slot) : Nat :=
  slotVal P s.disk.data (s.icache ip).toDinode τ

/-- Block ownership for cache entry `ip`. -/
def Owns (s : State) (ip : Nat) : Prop :=
  Xv6Fs.Owns P s.disk (s.icache ip).toDinode

/-- `y` is an index block of cache entry `ip`. -/
def IsIndexOf (s : State) (ip y : Nat) : Prop :=
  Xv6Fs.IsIndexOf P s.disk (s.icache ip).toDinode y

end State

/-- `s'` differs from `s` at most in the bitmap, the data blocks, the log and the block map of
cache entry `ip`. -/
structure MapFrame (ip : Nat) (s s' : State) : Prop where
  sb : s'.disk.sb = s.disk.sb
  dinodes : s'.disk.dinodes = s.disk.dinodes
  others : ∀ o, o ≠ ip → s'.icache o = s.icache o
  meta : s'.icache ip = (s.icache ip).withMap (s'.icache ip).addrs (s'.icache ip).indirect2
  unlocked : s'.unlocked = s.unlocked
  ftable : s'.ftable = s.ftable
  devsw : s'.devsw = s.devsw

/-- The block map of `ip` only grows: filled slots keep their block, empty ones receive a block
that was free, and bitmap bits are only set. -/
structure SlotGrowth (ip : Nat) (s s' : State) extends MapFrame ip s s' : Prop where
  keep : ∀ τ, τ.Valid P → s.slot P ip τ ≠ 0 → s'.slot P ip τ = s.slot P ip τ
  fresh : ∀ τ, τ.Valid P → s.slot P ip τ = 0 →
    s'.slot P ip τ = 0 ∨ s.disk.allocated P (s'.slot P ip τ) = false
  marks : ∀ y, s.disk.allocated P y → s'.disk.allocated P y

/-- What `bmap` on cache entry `ip` may do: grow the map, writing no used block but index
blocks of `ip`. -/
structure Grows (ip : Nat) (s s' : State) extends SlotGrowth P ip s s' : Prop where
  data : ∀ y, s.disk.allocated P y → ¬ s.IsIndexOf P ip y → s'.disk.data y = s.disk.data y

/-- `ip` has block `y` in one of its slots. -/
def State.HasBlock (s : State) (ip y : Nat) : Prop :=
  ∃ τ, τ.Valid P ∧ s.slot P ip τ = y ∧ y ≠ 0

/-- What `writei` on cache entry `ip` may do: grow the map, writing no used block that `ip`
does not have. -/
structure Writes (ip : Nat) (s s' : State) extends SlotGrowth P ip s s' : Prop where
  data : ∀ y, s.disk.allocated P y → ¬ s.HasBlock P ip y → s'.disk.data y = s.disk.data y

variable {P}

namespace MapFrame

theorem refl (ip : Nat) (s : State) : MapFrame ip s s :=
  ⟨rfl, rfl, fun _ _ => rfl, rfl, rfl, rfl, rfl⟩

theorem trans {ip : Nat} {s s' s'' : State} (h : MapFrame ip s s') (h' : MapFrame ip s' s'') :
    MapFrame ip s s'' where
  sb := h'.sb.trans h.sb
  dinodes := h'.dinodes.trans h.dinodes
  others o ho := (h'.others o ho).trans (h.others o ho)
  meta := by rw [h'.meta, h.meta]; rfl
  unlocked := h'.unlocked.trans h.unlocked
  ftable := h'.ftable.trans h.ftable
  devsw := h'.devsw.trans h.devsw

end MapFrame

namespace SlotGrowth

variable {ip : Nat} {s s' s'' : State}

theorem refl (ip : Nat) (s : State) : SlotGrowth P ip s s :=
  ⟨MapFrame.refl ip s, fun _ _ _ => rfl, fun _ _ h => .inl h, fun _ h => h⟩

/-- A block that was in use and is now in a slot was already in that slot. -/
theorem slot_eq {y : Nat} {τ : Slot} (h : SlotGrowth P ip s s') (hτ : τ.Valid P)
    (hy : s.disk.allocated P y) (hval : s'.slot P ip τ = y) (hy0 : y ≠ 0) : s.slot P ip τ = y := by
  by_cases hz : s.slot P ip τ = 0
  · rcases h.fresh τ hτ hz with h0 | hfree
    · exact absurd (hval.symm.trans h0) hy0
    · rw [hval, hy] at hfree; cases hfree
  · rw [← h.keep τ hτ hz, hval]

theorem trans (h : SlotGrowth P ip s s') (h' : SlotGrowth P ip s' s'') : SlotGrowth P ip s s'' where
  toMapFrame := h.toMapFrame.trans h'.toMapFrame
  keep τ hτ hne := by rw [h'.keep τ hτ (by rwa [h.keep τ hτ hne]), h.keep τ hτ hne]
  fresh τ hτ hz := by
    by_cases h0 : s''.slot P ip τ = 0
    · exact .inl h0
    · refine .inr (Bool.eq_false_iff.mpr fun hs => h0 ?_)
      have := h.slot_eq hτ hs (h'.slot_eq hτ (h.marks _ hs) rfl h0) h0
      exact (hz.symm.trans this).symm
  marks y hy := h'.marks y (h.marks y hy)

end SlotGrowth

theorem Grows.refl (ip : Nat) (s : State) : Grows P ip s s :=
  ⟨SlotGrowth.refl ip s, fun _ _ _ => rfl⟩

theorem Grows.trans {ip : Nat} {s s' s'' : State} (h : Grows P ip s s') (h' : Grows P ip s' s'') :
    Grows P ip s s'' where
  toSlotGrowth := h.toSlotGrowth.trans h'.toSlotGrowth
  data y hy hidx := by
    rw [h'.data y (h.marks y hy) ?_, h.data y hy hidx]
    rintro ⟨τ, hτ, hi, hval, hy0⟩
    exact hidx ⟨τ, hτ, hi, h.slot_eq hτ hy hval hy0, hy0⟩

/-- A run of `bmap` is a `writei` step that writes no data block. -/
theorem Grows.writes {ip : Nat} {s s' : State} (h : Grows P ip s s') : Writes P ip s s' :=
  ⟨h.toSlotGrowth, fun y hy hno => h.data y hy fun ⟨τ, hτ, _, hval, hy0⟩ => hno ⟨τ, hτ, hval, hy0⟩⟩

theorem Writes.refl (ip : Nat) (s : State) : Writes P ip s s :=
  (Grows.refl ip s).writes

theorem Writes.trans {ip : Nat} {s s' s'' : State} (h : Writes P ip s s')
    (h' : Writes P ip s' s'') : Writes P ip s s'' where
  toSlotGrowth := h.toSlotGrowth.trans h'.toSlotGrowth
  data y hy hno := by
    rw [h'.data y (h.marks y hy) ?_, h.data y hy hno]
    rintro ⟨τ, hτ, hval, hy0⟩
    exact hno ⟨τ, hτ, h.slot_eq hτ hy hval hy0, hy0⟩

/-- A fill in `Grows` terms: `s'` has block `x`, free in `s`, in the empty slot `σ` and every
other slot unchanged, `x` newly marked, and no used block but index blocks of `ip` written. -/
theorem grows_of_fill {s s' : State} {ip x : Nat} {σ : Slot}
    (frame : MapFrame ip s s') (own : s.Owns P ip) (free : s.disk.allocated P x = false)
    (empty : s.slot P ip σ = 0)
    (upd : ∀ τ, τ.Valid P → s'.slot P ip τ = if τ = σ then x else s.slot P ip τ)
    (alloc : ∀ y, s'.disk.allocated P y = (y = x || s.disk.allocated P y))
    (data : ∀ y, s.disk.allocated P y → ¬ s.IsIndexOf P ip y → s'.disk.data y = s.disk.data y) :
    Grows P ip s s' ∧ s'.Owns P ip := by
  have held : ∀ τ, τ.Valid P → s.slot P ip τ ≠ 0 → s.slot P ip τ ≠ x := by
    intro τ hτ hne heq
    have := own.used τ hτ hne
    rw [State.slot] at heq; rw [heq, free] at this; cases this
  have marks : ∀ y, s.disk.allocated P y → s'.disk.allocated P y := by
    intro y hy; rw [alloc, hy, Bool.or_true]
  refine ⟨⟨⟨frame, ?_, ?_, marks⟩, data⟩, ⟨?_, ?_⟩⟩
  · intro τ hτ hne
    rw [upd τ hτ, if_neg]
    rintro rfl; exact hne empty
  · intro τ hτ hz
    rw [upd τ hτ]
    split
    · exact .inr free
    · exact .inl hz
  · intro τ₁ τ₂ h₁ h₂ hne heq
    change s'.slot P ip τ₁ ≠ 0 at hne
    change s'.slot P ip τ₁ = s'.slot P ip τ₂ at heq
    rw [upd τ₁ h₁] at hne
    rw [upd τ₁ h₁, upd τ₂ h₂] at heq
    by_cases e₁ : τ₁ = σ <;> by_cases e₂ : τ₂ = σ <;>
      simp only [e₁, e₂, if_true, if_false] at heq hne
    · rw [e₁, e₂]
    · exact absurd heq.symm (held τ₂ h₂ (heq ▸ hne))
    · exact absurd heq (held τ₁ h₁ hne)
    · exact own.inj τ₁ τ₂ h₁ h₂ hne heq
  · intro τ hτ hne
    change s'.slot P ip τ ≠ 0 at hne
    change s'.disk.allocated P (s'.slot P ip τ)
    rw [upd τ hτ] at hne ⊢
    split
    · rw [alloc]; simp
    · rename_i h; rw [if_neg h] at hne; exact marks _ (own.used τ hτ hne)

end Xv6Fs
