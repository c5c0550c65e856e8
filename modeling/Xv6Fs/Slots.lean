import Xv6Fs.Bmap

/-!
# Slots and block ownership

An inode owns the blocks in its slots. `Owns` is the invariant of one inode that the
block-ownership claims rest on: its nonzero slots hold pairwise distinct blocks, and every one
of them is marked used in the free bitmap.

A slot is either a root, stored in the inode (`addrs[k]`, `indirect2`), or the entry `pos` of
the index block in its `parent` slot. Each fill routine of `bmap` puts a block `x` that was free
into one empty slot `σ`; `slotVal_fill` says what that does to every slot at once: `σ` now holds
`x` and every other slot keeps its block, the children of `σ` staying empty because `x` was
zeroed.
-/

namespace Xv6Fs

variable (P : Params)

namespace Slot

/-- The slot whose index block holds this slot. -/
def parent : Slot → Option Slot
  | .entry _ => some .indirect
  | .middle _ => some .indirect2
  | .leaf i _ => some (.middle i)
  | _ => none

/-- The position of the slot in its array. -/
def pos : Slot → Nat
  | .direct k | .entry k | .middle k | .leaf _ k => k
  | _ => 0

theorem eq_of_parent_eq {σ τ ρ : Slot} (hσ : σ.parent = some ρ) (hτ : τ.parent = some ρ)
    (hpos : σ.pos = τ.pos) : σ = τ := by
  cases σ <;> cases τ <;> simp only [parent, pos, Option.some.injEq, reduceCtorEq] at hσ hτ hpos <;>
    subst hσ <;> simp_all

theorem parent_isIndex {σ ρ : Slot} (h : σ.parent = some ρ) : ρ.IsIndex := by
  cases σ <;> simp_all [parent, IsIndex] <;> subst h <;> trivial

variable {P}

theorem parent_valid {σ ρ : Slot} (hv : σ.Valid P) (h : σ.parent = some ρ) : ρ.Valid P := by
  cases σ <;> simp only [parent, Option.some.injEq, reduceCtorEq] at h <;> subst h
  all_goals first | trivial | exact hv.1

theorem pos_lt {σ ρ : Slot} (hv : σ.Valid P) (h : σ.parent = some ρ) : σ.pos < P.NINDIRECT := by
  cases σ <;> simp_all [parent, Valid, pos]

end Slot

/-- The value of a root slot, stored in the inode itself. -/
def rootVal (di : Dinode) : Slot → Nat
  | .direct k => di.addrs k
  | .indirect => di.addrs P.NDIRECT
  | .indirect2 => di.indirect2
  | _ => 0

/-- Entry `j` of the index block `v`, or zero when there is no index block. -/
def childVal (data : Nat → Nat → UInt8) (v j : Nat) : Nat :=
  if v = 0 then 0 else entry (data v) j

/-- The block-ownership invariant of one inode: the blocks in its slots are pairwise distinct
and marked used in the bitmap. -/
structure Owns (d : Disk) (di : Dinode) : Prop where
  inj : ∀ σ τ, σ.Valid P → τ.Valid P → slotVal P d.data di σ ≠ 0 →
    slotVal P d.data di σ = slotVal P d.data di τ → σ = τ
  used : ∀ σ, σ.Valid P → slotVal P d.data di σ ≠ 0 → d.allocated P (slotVal P d.data di σ)

/-- A block is an index block of the inode: the value of a nonzero index slot. -/
def IsIndexOf (d : Disk) (di : Dinode) (y : Nat) : Prop :=
  ∃ τ, τ.Valid P ∧ τ.IsIndex ∧ slotVal P d.data di τ = y ∧ y ≠ 0

variable {P}

theorem slotVal_of_parent_none {data : Nat → Nat → UInt8} {di : Dinode} {σ : Slot}
    (h : σ.parent = none) : slotVal P data di σ = rootVal P di σ := by
  cases σ <;> simp_all [Slot.parent] <;> rfl

theorem slotVal_of_parent_some {data : Nat → Nat → UInt8} {di : Dinode} {σ ρ : Slot}
    (h : σ.parent = some ρ) :
    slotVal P data di σ = childVal data (slotVal P data di ρ) σ.pos := by
  cases σ <;> simp_all [Slot.parent] <;> subst h <;> rfl

/-- The slots read the data only through index blocks: data that agrees on the index blocks
gives the same slots. -/
theorem slotVal_congr {d d' : Nat → Nat → UInt8} {di : Dinode}
    (same : ∀ ρ, ρ.Valid P → ρ.IsIndex → slotVal P d di ρ ≠ 0 →
      d' (slotVal P d di ρ) = d (slotVal P d di ρ)) :
    ∀ τ, τ.Valid P → slotVal P d' di τ = slotVal P d di τ := by
  have child : ∀ τ ρ, τ.Valid P → τ.parent = some ρ → slotVal P d' di ρ = slotVal P d di ρ →
      slotVal P d' di τ = slotVal P d di τ := by
    intro τ ρ hτ hpar hρ
    rw [slotVal_of_parent_some hpar, slotVal_of_parent_some (ρ := ρ) hpar, hρ, childVal, childVal]
    split
    · rfl
    · rename_i h0
      rw [same ρ (Slot.parent_valid hτ hpar) (Slot.parent_isIndex hpar) h0]
  intro τ hτ
  cases τ with
  | direct k => rfl
  | indirect => rfl
  | indirect2 => rfl
  | entry j => exact child _ _ hτ rfl rfl
  | middle i => exact child _ _ hτ rfl rfl
  | leaf i j => exact child _ _ hτ rfl (child _ _ hτ.1 rfl rfl)

section Fill

variable {d d' : Nat → Nat → UInt8} {di di' : Dinode} {σ : Slot} {x : Nat}

/--
Filling one empty slot. Before: `σ` is empty and, if it has a parent, the parent holds a block;
`x` is a nonzero `uint`. The change: the roots are those of before with `x` in `σ` when `σ` is a
root, block `x` is zeroed, and of the index blocks only the parent of `σ` is written, its entry
`σ.pos` becoming `x`. After: `σ` holds `x` and every other slot its old block.
-/
theorem slotVal_fill (empty : slotVal P d di σ = 0)
    (hparent : ∀ π, σ.parent = some π → slotVal P d di π ≠ 0) (hx0 : x ≠ 0) (hx : x < 2 ^ 32)
    (roots : ∀ τ, τ.parent = none → τ.Valid P → rootVal P di' τ =
      if τ = σ then x else rootVal P di τ)
    (zeroed : d' x = fun _ => 0)
    (written : ∀ ρ, ρ.Valid P → ρ.IsIndex → slotVal P d di ρ ≠ 0 →
      d' (slotVal P d di ρ) = if σ.parent = some ρ then setEntry (d (slotVal P d di ρ)) σ.pos x
        else d (slotVal P d di ρ)) :
    ∀ τ, τ.Valid P → slotVal P d' di' τ = if τ = σ then x else slotVal P d di τ := by
  -- a child slot is updated as soon as its parent is
  have child : ∀ τ ρ, τ.Valid P → τ.parent = some ρ →
      slotVal P d' di' ρ = (if ρ = σ then x else slotVal P d di ρ) →
      slotVal P d' di' τ = if τ = σ then x else slotVal P d di τ := by
    intro τ ρ hτ hpar hρ
    have hρv := Slot.parent_valid hτ hpar
    rw [slotVal_of_parent_some hpar, slotVal_of_parent_some (ρ := ρ) hpar, hρ]
    by_cases hρσ : ρ = σ
    · -- the parent is the slot just filled: its new block is zero, its old value was zero
      subst hρσ
      have hτσ : τ ≠ ρ := by rintro rfl; cases τ <;> simp_all [Slot.parent]
      simp [childVal, hx0, zeroed, empty, hτσ]
    · simp only [hρσ, if_false]
      by_cases hv : slotVal P d di ρ = 0
      · have hτσ : τ ≠ σ := by rintro rfl; exact hparent ρ hpar hv
        simp [childVal, hv, hτσ]
      · rw [childVal, if_neg hv, written ρ hρv (Slot.parent_isIndex hpar) hv, childVal, if_neg hv]
        by_cases hσρ : σ.parent = some ρ
        · rw [if_pos hσρ]
          by_cases hpos : τ.pos = σ.pos
          · have : τ = σ := Slot.eq_of_parent_eq hpar hσρ hpos
            subst this
            simp [Nat.mod_eq_of_lt (show x < 4294967296 from hx)]
          · have hτσ : τ ≠ σ := fun h => hpos (h ▸ rfl)
            rw [entry_setEntry_of_ne _ _ hpos, if_neg hτσ]
        · have hτσ : τ ≠ σ := by rintro rfl; exact hσρ hpar
          rw [if_neg hσρ, if_neg hτσ]
  have root : ∀ τ, τ.parent = none → τ.Valid P →
      slotVal P d' di' τ = if τ = σ then x else slotVal P d di τ := by
    intro τ hpar hτ
    rw [slotVal_of_parent_none hpar, slotVal_of_parent_none hpar, roots τ hpar hτ]
  intro τ hτ
  cases τ with
  | direct k => exact root _ rfl hτ
  | indirect => exact root _ rfl hτ
  | indirect2 => exact root _ rfl hτ
  | entry j => exact child _ _ hτ rfl (root _ rfl trivial)
  | middle i => exact child _ _ hτ rfl (root _ rfl trivial)
  | leaf i j =>
    exact child _ _ hτ rfl (child _ _ hτ.1 rfl (root _ rfl trivial))

end Fill

end Xv6Fs
