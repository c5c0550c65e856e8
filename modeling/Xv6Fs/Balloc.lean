import Xv6Fs.State
import Mathlib.Order.Interval.Finset.Nat

/-!
# Blocks: the bitmap allocator

`balloc` scans the free bitmap one bitmap block at a time and takes the first free block below
`sb.size`; `bfree` clears the bit of one block and panics when it is already clear. Both find
the bit of block `b` in bitmap block `b / BPB`, byte `(b % BPB) / 8`, bit `(b % BPB) % 8`, so
that `Disk.allocated` reads exactly the bit the two routines write.

Every later invariant sees `balloc` through `balloc_eq_ok`: the block it returns was free, lies
below `sb.size`, and the state after the call is `State.claim` of that block.
-/

namespace Xv6Fs

variable (P : Params)

/-- `bzero`: fill a block with zeros and log it. -/
def bzero (s : State) (bno : Nat) : State :=
  (s.setDisk (s.disk.setBlock bno fun _ => 0)).log (.data bno)

/-- The inner loop of `balloc` over the bitmap block of base `b`: the first bit `bi` whose
block `b + bi` is below `sb.size` and free. -/
def ballocBit (d : Disk) (b : Nat) : Option Nat :=
  (List.range P.BPB).find? fun bi =>
    decide (b + bi < d.sb.size) && !d.bitmap (b / P.BPB) (bi / 8) (bi % 8)

/-- The two loops of `balloc`: the first free block, as the base `b` of its bitmap block and
its bit `bi`. -/
def ballocScan (d : Disk) : Option (Nat × Nat) :=
  (List.range ((d.sb.size + P.BPB - 1) / P.BPB)).findSome? fun k =>
    (ballocBit P d (k * P.BPB)).map fun bi => (k * P.BPB, bi)

/-- `balloc`: allocate a zeroed disk block. -/
def balloc (s : State) : Except Fault (Nat × State) :=
  match ballocScan P s.disk with
  | some (b, bi) =>
      let s := (s.setDisk (s.disk.setBit (b / P.BPB) (bi / 8) (bi % 8) true)).log
        (.bitmap (b / P.BPB))
      .ok (b + bi, bzero s (b + bi))
  | none => .error (.panic "balloc: out of blocks")

/-- `bfree`: free a disk block. -/
def bfree (s : State) (b : Nat) : Except Fault State :=
  let bi := b % P.BPB
  if s.disk.bitmap (b / P.BPB) (bi / 8) (bi % 8) = false then
    .error (.panic "freeing free block")
  else
    .ok ((s.setDisk (s.disk.setBit (b / P.BPB) (bi / 8) (bi % 8) false)).log
      (.bitmap (b / P.BPB)))

/-- Set the bitmap bit of block `x`. -/
def Disk.mark (d : Disk) (x : Nat) (v : Bool) : Disk :=
  d.setBit (x / P.BPB) (x % P.BPB / 8) (x % P.BPB % 8) v

/-- What a successful `balloc` returning `x` does: mark `x` used, then zero it. -/
def State.claim (s : State) (x : Nat) : State :=
  bzero ((s.setDisk (s.disk.mark P x true)).log (.bitmap (x / P.BPB))) x

/-- What a successful `bfree x` does. -/
def State.release (s : State) (x : Nat) : State :=
  (s.setDisk (s.disk.mark P x false)).log (.bitmap (x / P.BPB))

section Lemmas

variable {P}

/-- Distinct blocks have distinct bitmap bits. -/
theorem bitAddr_inj {x y : Nat} (hk : y / P.BPB = x / P.BPB) (hbyte : y % P.BPB / 8 = x % P.BPB / 8)
    (hbit : y % P.BPB % 8 = x % P.BPB % 8) : y = x := by
  have hy := Nat.div_add_mod y P.BPB
  have hx := Nat.div_add_mod x P.BPB
  have hy' := Nat.div_add_mod (y % P.BPB) 8
  have hx' := Nat.div_add_mod (x % P.BPB) 8
  rw [hk] at hy
  omega

@[simp]
theorem allocated_mark (d : Disk) (x y : Nat) (v : Bool) :
    (d.mark P x v).allocated P y = if y = x then v else d.allocated P y := by
  unfold Disk.allocated Disk.mark
  by_cases hyx : y = x
  · simp [hyx]
  · simp only [Disk.setBit_bitmap, hyx, if_false]
    rw [if_neg]
    exact fun ⟨hk, hbyte, hbit⟩ => hyx (bitAddr_inj hk hbyte hbit)

@[simp] theorem allocated_setBlock (d : Disk) (b : Nat) (blk : Nat → UInt8) (y : Nat) :
    (d.setBlock b blk).allocated P y = d.allocated P y := rfl
@[simp] theorem allocated_setDinode (d : Disk) (inum : Nat) (di : Dinode) (y : Nat) :
    (d.setDinode inum di).allocated P y = d.allocated P y := rfl

@[simp] theorem mark_sb (d : Disk) (x : Nat) (v : Bool) : (d.mark P x v).sb = d.sb := rfl
@[simp] theorem mark_data (d : Disk) (x : Nat) (v : Bool) : (d.mark P x v).data = d.data := rfl
@[simp] theorem mark_dinodes (d : Disk) (x : Nat) (v : Bool) :
    (d.mark P x v).dinodes = d.dinodes := rfl

@[simp] theorem bzero_icache (s : State) (b : Nat) : (bzero s b).icache = s.icache := rfl
@[simp] theorem bzero_unlocked (s : State) (b : Nat) : (bzero s b).unlocked = s.unlocked := rfl
@[simp] theorem bzero_ftable (s : State) (b : Nat) : (bzero s b).ftable = s.ftable := rfl
@[simp] theorem bzero_devsw (s : State) (b : Nat) : (bzero s b).devsw = s.devsw := rfl
@[simp] theorem bzero_sb (s : State) (b : Nat) : (bzero s b).disk.sb = s.disk.sb := rfl
@[simp] theorem bzero_dinodes (s : State) (b : Nat) :
    (bzero s b).disk.dinodes = s.disk.dinodes := rfl
@[simp] theorem bzero_data (s : State) (b : Nat) :
    (bzero s b).disk.data = Function.update s.disk.data b fun _ => 0 := rfl

@[simp] theorem claim_icache (s : State) (x : Nat) : (s.claim P x).icache = s.icache := rfl
@[simp] theorem claim_unlocked (s : State) (x : Nat) : (s.claim P x).unlocked = s.unlocked := rfl
@[simp] theorem claim_ftable (s : State) (x : Nat) : (s.claim P x).ftable = s.ftable := rfl
@[simp] theorem claim_devsw (s : State) (x : Nat) : (s.claim P x).devsw = s.devsw := rfl
@[simp] theorem claim_sb (s : State) (x : Nat) : (s.claim P x).disk.sb = s.disk.sb := rfl
@[simp] theorem claim_dinodes (s : State) (x : Nat) :
    (s.claim P x).disk.dinodes = s.disk.dinodes := rfl
@[simp] theorem claim_data (s : State) (x : Nat) :
    (s.claim P x).disk.data = Function.update s.disk.data x fun _ => 0 := rfl
@[simp] theorem claim_allocated (s : State) (x y : Nat) :
    (s.claim P x).disk.allocated P y = (y = x || s.disk.allocated P y) := by
  simp only [State.claim, bzero, State.log_disk, State.setDisk_disk, allocated_setBlock,
    allocated_mark]
  by_cases hyx : y = x <;> simp [hyx]

@[simp] theorem release_icache (s : State) (x : Nat) : (s.release P x).icache = s.icache := rfl
@[simp] theorem release_unlocked (s : State) (x : Nat) :
    (s.release P x).unlocked = s.unlocked := rfl
@[simp] theorem release_ftable (s : State) (x : Nat) : (s.release P x).ftable = s.ftable := rfl
@[simp] theorem release_devsw (s : State) (x : Nat) : (s.release P x).devsw = s.devsw := rfl
@[simp] theorem release_sb (s : State) (x : Nat) : (s.release P x).disk.sb = s.disk.sb := rfl
@[simp] theorem release_dinodes (s : State) (x : Nat) :
    (s.release P x).disk.dinodes = s.disk.dinodes := rfl
@[simp] theorem release_data (s : State) (x : Nat) :
    (s.release P x).disk.data = s.disk.data := rfl
@[simp] theorem release_allocated (s : State) (x y : Nat) :
    (s.release P x).disk.allocated P y = (y != x && s.disk.allocated P y) := by
  simp only [State.release, State.log_disk, State.setDisk_disk, allocated_mark]
  by_cases hyx : y = x <;> simp [hyx]

/-- The block `ballocScan` finds is `b + bi`, whose bit is `bi` of bitmap block `b / BPB`. -/
theorem ballocScan_some {d : Disk} {b bi : Nat} (h : ballocScan P d = some (b, bi)) :
    (b + bi) / P.BPB = b / P.BPB ∧ (b + bi) % P.BPB = bi ∧ b + bi < d.sb.size ∧
      d.allocated P (b + bi) = false := by
  obtain ⟨k, -, hk⟩ := List.exists_of_findSome?_eq_some h
  simp only [Option.map_eq_some', Prod.mk.injEq] at hk
  obtain ⟨c, hbit, hb, hc⟩ := hk
  subst hb hc
  have hlt : c < P.BPB := List.mem_range.mp (List.mem_of_find?_eq_some hbit)
  have hfree := List.find?_some hbit
  simp only [Bool.and_eq_true, decide_eq_true_eq, Bool.not_eq_true'] at hfree
  have hpos := P.bpb_pos
  have hdiv : (k * P.BPB + c) / P.BPB = k := by
    rw [Nat.add_comm, Nat.add_mul_div_right _ _ hpos, Nat.div_eq_of_lt hlt, Nat.zero_add]
  have hmod : (k * P.BPB + c) % P.BPB = c := by
    rw [Nat.add_comm, Nat.add_mul_mod_self_right, Nat.mod_eq_of_lt hlt]
  refine ⟨by rw [hdiv, Nat.mul_div_cancel _ hpos], hmod, hfree.1, ?_⟩
  simp only [Disk.allocated, hdiv, hmod, Nat.mul_div_cancel _ hpos] at hfree ⊢
  exact hfree.2

/-- With no free block below `sb.size`, the scan finds none. -/
theorem ballocScan_none {d : Disk} (h : ballocScan P d = none) :
    ∀ x < d.sb.size, d.allocated P x = true := by
  intro x hx
  have hpos := P.bpb_pos
  have hsplit := Nat.div_add_mod x P.BPB
  have hk : x / P.BPB < (d.sb.size + P.BPB - 1) / P.BPB := by
    apply Nat.lt_of_succ_le
    rw [Nat.le_div_iff_mul_le hpos, Nat.succ_mul, Nat.mul_comm]
    omega
  have hnone := (List.findSome?_eq_none_iff.mp h) (x / P.BPB) (List.mem_range.mpr hk)
  simp only [Option.map_eq_none', ballocBit, List.find?_eq_none, List.mem_range,
    Bool.and_eq_true, decide_eq_true_eq, Bool.not_eq_true', not_and, Bool.not_eq_false] at hnone
  have hbit := hnone (x % P.BPB) (Nat.mod_lt x hpos) (by rw [Nat.mul_comm]; omega)
  simpa only [Disk.allocated, Nat.mul_div_cancel _ hpos] using hbit


/-- `balloc` returns a free block below `sb.size` and claims it. -/
theorem balloc_eq_ok {s s' : State} {x : Nat} (h : balloc P s = .ok (x, s')) :
    x < s.disk.sb.size ∧ s.disk.allocated P x = false ∧ s' = s.claim P x := by
  unfold balloc at h
  split at h
  · rename_i b bi hscan
    obtain ⟨hk, hbi, hlt, hfree⟩ := ballocScan_some hscan
    simp only [Except.ok.injEq, Prod.mk.injEq] at h
    obtain ⟨rfl, rfl⟩ := h
    exact ⟨hlt, hfree, by simp only [State.claim, Disk.mark, hk, hbi]⟩
  · cases h

/-- `balloc` fails only by running out of blocks, when every block below `sb.size` is used. -/
theorem balloc_eq_error {s : State} {e : Fault} (h : balloc P s = .error e) :
    e = .panic "balloc: out of blocks" ∧ ∀ x < s.disk.sb.size, s.disk.allocated P x = true := by
  unfold balloc at h
  split at h
  · cases h
  · rename_i hscan
    exact ⟨(Except.error.inj h).symm, ballocScan_none hscan⟩

/-- A free block below `sb.size` is enough for `balloc` to succeed. -/
theorem balloc_ok_of_free {s : State} {x : Nat} (hx : x < s.disk.sb.size)
    (hfree : s.disk.allocated P x = false) : ∃ y, balloc P s = .ok (y, s.claim P y) := by
  cases h : balloc P s with
  | error e => simp [(balloc_eq_error h).2 x hx] at hfree
  | ok r =>
    obtain ⟨y, s'⟩ := r
    exact ⟨y, by rw [(balloc_eq_ok h).2.2]⟩

/-- `bfree` of a used block clears its bit; of a free block it panics. -/
theorem bfree_eq (s : State) (x : Nat) :
    bfree P s x = if s.disk.allocated P x then .ok (s.release P x)
      else .error (.panic "freeing free block") := by
  unfold bfree
  by_cases h : s.disk.allocated P x <;>
    simp_all [Disk.allocated, State.release, Disk.mark]

end Lemmas

/-- The number of free blocks below `sb.size`. -/
def Disk.freeCount (P : Params) (d : Disk) : Nat :=
  ((Finset.range d.sb.size).filter fun x => d.allocated P x = false).card

section FreeCount

variable {P : Params}

@[simp] theorem freeCount_setBlock (d : Disk) (b : Nat) (blk : Nat → UInt8) :
    (d.setBlock b blk).freeCount P = d.freeCount P := rfl

@[simp] theorem freeCount_setDinode (d : Disk) (inum : Nat) (di : Dinode) :
    (d.setDinode inum di).freeCount P = d.freeCount P := rfl

/-- Claiming a free block leaves one free block less. -/
theorem freeCount_claim {s : State} {x : Nat} (hx : x < s.disk.sb.size)
    (hfree : s.disk.allocated P x = false) :
    (s.claim P x).disk.freeCount P + 1 = s.disk.freeCount P := by
  have herase : ((Finset.range (s.claim P x).disk.sb.size).filter
      fun y => (s.claim P x).disk.allocated P y = false) =
      ((Finset.range s.disk.sb.size).filter fun y => s.disk.allocated P y = false).erase x := by
    ext y
    simp only [claim_sb, claim_allocated, Finset.mem_filter, Finset.mem_range, Finset.mem_erase,
      Bool.or_eq_false_iff, decide_eq_false_iff_not]
    tauto
  have hmem : x ∈ (Finset.range s.disk.sb.size).filter fun y => s.disk.allocated P y = false := by
    simp [hx, hfree]
  rw [Disk.freeCount, herase, Finset.card_erase_of_mem hmem, Disk.freeCount,
    Nat.sub_add_cancel (Finset.card_pos.mpr ⟨x, hmem⟩)]

/-- A disk whose blocks in use are exactly those below `K` has the rest free. -/
theorem freeCount_of_used_below {d : Disk} {K : Nat} (h : ∀ y, d.allocated P y = decide (y < K)) :
    d.freeCount P = d.sb.size - K := by
  rw [Disk.freeCount, ← Nat.card_Ico]
  congr 1
  ext y
  simp [h, and_comm]

/-- With a free block, `balloc` succeeds and leaves one free block less. -/
theorem balloc_ok_of_freeCount {s : State} (h : 0 < s.disk.freeCount P) :
    ∃ x, balloc P s = .ok (x, s.claim P x) ∧
      (s.claim P x).disk.freeCount P + 1 = s.disk.freeCount P := by
  obtain ⟨y, hy⟩ := Finset.card_pos.mp h
  simp only [Finset.mem_filter, Finset.mem_range] at hy
  obtain ⟨x, hx⟩ := balloc_ok_of_free hy.1 hy.2
  obtain ⟨hlt, hfree, -⟩ := balloc_eq_ok hx
  exact ⟨x, hx, freeCount_claim hlt hfree⟩

end FreeCount

end Xv6Fs
