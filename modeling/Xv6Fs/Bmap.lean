import Xv6Fs.Balloc

/-!
# The block map

An inode addresses its content through `NDIRECT` direct entries, one single-indirect block of
`NINDIRECT` entries and one double-indirect block whose `NINDIRECT` entries are second-level
blocks of `NINDIRECT` entries each. `bmap` returns the block of block index `bn`, allocating it,
and any index block on the way, the first time it is reached.

`Slot` names every place of an inode that holds a block number and `slotVal` reads it, zero
when the index block that would hold it is not allocated. The content of block index `bn` lives
in `blockSlot bn`. Everything later about block ownership is said of `slotVal`, and `bmap`
enters it only through the three fill routines `bmapAddr`, `bmapIndirect2` and `bmapEntry`.
-/

namespace Xv6Fs

variable (P : Params)

/-- `((uint*)bp->data)[j]`: the little-endian `uint` at bytes `4j` to `4j + 3` of a block. -/
def entry (blk : Nat → UInt8) (j : Nat) : Nat :=
  (blk (4 * j)).toNat + 256 * (blk (4 * j + 1)).toNat + 65536 * (blk (4 * j + 2)).toNat +
    16777216 * (blk (4 * j + 3)).toNat

/-- `a[j] = v` on the bytes of a block. -/
def setEntry (blk : Nat → UInt8) (j v : Nat) : Nat → UInt8 := fun i =>
  if i / 4 = j then UInt8.ofNat (v / 256 ^ (i % 4)) else blk i

/-- A place of an inode that holds a block number. -/
inductive Slot where
  /-- `addrs[k]`, `k < NDIRECT`. -/
  | direct (k : Nat)
  /-- `addrs[NDIRECT]`, the single-indirect block. -/
  | indirect
  /-- Entry `j` of the single-indirect block. -/
  | entry (j : Nat)
  /-- `indirect2`, the double-indirect block. -/
  | indirect2
  /-- Entry `i` of the double-indirect block, a second-level block. -/
  | middle (i : Nat)
  /-- Entry `j` of second-level block `i`. -/
  | leaf (i j : Nat)
  deriving DecidableEq

namespace Slot

/-- The slot exists: its indices are inside their arrays. -/
def Valid : Slot → Prop
  | .direct k => k < P.NDIRECT
  | .indirect | .indirect2 => True
  | .entry j | .middle j => j < P.NINDIRECT
  | .leaf i j => i < P.NINDIRECT ∧ j < P.NINDIRECT

instance (σ : Slot) : Decidable (σ.Valid P) := by
  cases σ <;> unfold Valid <;> infer_instance

/-- The slot holds an index block rather than file content. -/
def IsIndex : Slot → Prop
  | .indirect | .indirect2 | .middle _ => True
  | _ => False

end Slot

/-- Entry `i` of the double-indirect block, zero when there is none. -/
def middleVal (data : Nat → Nat → UInt8) (di : Dinode) (i : Nat) : Nat :=
  if di.indirect2 = 0 then 0 else entry (data di.indirect2) i

/-- The block number in a slot; zero when the slot is empty or its index block is missing. -/
def slotVal (data : Nat → Nat → UInt8) (di : Dinode) : Slot → Nat
  | .direct k => di.addrs k
  | .indirect => di.addrs P.NDIRECT
  | .entry j => if di.addrs P.NDIRECT = 0 then 0 else entry (data (di.addrs P.NDIRECT)) j
  | .indirect2 => di.indirect2
  | .middle i => middleVal data di i
  | .leaf i j => if middleVal data di i = 0 then 0 else entry (data (middleVal data di i)) j

/-- The slot that holds block index `bn` of a file. -/
def blockSlot (bn : Nat) : Slot :=
  if bn < P.NDIRECT then .direct bn
  else if bn - P.NDIRECT < P.NINDIRECT then .entry (bn - P.NDIRECT)
  else .leaf ((bn - P.NDIRECT - P.NINDIRECT) / P.NINDIRECT)
    ((bn - P.NDIRECT - P.NINDIRECT) % P.NINDIRECT)

/-- `ip->addrs[k]`, allocated when it is zero. -/
def bmapAddr (s : State) (ip k : Nat) : Except Fault (Nat × State) :=
  if (s.icache ip).addrs k = 0 then do
    let (addr, s) ← balloc P s
    pure (addr, s.setInode ip
      { s.icache ip with addrs := Function.update (s.icache ip).addrs k addr })
  else pure ((s.icache ip).addrs k, s)

/-- `ip->indirect2`, allocated when it is zero. -/
def bmapIndirect2 (s : State) (ip : Nat) : Except Fault (Nat × State) :=
  if (s.icache ip).indirect2 = 0 then do
    let (addr, s) ← balloc P s
    pure (addr, s.setInode ip { s.icache ip with indirect2 := addr })
  else pure ((s.icache ip).indirect2, s)

/-- Entry `x` of index block `blk`, allocated when it is zero:
`if((addr = a[x]) == 0){ a[x] = addr = balloc(ip->dev); log_write(bp); }`. -/
def bmapEntry (s : State) (blk x : Nat) : Except Fault (Nat × State) :=
  if entry (s.disk.data blk) x = 0 then do
    let (addr, s) ← balloc P s
    pure (addr, (s.setDisk (s.disk.setBlock blk (setEntry (s.disk.data blk) x addr))).log
      (.data blk))
  else pure (entry (s.disk.data blk) x, s)

/-- `bmap`: the disk block of block `bn` of inode `ip`, allocated on first use. -/
def bmap (s : State) (ip bn : Nat) : Except Fault (Nat × State) :=
  if bn < P.NDIRECT then bmapAddr P s ip bn
  else
    let bn := bn - P.NDIRECT
    if bn < P.NINDIRECT then do
      -- Load indirect block, allocating if necessary.
      let (addr, s) ← bmapAddr P s ip P.NDIRECT
      bmapEntry P s addr bn
    else
      let bn := bn - P.NINDIRECT
      if bn < P.NINDIRECT * P.NINDIRECT then do
        -- Load double indirect block, allocating if necessary.
        let (addr, s) ← bmapIndirect2 P s ip
        let (addr, s) ← bmapEntry P s addr (bn / P.NINDIRECT)
        bmapEntry P s addr (bn % P.NINDIRECT)
      else .error (.panic "bmap: out of range")

section Entry

/-- The entry written is read back, as a `uint`. -/
@[simp]
theorem entry_setEntry_self (blk : Nat → UInt8) (j v : Nat) :
    entry (setEntry blk j v) j = v % 4294967296 := by
  have h0 : (4 * j) / 4 = j := by omega
  have h1 : (4 * j + 1) / 4 = j := by omega
  have h2 : (4 * j + 2) / 4 = j := by omega
  have h3 : (4 * j + 3) / 4 = j := by omega
  have m1 : (4 * j + 1) % 4 = 1 := by omega
  have m2 : (4 * j + 2) % 4 = 2 := by omega
  have m3 : (4 * j + 3) % 4 = 3 := by omega
  simp only [entry, setEntry, h0, h1, h2, h3, m1, m2, m3, Nat.mul_mod_right, if_true]
  show v / 1 % 256 + 256 * (v / 256 % 256) + 65536 * (v / 65536 % 256) +
    16777216 * (v / 16777216 % 256) = v % 4294967296
  omega

/-- Writing one entry leaves the others. -/
theorem entry_setEntry_of_ne (blk : Nat → UInt8) {j k : Nat} (v : Nat) (hkj : k ≠ j) :
    entry (setEntry blk j v) k = entry blk k := by
  have hne : ∀ r < 4, ¬ (4 * k + r) / 4 = j := fun r hr => by omega
  simp only [entry, setEntry]
  rw [if_neg (by simpa using hne 0 (by decide)), if_neg (hne 1 (by decide)),
    if_neg (hne 2 (by decide)), if_neg (hne 3 (by decide))]

@[simp]
theorem entry_zero (j : Nat) : entry (fun _ => 0) j = 0 := rfl

theorem entry_lt (blk : Nat → UInt8) (j : Nat) : entry blk j < 4294967296 := by
  have := (blk (4 * j)).toNat_lt_size
  have := (blk (4 * j + 1)).toNat_lt_size
  have := (blk (4 * j + 2)).toNat_lt_size
  have := (blk (4 * j + 3)).toNat_lt_size
  simp only [UInt8.size] at *
  unfold entry
  omega

end Entry

end Xv6Fs
