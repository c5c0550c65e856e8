import Xv6Fs.Param

/-!
# Machine state

The state the file-system routines read and write: the disk, the inode cache, the table of
unlocked inodes, the open-file table and the device switch. C arrays are functions from their
index; a pointer into the inode cache or the file table is the index of its slot.

The disk keeps its three regions apart. The free bitmap is addressed as the code addresses it,
by bitmap block, byte and bit; the inode region by inode number; the data blocks by block
number. In the code the boot block, the superblock, the inode blocks and the bitmap blocks take
the block numbers below `Disk.dataStart`, which `mkfs` marks used. Keeping the regions apart is
sound on such a disk only, where `balloc` never hands out one of those blocks and no slot of an
inode holds one: `Disk.Formatted` states the first, and the invariants of the inode layer and
of a file carry both.

The buffer cache and the log are the external collaborators of the spec: a block that is
written is written at once, and `logged` records the blocks given to `log_write` in the
current transaction.
-/

namespace Xv6Fs

/-- The inode types of `stat.h`; a dinode of type zero is `free`. -/
inductive FileType where
  | free
  | dir
  | file
  | dev
  | symlink
  deriving DecidableEq

/-- `struct dinode`: the on-disk inode. -/
structure Dinode where
  type : FileType
  major : Int
  minor : Int
  nlink : Int
  size : Nat
  addrs : Nat → Nat
  indirect2 : Nat
  password : Nat → UInt8

/-- A dinode cleared by `memset(dip, 0, sizeof(*dip))`. -/
def Dinode.zero : Dinode :=
  ⟨.free, 0, 0, 0, 0, fun _ => 0, 0, fun _ => 0⟩

/-- `struct inode`: an inode-cache entry, a copy of the dinode and the fields kept in memory. -/
structure Inode extends Dinode where
  dev : Nat
  inum : Nat
  ref : Int
  /-- `I_BUSY` of `flags`. -/
  busy : Bool
  /-- `I_VALID` of `flags`. -/
  valid : Bool

/-- The two superblock fields the routines read; `size` is a `uint`. -/
structure Superblock where
  size : Nat
  ninodes : Nat
  size_lt : size < 2 ^ 32

/-- The disk, region by region. -/
structure Disk where
  sb : Superblock
  /-- Bit `bit` of byte `byte` of the bitmap block for blocks `k * BPB` to `k * BPB + BPB - 1`. -/
  bitmap : Nat → Nat → Nat → Bool
  dinodes : Nat → Dinode
  data : Nat → Nat → UInt8

/-- The disk blocks `log_write` can be handed. -/
inductive LogBlock where
  | bitmap (k : Nat)
  | inode (inum : Nat)
  | data (b : Nat)
  deriving DecidableEq

/-- `FD_NONE`, `FD_PIPE`, `FD_INODE`. -/
inductive FdType where
  | none
  | pipe
  | inode
  deriving DecidableEq

/-- `struct file`: an entry of the open-file table. -/
structure File where
  type : FdType
  ref : Int
  readable : Bool
  writable : Bool
  pipe : Nat
  ip : Nat
  off : Nat

/-- `struct devsw`: the read and write handlers of a device major number. -/
structure DevSw where
  read : Option (Nat → Int × List UInt8)
  write : Option (List UInt8 → Int)

/-- The running process: `proc->pid` and `proc->cwd`. -/
structure Proc where
  pid : Int
  cwd : Nat

/-- Everything the routines of `fs.c` and `file.c` share. -/
structure State where
  disk : Disk
  icache : Nat → Inode
  /-- `unlocked_inodes.pids`. -/
  unlocked : Nat → Nat → Int
  ftable : Nat → File
  devsw : Nat → DevSw
  logged : List LogBlock

/-- How a routine can fail to return. -/
inductive Fault where
  /-- `panic(msg)`: the kernel stops. -/
  | panic (msg : String)
  /-- `ilock` of a busy inode: the caller sleeps until another process unlocks it. -/
  | sleeps
  /-- An access outside a buffer, or a read of a byte never written. -/
  | undefined
  /-- A loop that makes no progress and never ends. -/
  | hangs
  deriving DecidableEq

/-- Results of the model can be compared, so that runs on fixed inputs can be decided. -/
instance instDecidableEqExcept {ε α : Type} [DecidableEq ε] [DecidableEq α] :
    DecidableEq (Except ε α)
  | .error a, .error b =>
    if h : a = b then .isTrue (h ▸ rfl) else .isFalse fun e => h (by cases e; rfl)
  | .ok a, .ok b =>
    if h : a = b then .isTrue (h ▸ rfl) else .isFalse fun e => h (by cases e; rfl)
  | .error _, .ok _ => .isFalse fun e => by cases e
  | .ok _, .error _ => .isFalse fun e => by cases e

/-- A successful bind ran both halves. -/
theorem bind_eq_ok {ε α β : Type} {x : Except ε α} {f : α → Except ε β} {b : β}
    (h : x >>= f = .ok b) : ∃ a, x = .ok a ∧ f a = .ok b := by
  cases x with
  | error e => cases h
  | ok a => exact ⟨a, rfl, h⟩

/-- A bind whose first half succeeds runs the second half. -/
theorem bind_of_eq_ok {ε α β : Type} {x : Except ε α} {f : α → Except ε β} {a : α}
    (h : x = .ok a) : x >>= f = f a := by
  rw [h]; rfl

/-- A bind whose first half fails fails with it. -/
theorem bind_of_eq_error {ε α β : Type} {x : Except ε α} {f : α → Except ε β} {e : ε}
    (h : x = .error e) : x >>= f = .error e := by
  rw [h]; rfl

/-- A failed bind failed in one of its halves. -/
theorem bind_eq_error {ε α β : Type} {x : Except ε α} {f : α → Except ε β} {e : ε}
    (h : x >>= f = .error e) : x = .error e ∨ ∃ a, x = .ok a ∧ f a = .error e := by
  cases x with
  | error e' => exact .inl (by cases h; rfl)
  | ok a => exact .inr ⟨a, rfl, h⟩

namespace Disk

/-- The bitmap bit of block `b`, where `bfree` finds it: block `b / BPB`, byte
`(b % BPB) / 8`, bit `(b % BPB) % 8`. -/
def allocated (P : Params) (d : Disk) (b : Nat) : Bool :=
  d.bitmap (b / P.BPB) (b % P.BPB / 8) (b % P.BPB % 8)

/-- The first block of the data region. Before it `mkfs` lays out the boot block, the
superblock, the inode blocks `IBLOCK(i) = i / IPB + 2` and the bitmap blocks
`BBLOCK(b, ninodes) = b / BPB + ninodes / IPB + 3`, of which there are `size / BPB + 1`. -/
def dataStart (P : Params) (d : Disk) : Nat :=
  d.sb.ninodes / P.IPB + 3 + (d.sb.size / P.BPB + 1)

/-- The disk as `mkfs` leaves it: every block before the data region is marked in use. -/
def Formatted (P : Params) (d : Disk) : Prop :=
  ∀ b < d.dataStart P, d.allocated P b

/-- Set one bitmap bit. -/
def setBit (d : Disk) (k byte bit : Nat) (v : Bool) : Disk :=
  { d with bitmap := fun k' byte' bit' =>
      if k' = k ∧ byte' = byte ∧ bit' = bit then v else d.bitmap k' byte' bit' }

/-- Replace the bytes of one data block. -/
def setBlock (d : Disk) (b : Nat) (blk : Nat → UInt8) : Disk :=
  { d with data := Function.update d.data b blk }

/-- Replace one dinode. -/
def setDinode (d : Disk) (inum : Nat) (di : Dinode) : Disk :=
  { d with dinodes := Function.update d.dinodes inum di }

@[simp] theorem setBit_sb (d : Disk) (k byte bit : Nat) (v : Bool) :
    (d.setBit k byte bit v).sb = d.sb := rfl
@[simp] theorem setBit_bitmap (d : Disk) (k byte bit : Nat) (v : Bool) :
    (d.setBit k byte bit v).bitmap = fun k' byte' bit' =>
      if k' = k ∧ byte' = byte ∧ bit' = bit then v else d.bitmap k' byte' bit' := rfl
@[simp] theorem setBit_dinodes (d : Disk) (k byte bit : Nat) (v : Bool) :
    (d.setBit k byte bit v).dinodes = d.dinodes := rfl
@[simp] theorem setBit_data (d : Disk) (k byte bit : Nat) (v : Bool) :
    (d.setBit k byte bit v).data = d.data := rfl

@[simp] theorem setBlock_sb (d : Disk) (b : Nat) (blk : Nat → UInt8) :
    (d.setBlock b blk).sb = d.sb := rfl
@[simp] theorem setBlock_bitmap (d : Disk) (b : Nat) (blk : Nat → UInt8) :
    (d.setBlock b blk).bitmap = d.bitmap := rfl
@[simp] theorem setBlock_dinodes (d : Disk) (b : Nat) (blk : Nat → UInt8) :
    (d.setBlock b blk).dinodes = d.dinodes := rfl
@[simp] theorem setBlock_data (d : Disk) (b : Nat) (blk : Nat → UInt8) :
    (d.setBlock b blk).data = Function.update d.data b blk := rfl

@[simp] theorem setDinode_sb (d : Disk) (inum : Nat) (di : Dinode) :
    (d.setDinode inum di).sb = d.sb := rfl
@[simp] theorem setDinode_bitmap (d : Disk) (inum : Nat) (di : Dinode) :
    (d.setDinode inum di).bitmap = d.bitmap := rfl
@[simp] theorem setDinode_dinodes (d : Disk) (inum : Nat) (di : Dinode) :
    (d.setDinode inum di).dinodes = Function.update d.dinodes inum di := rfl
@[simp] theorem setDinode_data (d : Disk) (inum : Nat) (di : Dinode) :
    (d.setDinode inum di).data = d.data := rfl

/-- A formatted disk has block 0, the boot block, in use. -/
theorem Formatted.boot {P : Params} {d : Disk} (h : d.Formatted P) : d.allocated P 0 :=
  h 0 (Nat.lt_of_lt_of_le (Nat.succ_pos _) (Nat.le_add_left _ _))

/-- A free block of a formatted disk is a data block. -/
theorem Formatted.le_of_free {P : Params} {d : Disk} {x : Nat} (h : d.Formatted P)
    (hx : d.allocated P x = false) : d.dataStart P ≤ x :=
  Nat.le_of_not_lt fun hlt => by rw [h x hlt] at hx; cases hx

/-- A disk with the same superblock and at least the blocks in use of a formatted disk is
formatted. -/
theorem Formatted.mono {P : Params} {d d' : Disk} (h : d.Formatted P) (hsb : d'.sb = d.sb)
    (hm : ∀ y, d.allocated P y → d'.allocated P y) : d'.Formatted P := fun b hb =>
  hm b (h b (by rwa [dataStart, ← hsb]))

end Disk

/-- The block map of an inode replaced, every other field kept. -/
def Inode.withMap (ino : Inode) (addrs : Nat → Nat) (indirect2 : Nat) : Inode :=
  { ino with addrs := addrs, indirect2 := indirect2 }

namespace State

/-- Replace one inode-cache entry. -/
def setInode (s : State) (ip : Nat) (ino : Inode) : State :=
  { s with icache := Function.update s.icache ip ino }

/-- Change the disk. -/
def setDisk (s : State) (d : Disk) : State :=
  { s with disk := d }

/-- `log_write`: record a block in the current transaction. -/
def log (s : State) (b : LogBlock) : State :=
  { s with logged := s.logged ++ [b] }

@[simp] theorem setInode_disk (s : State) (ip : Nat) (ino : Inode) :
    (s.setInode ip ino).disk = s.disk := rfl
@[simp] theorem setInode_icache (s : State) (ip : Nat) (ino : Inode) :
    (s.setInode ip ino).icache = Function.update s.icache ip ino := rfl
@[simp] theorem setInode_unlocked (s : State) (ip : Nat) (ino : Inode) :
    (s.setInode ip ino).unlocked = s.unlocked := rfl
@[simp] theorem setInode_ftable (s : State) (ip : Nat) (ino : Inode) :
    (s.setInode ip ino).ftable = s.ftable := rfl
@[simp] theorem setInode_devsw (s : State) (ip : Nat) (ino : Inode) :
    (s.setInode ip ino).devsw = s.devsw := rfl
@[simp] theorem setInode_logged (s : State) (ip : Nat) (ino : Inode) :
    (s.setInode ip ino).logged = s.logged := rfl

@[simp] theorem setInode_setInode (s : State) (ip : Nat) (ino ino' : Inode) :
    (s.setInode ip ino).setInode ip ino' = s.setInode ip ino' := by
  simp [setInode]

@[simp] theorem setDisk_disk (s : State) (d : Disk) : (s.setDisk d).disk = d := rfl
@[simp] theorem setDisk_icache (s : State) (d : Disk) : (s.setDisk d).icache = s.icache := rfl
@[simp] theorem setDisk_unlocked (s : State) (d : Disk) :
    (s.setDisk d).unlocked = s.unlocked := rfl
@[simp] theorem setDisk_ftable (s : State) (d : Disk) : (s.setDisk d).ftable = s.ftable := rfl
@[simp] theorem setDisk_devsw (s : State) (d : Disk) : (s.setDisk d).devsw = s.devsw := rfl
@[simp] theorem setDisk_logged (s : State) (d : Disk) : (s.setDisk d).logged = s.logged := rfl

@[simp] theorem log_disk (s : State) (b : LogBlock) : (s.log b).disk = s.disk := rfl
@[simp] theorem log_icache (s : State) (b : LogBlock) : (s.log b).icache = s.icache := rfl
@[simp] theorem log_unlocked (s : State) (b : LogBlock) : (s.log b).unlocked = s.unlocked := rfl
@[simp] theorem log_ftable (s : State) (b : LogBlock) : (s.log b).ftable = s.ftable := rfl
@[simp] theorem log_devsw (s : State) (b : LogBlock) : (s.log b).devsw = s.devsw := rfl
@[simp] theorem log_logged (s : State) (b : LogBlock) : (s.log b).logged = s.logged ++ [b] :=
  rfl

end State

end Xv6Fs
