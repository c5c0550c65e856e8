import Mathlib.Data.Finset.Card

/-!
# Configuration constants

`fs.c` and `file.c` are compiled against `param.h`, `fs.h` and `stat.h`, which are not among the
sources. Their sizes are therefore the fields of `Params`, and every result of the development
holds for each configuration. The fields that are proofs say what the code relies on when it
lays out its arrays: a block holds `NINDIRECT` block numbers of four bytes, a directory entry
(`struct dirent`, an `ushort` and `DIRSIZ` bytes) has no padding and fits in a file, and the
largest file offset is an `int`.
-/

namespace Xv6Fs

/-- The compile-time sizes of `param.h` and `fs.h`. -/
structure Params where
  BSIZE : Nat
  NDIRECT : Nat
  NINDIRECT : Nat
  DIRSIZ : Nat
  MAXPATH : Nat
  PASSLEN : Nat
  NINODE : Nat
  NPROC : Nat
  NDEV : Nat
  NFILE : Nat
  LOGSIZE : Nat
  /-- `IPB`: dinodes per block, `BSIZE / sizeof(struct dinode)`. -/
  IPB : Nat
  ROOTDEV : Nat
  ROOTINO : Nat
  bsize_pos : 0 < BSIZE
  nindirect_fits : 4 * NINDIRECT ≤ BSIZE
  dirsiz_even : DIRSIZ % 2 = 0
  maxfile_fits : (NDIRECT + NINDIRECT + NINDIRECT * NINDIRECT) * BSIZE < 2 ^ 31
  dirent_fits : 2 + DIRSIZ ≤ (NDIRECT + NINDIRECT + NINDIRECT * NINDIRECT) * BSIZE

namespace Params

variable (P : Params)

/--
Modelled from the spec: `MAXFILE` of `fs.h`, the maximum representable file size in blocks,
that is every block the direct, single-indirect and double-indirect map can address.
-/
def MAXFILE : Nat := P.NDIRECT + P.NINDIRECT + P.NINDIRECT * P.NINDIRECT

/-- `BPB`: bitmap bits per block. -/
def BPB : Nat := P.BSIZE * 8

/-- `sizeof(struct dirent)`: a two-byte inode number followed by `DIRSIZ` name bytes. -/
def direntSize : Nat := 2 + P.DIRSIZ

theorem maxBytes_lt : P.MAXFILE * P.BSIZE < 2 ^ 31 := P.maxfile_fits

theorem direntSize_pos : 0 < P.direntSize := Nat.add_pos_left (by decide) _

theorem direntSize_le : P.direntSize ≤ P.MAXFILE * P.BSIZE := P.dirent_fits

theorem bpb_pos : 0 < P.BPB := Nat.mul_pos P.bsize_pos (by decide)

end Params

/-- A sample configuration, with the block and table sizes of the kernel's usual headers; the
concrete runs of the development use it. -/
def Params.sample : Params where
  BSIZE := 512
  NDIRECT := 12
  NINDIRECT := 128
  DIRSIZ := 14
  MAXPATH := 128
  PASSLEN := 16
  NINODE := 50
  NPROC := 64
  NDEV := 10
  NFILE := 100
  LOGSIZE := 30
  IPB := 8
  ROOTDEV := 1
  ROOTINO := 1
  bsize_pos := by decide
  nindirect_fits := by decide
  dirsiz_even := by decide
  maxfile_fits := by decide
  dirent_fits := by decide

/-- `NINODES` of `fs.c`: the rows of the table of unlocked inodes. -/
def NINODES : Nat := 200

/-- `MAX_SYMLINK_LOOPS` of `fs.c`: the symlink substitutions one canonicalization may make. -/
def MAX_SYMLINK_LOOPS : Nat := 16

end Xv6Fs
