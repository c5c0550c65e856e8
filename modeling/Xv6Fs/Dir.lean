import Xv6Fs.CString
import Xv6Fs.Inode

/-!
# Directories

A directory is an inode whose content is a sequence of `struct dirent` records: an `ushort`
inode number, stored low byte first, and `DIRSIZ` name bytes; an entry with inode number 0 is
free. `dirlookup` scans the records for a live one whose name matches, comparing at most
`DIRSIZ` characters with `namecmp`, and `dirlink` writes a record into the first free entry or
appends one.

Both loops read one record per iteration with `readi`, so each is written with a fuel argument:
an iteration moves the offset by `sizeof(struct dirent)`, so one more than the size is enough.
-/

namespace Xv6Fs

variable (P : Params)

/-- A `struct dirent`: its inode number and its `DIRSIZ` name bytes. -/
structure Dirent where
  inum : Nat
  name : List UInt8

/-- The record that `readi` copied into `de`. -/
def Dirent.decode (bs : List UInt8) : Dirent :=
  ⟨(bs.getD 0 0).toNat + 256 * (bs.getD 1 0).toNat, bs.drop 2⟩

/-- The bytes of a record whose inode number is an `ushort`. -/
def Dirent.encode (de : Dirent) : List UInt8 :=
  [(de.inum % 256).toUInt8, (de.inum / 256).toUInt8] ++ de.name

theorem length_encode (de : Dirent) : de.encode.length = 2 + de.name.length := by
  simp [Dirent.encode]
  omega

/-- A record whose inode number fits an `ushort` decodes to itself. -/
theorem decode_encode {inum : Nat} (h : inum < 2 ^ 16) (name : List UInt8) :
    Dirent.decode (Dirent.encode ⟨inum, name⟩) = ⟨inum, name⟩ := by
  have hlo : inum % 256 < UInt8.size := Nat.mod_lt _ (by decide)
  have hhi : inum / 256 < UInt8.size := by unfold UInt8.size; omega
  simp only [Dirent.decode, Dirent.encode, List.cons_append, List.nil_append, List.getD_cons_zero,
    List.getD_cons_succ, List.drop_succ_cons, List.drop_zero, Nat.toUInt8,
    UInt8.toNat_ofNat_of_lt hlo, UInt8.toNat_ofNat_of_lt hhi]
  congr 1
  omega

/-- The content of a directory holding the entries `es`, in order, as `dirlink` writes them. -/
def dirBytes (es : List (Nat × List UInt8)) : List UInt8 :=
  es.flatMap fun e => Dirent.encode ⟨e.1 % 2 ^ 16, strncpy e.2 P.DIRSIZ⟩

/-- `namecmp`: compare two names on at most `DIRSIZ` characters. -/
def namecmp (s t : List UInt8) : Int :=
  strncmp s t P.DIRSIZ

/-- The loop of `dirlookup` from offset `off`: the offset and inode number of the first live
entry whose name matches `name`. -/
def dirlookupLoop (dp : Nat) (name : List UInt8) :
    (fuel : Nat) → State → (off : Nat) → Except Fault (Option (Nat × Nat) × State)
  | 0, s, _ => .ok (none, s)
  | fuel + 1, s, off =>
    if off < (s.icache dp).size then do
      let ((r, bs), s) ← readi P s dp off P.direntSize
      if r ≠ P.direntSize then .error (.panic "dirlink read")
      else
        let de := Dirent.decode bs
        if de.inum = 0 then dirlookupLoop dp name fuel s (off + P.direntSize)
        else if namecmp P name de.name = 0 then pure (some (off, de.inum), s)
        else dirlookupLoop dp name fuel s (off + P.direntSize)
    else pure (none, s)

/-- `dirlookup`: the cache entry of the inode a live entry named `name` holds, taken with
`iget`, and the offset of that entry (`*poff`). -/
def dirlookup (s : State) (dp : Nat) (name : List UInt8) :
    Except Fault (Option (Nat × Nat) × State) :=
  if (s.icache dp).type ≠ .dir then .error (.panic "dirlookup not DIR")
  else do
    let (r, s) ← dirlookupLoop P dp name ((s.icache dp).size + 1) s 0
    match r with
    | none => pure (none, s)
    | some (off, inum) =>
      let (ip, s) ← iget P s (s.icache dp).dev inum
      pure (some (ip, off), s)

/-- The loop of `dirlink` from offset `off` looking for a free entry: the offset where it
stops, that of the first free entry or the size. -/
def dirlinkScan (dp : Nat) : (fuel : Nat) → State → (off : Nat) → Except Fault (Nat × State)
  | 0, s, off => .ok (off, s)
  | fuel + 1, s, off =>
    if off < (s.icache dp).size then do
      let ((r, bs), s) ← readi P s dp off P.direntSize
      if r ≠ P.direntSize then .error (.panic "dirlink read")
      else if (Dirent.decode bs).inum = 0 then pure (off, s)
      else dirlinkScan dp fuel s (off + P.direntSize)
    else pure (off, s)

/-- `dirlink`: `-1` if `name` is present; otherwise write the entry `(name, inum)` where the
scan stopped, the name cut or padded to `DIRSIZ` bytes by `strncpy` and the number cut to an
`ushort` by `de.inum = inum`. -/
def dirlink (s : State) (dp : Nat) (name : List UInt8) (inum : Nat) :
    Except Fault (Int × State) := do
  let (r, s) ← dirlookup P s dp name
  match r with
  | some (ip, _) =>
    let s ← iput P s ip
    pure (-1, s)
  | none =>
    let (off, s) ← dirlinkScan P dp ((s.icache dp).size + 1) s 0
    let de : Dirent := ⟨inum % 2 ^ 16, strncpy name P.DIRSIZ⟩
    let (n, s) ← writei P s dp de.encode off
    if n ≠ P.direntSize then .error (.panic "dirlink") else pure (0, s)

/-- A dinode of one link whose first block is `b0`. -/
def Dinode.sample (t : FileType) (size b0 : Nat) : Dinode :=
  { Dinode.zero with
    type := t, nlink := 1, size := size, addrs := fun k => if k = 0 then b0 else 0 }

/-- A small file system: the root directory (inode 1, block 10) holds the directory `d`
(inode 2, block 11) and the empty regular file `x` (inode 3), and `d` holds `l` (inode 4), a
symlink whose target is empty. Blocks 0 to 11 are in use. The running process, pid 1, has the
root as its working directory, cached and valid in entry 0. -/
def sampleFs : State where
  disk := ⟨⟨16, 8, by decide⟩, fun k byte bit => k = 0 ∧ (byte = 0 ∨ byte = 1 ∧ bit < 4),
    fun inum => match inum with
      | 1 => Dinode.sample .dir 64 10
      | 2 => Dinode.sample .dir 48 11
      | 3 => Dinode.sample .file 0 0
      | 4 => Dinode.sample .symlink 0 0
      | _ => Dinode.zero,
    fun b => match b with
      | 10 => fun i => (dirBytes Params.sample
          [(1, bytesOf "."), (1, bytesOf ".."), (2, bytesOf "d"), (3, bytesOf "x")]).getD i 0
      | 11 => fun i => (dirBytes Params.sample
          [(2, bytesOf "."), (1, bytesOf ".."), (4, bytesOf "l")]).getD i 0
      | _ => fun _ => 0⟩
  icache := fun ip => if ip = 0 then ⟨Dinode.sample .dir 64 10, 1, 1, 1, false, true⟩
    else ⟨Dinode.zero, 0, 0, 0, false, false⟩
  unlocked := fun _ _ => 0
  ftable := fun _ => ⟨.none, 0, false, false, 0, 0, 0⟩
  devsw := fun _ => ⟨none, none⟩
  logged := []

/-- The process of `sampleFs`. -/
def sampleProc : Proc := ⟨1, 0⟩

end Xv6Fs
