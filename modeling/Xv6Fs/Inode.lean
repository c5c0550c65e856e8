import Xv6Fs.Content

/-!
# The inode cache and the inode lifecycle

`iget` finds or claims a cache entry, `idup` adds a reference, `ilock` takes the busy flag and
loads the dinode the first time, `iunlock` drops the flag, and `iput` drops a reference; the
last reference to an inode without links truncates it with `itrunc` and frees its dinode.
`ialloc` claims a free dinode. A handle is the index of a cache entry; the callers modelled
never pass a null one.

`ilock` of an entry another process holds sleeps until it is released. Run by one process the
call does not return, which is `Fault.sleeps`.

`itrunc` is written as its parts, one definition each: the loop over the direct entries, the
single-indirect and the double-indirect part, and the loops over the entries of one index block
and over the second-level blocks.
-/

namespace Xv6Fs

variable (P : Params)

/-- The loop of `iget` over the entries `ips`: `inl` of the first entry with this identity and a
reference, or `inr` of the first empty entry seen. -/
def igetScan (s : State) (dev inum : Nat) : List Nat → Option Nat → Nat ⊕ Option Nat
  | [], empty => .inr empty
  | ip :: ips, empty =>
    if 0 < (s.icache ip).ref ∧ (s.icache ip).dev = dev ∧ (s.icache ip).inum = inum then .inl ip
    else igetScan s dev inum ips (if empty = none ∧ (s.icache ip).ref = 0 then some ip else empty)

/-- `iget`: the cache entry of inode `inum`, with one more reference. -/
def iget (s : State) (dev inum : Nat) : Except Fault (Nat × State) :=
  match igetScan s dev inum (List.range P.NINODE) none with
  | .inl ip => .ok (ip, s.setInode ip { s.icache ip with ref := (s.icache ip).ref + 1 })
  | .inr none => .error (.panic "iget: no inodes")
  | .inr (some ip) =>
    .ok (ip, s.setInode ip
      { s.icache ip with dev := dev, inum := inum, ref := 1, busy := false, valid := false })

/-- `idup`: one more reference. -/
def idup (s : State) (ip : Nat) : State :=
  s.setInode ip { s.icache ip with ref := (s.icache ip).ref + 1 }

/-- `ilock`: take the busy flag, and read the dinode if the entry is not valid. -/
def ilock (s : State) (ip : Nat) : Except Fault State :=
  if (s.icache ip).ref < 1 then .error (.panic "ilock")
  else if (s.icache ip).busy then .error .sleeps
  else
    let s := s.setInode ip { s.icache ip with busy := true }
    if (s.icache ip).valid then .ok s
    else
      let s := s.setInode ip
        { s.icache ip with toDinode := s.disk.dinodes (s.icache ip).inum, valid := true }
      if (s.icache ip).type = .free then .error (.panic "ilock: no type") else .ok s

/-- `iunlock`: drop the busy flag. -/
def iunlock (s : State) (ip : Nat) : Except Fault State :=
  if ¬ (s.icache ip).busy ∨ (s.icache ip).ref < 1 then .error (.panic "iunlock")
  else .ok (s.setInode ip { s.icache ip with busy := false })

/-- The loop of `itrunc` over the direct entries `is`:
`if(ip->addrs[i]){ bfree(ip->dev, ip->addrs[i]); ip->addrs[i] = 0; }`. -/
def itruncDirect (ip : Nat) (s : State) : List Nat → Except Fault State
  | [] => .ok s
  | i :: is =>
    if (s.icache ip).addrs i ≠ 0 then do
      let s ← bfree P s ((s.icache ip).addrs i)
      itruncDirect ip
        (s.setInode ip { s.icache ip with addrs := Function.update (s.icache ip).addrs i 0 }) is
    else itruncDirect ip s is

/-- The loop over the entries `js` of index block `a`: `if(a[j]) bfree(ip->dev, a[j]);`. -/
def bfreeEntries (a : Nat → UInt8) (s : State) : List Nat → Except Fault State
  | [] => .ok s
  | j :: js =>
    if entry a j ≠ 0 then do
      let s ← bfree P s (entry a j)
      bfreeEntries a s js
    else bfreeEntries a s js

/-- The loop over the entries `is` of the double-indirect block `a`: the entries of each
second-level block, then the block. -/
def bfreeMiddles (a : Nat → UInt8) (s : State) : List Nat → Except Fault State
  | [] => .ok s
  | i :: is =>
    if entry a i ≠ 0 then do
      let s ← bfreeEntries P (s.disk.data (entry a i)) s (List.range P.NINDIRECT)
      let s ← bfree P s (entry a i)
      bfreeMiddles a s is
    else bfreeMiddles a s is

/-- The single-indirect part of `itrunc`: the entries of the block, then the block. -/
def itruncIndirect (ip : Nat) (s : State) : Except Fault State :=
  if (s.icache ip).addrs P.NDIRECT ≠ 0 then do
    let s ← bfreeEntries P (s.disk.data ((s.icache ip).addrs P.NDIRECT)) s (List.range P.NINDIRECT)
    let s ← bfree P s ((s.icache ip).addrs P.NDIRECT)
    pure (s.setInode ip
      { s.icache ip with addrs := Function.update (s.icache ip).addrs P.NDIRECT 0 })
  else pure s

/-- The double-indirect part of `itrunc`: each second-level block with its entries, then the
double-indirect block. -/
def itruncIndirect2 (ip : Nat) (s : State) : Except Fault State :=
  if (s.icache ip).indirect2 ≠ 0 then do
    let s ← bfreeMiddles P (s.disk.data (s.icache ip).indirect2) s (List.range P.NINDIRECT)
    let s ← bfree P s (s.icache ip).indirect2
    pure (s.setInode ip { s.icache ip with indirect2 := 0 })
  else pure s

/-- `itrunc`: free every block of `ip`, clear its map and its size, and write it back. -/
def itrunc (s : State) (ip : Nat) : Except Fault State := do
  let s ← itruncDirect P ip s (List.range P.NDIRECT)
  let s ← itruncIndirect P ip s
  let s ← itruncIndirect2 P ip s
  pure (iupdate (s.setInode ip { s.icache ip with size := 0 }) ip)

/-- `iput`: drop a reference; the last one to a valid inode without links truncates it and frees
its dinode. -/
def iput (s : State) (ip : Nat) : Except Fault State := do
  let s ← if (s.icache ip).ref = 1 ∧ (s.icache ip).valid ∧ (s.icache ip).nlink = 0 then
      if (s.icache ip).busy then .error (.panic "iput busy")
      else do
        let s ← itrunc P (s.setInode ip { s.icache ip with busy := true }) ip
        let s := iupdate (s.setInode ip { s.icache ip with type := .free }) ip
        pure (s.setInode ip { s.icache ip with busy := false, valid := false })
    else pure s
  pure (s.setInode ip { s.icache ip with ref := (s.icache ip).ref - 1 })

/-- `iunlockput`: `iunlock`, then `iput`. -/
def iunlockput (s : State) (ip : Nat) : Except Fault State := do
  let s ← iunlock s ip
  iput P s ip

/-- `ialloc`: the first free dinode from 1 on, cleared to the given type, and its cache
entry. -/
def ialloc (s : State) (dev : Nat) (type : FileType) : Except Fault (Nat × State) :=
  match (List.range' 1 (s.disk.sb.ninodes - 1)).find?
      fun inum => (s.disk.dinodes inum).type = .free with
  | some inum =>
    iget P ((s.setDisk (s.disk.setDinode inum { Dinode.zero with type := type })).log
      (.inode inum)) dev inum
  | none => .error (.panic "ialloc: no inodes")

/-- `struct stat`: the fields `stati` fills. -/
structure Stat where
  dev : Nat
  ino : Nat
  type : FileType
  nlink : Int
  size : Nat
  deriving DecidableEq

/-- `stati`: copy the stat fields of cache entry `ip`. -/
def stati (s : State) (ip : Nat) : Stat :=
  ⟨(s.icache ip).dev, (s.icache ip).inum, (s.icache ip).type, (s.icache ip).nlink,
    (s.icache ip).size⟩

end Xv6Fs
