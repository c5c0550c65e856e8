import Xv6Fs.Readlink

/-!
# Password locks

A regular file can carry a password of at most `PASSLEN - 1` characters in its inode, with the
empty string for none. `filefprot` sets one, `filefunprot` removes it given the password, and
`filefunlock` given the password records the calling process in the table of unlocked inodes,
`unlocked_inodes.pids`: one row of `NPROC` process ids per inode number, `0` for a free slot.
`is_inode_unlocked` answers whether the calling process is in the row of an inode,
`free_inode_locks` clears a process from every row when it exits, and `fork_pids` adds a child
to every row its parent is in.

The three routines on paths start alike: canonicalize the path without resolving its last
element, look the result up with `namei`, and lock the inode; `lockFinal` is that start.
-/

namespace Xv6Fs

variable (P : Params)

/-- Whether `pid` is in the row of inode `inum`; a row outside the table is undefined. -/
def inRow (s : State) (pid : Int) (inum : Nat) : Except Fault Bool :=
  if NINODES ≤ inum then .error .undefined
  else .ok ((List.range P.NPROC).any fun i => s.unlocked inum i = pid)

/-- `unlock_inode`: add the calling process to the row of `inum`, unless it is there. -/
def unlockInode (s : State) (pid : Int) (inum : Nat) : Except Fault State := do
  if ← inRow P s pid inum then pure s
  else match (List.range P.NPROC).find? fun i => s.unlocked inum i = 0 with
    | some i =>
      let row := Function.update (s.unlocked inum) i pid
      pure { s with unlocked := Function.update s.unlocked inum row }
    | none => .error (.panic "unlock_inodes: No free pid slots found")

/-- `free_inode_locks`: clear `pid` from every row. -/
def freeInodeLocks (s : State) (pid : Int) : State :=
  { s with unlocked := fun i j =>
      if i < NINODES ∧ j < P.NPROC ∧ s.unlocked i j = pid then 0 else s.unlocked i j }

/-- `is_inode_unlocked`: `1` if the calling process is in the row of `inum`, else `0`. -/
def isInodeUnlocked (s : State) (pid : Int) (inum : Nat) : Except Fault Int := do
  if ← inRow P s pid inum then pure 1 else pure 0

/-- One row in `fork_pids`: if `oldPid` is in it, `newPid` goes into its first free slot. -/
def forkRow (row : Nat → Int) (oldPid newPid : Int) : Except Fault (Nat → Int) :=
  if (List.range P.NPROC).any fun j => row j = oldPid then
    match (List.range P.NPROC).find? fun k => row k = 0 with
    | some k => .ok (Function.update row k newPid)
    | none => .error (.panic "fork_pids: No free pid slots found")
  else .ok row

/-- `fork_pids`: every row holding `oldPid` also holds `newPid`. -/
def forkPids (s : State) (oldPid newPid : Int) : Except Fault State := do
  let rows ← (List.range NINODES).foldlM (fun (t : Nat → Nat → Int) i => do
    let row ← forkRow P (t i) oldPid newPid
    pure (Function.update t i row)) s.unlocked
  pure { s with unlocked := rows }

/--
Modelled from the spec: `is_inode_open`, which the sources call but do not define; the file
"has no open references" when no open file of the table, one with a reference, is on the inode.
-/
def isInodeOpen (s : State) (ip : Nat) : Bool :=
  (List.range P.NFILE).any fun f =>
    0 < (s.ftable f).ref ∧ (s.ftable f).type = .inode ∧ (s.ftable f).ip = ip

/-- `ip->password` as `strncmp` reads it: its `PASSLEN` bytes. -/
def Inode.passwordBytes (ino : Inode) : List UInt8 :=
  (List.range P.PASSLEN).map ino.password

/-- `safestrcpy(ip->password, password, PASSLEN)` on the password array. -/
def setPassword (old : Nat → UInt8) (password : List UInt8) : Nat → UInt8 :=
  let w := safestrcpy (password.take (P.PASSLEN - 1)) P.PASSLEN
  fun i => if i < w.length then w.getD i 0 else old i

/-- The start of the three routines: the locked inode the path names, if any. -/
def lockFinal (s : State) (proc : Proc) (pathname : List UInt8) :
    Except Fault (Option Nat × State) := do
  let ((r, finalPath), s) ← filereadlinki P s proc pathname Buf.empty P.MAXPATH
  if r < 0 then pure (none, s)
  else do
    let (ip, s) ← namei P s proc P.MAXPATH finalPath
    match ip with
    | none => pure (none, s)
    | some ip => do
      let s ← ilock s ip
      pure (some ip, s)

/-- `iunlock(ip); return r;` -/
def unlockReturn (s : State) (ip : Nat) (r : Int) : Except Fault (Int × State) := do
  let s ← iunlock s ip
  pure (r, s)

/-- `filefprot`: protect a regular file that has no password and no open file with
`password`. -/
def filefprot (s : State) (proc : Proc) (pathname password : List UInt8) :
    Except Fault (Int × State) := do
  let (ip, s) ← lockFinal P s proc pathname
  match ip with
  | none => pure (-1, s)
  | some ip =>
    let ino := s.icache ip
    if ino.type ≠ .file then unlockReturn s ip (-1)
    else if ino.password 0 ≠ 0 then unlockReturn s ip (-1)
    else if isInodeOpen P s ip then unlockReturn s ip (-1)
    else
      let ino := { ino with password := setPassword P ino.password password }
      unlockReturn (s.setInode ip ino) ip 0

set_option maxRecDepth 4000 in
/-- `filefprot` sets the password in the cache entry only: after protecting `/x` of `sampleFs`
the entry of `x` (entry 1) is referenced, valid, unlocked and holds the password, while the
dinode of `x` still has none. No `iupdate` is made. -/
theorem filefprot_password_not_written :
    (filefprot Params.sample sampleFs sampleProc (bytesOf "/x") (bytesOf "pw")).map (fun r =>
      (r.1, (r.2.icache 1).ref, (r.2.icache 1).busy, (r.2.icache 1).valid)) =
      .ok (0, 1, false, true) ∧
    (filefprot Params.sample sampleFs sampleProc (bytesOf "/x") (bytesOf "pw")).map (fun r =>
      ((r.2.icache 1).inum, (r.2.icache 1).password 0, (r.2.disk.dinodes 3).password 0)) =
      .ok (3, 112, 0) := by
  decide

/-- `filefunprot`: remove the password of a file, given it; a file without one is left as it
is. -/
def filefunprot (s : State) (proc : Proc) (pathname password : List UInt8) :
    Except Fault (Int × State) := do
  let (ip, s) ← lockFinal P s proc pathname
  match ip with
  | none => pure (-1, s)
  | some ip =>
    let ino := s.icache ip
    if ino.password 0 = 0 then unlockReturn s ip 0
    else if strncmp (ino.passwordBytes P) password P.PASSLEN ≠ 0 then unlockReturn s ip (-1)
    else
      let ino := { ino with password := Function.update ino.password 0 0 }
      unlockReturn (s.setInode ip ino) ip 0

set_option maxRecDepth 4000 in
/-- A password of `PASSLEN` characters does not unprotect the file it protected: `filefprot`
stores its first `PASSLEN - 1` characters and a NUL, and `strncmp` on `PASSLEN` characters then
sees the NUL against the last character. Its first `PASSLEN - 1` characters, another password,
unprotect it. -/
theorem filefunprot_full_length_password :
    ((filefprot Params.sample sampleFs sampleProc (bytesOf "/x") (bytesOf "abcdefghijklmnop")).bind
      fun r => (filefunprot Params.sample r.2 sampleProc (bytesOf "/x")
        (bytesOf "abcdefghijklmnop")).map fun r' => (r.1, r'.1)) = .ok (0, -1) ∧
    ((filefprot Params.sample sampleFs sampleProc (bytesOf "/x") (bytesOf "abcdefghijklmnop")).bind
      fun r => (filefunprot Params.sample r.2 sampleProc (bytesOf "/x")
        (bytesOf "abcdefghijklmno")).map fun r' => (r.1, r'.1)) = .ok (0, 0) := by
  decide

set_option maxRecDepth 4000 in
/-- `filefunprot` of the unprotected file `/x` of `sampleFs` returns 0 and leaves the
reference `namei` took on the cache entry of `x` (entry 1, unreferenced before): nothing drops
it with `iput`. -/
theorem filefunprot_keeps_reference :
    (sampleFs.icache 1).ref = 0 ∧
    (filefunprot Params.sample sampleFs sampleProc (bytesOf "/x") (bytesOf "a")).map
      (fun r => (r.1, (r.2.icache 1).inum, (r.2.icache 1).ref)) = .ok (0, 3, 1) := by
  decide

/-- `filefunlock`: given the password of a protected file, record the calling process in its
row. -/
def filefunlock (s : State) (proc : Proc) (pathname password : List UInt8) :
    Except Fault (Int × State) := do
  let (ip, s) ← lockFinal P s proc pathname
  match ip with
  | none => pure (-1, s)
  | some ip =>
    let ino := s.icache ip
    if ino.password 0 = 0 then unlockReturn s ip (-1)
    else if strncmp (ino.passwordBytes P) password P.PASSLEN ≠ 0 then unlockReturn s ip (-1)
    else do
      let s ← unlockInode P s proc.pid ino.inum
      unlockReturn s ip 0

set_option maxRecDepth 8000 in
/-- An exemption outlives the password it was granted for: process 1 protects `/x` of
`sampleFs` with `one`, unlocks it with `one`, and unprotects it; process 2 then protects it with
`two`, and `is_inode_unlocked` still answers 1 for process 1 on inode 3, which never gave
`two`. -/
theorem exemption_survives_reprotect :
    (do
      let (r₁, s) ← filefprot Params.sample sampleFs sampleProc (bytesOf "/x") (bytesOf "one")
      let (r₂, s) ← filefunlock Params.sample s sampleProc (bytesOf "/x") (bytesOf "one")
      let (r₃, s) ← filefunprot Params.sample s sampleProc (bytesOf "/x") (bytesOf "one")
      let (r₄, s) ← filefprot Params.sample s ⟨2, 0⟩ (bytesOf "/x") (bytesOf "two")
      let u ← isInodeUnlocked Params.sample s 1 3
      pure ([r₁, r₂, r₃, r₄], u, (s.icache 1).inum, (s.icache 1).passwordBytes Params.sample)) =
      .ok ([0, 0, 0, 0], 1, 3, bytesOf "two" ++ List.replicate 13 0) := by
  decide

end Xv6Fs
