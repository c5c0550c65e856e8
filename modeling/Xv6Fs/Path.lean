import Xv6Fs.Dir

/-!
# Path names

`skipelem` cuts the next element off a path held in a `char` array, and `namex` walks a path
from the root or the working directory one element at a time: it locks the directory it is in,
looks the element up with `dirlookup`, and drops its lock and reference on the directory before
it moves on, so that at most one inode is locked at a time.

A path is read from its array through a pointer, the index of its next byte. Each loop moves
the pointer forward within the array, so its capacity, plus one, is enough fuel.
-/

namespace Xv6Fs

variable (P : Params)

/-- The first index from `p` on whose byte fails `keep`. -/
def skipWhile (cap : Nat) (buf : Buf) (keep : UInt8 → Bool) :
    (fuel : Nat) → (p : Nat) → Except Fault Nat
  | 0, p => .ok p
  | fuel + 1, p => do
    let c ← buf.read cap p
    if keep c then skipWhile cap buf keep fuel (p + 1) else pure p

/-- The byte `'/'`. -/
def slash : UInt8 := 47

/-- `skipelem`: the element at `p` and the index after it and its trailing slashes, or `none`
when only slashes are left. The element is copied into `name` as `memmove` leaves it: cut to
`DIRSIZ` bytes, with a NUL after it only when it is shorter. -/
def skipelem (cap : Nat) (path : Buf) (p : Nat) :
    Except Fault (Option (List UInt8 × Nat)) := do
  let p ← skipWhile cap path (· = slash) (cap + 1) p
  let c ← path.read cap p
  if c = 0 then pure none
  else do
    let q ← skipWhile cap path (fun c => c ≠ slash ∧ c ≠ 0) (cap + 1) p
    let elem ← (List.range (q - p)).mapM fun k => path.read cap (p + k)
    let name := if P.DIRSIZ ≤ elem.length then elem.take P.DIRSIZ else elem ++ [0]
    let q ← skipWhile cap path (· = slash) (cap + 1) q
    pure (some (name, q))

/-- The loop of `namex` from cache entry `ip` and index `p` of the path: the inode reached,
with the last element copied into `name`. With `nameiparent` it stops one element early. -/
def namexLoop (cap : Nat) (path : Buf) (nameiparent : Bool) :
    (fuel : Nat) → State → (ip p : Nat) → Except Fault ((Option Nat × List UInt8) × State)
  | 0, s, _, _ => .ok ((none, []), s)
  | fuel + 1, s, ip, p => do
    match ← skipelem P cap path p with
    | none =>
      if nameiparent then do
        let s ← iput P s ip
        pure ((none, []), s)
      else pure ((some ip, []), s)
    | some (name, p) =>
      let s ← ilock s ip
      if (s.icache ip).type ≠ .dir then do
        let s ← iunlockput P s ip
        pure ((none, name), s)
      else do
        let last ← (if nameiparent then do
            let c ← path.read cap p
            pure (decide (c = 0))
          else pure false)
        if last then do
          let s ← iunlock s ip
          pure ((some ip, name), s)
        else do
          let (next, s) ← dirlookup P s ip name
          match next with
          | none =>
            let s ← iunlockput P s ip
            pure ((none, name), s)
          | some (next, _) =>
            let s ← iunlockput P s ip
            namexLoop cap path nameiparent fuel s next p

/-- `namex`: start at the root for an absolute path, else at the working directory. -/
def namex (s : State) (proc : Proc) (cap : Nat) (path : Buf) (nameiparent : Bool) :
    Except Fault ((Option Nat × List UInt8) × State) := do
  let c ← path.read cap 0
  let (ip, s) ← (if c = slash then iget P s P.ROOTDEV P.ROOTINO
    else pure (proc.cwd, idup s proc.cwd))
  namexLoop P cap path nameiparent (cap + 1) s ip 0

/-- `namei`: the inode a path names. -/
def namei (s : State) (proc : Proc) (cap : Nat) (path : Buf) :
    Except Fault (Option Nat × State) := do
  let ((ip, _), s) ← namex P s proc cap path false
  pure (ip, s)

/-- `nameiparent`: the directory holding the last element, and that element. -/
def nameiparent (s : State) (proc : Proc) (cap : Nat) (path : Buf) :
    Except Fault ((Option Nat × List UInt8) × State) :=
  namex P s proc cap path true

end Xv6Fs
