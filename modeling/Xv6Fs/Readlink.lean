import Xv6Fs.Path

/-!
# Symlink-aware canonicalization: `filereadlink` and `filereadlinki`

Both routines rebuild a path one element at a time in the array `result`, copying the path
first into `origpath`. Each element is appended to `result` and resolved with `namei`; a
directory gets a `/` and the walk goes on, and a symlink has its target read into `result` in
its place, the rest of the path appended after a `/`, and the whole walk restarts on the
rewritten path (`goto restart`), at most `MAX_SYMLINK_LOOPS` times. `filereadlink` resolves
the last element the same way; `filereadlinki` copies it as it is. The two differ only there,
so they are one walk with a flag.

The arrays `result` and `origpath` are `MAXPATH` bytes and live across restarts; the caller's
array `buf` is `bufsiz` bytes. Each element moves the pointer into `origpath` forward, so
`MAXPATH + 1` elements are enough fuel for one pass.
-/

namespace Xv6Fs

variable (P : Params)

/-- How one element of a pass ends: `next` goes on at index `p` of `origpath`, `ret` returns
`n` with the caller's array, `restart` starts over on a rewritten `origpath`. -/
inductive Walk where
  | next (result : Buf) (resultOff p : Nat)
  | ret (n : Int) (buf : Buf)
  | restart (origpath result : Buf)

/-- The last element, in `filereadlink`: the inode `result` names is locked; a file, device
or directory ends the walk, and a symlink rewrites `origpath` to its target (a relative target
taking the place of the element in `result`). -/
def walkLastTarget (s : State) (ip : Nat) (bufsiz : Int) (buf origpath result : Buf)
    (resultOff len : Nat) : Except Fault (Walk × State) :=
  let m := P.MAXPATH
  match (s.icache ip).type with
  | .file | .dev | .dir => do
    let s ← iunlock s ip
    if bufsiz < resultOff + 1 then pure (.ret (-1) buf, s)
    else do
      let buf ← copyStr bufsiz.toNat buf 0 m result 0 m
      pure (.ret resultOff buf, s)
  | .symlink => do
    let ((l, bytes), s) ← readi P s ip 0 m
    let origpath ← origpath.write m 0 bytes
    let s ← iunlock s ip
    if l < 0 then .error .undefined
    else do
      let origpath ← origpath.write m l.toNat [0]
      let c ← origpath.read m 0
      if c ≠ slash then do
        let result ← copyStr m result (resultOff - len) m origpath 0 m
        let origpath ← copyStr m origpath 0 m result 0 m
        pure (.restart origpath result, s)
      else pure (.restart origpath result, s)
  | .free => .error (.panic "filereadlink: unknown inode type")

/-- An element before the last: the inode `result` names is locked; a file or device fails
the walk (returning with the inode still locked), a directory gets its `/`, and a symlink has
its target read in place of the element, followed by `/` and the rest of the path, which
becomes `origpath`, from the target if it is absolute. -/
def walkInner (s : State) (ip : Nat) (buf origpath result : Buf) (resultOff len p : Nat) :
    Except Fault (Walk × State) :=
  let m := P.MAXPATH
  match (s.icache ip).type with
  | .file | .dev => pure (.ret (-1) buf, s)
  | .dir => do
    let result ← result.write m resultOff [slash]
    let result ← result.write m (resultOff + 1) [0]
    let s ← iunlock s ip
    pure (.next result (resultOff + 1) p, s)
  | .symlink => do
    let resultOff := resultOff - len
    let ((l, bytes), s) ← readi P s ip 0 m
    let result ← result.write m resultOff bytes
    let s ← iunlock s ip
    if l < 0 then .error .undefined
    else do
      let result ← result.write m (resultOff + l.toNat) [slash]
      let result ← copyStr m result (resultOff + l.toNat + 1) m origpath p m
      let c ← result.read m resultOff
      let origpath ← if c = slash then copyStr m origpath 0 m result resultOff m
        else copyStr m origpath 0 m result 0 m
      pure (.restart origpath result, s)
  | .free => .error (.panic "filereadlink: unknown inode type")

/-- One element of a pass: `skipelem`, append the element to `result`, and handle it as the
last element or as an inner one. -/
def walkStep (resolveFinal : Bool) (s : State) (proc : Proc) (bufsiz : Int)
    (buf origpath result : Buf) (resultOff p : Nat) : Except Fault (Walk × State) := do
  let m := P.MAXPATH
  match ← skipelem P m origpath p with
  | none => pure (.ret (-1) buf, s)
  | some (name, p) =>
    let c ← origpath.read m p
    let len ← nameLen name
    let result ← result.write m resultOff (safestrcpy ((name.take len).take (m - 1)) m)
    let resultOff := resultOff + len
    let result ← result.write m resultOff [0]
    if c = 0 then
      if resolveFinal then do
        let (ip, s) ← namei P s proc m result
        match ip with
        | none => pure (.ret (-1) buf, s)
        | some ip =>
          let s ← ilock s ip
          walkLastTarget P s ip bufsiz buf origpath result resultOff len
      else if bufsiz < resultOff + 1 then pure (.ret (-1) buf, s)
      else do
        let buf ← copyStr bufsiz.toNat buf 0 m result 0 m
        pure (.ret resultOff buf, s)
    else do
      let (ip, s) ← namei P s proc m result
      match ip with
      | none => pure (.ret (-1) buf, s)
      | some ip =>
        let s ← ilock s ip
        walkInner P s ip buf origpath result resultOff len p

/-- One pass of the walk over `origpath`, from index `p`, until it returns or restarts. -/
def walkPass (resolveFinal : Bool) (proc : Proc) (bufsiz : Int) (buf origpath : Buf) :
    (fuel : Nat) → State → (result : Buf) → (resultOff p : Nat) → Except Fault (Walk × State)
  | 0, s, _, _, _ => .ok (.ret (-1) buf, s)
  | fuel + 1, s, result, resultOff, p => do
    let (w, s) ← walkStep P resolveFinal s proc bufsiz buf origpath result resultOff p
    match w with
    | .next result resultOff p =>
      walkPass resolveFinal proc bufsiz buf origpath fuel s result resultOff p
    | w => pure (w, s)

/-- The walk from `restart:`, with `loops` the value of `loops_left`. -/
def walkLoop (resolveFinal : Bool) (proc : Proc) (bufsiz : Int) (buf : Buf) :
    (loops : Nat) → State → (origpath result : Buf) → Except Fault ((Int × Buf) × State)
  | 0, s, _, _ => .ok ((-1, buf), s)
  | loops + 1, s, origpath, result => do
    let m := P.MAXPATH
    let c ← origpath.read m 0
    let (result, resultOff) ← if c = slash then do
        let result ← result.write m 0 [slash]
        pure (result, 1)
      else pure (result, 0)
    let result ← result.write m resultOff [0]
    let (w, s) ← walkPass P resolveFinal proc bufsiz buf origpath (m + 1) s result resultOff 0
    match w with
    | .ret n buf => pure ((n, buf), s)
    | .restart origpath result =>
      if loops = 0 then pure ((-1, buf), s)
      else walkLoop resolveFinal proc bufsiz buf loops s origpath result
    | .next _ _ _ => pure ((-1, buf), s)

/-- The body shared by `filereadlink` and `filereadlinki`: the count returned and the caller's
array. -/
def readlinkWalk (resolveFinal : Bool) (s : State) (proc : Proc) (pathname : List UInt8)
    (buf : Buf) (bufsiz : Int) : Except Fault ((Int × Buf) × State) :=
  if pathname = [] then .ok ((-1, buf), s)
  else if pathname = [slash] then do
    let buf ← buf.write bufsiz.toNat 0 [slash, 0]
    pure ((2, buf), s)
  else walkLoop P resolveFinal proc bufsiz buf MAX_SYMLINK_LOOPS s
    (Buf.ofStr P.MAXPATH pathname) Buf.empty

/-- `filereadlink`: the canonical path of `pathname`, its last element resolved too. -/
def filereadlink (s : State) (proc : Proc) (pathname : List UInt8) (buf : Buf) (bufsiz : Int) :
    Except Fault ((Int × Buf) × State) :=
  readlinkWalk P true s proc pathname buf bufsiz

/-- `filereadlinki`: as `filereadlink`, with the last element left as it is. -/
def filereadlinki (s : State) (proc : Proc) (pathname : List UInt8) (buf : Buf)
    (bufsiz : Int) : Except Fault ((Int × Buf) × State) :=
  readlinkWalk P false s proc pathname buf bufsiz

set_option maxRecDepth 4000 in
/-- In `sampleFs`, `/d/l/x` canonicalizes to `/x`, the regular file `x` of the root, although
its symlink `l` has an empty target, relative and so taken in `l`'s directory `d`, and `/d/x`
names nothing: the `/` written after the empty target is taken for the start of an absolute
target. -/
theorem filereadlink_empty_target :
    (filereadlink Params.sample sampleFs sampleProc (bytesOf "/d/l/x") Buf.empty 128).map
      (fun r => (r.1.1, (List.range 3).map r.1.2)) = .ok (2, [some 47, some 120, some 0]) ∧
    (namei Params.sample sampleFs sampleProc 128 (Buf.ofStr 128 (bytesOf "/x"))).map
      (fun r => r.1.map fun ip => (r.2.icache ip).inum) = .ok (some 3) ∧
    (namei Params.sample sampleFs sampleProc 128 (Buf.ofStr 128 (bytesOf "/d/x"))).map
      Prod.fst = .ok none := by
  decide

end Xv6Fs
