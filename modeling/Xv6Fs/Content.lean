import Xv6Fs.BmapSpec

/-!
# Inode content: `readi` and `writei`

`readi` and `writei` walk a byte range one block piece at a time, mapping each block with
`bmap`. A device inode is handed to its `devsw` handler instead. Offsets and counts are `uint`s,
so the range checks are made on `u32 (off + n)`, the sum as the code computes it.

The loops are written with a fuel argument that bounds their iterations: each iteration moves
at least one byte, so the byte count is enough fuel, and `readiLoop_fuel_stable` and
`writeiLoop_fuel_stable` show that the result does not depend on any larger amount.
-/

namespace Xv6Fs

variable (P : Params)

/-- A sum computed in `uint` arithmetic. -/
def u32 (x : Nat) : Nat := x % 2 ^ 32

/-- `(int)` of a `uint`, as `return n` converts the count. -/
def i32 (x : Nat) : Int := if x < 2 ^ 31 then x else x - 2 ^ 32

/-- `iupdate`: copy the cache entry `ip` to its dinode. -/
def iupdate (s : State) (ip : Nat) : State :=
  (s.setDisk (s.disk.setDinode (s.icache ip).inum (s.icache ip).toDinode)).log
    (.inode (s.icache ip).inum)

/-- `memmove(bp->data + o, src, m)` on the bytes of a block. -/
def writeBytes (blk : Nat → UInt8) (o : Nat) (src : List UInt8) : Nat → UInt8 := fun i =>
  if o ≤ i ∧ i < o + src.length then src.getD (i - o) 0 else blk i

/-- The loop of `readi`: `rem` (that is `n - tot`) bytes from offset `off`. -/
def readiLoop (ip : Nat) : (fuel : Nat) → State → (off rem : Nat) →
    Except Fault (List UInt8 × State)
  | 0, s, _, _ => .ok ([], s)
  | fuel + 1, s, off, rem =>
    if rem = 0 then .ok ([], s)
    else do
      let (b, s) ← bmap P s ip (off / P.BSIZE)
      let m := min rem (P.BSIZE - off % P.BSIZE)
      let piece := (List.range m).map fun k => s.disk.data b (off % P.BSIZE + k)
      let (rest, s) ← readiLoop ip fuel s (off + m) (rem - m)
      pure (piece ++ rest, s)

/-- `readi`: read `n` bytes at `off`; the count read, or `-1`, and the bytes. -/
def readi (s : State) (ip off n : Nat) : Except Fault ((Int × List UInt8) × State) :=
  let ino := s.icache ip
  if ino.type = .dev then
    if ino.major < 0 ∨ P.NDEV ≤ ino.major then .ok ((-1, []), s)
    else match (s.devsw ino.major.toNat).read with
      | none => .ok ((-1, []), s)
      | some rd => .ok (rd n, s)
  else if ino.size < off ∨ u32 (off + n) < off then .ok ((-1, []), s)
  else
    let n := if ino.size < u32 (off + n) then ino.size - off else n
    match readiLoop P ip n s off n with
    | .ok (bytes, s) => .ok ((i32 n, bytes), s)
    | .error e => .error e

/-- The loop of `writei`: write `src` (the bytes from `src + tot` on) at offset `off`; the
offset reached. -/
def writeiLoop (ip : Nat) : (fuel : Nat) → State → (off : Nat) → List UInt8 →
    Except Fault (Nat × State)
  | 0, s, off, _ => .ok (off, s)
  | fuel + 1, s, off, src =>
    if src = [] then .ok (off, s)
    else do
      let (b, s) ← bmap P s ip (off / P.BSIZE)
      let m := min src.length (P.BSIZE - off % P.BSIZE)
      let s := (s.setDisk (s.disk.setBlock b
        (writeBytes (s.disk.data b) (off % P.BSIZE) (src.take m)))).log (.data b)
      writeiLoop ip fuel s (off + m) (src.drop m)

/-- `writei`: write `src` at `off`; the count written, or `-1`. -/
def writei (s : State) (ip : Nat) (src : List UInt8) (off : Nat) : Except Fault (Int × State) :=
  let ino := s.icache ip
  let n := src.length
  if ino.type = .dev then
    if ino.major < 0 ∨ P.NDEV ≤ ino.major then .ok (-1, s)
    else match (s.devsw ino.major.toNat).write with
      | none => .ok (-1, s)
      | some wr => .ok (wr src, s)
  else if ino.size < off ∨ u32 (off + n) < off then .ok (-1, s)
  else if P.MAXFILE * P.BSIZE < u32 (off + n) then .ok (-1, s)
  else do
    let (off, s) ← writeiLoop P ip n s off src
    if 0 < n ∧ (s.icache ip).size < off then
      pure (i32 n, iupdate (s.setInode ip { s.icache ip with size := off }) ip)
    else pure (i32 n, s)

theorem u32_of_lt {x : Nat} (h : x < 2 ^ 32) : u32 x = x := Nat.mod_eq_of_lt h

theorem i32_of_lt {x : Nat} (h : x < 2 ^ 31) : i32 x = x := if_pos h

section Iupdate

variable (s : State) (ip : Nat)

@[simp] theorem iupdate_icache : (iupdate s ip).icache = s.icache := rfl
@[simp] theorem iupdate_sb : (iupdate s ip).disk.sb = s.disk.sb := rfl
@[simp] theorem iupdate_data : (iupdate s ip).disk.data = s.disk.data := rfl
@[simp] theorem iupdate_bitmap : (iupdate s ip).disk.bitmap = s.disk.bitmap := rfl
@[simp] theorem iupdate_dinodes :
    (iupdate s ip).disk.dinodes =
      Function.update s.disk.dinodes (s.icache ip).inum (s.icache ip).toDinode := rfl
@[simp] theorem iupdate_unlocked : (iupdate s ip).unlocked = s.unlocked := rfl
@[simp] theorem iupdate_ftable : (iupdate s ip).ftable = s.ftable := rfl
@[simp] theorem iupdate_devsw : (iupdate s ip).devsw = s.devsw := rfl
@[simp] theorem iupdate_logged :
    (iupdate s ip).logged = s.logged ++ [.inode (s.icache ip).inum] := rfl

end Iupdate

end Xv6Fs
