import Xv6Fs.Readlink
import Xv6Fs.PathSpec

/-!
# The budget and the arrays of `filereadlink`

`filereadlink` and `filereadlinki` count the substitutions of a symlink by its target in
`loops_left`, which starts at `MAX_SYMLINK_LOOPS` and is decremented before it is tested against
0: the sixteenth substitution already fails, so a chain of sixteen symlinks, which needs sixteen,
never resolves (`filereadlink_sixteen_links`, on the chain `chainFs`).

The arrays are where the two routines leave their contract (`readlink_buffer_bugs`). The path
`"/"` is answered apart: `buf[0] = '/'; buf[1] = '\0'; return 2;`, one more than the length of
the string left in `buf`, for every state and every array of two bytes or more, and past the end
of an array of one byte. And `skipelem` copies an element of `DIRSIZ` characters or more into
`name` without a NUL, so the `strlen(name)` that follows reads past what it wrote.
-/

namespace Xv6Fs

/-- A chain of sixteen symlinks. The root (inode 1, block 10) holds the symlinks `a` to `p`
(inodes 2 to 17), each naming the next letter and `p` naming `x`, and the empty regular file `x`
(inode 18); the symlink of inode `i` keeps its target in block `i + 9`. Blocks 0 to 26 are in
use, and the root is cached and valid in entry 0, the working directory of `sampleProc`. -/
def chainFs : State :=
  { sampleFs with
    disk := ⟨⟨32, 20, by decide⟩, fun k byte bit => k = 0 ∧ (byte < 3 ∨ byte = 3 ∧ bit < 3),
      fun inum => if inum = 1 then Dinode.sample .dir (19 * 16) 10
        else if 2 ≤ inum ∧ inum ≤ 17 then Dinode.sample .symlink 1 (inum + 9)
        else if inum = 18 then Dinode.sample .file 0 0 else Dinode.zero,
      fun b => if b = 10 then fun i => (dirBytes Params.sample
          ((1, bytesOf ".") :: (1, bytesOf "..") ::
            ((List.range 16).map fun k => (k + 2, [97 + k.toUInt8])) ++ [(18, bytesOf "x")])).getD
          i 0
        else if 11 ≤ b ∧ b ≤ 25 then fun i => if i = 0 then 97 + (b - 10).toUInt8 else 0
        else if b = 26 then fun i => if i = 0 then 120 else 0
        else fun _ => 0⟩
    icache := fun ip => if ip = 0 then ⟨Dinode.sample .dir (19 * 16) 10, 1, 1, 1, false, true⟩
      else ⟨Dinode.zero, 0, 0, 0, false, false⟩ }

set_option maxRecDepth 8000 in
/-- In `chainFs`, the root names each symlink `a` to `p` of the chain, each holding the next
letter, and `p` holds `x`, a regular file. From `b`, fifteen substitutions, `filereadlink`
returns `x`; from `a`, sixteen, it returns `-1`. -/
theorem filereadlink_sixteen_links :
    (∀ k < 16, chainFs.disk.lookup Params.sample 1 [97 + k.toUInt8, 0] = some (k + 2) ∧
      (chainFs.disk.dinodes (k + 2)).type = .symlink ∧
      chainFs.disk.content Params.sample (chainFs.disk.dinodes (k + 2)) =
        [if k < 15 then 98 + k.toUInt8 else 120]) ∧
    chainFs.disk.lookup Params.sample 1 (bytesOf "x" ++ [0]) = some 18 ∧
    (chainFs.disk.dinodes 18).type = .file ∧
    (filereadlink Params.sample chainFs sampleProc (bytesOf "b") Buf.empty 128).map
      (fun r => (r.1.1, (List.range 2).map r.1.2)) = .ok (1, [some 120, some 0]) ∧
    (filereadlink Params.sample chainFs sampleProc (bytesOf "a") Buf.empty 128).map
      (fun r => r.1.1) = .ok (-1) := by
  exact ⟨by decide, by decide, by decide, by decide, by rfl⟩

variable (P : Params)

/-- For the path `"/"`, in every state and with every array of two bytes or more, both
routines return `2` and leave the one-character string `"/"` in the array. -/
theorem readlinkWalk_root (resolveFinal : Bool) (s : State) (proc : Proc) (buf : Buf)
    (bufsiz : Int) (h : 2 ≤ bufsiz) :
    ∃ buf', readlinkWalk P resolveFinal s proc (bytesOf "/") buf bufsiz = .ok ((2, buf'), s) ∧
      buf'.str bufsiz.toNat 0 = .ok (bytesOf "/") := by
  obtain ⟨buf', hw⟩ : ∃ buf', buf.write bufsiz.toNat 0 [slash, 0] = .ok buf' :=
    ⟨_, if_pos (by simp; omega)⟩
  refine ⟨buf', ?_, ?_⟩
  · rw [readlinkWalk, if_neg (by decide), if_pos (by decide), bind_of_eq_ok hw]
    rfl
  · rw [Buf.write, if_pos (by simp; omega)] at hw
    cases hw
    obtain ⟨f, hf⟩ : ∃ f, bufsiz.toNat + 1 = f + 2 := ⟨bufsiz.toNat - 1, by omega⟩
    rw [Buf.str, hf]
    simp [Buf.readStr, Buf.read, show 0 < bufsiz.toNat by omega, show 1 < bufsiz.toNat by omega,
      bytesOf, slash, bind, Except.bind, pure, Except.pure]
    rfl

set_option maxRecDepth 4000 in
/-- Where `filereadlink` and `filereadlinki` leave their arrays or their result, whatever the
file system. For `"/"` the returned count `2` is one more than the length of the string in `buf`,
and not below `bufsiz = 2`; with `bufsiz = 1` the second byte is written past `buf`. An element
of `DIRSIZ` characters is copied into `name` without a NUL, so `strlen(name)` reads past the
bytes `skipelem` wrote. -/
theorem readlink_buffer_bugs :
    (∀ (s : State) (proc : Proc) (buf : Buf) (k : Nat),
      ∃ buf', filereadlink P s proc (bytesOf "/") buf (k + 2 : Nat) = .ok ((2, buf'), s) ∧
        buf'.str (k + 2) 0 = .ok (bytesOf "/")) ∧
    (∀ (s : State) (proc : Proc) (buf : Buf),
      (filereadlink P s proc (bytesOf "/") buf 1).map (·.1.1) = .error .undefined) ∧
    (∀ (s : State) (proc : Proc) (buf : Buf) (bufsiz : Int),
      (filereadlink Params.sample s proc (bytesOf "/abcdefghijklmn") buf bufsiz).map (·.1.1) =
        .error .undefined ∧
      (filereadlinki Params.sample s proc (bytesOf "/abcdefghijklmn") buf bufsiz).map (·.1.1) =
        .error .undefined) :=
  ⟨fun s proc buf k => by
      simpa using readlinkWalk_root P true s proc buf (k + 2 : Nat) (by omega),
    fun s proc buf => by
      rw [filereadlink, readlinkWalk, if_neg (by decide), if_pos (by decide), Buf.write,
        if_neg (by decide)]
      rfl,
    fun _ _ _ _ => ⟨by rfl, by rfl⟩⟩

end Xv6Fs
