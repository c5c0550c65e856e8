import Xv6Fs.Inode

/-!
# The open-file table

`filealloc` claims an unreferenced file of the table, `filedup` adds a reference, and
`fileclose` drops one; the last one empties the entry and releases what the file held, for a
file on an inode its reference to the inode, with `iput`. The open system call, which fills a
claimed file with an inode it holds, is not among the sources: `fileOpen` is that step, from the
spec. Pipes are not modelled, so the `pipeclose` of `fileclose` changes nothing here, and the
transaction around its `iput` is not either.

`filestat` reads the stat fields of the inode with the inode locked. `fileread` and `filewrite`
move `f->off` around `readi` and `writei`, and take the pipe routines as arguments. `filewrite`
cuts its range into chunks of `writeChunk` bytes, each written in a transaction of its own;
`begin_trans` and `commit_trans` are not among the sources, and `beginTrans` and `commitTrans`
only start a new record of the blocks handed to `log_write`.

`fileclose_cases` says what `fileclose` does.
-/

namespace Xv6Fs

variable (P : Params)

namespace State

/-- Replace one file of the table. -/
def setFile (s : State) (f : Nat) (file : File) : State :=
  { s with ftable := Function.update s.ftable f file }

@[simp] theorem setFile_disk (s : State) (f : Nat) (file : File) :
    (s.setFile f file).disk = s.disk := rfl
@[simp] theorem setFile_icache (s : State) (f : Nat) (file : File) :
    (s.setFile f file).icache = s.icache := rfl
@[simp] theorem setFile_ftable (s : State) (f : Nat) (file : File) :
    (s.setFile f file).ftable = Function.update s.ftable f file := rfl

@[simp] theorem setFile_setFile (s : State) (f : Nat) (file file' : File) :
    (s.setFile f file).setFile f file' = s.setFile f file' := by
  simp [setFile]

end State

/-- `filealloc`: the first unreferenced file of the table, now with one reference. -/
def filealloc (s : State) : Option Nat × State :=
  match (List.range P.NFILE).find? fun f => (s.ftable f).ref = 0 with
  | some f => (some f, s.setFile f { s.ftable f with ref := 1 })
  | none => (none, s)

/-- `filedup`: one more reference. -/
def filedup (s : State) (f : Nat) : Except Fault State :=
  if (s.ftable f).ref < 1 then .error (.panic "filedup")
  else .ok (s.setFile f { s.ftable f with ref := (s.ftable f).ref + 1 })

/-- `fileclose`: one reference less; the last one empties the entry and releases the pipe end
or the inode the file held. -/
def fileclose (s : State) (f : Nat) : Except Fault State :=
  if (s.ftable f).ref < 1 then .error (.panic "fileclose")
  else
    let s := s.setFile f { s.ftable f with ref := (s.ftable f).ref - 1 }
    if 0 < (s.ftable f).ref then .ok s
    else
      let ff := s.ftable f
      let s := s.setFile f { ff with ref := 0, type := .none }
      match ff.type with
      | .pipe => .ok s
      | .inode => iput P s ff.ip
      | .none => .ok s

/--
Modelled from the spec: the open system call, which is not among the sources, fills a file that
`filealloc` returned with an inode it holds and the access it was opened for:
`f->type = FD_INODE; f->ip = ip; f->off = 0;` and the two flags.
-/
def fileOpen (s : State) (f ip : Nat) (readable writable : Bool) : State :=
  s.setFile f
    { s.ftable f with
      type := .inode, ip := ip, off := 0, readable := readable, writable := writable }

/-- `filestat`: `0` and the stat fields of the inode of a file on an inode, read with the inode
locked; `-1` for any other file, whose `struct stat` is left unwritten (`none`). -/
def filestat (s : State) (f : Nat) : Except Fault ((Int × Option Stat) × State) :=
  match (s.ftable f).type with
  | .inode => do
    let ip := (s.ftable f).ip
    let s ← ilock s ip
    let st := stati s ip
    let s ← iunlock s ip
    pure ((0, some st), s)
  | _ => .ok ((-1, none), s)

/-- `max` of `filewrite`, `((LOGSIZE-1-1-2) / 2) * 512`: the most bytes one transaction writes.
The `int` arithmetic of the code gives the same value when `LOGSIZE` is at least 4. -/
def writeChunk : Nat := (P.LOGSIZE - 1 - 1 - 2) / 2 * 512

/-- Modelled from the spec: `begin_trans`, which opens a transaction of the external log, with
no block registered in it yet. -/
def beginTrans (s : State) : State := { s with logged := [] }

/-- Modelled from the spec: `commit_trans`, which has the log apply the blocks registered in the
transaction and ends it; the disk of the model already holds them. -/
def commitTrans (s : State) : State := { s with logged := [] }

section Trans

variable (s : State)

@[simp] theorem beginTrans_disk : (beginTrans s).disk = s.disk := rfl
@[simp] theorem beginTrans_icache : (beginTrans s).icache = s.icache := rfl
@[simp] theorem beginTrans_ftable : (beginTrans s).ftable = s.ftable := rfl
@[simp] theorem beginTrans_logged : (beginTrans s).logged = [] := rfl
@[simp] theorem commitTrans_disk : (commitTrans s).disk = s.disk := rfl
@[simp] theorem commitTrans_icache : (commitTrans s).icache = s.icache := rfl
@[simp] theorem commitTrans_ftable : (commitTrans s).ftable = s.ftable := rfl

end Trans

/-- `fileread` on an inode: `ilock`, `readi` at `f->off`, the offset advanced by what was read,
`iunlock`. A pipe is an external collaborator: `piperead` is what `piperead(f->pipe, addr, n)`
returns. -/
def fileread (piperead : Nat → Nat → Int × List UInt8) (s : State) (f n : Nat) :
    Except Fault ((Int × List UInt8) × State) :=
  if (s.ftable f).readable = false then .ok ((-1, []), s)
  else match (s.ftable f).type with
    | .pipe => .ok (piperead (s.ftable f).pipe n, s)
    | .inode => do
      let ip := (s.ftable f).ip
      let s ← ilock s ip
      let (r, s) ← readi P s ip (s.ftable f).off n
      let s := if 0 < r.1 then
          s.setFile f { s.ftable f with off := u32 ((s.ftable f).off + r.1.toNat) }
        else s
      let s ← iunlock s ip
      pure (r, s)
    | .none => .error (.panic "fileread")

/-- One transaction of `filewrite`: `begin_trans`, `ilock`, `writei` of `src` at `f->off`, the
offset advanced by what was written, `iunlock`, `commit_trans`. -/
def filewriteChunk (s : State) (f : Nat) (src : List UInt8) : Except Fault (Int × State) := do
  let ip := (s.ftable f).ip
  let s ← ilock (beginTrans s) ip
  let (r, s) ← writei P s ip src (s.ftable f).off
  let s := if 0 < r then
      s.setFile f { s.ftable f with off := u32 ((s.ftable f).off + r.toNat) }
    else s
  let s ← iunlock s ip
  pure (r, commitTrans s)

/-- The loop of `filewrite` over `src`, with `i` bytes written: a transaction for each chunk of
at most `max` bytes, until every byte is written or a chunk returns less than 0. With `max = 0`
a chunk writes nothing and the loop never ends; the fuel runs out. -/
def filewriteLoop (f : Nat) (src : List UInt8) : (fuel : Nat) → State → (i : Nat) →
    Except Fault (Nat × State)
  | 0, _, _ => .error .hangs
  | fuel + 1, s, i =>
    if i < src.length then do
      let n1 := min (src.length - i) (writeChunk P)
      let (r, s) ← filewriteChunk P s f ((src.drop i).take n1)
      if r < 0 then pure (i, s)
      else if r ≠ n1 then .error (.panic "short filewrite")
      else filewriteLoop f src fuel s (i + n1)
    else pure (i, s)

/-- `filewrite`: write `src` to file `f`; the count, or `-1`. A pipe is an external
collaborator: `pipewrite` is what `pipewrite(f->pipe, addr, n)` returns. -/
def filewrite (pipewrite : Nat → List UInt8 → Int) (s : State) (f : Nat) (src : List UInt8) :
    Except Fault (Int × State) :=
  if (s.ftable f).writable = false then .ok (-1, s)
  else match (s.ftable f).type with
    | .pipe => .ok (pipewrite (s.ftable f).pipe src, s)
    | .inode => do
      let (i, s) ← filewriteLoop P f src (src.length + 1) s 0
      pure (if i = src.length then src.length else -1, s)
    | .none => .error (.panic "filewrite")

variable {P}

/-- What `fileclose` does: with more than one reference it drops one; with the last it empties
the entry, and for a file on an inode then `iput`s the inode. -/
theorem fileclose_cases {s s' : State} {f : Nat} (h : fileclose P s f = .ok s') :
    (1 < (s.ftable f).ref ∧
      s' = s.setFile f { s.ftable f with ref := (s.ftable f).ref - 1 }) ∨
    ((s.ftable f).ref = 1 ∧ (s.ftable f).type = .inode ∧
      iput P (s.setFile f { s.ftable f with ref := 0, type := .none }) (s.ftable f).ip = .ok s') ∨
    ((s.ftable f).ref = 1 ∧ (s.ftable f).type ≠ .inode ∧
      s' = s.setFile f { s.ftable f with ref := 0, type := .none }) := by
  unfold fileclose at h
  split at h
  · cases h
  rename_i h1
  simp only [State.setFile_ftable, Function.update_same, State.setFile_setFile] at h
  split at h
  · cases h
    exact .inl ⟨by omega, rfl⟩
  rename_i h2
  have hone : (s.ftable f).ref = 1 := by omega
  split at h <;> rename_i ht
  · cases h
    exact .inr (.inr ⟨hone, by rw [ht]; decide, rfl⟩)
  · exact .inr (.inl ⟨hone, ht, h⟩)
  · cases h
    exact .inr (.inr ⟨hone, by rw [ht]; decide, rfl⟩)

/-- What `filestat` does when it returns: `-1` and nothing, for a file not on an inode, or
`ilock`, `stati` and `iunlock` of its inode. -/
theorem filestat_cases {s s' : State} {f : Nat} {r : Int × Option Stat}
    (h : filestat s f = .ok (r, s')) :
    ((s.ftable f).type ≠ .inode ∧ r = (-1, none) ∧ s' = s) ∨
    ((s.ftable f).type = .inode ∧ ∃ s₁, ilock s (s.ftable f).ip = .ok s₁ ∧
      iunlock s₁ (s.ftable f).ip = .ok s' ∧ r = (0, some (stati s₁ (s.ftable f).ip))) := by
  unfold filestat at h
  split at h
  · rename_i hty
    obtain ⟨s₁, h₁, h⟩ := bind_eq_ok h
    obtain ⟨s₂, h₂, h⟩ := bind_eq_ok h
    cases h
    exact .inr ⟨hty, s₁, h₁, h₂, rfl⟩
  · rename_i hty
    cases h
    exact .inl ⟨hty, rfl, rfl⟩

/-- What `fileread` does when it returns: nothing, for a file that is not readable or a pipe, or,
for a file on an inode, `ilock`, `readi` at the offset, a move of the offset by a positive count,
and `iunlock`. -/
theorem fileread_cases {piperead : Nat → Nat → Int × List UInt8} {s s' : State} {f n : Nat}
    {r : Int × List UInt8} (h : fileread P piperead s f n = .ok (r, s')) :
    s' = s ∨ ((s.ftable f).type = .inode ∧ ∃ s₁ s₂, ilock s (s.ftable f).ip = .ok s₁ ∧
      readi P s₁ (s.ftable f).ip (s₁.ftable f).off n = .ok (r, s₂) ∧
      iunlock (if 0 < r.1 then
          s₂.setFile f { s₂.ftable f with off := u32 ((s₂.ftable f).off + r.1.toNat) }
        else s₂) (s.ftable f).ip = .ok s') := by
  unfold fileread at h
  split at h
  · cases h; exact .inl rfl
  split at h
  · cases h; exact .inl rfl
  · rename_i hty
    obtain ⟨s₁, h₁, h⟩ := bind_eq_ok h
    obtain ⟨⟨r₂, s₂⟩, h₂, h⟩ := bind_eq_ok h
    obtain ⟨s₃, h₃, h⟩ := bind_eq_ok h
    cases h
    exact .inr ⟨hty, s₁, s₂, h₁, h₂, h₃⟩
  · cases h

/-- What a transaction of `filewrite` does when it returns: `begin_trans`, `ilock`, `writei` at
the offset, a move of the offset by a positive count, `iunlock` and `commit_trans`. -/
theorem filewriteChunk_cases {s s' : State} {f : Nat} {src : List UInt8} {r : Int}
    (h : filewriteChunk P s f src = .ok (r, s')) :
    ∃ s₁ s₂ s₃, ilock (beginTrans s) (s.ftable f).ip = .ok s₁ ∧
      writei P s₁ (s.ftable f).ip src (s₁.ftable f).off = .ok (r, s₂) ∧
      iunlock (if 0 < r then
          s₂.setFile f { s₂.ftable f with off := u32 ((s₂.ftable f).off + r.toNat) }
        else s₂) (s.ftable f).ip = .ok s₃ ∧ s' = commitTrans s₃ := by
  unfold filewriteChunk at h
  obtain ⟨s₁, h₁, h⟩ := bind_eq_ok h
  obtain ⟨⟨r₂, s₂⟩, h₂, h⟩ := bind_eq_ok h
  obtain ⟨s₃, h₃, h⟩ := bind_eq_ok h
  cases h
  exact ⟨s₁, s₂, s₃, h₁, h₂, h₃, rfl⟩

end Xv6Fs
