import Xv6Fs.FileRead
import Xv6Fs.Accounting

/-!
# Runs of the file layer

`SysStep` is a call of the inode layer or of the file table, or a path lookup; `FileStep` adds
the calls that go through the entry a file holds: `filestat`, and the two that move bytes,
`fileread` and `filewrite`, on a file whose offset is a `uint`. They lock the entry, call
`stati`, `readi` or `writei`, move the offset by the count and unlock it, and `filewrite` does so
once for each transaction of its loop. None of this moves a reference, so the invariant of the
cache and the accounting of its references (`HandleInv`) hold after each call, and over every run
(`file_layer_invariant`). In particular `filestat` reports the dinode on disk in every state a
run reaches (`filestat_reports_dinode`): a held entry agrees with its dinode, and one that is
not valid is loaded from it.

The one fact the calls need of the table is that a file on an inode holds a reference to its
entry (`HandleInv.file_entry`): the entry is in the cache and referenced, so `ilock` does not
panic, and once locked it is loaded, so `readi` and `writei` act on a held entry.
-/

namespace Xv6Fs

variable {P : Params}

namespace HandleInv

variable {s s' : State} {held : Nat → Int}

/-- A file of the table on an inode is open: a file without references is empty. -/
theorem file_holds (inv : HandleInv P (s, held)) {f : Nat} (hf : f < P.NFILE)
    (hty : (s.ftable f).type = .inode) : (s.ftable f).Holds (s.ftable f).ip := by
  have a : Accounted P s held := inv.acc
  refine ⟨?_, hty, rfl⟩
  rcases (a.file_nonneg f hf).lt_or_eq with h | h
  · exact h
  · exact absurd (a.closed f hf h.symm) (by rw [hty]; decide)

/-- A file on an inode holds a reference to its entry: the entry is in the cache and
referenced. -/
theorem file_entry (inv : HandleInv P (s, held)) {f : Nat} (hf : f < P.NFILE)
    (hty : (s.ftable f).type = .inode) :
    (s.ftable f).ip < P.NINODE ∧ 0 < (s.icache (s.ftable f).ip).ref := by
  have a : Accounted P s held := inv.acc
  have hold := inv.file_holds hf hty
  have hip := a.file_lt f hf hold
  have hrefs := a.refs _ hip
  have hcount := fileHolds_pos hf hold
  have hheld := a.held_nonneg (s.ftable f).ip
  exact ⟨hip, by omega⟩

/-- `ilock` of an entry of the cache keeps the invariant. -/
theorem ilock_entry (inv : HandleInv P (s, held)) {ip : Nat} (hip : ip < P.NINODE)
    (h : ilock s ip = .ok s') : HandleInv P (s', held) :=
  inv.of_inode (inv.cons.step (.ilock hip h)) (ilock_frame h).1
    (fun x _ => by rw [(ilock_frame h).2]) inv.acc.held_nonneg inv.acc.held_lt

/-- `iunlock` of an entry of the cache keeps the invariant. -/
theorem iunlock_entry (inv : HandleInv P (s, held)) {ip : Nat} (hip : ip < P.NINODE)
    (h : iunlock s ip = .ok s') : HandleInv P (s', held) :=
  inv.of_inode (inv.cons.step (.iunlock hip h)) (iunlock_frame h).1
    (fun x _ => by rw [(iunlock_frame h).2]) inv.acc.held_nonneg inv.acc.held_lt

/-- After `ilock` of an entry of the cache, the entry holds its dinode, with its identity, and is
locked. -/
theorem ilock_loaded (inv : HandleInv P (s, held)) {ip : Nat} (hip : ip < P.NINODE)
    (h : ilock s ip = .ok s') :
    (s'.icache ip).toDinode = s.disk.dinodes (s.icache ip).inum ∧
      (s'.icache ip).dev = (s.icache ip).dev ∧ (s'.icache ip).inum = (s.icache ip).inum ∧
      (s'.icache ip).busy = true := by
  obtain ⟨href, -, ⟨hv, rfl⟩ | ⟨-, -, rfl⟩⟩ := ilock_cases h
  · simpa using inv.cons.coh _ ⟨hip, href, hv⟩
  · simp

/-- After `ilock` of the entry of a file on an inode, the entry is held, loaded with the type of
its dinode and locked, the invariant holds, and the table is as it was. -/
theorem ilock_file (inv : HandleInv P (s, held)) {f : Nat} (hf : f < P.NFILE)
    (hty : (s.ftable f).type = .inode) (h : ilock s (s.ftable f).ip = .ok s') :
    HandleInv P (s', held) ∧ s'.Live P (s.ftable f).ip ∧ s'.ftable = s.ftable ∧
      (s'.icache (s.ftable f).ip).busy = true ∧
      (s'.icache (s.ftable f).ip).type = (s.disk.dinodes (s.icache (s.ftable f).ip).inum).type := by
  obtain ⟨hip, href⟩ := inv.file_entry hf hty
  obtain ⟨hd, -, -, hb⟩ := inv.ilock_loaded hip h
  obtain ⟨hft, hr⟩ := ilock_frame h
  exact ⟨inv.ilock_entry hip h, ⟨hip, by rw [hr]; exact href, ilock_valid h⟩, hft, hb,
    congrArg Dinode.type hd⟩

/-- `writei` of a held entry keeps the invariant. -/
theorem writei_entry (inv : HandleInv P (s, held)) {ip off : Nat} {src : List UInt8} {r : Int}
    (live : s.Live P ip) (hoff : off < 2 ^ 32) (hn : src.length < 2 ^ 32)
    (h : writei P s ip src off = .ok (r, s')) : HandleInv P (s', held) := by
  obtain ⟨hft, hr⟩ := inv.cons.writei_frame live hoff hn h
  exact inv.of_inode (inv.cons.writei live hoff hn h) hft (fun x _ => by rw [hr])
    inv.acc.held_nonneg inv.acc.held_lt

/-- A state with the disk, the cache and the file table of one that has the invariant has it:
the log is not part of it. -/
theorem congr (inv : HandleInv P (s, held)) (hd : s'.disk = s.disk) (hi : s'.icache = s.icache)
    (hft : s'.ftable = s.ftable) : HandleInv P (s', held) :=
  inv.of_files hd hi
    (inv.acc.cache hft (fun x _ => by rw [hi]) inv.acc.held_nonneg inv.acc.held_lt)

/-- `ilock_file` for the `ilock` that opens a transaction of `filewrite`: `begin_trans` touches
only the log. -/
theorem ilock_trans_file (inv : HandleInv P (s, held)) {f : Nat} (hf : f < P.NFILE)
    (hty : (s.ftable f).type = .inode) (h : ilock (beginTrans s) (s.ftable f).ip = .ok s') :
    HandleInv P (s', held) ∧ s'.Live P (s.ftable f).ip ∧ s'.ftable = s.ftable ∧
      (s'.icache (s.ftable f).ip).busy = true ∧
      (s'.icache (s.ftable f).ip).type = (s.disk.dinodes (s.icache (s.ftable f).ip).inum).type :=
  (inv.congr rfl rfl rfl : HandleInv P (beginTrans s, held)).ilock_file hf hty h

/-- Moving the offset of a file by a count, as `fileread` and `filewrite` do when it is positive,
keeps the invariant, the type and the entry of the file, and a `uint` offset: the accounting
reads no offset. -/
theorem advance (inv : HandleInv P (s, held)) {f : Nat} (hf : f < P.NFILE) (c : Prop)
    [Decidable c] (k : Nat) :
    HandleInv P ((if c then s.setFile f { s.ftable f with off := u32 ((s.ftable f).off + k) }
        else s), held) ∧
      ((s.ftable f).off < 2 ^ 32 →
        (((if c then s.setFile f { s.ftable f with off := u32 ((s.ftable f).off + k) }
            else s).ftable f).type = (s.ftable f).type ∧
          ((if c then s.setFile f { s.ftable f with off := u32 ((s.ftable f).off + k) }
            else s).ftable f).off < 2 ^ 32)) := by
  have a : Accounted P s held := inv.acc
  split
  · refine ⟨inv.of_files rfl rfl (a.setFile hf (fun _ _ => rfl) a.held_nonneg a.held_lt
      (a.file_lt f hf) (a.file_nonneg f hf) (a.closed f hf)), fun _ => ?_⟩
    simp only [State.setFile_ftable, Function.update_same, true_and]
    exact Nat.mod_lt _ (by decide)
  · exact ⟨inv, fun hoff => ⟨rfl, hoff⟩⟩

/-- `fileread` of a file of the table at a `uint` offset keeps the invariant. -/
theorem fileread (inv : HandleInv P (s, held)) {piperead : Nat → Nat → Int × List UInt8}
    {f n : Nat} {r : Int × List UInt8} (hf : f < P.NFILE) (hoff : (s.ftable f).off < 2 ^ 32)
    (hn : n < 2 ^ 32) (h : Xv6Fs.fileread P piperead s f n = .ok (r, s')) :
    HandleInv P (s', held) := by
  rcases fileread_cases h with rfl | ⟨hty, s₁, s₂, h₁, h₂, h₃⟩
  · exact inv
  obtain ⟨inv₁, live, hft, -, -⟩ := inv.ilock_file hf hty h₁
  -- `readi` of the locked entry changes nothing
  obtain ⟨_, h₂'⟩ := inv₁.cons.readi_ok live
    (show (s₁.ftable f).off < 2 ^ 32 by rw [hft]; exact hoff) hn
  rw [h₂'] at h₂
  cases h₂
  exact (inv₁.advance hf _ _).1.iunlock_entry live.1 h₃

/-- A transaction of `filewrite` on a file on an inode at a `uint` offset keeps the invariant,
the type of the file and a `uint` offset. -/
theorem filewriteChunk (inv : HandleInv P (s, held)) {f : Nat} {src : List UInt8} {r : Int}
    (hf : f < P.NFILE) (hty : (s.ftable f).type = .inode) (hoff : (s.ftable f).off < 2 ^ 32)
    (hn : src.length < 2 ^ 32) (h : Xv6Fs.filewriteChunk P s f src = .ok (r, s')) :
    HandleInv P (s', held) ∧ (s'.ftable f).type = .inode ∧ (s'.ftable f).off < 2 ^ 32 := by
  obtain ⟨s₁, s₂, s₃, h₁, h₂, h₃, rfl⟩ := filewriteChunk_cases h
  obtain ⟨inv₁, live, hft, -, -⟩ := inv.ilock_trans_file hf hty h₁
  have hoff₁ : (s₁.ftable f).off < 2 ^ 32 := by rw [hft]; exact hoff
  have hft₂ := (inv₁.cons.writei_frame live hoff₁ hn h₂).1
  have adv := (inv₁.writei_entry live hoff₁ hn h₂).advance hf (0 < r) r.toNat
  obtain ⟨hty₃, hoff₃⟩ := adv.2 (by rw [hft₂]; exact hoff₁)
  have hty₂ : (s₂.ftable f).type = .inode := by rw [hft₂, hft]; exact hty
  have hft₃ := (iunlock_frame h₃).1
  refine ⟨(adv.1.iunlock_entry live.1 h₃).congr rfl rfl rfl, ?_, ?_⟩ <;>
    simp only [commitTrans_ftable, hft₃]
  exacts [hty₃.trans hty₂, hoff₃]

/-- `filestat` keeps the invariant. -/
theorem filestat (inv : HandleInv P (s, held)) {f : Nat} {r : Int × Option Stat}
    (hf : f < P.NFILE) (h : Xv6Fs.filestat s f = .ok (r, s')) : HandleInv P (s', held) := by
  rcases filestat_cases h with ⟨-, -, rfl⟩ | ⟨hty, s₁, h₁, h₂, -⟩
  · exact inv
  obtain ⟨hip, -⟩ := inv.file_entry hf hty
  exact (inv.ilock_entry hip h₁).iunlock_entry hip h₂

/-- `filestat` of a file on an inode whose entry is not busy and whose dinode is in use: `0` and
the stat fields of the dinode on disk. The entry is locked, loaded from the dinode if it was not
valid, and unlocked again; the invariant holds after it, and neither the disk, nor the table, nor
a reference has changed. -/
theorem filestat_eq (inv : HandleInv P (s, held)) {f : Nat} (hf : f < P.NFILE)
    (hty : (s.ftable f).type = .inode) (hb : (s.icache (s.ftable f).ip).busy = false)
    (hin : (s.disk.dinodes (s.icache (s.ftable f).ip).inum).type ≠ .free) :
    ∃ s', Xv6Fs.filestat s f = .ok ((0, some ⟨(s.icache (s.ftable f).ip).dev,
        (s.icache (s.ftable f).ip).inum, (s.disk.dinodes (s.icache (s.ftable f).ip).inum).type,
        (s.disk.dinodes (s.icache (s.ftable f).ip).inum).nlink,
        (s.disk.dinodes (s.icache (s.ftable f).ip).inum).size⟩), s') ∧
      HandleInv P (s', held) ∧ s'.disk = s.disk ∧ s'.ftable = s.ftable ∧
      ∀ x, (s'.icache x).ref = (s.icache x).ref := by
  obtain ⟨hip, href⟩ := inv.file_entry hf hty
  obtain ⟨s₁, h₁⟩ := ilock_ok href hb (.inr hin)
  obtain ⟨hd, hdev, hinum, hbusy⟩ := inv.ilock_loaded hip h₁
  obtain ⟨hft₁, hr₁⟩ := ilock_frame h₁
  have h₂ := iunlock_locked (by rw [hr₁]; exact href) hbusy
  obtain ⟨hft₂, hr₂⟩ := iunlock_frame h₂
  refine ⟨_, ?_, (inv.ilock_entry hip h₁).iunlock_entry hip h₂,
    (iunlock_disk h₂).trans (ilock_disk h₁), hft₂.trans hft₁, fun x => (hr₂ x).trans (hr₁ x)⟩
  simp only [Xv6Fs.filestat, hty, bind_of_eq_ok h₁, hft₁, bind_of_eq_ok h₂]
  rw [stati, ← hd, hdev, hinum]
  rfl

end HandleInv

section Filewrite

variable {f : Nat} {src : List UInt8} (Q : State → Prop)
  (chunk : ∀ {s s' : State} {c : List UInt8} {r : Int}, Q s → (s.ftable f).type = .inode →
    (s.ftable f).off < 2 ^ 32 → c.length < 2 ^ 32 → filewriteChunk P s f c = .ok (r, s') →
    Q s' ∧ (s'.ftable f).type = .inode ∧ (s'.ftable f).off < 2 ^ 32)
include chunk

/-- The loop of `filewrite` keeps any property of the state that each of its transactions keeps
on a file that stays on its inode at a `uint` offset. -/
theorem filewriteLoop_keeps (hn : src.length < 2 ^ 32) :
    ∀ {fuel i j : Nat} {s s' : State}, Q s → (s.ftable f).type = .inode →
      (s.ftable f).off < 2 ^ 32 → filewriteLoop P f src fuel s i = .ok (j, s') → Q s'
  | 0, _, _, _, _, _, _, _, h => by cases h
  | fuel + 1, i, j, s, s', q, hty, hoff, h => by
    rw [filewriteLoop] at h
    split at h
    · obtain ⟨⟨r, s₁⟩, h₁, h⟩ := bind_eq_ok h
      obtain ⟨q₁, hty₁, hoff₁⟩ := chunk q hty hoff (by simp; omega) h₁
      dsimp only at h
      by_cases hr : r < 0
      · rw [if_pos hr] at h; cases h; exact q₁
      rw [if_neg hr] at h
      split at h
      · cases h
      · exact filewriteLoop_keeps hn q₁ hty₁ hoff₁ h
    · cases h; exact q

/-- So does `filewrite` of a file at a `uint` offset: it changes nothing but through its
loop. -/
theorem filewrite_keeps {pipewrite : Nat → List UInt8 → Int} {s s' : State} {r : Int} (q : Q s)
    (hoff : (s.ftable f).off < 2 ^ 32) (hn : src.length < 2 ^ 32)
    (h : filewrite P pipewrite s f src = .ok (r, s')) : Q s' := by
  unfold filewrite at h
  split at h
  · cases h; exact q
  split at h
  · cases h; exact q
  · rename_i hty
    obtain ⟨⟨i, s₁⟩, h₁, h⟩ := bind_eq_ok h
    cases h
    exact filewriteLoop_keeps Q chunk hn q hty hoff h₁
  · cases h

end Filewrite

/-- `filewrite` of a file of the table at a `uint` offset keeps the invariant. -/
theorem HandleInv.filewrite {s s' : State} {held : Nat → Int} (inv : HandleInv P (s, held))
    {pipewrite : Nat → List UInt8 → Int} {f : Nat} {src : List UInt8} {r : Int}
    (hf : f < P.NFILE) (hoff : (s.ftable f).off < 2 ^ 32) (hn : src.length < 2 ^ 32)
    (h : Xv6Fs.filewrite P pipewrite s f src = .ok (r, s')) : HandleInv P (s', held) :=
  filewrite_keeps (fun t => HandleInv P (t, held))
    (fun inv hty hoff hc h => inv.filewriteChunk hf hty hoff hc h) inv hoff hn h

variable (P) in
/-- One call of the file layer that returns: a step of `SysStep`, `filestat` of a file of the
table, or `fileread` or `filewrite` of one whose offset is a `uint`, with a count or a length
that is one. None of them moves a handle. -/
inductive FileStep : State × (Nat → Int) → State × (Nat → Int) → Prop
  | sys {a b : State × (Nat → Int)} : SysStep P a b → FileStep a b
  | filestat {s s' : State} {held : Nat → Int} {f : Nat} {r : Int × Option Stat} :
      f < P.NFILE → filestat s f = .ok (r, s') → FileStep (s, held) (s', held)
  | fileread {s s' : State} {held : Nat → Int} {piperead : Nat → Nat → Int × List UInt8}
      {f n : Nat} {r : Int × List UInt8} :
      f < P.NFILE → (s.ftable f).off < 2 ^ 32 → n < 2 ^ 32 →
      fileread P piperead s f n = .ok (r, s') → FileStep (s, held) (s', held)
  | filewrite {s s' : State} {held : Nat → Int} {pipewrite : Nat → List UInt8 → Int}
      {f : Nat} {src : List UInt8} {r : Int} :
      f < P.NFILE → (s.ftable f).off < 2 ^ 32 → src.length < 2 ^ 32 →
      filewrite P pipewrite s f src = .ok (r, s') → FileStep (s, held) (s', held)

/-- Every call of the file layer keeps the invariant. -/
theorem HandleInv.fileStep {a b : State × (Nat → Int)} (inv : HandleInv P a)
    (h : FileStep P a b) : HandleInv P b := by
  cases h with
  | sys st => exact inv.reach (st.calls inv)
  | filestat hf h => exact inv.filestat hf h
  | fileread hf hoff hn h => exact inv.fileread hf hoff hn h
  | filewrite hf hoff hn h => exact inv.filewrite hf hoff hn h

/-- Every run of the file layer keeps the invariant. -/
theorem HandleInv.fileReach {a b : State × (Nat → Int)} (inv : HandleInv P a)
    (h : Relation.ReflTransGen (FileStep P) a b) : HandleInv P b := by
  induction h with
  | refl => exact inv
  | tail _ st ih => exact ih.fileStep st

/-- The file layer over every run from a consistent, accounted state, reads and writes through
the table included. The blocks of the inodes in use each belong to one slot of one inode and are
marked in use, files have no holes below their size, every held entry agrees with its dinode,
and the references of each entry are the handles callers hold on it and the files on it. -/
theorem file_layer_invariant {s₀ s : State} {held₀ held : Nat → Int}
    (c₀ : Consistent P P.ROOTDEV s₀) (a₀ : Accounted P s₀ held₀)
    (run : Relation.ReflTransGen (FileStep P) (s₀, held₀) (s, held)) :
    (∀ i j σ τ, σ.Valid P → τ.Valid P → s.disk.InUse i → s.disk.InUse j →
      s.disk.blk P i σ ≠ 0 → s.disk.blk P i σ = s.disk.blk P j τ → i = j ∧ σ = τ) ∧
    (∀ i σ, σ.Valid P → s.disk.InUse i → s.disk.blk P i σ ≠ 0 →
      s.disk.allocated P (s.disk.blk P i σ)) ∧
    (∀ i, s.disk.InUse i → (s.disk.dinodes i).type ≠ .dev → ∀ p < (s.disk.dinodes i).size,
      s.disk.blk P i (blockSlot P (p / P.BSIZE)) ≠ 0) ∧
    (∀ ip, s.Live P ip → (s.icache ip).toDinode = s.disk.dinodes (s.icache ip).inum) ∧
    (∀ x < P.NINODE, (s.icache x).ref = held x + fileHolds P s x) := by
  have inv : HandleInv P (s, held) := HandleInv.fileReach ⟨c₀, a₀⟩ run
  exact ⟨inv.cons.inj, inv.cons.used, fun i hi hdev p hp => (inv.cons.holes i hi hdev p hp).2,
    inv.cons.coh, inv.acc.refs⟩

/-- In every state a run of the file layer reaches from a consistent, accounted state, `filestat`
of a file on an inode whose entry is not locked and whose dinode is in use returns `0` and the
stat fields of that dinode as the disk holds it, and changes neither the disk, nor the table, nor
a reference. -/
theorem filestat_reports_dinode {s₀ s : State} {held₀ held : Nat → Int}
    (c₀ : Consistent P P.ROOTDEV s₀) (a₀ : Accounted P s₀ held₀)
    (run : Relation.ReflTransGen (FileStep P) (s₀, held₀) (s, held)) {f : Nat}
    (hf : f < P.NFILE) (hty : (s.ftable f).type = .inode)
    (hb : (s.icache (s.ftable f).ip).busy = false)
    (hin : (s.disk.dinodes (s.icache (s.ftable f).ip).inum).type ≠ .free) :
    ∃ s', filestat s f = .ok ((0, some ⟨(s.icache (s.ftable f).ip).dev,
        (s.icache (s.ftable f).ip).inum, (s.disk.dinodes (s.icache (s.ftable f).ip).inum).type,
        (s.disk.dinodes (s.icache (s.ftable f).ip).inum).nlink,
        (s.disk.dinodes (s.icache (s.ftable f).ip).inum).size⟩), s') ∧
      s'.disk = s.disk ∧ s'.ftable = s.ftable ∧ ∀ x, (s'.icache x).ref = (s.icache x).ref := by
  obtain ⟨s', h, -, hd, hft, hr⟩ :=
    (HandleInv.fileReach ⟨c₀, a₀⟩ run).filestat_eq hf hty hb hin
  exact ⟨s', h, hd, hft, hr⟩

/-- `sampleFs` after `filealloc` and the open system call: file 0 open for reading on the root
directory, entry 0, with the handle of the working directory moved into it. -/
def openRootFs : State :=
  fileOpen (sampleFs.setFile 0 { sampleFs.ftable 0 with ref := 1 }) 0 0 true false

/-- The run of `filealloc` and the open call from `sampleFs` that reaches `openRootFs`. -/
theorem openRootFs_run :
    Relation.ReflTransGen (FileStep Params.sample) (sampleFs, handle 0)
      (openRootFs, handle 0 - handle 0) :=
  .tail (.single (.sys (.call (.filealloc rfl))))
    (.sys (.call (.fileOpen (by decide) rfl rfl (by decide))))

theorem file_layer_invariant_openRootFs :
    Consistent Params.sample Params.sample.ROOTDEV sampleFs ∧
    Accounted Params.sample sampleFs (handle 0) ∧
    Relation.ReflTransGen (FileStep Params.sample) (sampleFs, handle 0)
      (openRootFs, handle 0 - handle 0) ∧
    (∀ i j σ τ, σ.Valid Params.sample → τ.Valid Params.sample → openRootFs.disk.InUse i →
      openRootFs.disk.InUse j → openRootFs.disk.blk Params.sample i σ ≠ 0 →
      openRootFs.disk.blk Params.sample i σ = openRootFs.disk.blk Params.sample j τ →
      i = j ∧ σ = τ) ∧
    (∀ i σ, σ.Valid Params.sample → openRootFs.disk.InUse i →
      openRootFs.disk.blk Params.sample i σ ≠ 0 →
      openRootFs.disk.allocated Params.sample (openRootFs.disk.blk Params.sample i σ)) ∧
    (∀ i, openRootFs.disk.InUse i → (openRootFs.disk.dinodes i).type ≠ .dev →
      ∀ p < (openRootFs.disk.dinodes i).size,
        openRootFs.disk.blk Params.sample i
          (blockSlot Params.sample (p / Params.sample.BSIZE)) ≠ 0) ∧
    (∀ ip, openRootFs.Live Params.sample ip →
      (openRootFs.icache ip).toDinode = openRootFs.disk.dinodes (openRootFs.icache ip).inum) ∧
    (∀ x < Params.sample.NINODE,
      (openRootFs.icache x).ref = (handle 0 - handle 0) x + fileHolds Params.sample openRootFs x) :=
  ⟨sampleFs_consistent, sampleFs_accounted, openRootFs_run,
    file_layer_invariant sampleFs_consistent sampleFs_accounted openRootFs_run⟩

theorem filestat_reports_dinode_openRootFs :
    Consistent Params.sample Params.sample.ROOTDEV sampleFs ∧
    Accounted Params.sample sampleFs (handle 0) ∧
    Relation.ReflTransGen (FileStep Params.sample) (sampleFs, handle 0)
      (openRootFs, handle 0 - handle 0) ∧
    0 < Params.sample.NFILE ∧ (openRootFs.ftable 0).type = .inode ∧
    (openRootFs.icache (openRootFs.ftable 0).ip).busy = false ∧
    (openRootFs.disk.dinodes (openRootFs.icache (openRootFs.ftable 0).ip).inum).type ≠ .free ∧
    ∃ s', filestat openRootFs 0 = .ok ((0, some ⟨(openRootFs.icache (openRootFs.ftable 0).ip).dev,
        (openRootFs.icache (openRootFs.ftable 0).ip).inum,
        (openRootFs.disk.dinodes (openRootFs.icache (openRootFs.ftable 0).ip).inum).type,
        (openRootFs.disk.dinodes (openRootFs.icache (openRootFs.ftable 0).ip).inum).nlink,
        (openRootFs.disk.dinodes (openRootFs.icache (openRootFs.ftable 0).ip).inum).size⟩), s') ∧
      s'.disk = openRootFs.disk ∧ s'.ftable = openRootFs.ftable ∧
      ∀ x, (s'.icache x).ref = (openRootFs.icache x).ref :=
  ⟨sampleFs_consistent, sampleFs_accounted, openRootFs_run, by decide, rfl, rfl, by decide,
    filestat_reports_dinode sampleFs_consistent sampleFs_accounted openRootFs_run (by decide) rfl
      rfl (by decide)⟩

end Xv6Fs
