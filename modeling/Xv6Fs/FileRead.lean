import Xv6Fs.FileWrite
import Xv6Fs.Ownership

/-!
# Reads through the file table

`fileread` of `n` bytes from a readable file on an inode locks the inode, reads with `readi` at
`f->off`, moves the offset by the count read and unlocks the inode. On a file whose inode is
held, loaded, unlocked and has the file invariants (`ReadReady`), that is the abstract read of
`Contents.read`: the bytes of the file from the offset, at most `n`, and nothing changes but the
offset, which moves by their number (`fileread_eq`).

Reads in a row then compose: a read of `n₁` bytes followed by a read of `n₂` bytes returns what
one read of `n₁ + n₂` bytes returns, and leaves the same state (`fileread_append`). At the end
of the file the first read stops short and the second returns nothing, so the clamp of `readi`
to the size is what makes the two agree (`Contents.read_append`). `fileread_refines_read` states
the two together.
-/

namespace Xv6Fs

variable {P : Params}

@[simp] theorem State.content_setFile (s : State) (f : Nat) (file : File) (ip : Nat) :
    (s.setFile f file).content P ip = s.content P ip := rfl

@[simp] theorem State.length_content (s : State) (ip : Nat) :
    (s.content P ip).length = (s.icache ip).size := by
  simp [State.content]

variable (P) in
/-- A file that `fileread` reads as the abstract read: readable, on a held, loaded and unlocked
inode that is no device, with the file invariants, and its offset inside the file. -/
structure ReadReady (s : State) (f : Nat) : Prop where
  readable : (s.ftable f).readable = true
  type : (s.ftable f).type = .inode
  ref : 0 < (s.icache (s.ftable f).ip).ref
  valid : (s.icache (s.ftable f).ip).valid = true
  busy : (s.icache (s.ftable f).ip).busy = false
  dev : (s.icache (s.ftable f).ip).type ≠ .dev
  inv : s.FileInv P (s.ftable f).ip
  off : (s.ftable f).off ≤ (s.icache (s.ftable f).ip).size

/-- Moving the offset of a ready file inside the file keeps it ready. -/
theorem ReadReady.seek {s : State} {f : Nat} (h : ReadReady P s f) {o : Nat}
    (ho : o ≤ (s.icache (s.ftable f).ip).size) :
    ReadReady P (s.setFile f { s.ftable f with off := o }) f := by
  refine ⟨?_, ?_, ?_, ?_, ?_, ?_, ⟨?_, ?_, ?_, ?_⟩, ?_⟩ <;>
    simp only [State.setFile_ftable, Function.update_same]
  exacts [h.readable, h.type, h.ref, h.valid, h.busy, h.dev, h.inv.own, h.inv.formatted,
    h.inv.region, h.inv.holes, ho]

/-- `fileread` of a ready file, when the range does not wrap a `uint`: the bytes of the file from
the offset, as many as it has there and at most `n`, and the offset moved by their number. The
disk, the cache and every other file are left as they were; the inode is unlocked again. -/
theorem fileread_eq (piperead : Nat → Nat → Int × List UInt8) {s : State} {f : Nat}
    (h : ReadReady P s f) {n : Nat} (hn : (s.ftable f).off + n < 2 ^ 32) :
    fileread P piperead s f n =
      .ok (((min n ((s.icache (s.ftable f).ip).size - (s.ftable f).off) : Nat),
          Contents.read (s.content P (s.ftable f).ip) (s.ftable f).off n),
        s.setFile f { s.ftable f with
          off := (s.ftable f).off +
            min n ((s.icache (s.ftable f).ip).size - (s.ftable f).off) }) := by
  obtain ⟨hr, ht, href, hv, hb, hdev, inv, hoff⟩ := h
  rw [fileread, if_neg (by simp [hr])]
  simp only [ht]
  generalize hip : (s.ftable f).ip = ip at *
  -- `ilock` only takes the flag, and `readi` of the locked entry is the abstract read
  rw [bind_of_eq_ok (ilock_held href hv hb)]
  have hc := fileInv_content_congr (P := P)
    (show (s.setInode ip { s.icache ip with busy := true }).disk = s.disk from rfl)
    (show ((s.setInode ip { s.icache ip with busy := true }).icache ip).toDinode =
      (s.icache ip).toDinode by simp)
  have hread := readi_eq (n := n) (by simpa using hdev) (hc.1 inv).holes
    (show (s.ftable f).off ≤ _ by simpa using hoff) hn
  simp only [State.setInode_icache, Function.update_same, hc.2] at hread
  simp only [State.setInode_ftable]
  rw [bind_of_eq_ok hread]
  dsimp only
  by_cases hm : 0 < min n ((s.icache ip).size - (s.ftable f).off)
  · -- the offset moves, and `iunlock` gives the entry back as it was
    have hlt : (s.ftable f).off + min n ((s.icache ip).size - (s.ftable f).off) < 2 ^ 32 := by
      omega
    rw [if_pos (by exact_mod_cast hm),
      bind_of_eq_ok (iunlock_locked (by simpa using href) (by simp))]
    show Except.ok _ = Except.ok _
    congr 2
    simp only [State.setFile_icache, State.setInode_icache, Function.update_same,
      State.setInode_ftable, Int.toNat_natCast, u32_of_lt hlt, ht, hip]
    rw [Inode.with_busy_self _ hb]
    cases s
    simp only [State.setInode, State.setFile, Function.update_idem, Function.update_eq_self]
  · -- nothing is read: the offset stays
    have hm0 : min n ((s.icache ip).size - (s.ftable f).off) = 0 := by omega
    rw [if_neg (by exact_mod_cast hm),
      bind_of_eq_ok (iunlock_locked (by simpa using href) (by simp))]
    show Except.ok _ = Except.ok _
    rw [hm0, Nat.add_zero]
    congr 2
    simp only [State.setInode_icache, Function.update_same]
    rw [Inode.with_busy_self _ hb]
    cases s
    simp only [State.setInode, State.setFile, Function.update_idem, Function.update_eq_self]
    rw [← ht, ← hip, Function.update_eq_self]

/-- Two reads in a row are one read of both lengths: the same count, the same bytes, and the
same state after. -/
theorem fileread_append (piperead : Nat → Nat → Int × List UInt8) {s : State} {f : Nat}
    (h : ReadReady P s f) {n₁ n₂ : Nat} (hn : (s.ftable f).off + (n₁ + n₂) < 2 ^ 32) :
    (do
      let (r₁, s₁) ← fileread P piperead s f n₁
      let (r₂, s₂) ← fileread P piperead s₁ f n₂
      pure ((r₁.1 + r₂.1, r₁.2 ++ r₂.2), s₂)) = fileread P piperead s f (n₁ + n₂) := by
  have hsize := h.off
  rw [fileread_eq piperead h (by omega)]
  simp only [bind, Except.bind]
  rw [fileread_eq piperead (h.seek (by omega)) (by simp; omega), fileread_eq piperead h hn]
  simp only [State.setFile_ftable, Function.update_same, State.setFile_icache,
    State.setFile_setFile, State.content_setFile]
  have hlen := State.length_content (P := P) s (s.ftable f).ip
  -- the counts add up to the count of the one read
  have hm : min n₁ ((s.icache (s.ftable f).ip).size - (s.ftable f).off) +
      min n₂ ((s.icache (s.ftable f).ip).size - ((s.ftable f).off +
        min n₁ ((s.icache (s.ftable f).ip).size - (s.ftable f).off))) =
      min (n₁ + n₂) ((s.icache (s.ftable f).ip).size - (s.ftable f).off) := by omega
  rw [← hlen, Contents.read_append, hlen, ← hm]
  push_cast
  rw [Nat.add_assoc]
  rfl

/-- `fileread` refines the abstract read. On a ready file, a read that does not wrap a `uint`
returns the bytes of the file from the offset, at most `n`, and moves the offset by their
number, changing nothing else; and two reads in a row return what one read of both lengths
returns and leave the same state. -/
theorem fileread_refines_read (piperead : Nat → Nat → Int × List UInt8) {s : State} {f : Nat}
    (h : ReadReady P s f) :
    (∀ n, (s.ftable f).off + n < 2 ^ 32 →
      fileread P piperead s f n =
        .ok (((min n ((s.icache (s.ftable f).ip).size - (s.ftable f).off) : Nat),
            Contents.read (s.content P (s.ftable f).ip) (s.ftable f).off n),
          s.setFile f { s.ftable f with
            off := (s.ftable f).off +
              min n ((s.icache (s.ftable f).ip).size - (s.ftable f).off) })) ∧
    (∀ n₁ n₂, (s.ftable f).off + (n₁ + n₂) < 2 ^ 32 →
      (do
        let (r₁, s₁) ← fileread P piperead s f n₁
        let (r₂, s₂) ← fileread P piperead s₁ f n₂
        pure ((r₁.1 + r₂.1, r₁.2 ++ r₂.2), s₂)) = fileread P piperead s f (n₁ + n₂)) :=
  ⟨fun _ hn => fileread_eq piperead h hn, fun _ _ hn => fileread_append piperead h hn⟩

/-- `sampleFs` with file 0 open for reading, at offset 0, on its root directory (entry 0, 64
bytes). -/
def rootReadFs : State :=
  sampleFs.setFile 0 ⟨.inode, 1, true, false, 0, 0, 0⟩

theorem rootReadFs_ready : ReadReady Params.sample rootReadFs 0 :=
  have inv := sampleFs_consistent.fileInv
    (show sampleFs.Live Params.sample 0 from ⟨by decide, by decide, rfl⟩) (by decide)
  ⟨rfl, rfl, by decide, rfl, rfl, by decide, ⟨inv.own, inv.formatted, inv.region, inv.holes⟩,
    by decide⟩

theorem fileread_refines_read_rootReadFs :
    ReadReady Params.sample rootReadFs 0 ∧
    (∀ n, (rootReadFs.ftable 0).off + n < 2 ^ 32 →
      fileread Params.sample (fun _ _ => (-1, [])) rootReadFs 0 n =
        .ok (((min n ((rootReadFs.icache (rootReadFs.ftable 0).ip).size -
              (rootReadFs.ftable 0).off) : Nat),
            Contents.read (rootReadFs.content Params.sample (rootReadFs.ftable 0).ip)
              (rootReadFs.ftable 0).off n),
          rootReadFs.setFile 0 { rootReadFs.ftable 0 with
            off := (rootReadFs.ftable 0).off +
              min n ((rootReadFs.icache (rootReadFs.ftable 0).ip).size -
                (rootReadFs.ftable 0).off) })) ∧
    (∀ n₁ n₂, (rootReadFs.ftable 0).off + (n₁ + n₂) < 2 ^ 32 →
      (do
        let (r₁, s₁) ← fileread Params.sample (fun _ _ => (-1, [])) rootReadFs 0 n₁
        let (r₂, s₂) ← fileread Params.sample (fun _ _ => (-1, [])) s₁ 0 n₂
        pure ((r₁.1 + r₂.1, r₁.2 ++ r₂.2), s₂)) =
        fileread Params.sample (fun _ _ => (-1, [])) rootReadFs 0 (n₁ + n₂)) :=
  ⟨rootReadFs_ready, fileread_refines_read _ rootReadFs_ready⟩

/-- A write through one file is read through another file on the same inode. Once `filewrite`
of `src` through `f` has returned its count, `fileread` of as many bytes through a readable file
`g` that stood where the write started returns `src`, and moves only the offset of `g`. -/
theorem filewrite_visible_to_fileread (pipewrite : Nat → List UInt8 → Int)
    (piperead : Nat → Nat → Int × List UInt8) {s : State} {f g ip : Nat} {src : List UInt8}
    (hw : (s.ftable f).writable = true) (ht : (s.ftable f).type = .inode)
    (hip : (s.ftable f).ip = ip) (href : 0 < (s.icache ip).ref) (hv : (s.icache ip).valid)
    (hb : (s.icache ip).busy = false) (inv : s.FileInv P ip) (hdev : (s.icache ip).type ≠ .dev)
    (hoff : (s.ftable f).off ≤ (s.icache ip).size) (hchunk : 0 < writeChunk P)
    (hn : src.length < 2 ^ 31) (hg : g ≠ f) (hr : (s.ftable g).readable = true)
    (htg : (s.ftable g).type = .inode) (hipg : (s.ftable g).ip = ip)
    (hog : (s.ftable g).off = (s.ftable f).off) :
    ∀ s', filewrite P pipewrite s f src = .ok (src.length, s') →
      fileread P piperead s' g src.length =
        .ok ((src.length, src),
          s'.setFile g { s'.ftable g with off := (s.ftable f).off + src.length }) := by
  intro s' hwr
  rcases filewrite_spec pipewrite hw ht hip href hv hb inv hdev hoff hchunk hn with
    ⟨hpanic, -⟩ | ⟨j, s'', hf, ch, -, -⟩
  · rw [hwr] at hpanic; cases hpanic
  -- the count returned is the whole of `src`, so every chunk was written
  rw [hwr, Except.ok.injEq, Prod.mk.injEq] at hf
  obtain ⟨hcount, rfl⟩ := hf
  obtain rfl : j = src.length := by
    by_contra hne
    rw [if_neg hne] at hcount
    omega
  have hgf := ch.others g hg
  have hsize := ch.size
  have hmax := ch.inv.holes.size_le
  have ready : ReadReady P s' g := by
    refine ⟨?_, ?_, ?_, ?_, ?_, ?_, ?_, ?_⟩ <;> simp only [hgf, hipg]
    exacts [hr, htg, ch.ref ▸ href, ch.valid, ch.busy, ch.type ▸ hdev, ch.inv,
      by rw [hsize, hog]; exact le_max_of_le_right (Nat.le_add_right _ _)]
  have hlt := P.maxBytes_lt
  rw [fileread_eq piperead ready (by simp only [hgf, hog]; omega)]
  simp only [hgf, hipg, hog, ch.content, List.take_length]
  rw [show min src.length ((s'.icache ip).size - (s.ftable f).off) = src.length by omega,
    Contents.read_write _ _ (by simpa [hip] using hoff)]

/-- `emptyFileFs` with file 1 open for reading at offset 0 on the empty file that file 0 writes
to. -/
def sharedFileFs : State :=
  emptyFileFs.setFile 1 ⟨.inode, 1, true, false, 0, 0, 0⟩

theorem sharedFileFs_fileInv : sharedFileFs.FileInv Params.sample 0 :=
  .of_empty (fun τ => by cases τ <;> rfl) rfl emptyDisk_formatted

theorem filewrite_visible_to_fileread_sharedFileFs :
    (sharedFileFs.ftable 0).writable = true ∧ (sharedFileFs.ftable 0).type = .inode ∧
      (sharedFileFs.ftable 0).ip = 0 ∧ 0 < (sharedFileFs.icache 0).ref ∧
      (sharedFileFs.icache 0).valid ∧ (sharedFileFs.icache 0).busy = false ∧
      sharedFileFs.FileInv Params.sample 0 ∧ (sharedFileFs.icache 0).type ≠ .dev ∧
      (sharedFileFs.ftable 0).off ≤ (sharedFileFs.icache 0).size ∧
      0 < writeChunk Params.sample ∧ [(7 : UInt8)].length < 2 ^ 31 ∧ 1 ≠ 0 ∧
      (sharedFileFs.ftable 1).readable = true ∧ (sharedFileFs.ftable 1).type = .inode ∧
      (sharedFileFs.ftable 1).ip = 0 ∧ (sharedFileFs.ftable 1).off = (sharedFileFs.ftable 0).off ∧
      ∀ s', filewrite Params.sample (fun _ _ => 0) sharedFileFs 0 [7] = .ok (1, s') →
        fileread Params.sample (fun _ _ => (-1, [])) s' 1 1 =
          .ok ((1, [7]), s'.setFile 1 { s'.ftable 1 with off := 0 + 1 }) :=
  ⟨rfl, rfl, rfl, by decide, rfl, rfl, sharedFileFs_fileInv, by decide, le_refl _, by decide,
    by decide, by decide, rfl, rfl, rfl, rfl,
    filewrite_visible_to_fileread (fun _ _ => 0) (fun _ _ => (-1, [])) rfl rfl rfl (by decide) rfl
      rfl sharedFileFs_fileInv (by decide) (le_refl _) (by decide) (by decide) (by decide) rfl rfl
      rfl rfl⟩

end Xv6Fs
