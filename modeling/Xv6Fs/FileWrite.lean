import Xv6Fs.FileTable
import Xv6Fs.ContentSpec

/-!
# Writes through the file table

`filewrite` cuts a write of `n` bytes into transactions of at most `max` bytes (`writeChunk`),
each an `ilock`, a `writei` at `f->off` and an `iunlock`, and returns `n` only when every chunk
was written. `Chunked s₀ f ip src i s` says where the loop stands after `i` bytes: the offset has
moved by `i`, the entry is held and unlocked as before, and the file is what one `writei` of
those bytes at the old offset makes of it (`Contents.write_append`). One transaction keeps it
(`filewriteChunk_spec`), and by induction on the fuel so does the loop (`filewriteLoop_spec`).

The loop stops at the first chunk that `writei` refuses, one that would pass `MAXFILE` blocks,
and `filewrite` then returns `-1` with the chunks before it written (`filewrite_spec`). It fails
only when `balloc` runs out of blocks, and not on a disk with three free blocks for each block
the range touches and for each chunk boundary.
-/

namespace Xv6Fs

variable {P : Params}

/-- `ilock` of a held entry that no one has locked takes its flag; the entry is valid, so
nothing is read. -/
theorem ilock_held {s : State} {ip : Nat} (href : 0 < (s.icache ip).ref)
    (hv : (s.icache ip).valid) (hb : (s.icache ip).busy = false) :
    ilock s ip = .ok (s.setInode ip { s.icache ip with busy := true }) := by
  rw [ilock, if_neg (by omega), if_neg (by simp [hb])]
  simp [hv]

/-- `iunlock` of a held entry that its caller locked drops the flag. -/
theorem iunlock_locked {s : State} {ip : Nat} (href : 0 < (s.icache ip).ref)
    (hb : (s.icache ip).busy = true) :
    iunlock s ip = .ok (s.setInode ip { s.icache ip with busy := false }) := by
  rw [iunlock, if_neg (by simp [hb]; omega)]

/-- The file invariants and the content of an entry depend only on the disk and on the dinode
part of the entry. -/
theorem fileInv_content_congr {s s' : State} {ip : Nat} (hd : s'.disk = s.disk)
    (he : (s'.icache ip).toDinode = (s.icache ip).toDinode) :
    (s.FileInv P ip → s'.FileInv P ip) ∧ s'.content P ip = s.content P ip := by
  have hs : ∀ τ, s'.slot P ip τ = s.slot P ip τ := fun τ => by simp only [State.slot, hd, he]
  refine ⟨fun inv => ⟨?_, hd ▸ inv.formatted, fun τ hτ h0 => ?_, fun p hp => ?_⟩, ?_⟩
  · unfold State.Owns; rw [hd, he]; exact inv.own
  · rw [hs] at h0 ⊢; rw [hd]; exact inv.region τ hτ h0
  · have := inv.holes p (by rwa [← he])
    simpa [State.Mapped, State.slot, hd, he] using this
  · simp only [State.content, he]
    congr 1
    funext p
    simp only [State.byteAt, State.slot, hd, he]

variable (P) in
/-- Where `filewrite` of `src` to file `f`, on cache entry `ip`, stands after its first `i`
bytes from `s₀`: the offset has moved by `i`, the entry is held and unlocked as before, and the
file is what one `writei` of those bytes at the old offset makes of it. -/
structure Chunked (s₀ : State) (f ip : Nat) (src : List UInt8) (i : Nat) (s : State) :
    Prop where
  file : s.ftable f = { s₀.ftable f with off := (s₀.ftable f).off + i }
  others : ∀ g, g ≠ f → s.ftable g = s₀.ftable g
  ref : (s.icache ip).ref = (s₀.icache ip).ref
  valid : (s.icache ip).valid = true
  busy : (s.icache ip).busy = false
  type : (s.icache ip).type = (s₀.icache ip).type
  size : (s.icache ip).size = max (s₀.icache ip).size ((s₀.ftable f).off + i)
  content : s.content P ip = Contents.write (s₀.content P ip) (s₀.ftable f).off (src.take i)
  inv : s.FileInv P ip

namespace Chunked

variable {s₀ s : State} {f ip : Nat} {src : List UInt8} {i : Nat}

/-- Before the first chunk. -/
theorem start (hv : (s₀.icache ip).valid) (hb : (s₀.icache ip).busy = false)
    (inv : s₀.FileInv P ip) (hoff : (s₀.ftable f).off ≤ (s₀.icache ip).size) :
    Chunked P s₀ f ip src 0 s₀ :=
  ⟨by simp, fun _ _ => rfl, rfl, hv, hb, rfl, by omega,
    by simp [Contents.write, List.take_append_drop], inv⟩

/-- A state with the same disk, file table and entry, but for its flags and the log. -/
theorem congr (ch : Chunked P s₀ f ip src i s) {s' : State} (hd : s'.disk = s.disk)
    (hf : s'.ftable = s.ftable) (he : s'.icache ip = s.icache ip) :
    Chunked P s₀ f ip src i s' := by
  have hc := fileInv_content_congr (P := P) hd (congrArg Inode.toDinode he)
  exact ⟨hf ▸ ch.file, hf ▸ ch.others, he ▸ ch.ref, he ▸ ch.valid, he ▸ ch.busy, he ▸ ch.type,
    he ▸ ch.size, hc.2.trans ch.content, hc.1 ch.inv⟩

end Chunked

/-- Setting the busy flag to the value it has changes nothing. -/
theorem Inode.with_busy_self (e : Inode) {b : Bool} (h : e.busy = b) :
    { e with busy := b } = e := by
  cases e; cases h; rfl

/-- One transaction of `filewrite`, on the chunk of `n1` bytes after the first `i`. A chunk that
would pass `MAXFILE` blocks is refused: `-1`, with the file as it was. Any other is written and
moves the offset, unless `balloc` runs out of blocks, which needs fewer free blocks than three
for each block the chunk touches; it uses at most that many. -/
theorem filewriteChunk_spec {s₀ : State} {f ip : Nat} {src : List UInt8}
    (hip : (s₀.ftable f).ip = ip) (hdev : (s₀.icache ip).type ≠ .dev)
    (href : 0 < (s₀.icache ip).ref) (hoff : (s₀.ftable f).off ≤ (s₀.icache ip).size)
    {s : State} {i n1 : Nat} (ch : Chunked P s₀ f ip src i s) (hn1 : 0 < n1)
    (hlen : i + n1 ≤ src.length) (hn : src.length < 2 ^ 31) :
    (P.MAXFILE * P.BSIZE < (s₀.ftable f).off + i + n1 →
      ∃ s', filewriteChunk P s f ((src.drop i).take n1) = .ok (-1, s') ∧
        Chunked P s₀ f ip src i s') ∧
    ((s₀.ftable f).off + i + n1 ≤ P.MAXFILE * P.BSIZE →
      (filewriteChunk P s f ((src.drop i).take n1) = .error (.panic "balloc: out of blocks") ∧
        s.disk.freeCount P < 3 * blocksTouched P ((s₀.ftable f).off + i) n1) ∨
      ∃ s', filewriteChunk P s f ((src.drop i).take n1) = .ok (n1, s') ∧
        Chunked P s₀ f ip src (i + n1) s' ∧
        (3 * blocksTouched P ((s₀.ftable f).off + i) n1 ≤ s.disk.freeCount P →
          s.disk.freeCount P ≤
            s'.disk.freeCount P + 3 * blocksTouched P ((s₀.ftable f).off + i) n1)) := by
  have hlt := P.maxBytes_lt
  have hsz := ch.inv.holes.size_le
  have hsize := ch.size
  have hcl : ((src.drop i).take n1).length = n1 := by simp; omega
  have hfile : (s.ftable f).ip = ip ∧ (s.ftable f).off = (s₀.ftable f).off + i := by
    rw [ch.file]; exact ⟨hip, rfl⟩
  -- `begin_trans` and `ilock`
  set s2 := (beginTrans s).setInode ip { s.icache ip with busy := true } with hs2
  have hlock : ilock (beginTrans s) ip = .ok s2 :=
    ilock_held (by simp [ch.ref, href]) (by simp [ch.valid]) (by simp [ch.busy])
  have hinv2 : s2.FileInv P ip :=
    (fileInv_content_congr (show s2.disk = s.disk from rfl) (by simp [hs2])).1 ch.inv
  have hdev2 : (s2.icache ip).type ≠ .dev := by simp [hs2, ch.type, hdev]
  have hsz2 : (s2.icache ip).size = max (s₀.icache ip).size ((s₀.ftable f).off + i) := by
    simp [hs2, ch.size]
  have hoffw : (s₀.ftable f).off + i < 2 ^ 32 := by omega
  have hnw : ((src.drop i).take n1).length < 2 ^ 32 := by omega
  unfold filewriteChunk
  rw [hfile.1, bind_of_eq_ok hlock]
  have hoff2 : (s2.ftable f).off = (s₀.ftable f).off + i := by simp [hs2, hfile.2]
  rw [hoff2]
  have hr2 : 0 < (s2.icache ip).ref := by simp [hs2, ch.ref, href]
  have hb2 : (s2.icache ip).busy = true := by simp [hs2]
  refine ⟨fun hbig => ?_, fun hfit => ?_⟩
  · -- a chunk past `MAXFILE` blocks: `writei` refuses it
    rw [bind_of_eq_ok ((writei_neg_one hdev2 hoffw hnw).2 (by unfold WriteiRefuses; omega))]
    dsimp only
    rw [if_neg (by decide), bind_of_eq_ok (iunlock_locked hr2 hb2)]
    refine ⟨_, rfl, ch.congr (by simp [hs2]) (by simp [hs2]) ?_⟩
    simp only [commitTrans_icache, State.setInode_icache, Function.update_same, hs2,
      beginTrans_icache]
    exact Inode.with_busy_self _ ch.busy
  · -- a chunk inside `MAXFILE` blocks
    have hnot : ¬ WriteiRefuses P s2 ip ((s₀.ftable f).off + i) ((src.drop i).take n1).length := by
      unfold WriteiRefuses; rw [hsz2, hcl]; omega
    have hok : 3 * blocksTouched P ((s₀.ftable f).off + i) n1 ≤ s.disk.freeCount P →
        ∃ s3, writei P s2 ip ((src.drop i).take n1) ((s₀.ftable f).off + i) =
          .ok (((src.drop i).take n1).length, s3) ∧ s2.disk.freeCount P ≤
            s3.disk.freeCount P + 3 * blocksTouched P ((s₀.ftable f).off + i) n1 := fun hf => by
      have := @writei_ok P s2 ip ((s₀.ftable f).off + i) ((src.drop i).take n1) hdev2
        (by rw [hsz2]; exact le_max_right _ _) (by rw [hcl]; exact hfit) (by rw [hcl]; exact hf)
      rwa [hcl] at this ⊢
    rcases writei_done hinv2 hdev2 hoffw hnw hnot with hpanic | ⟨s3, hw, done⟩
    · refine .inl ⟨by rw [hpanic]; rfl, Nat.lt_of_not_le fun hf => ?_⟩
      obtain ⟨s3, hw, -⟩ := hok hf
      rw [hpanic] at hw; cases hw
    rw [hcl] at hw
    obtain ⟨hmeta, -, hft⟩ :=
      writei_meta hinv2 hdev2 (by rw [hsz2]; omega) (by rw [hcl]; omega) hw
    have e3 : (s3.icache ip).ref = (s.icache ip).ref ∧ (s3.icache ip).valid = (s.icache ip).valid ∧
        (s3.icache ip).busy = true ∧ (s3.icache ip).type = (s.icache ip).type := by
      rw [hmeta]; simp [hs2, Inode.withMap]
    have hb3 : (s3.icache ip).busy = true := e3.2.2.1
    have hr3 : 0 < (s3.icache ip).ref := by rw [e3.1, ch.ref]; exact href
    have hu : u32 ((s₀.ftable f).off + i + n1) = (s₀.ftable f).off + (i + n1) := by
      rw [u32_of_lt (by omega)]; omega
    rw [bind_of_eq_ok hw]
    dsimp only
    rw [if_pos (by omega),
      bind_of_eq_ok (iunlock_locked (by simpa using hr3) (by simpa using hb3))]
    refine .inr ⟨_, rfl, ⟨?_, fun g hg => ?_, ?_, ?_, by simp, ?_, ?_, ?_, ?_⟩, fun hf => ?_⟩
    · simp [hft, hs2, ch.file, hu]
    · simp [hg, hft, hs2, ch.others g hg]
    · simp [e3.1, ch.ref]
    · simp [e3.2.1, ch.valid]
    · simp [e3.2.2.2, ch.type]
    · simp only [commitTrans_icache, State.setInode_icache, Function.update_same,
        State.setFile_icache]
      rw [done.size, hsz2, hcl, max_assoc, max_eq_right (Nat.le_add_right _ _), Nat.add_assoc]
    · have hti : (src.take i).length = i := by simp; omega
      have happ := Contents.write_append (s₀.content P ip) (src.take i) ((src.drop i).take n1)
        (by simp [State.content]; exact hoff)
      rw [hti, ← List.take_add] at happ
      calc _ = s3.content P ip := (fileInv_content_congr (by rfl) (by simp)).2
        _ = Contents.write (s2.content P ip) ((s₀.ftable f).off + i) ((src.drop i).take n1) :=
          done.content
        _ = _ := by
          rw [(fileInv_content_congr (show s2.disk = s.disk from rfl) (by simp [hs2])).2,
            ch.content, happ]
    · exact (fileInv_content_congr (by rfl) (by simp)).1 done.inv
    · obtain ⟨s3', hw', hc⟩ := hok hf
      rw [hw, Except.ok.injEq, Prod.mk.injEq] at hw'
      obtain ⟨-, rfl⟩ := hw'
      simpa [hs2] using hc

/-- The count of free blocks along the loop of `filewrite`: a chunk that uses at most three
blocks for each block it touches leaves the rest short of its share only if the whole range was
short of its own. -/
theorem freeCount_short {t t' a b c : Nat} (key : a + b ≤ c)
    (hcount : 3 * a ≤ t → t ≤ t' + 3 * a) (h : t' < 3 * b) : t < 3 * c := by
  omega

/-- The loop of `filewrite` from `Chunked` at `i`, with more fuel than bytes left. It panics only
when `balloc` runs out of blocks, and then fewer blocks were free than three for each block the
rest of the range touches and for each chunk boundary in it. Otherwise it stops at some `j` from
`i` on, with `Chunked` at `j`: at the end of `src`, or before the first chunk that would pass
`MAXFILE` blocks. -/
theorem filewriteLoop_spec {s₀ : State} {f ip : Nat} {src : List UInt8}
    (hip : (s₀.ftable f).ip = ip) (hdev : (s₀.icache ip).type ≠ .dev)
    (href : 0 < (s₀.icache ip).ref) (hoff : (s₀.ftable f).off ≤ (s₀.icache ip).size)
    (hchunk : 0 < writeChunk P) (hn : src.length < 2 ^ 31) :
    ∀ (fuel i : Nat) (s : State), Chunked P s₀ f ip src i s → i ≤ src.length →
      src.length - i < fuel →
      (filewriteLoop P f src fuel s i = .error (.panic "balloc: out of blocks") ∧
        s.disk.freeCount P < 3 * (blocksTouched P ((s₀.ftable f).off + i) (src.length - i) +
          (src.length - i) / writeChunk P)) ∨
      ∃ j s', filewriteLoop P f src fuel s i = .ok (j, s') ∧ Chunked P s₀ f ip src j s' ∧
        i ≤ j ∧ j ≤ src.length ∧ (j < src.length →
          P.MAXFILE * P.BSIZE < (s₀.ftable f).off + j + min (src.length - j) (writeChunk P)) := by
  intro fuel
  induction fuel with
  | zero => intro i s _ _ h; omega
  | succ fuel ih =>
    intro i s ch hi hfuel
    rw [filewriteLoop]
    by_cases hlt : i < src.length
    swap
    · exact .inr ⟨i, s, by rw [if_neg hlt]; rfl, ch, le_refl _, hi, fun h => absurd h hlt⟩
    rw [if_pos hlt]
    dsimp only
    have key := blocksTouched_chunk (P := P) ((s₀.ftable f).off + i) (src.length - i) hchunk
    have hpos : 0 < min (src.length - i) (writeChunk P) := lt_min (by omega) hchunk
    have hle := min_le_left (src.length - i) (writeChunk P)
    generalize hn1 : min (src.length - i) (writeChunk P) = n1 at key hpos hle ⊢
    have hstop : P.MAXFILE * P.BSIZE < (s₀.ftable f).off + i + n1 →
        P.MAXFILE * P.BSIZE < (s₀.ftable f).off + i + min (src.length - i) (writeChunk P) :=
      fun h => hn1 ▸ h
    clear hn1
    rw [Nat.sub_sub, Nat.add_assoc] at key
    have hlen : i + n1 ≤ src.length := by omega
    obtain ⟨hrefused, hfits⟩ := filewriteChunk_spec hip hdev href hoff ch hpos hlen hn
    by_cases hbig : P.MAXFILE * P.BSIZE < (s₀.ftable f).off + i + n1
    · -- the chunk is refused and the loop stops before it
      obtain ⟨s', hc, ch'⟩ := hrefused hbig
      exact .inr ⟨i, s', by rw [bind_of_eq_ok hc]; rfl, ch', le_refl _, hi, fun _ => hstop hbig⟩
    clear hrefused
    replace hfits := hfits (Nat.le_of_not_lt hbig)
    rcases hfits with ⟨hc, hfree⟩ | ⟨s', hc, ch', hcount⟩
    · exact .inl ⟨by rw [hc]; rfl,
        hfree.trans_le (Nat.mul_le_mul_left 3 ((Nat.le_add_right _ _).trans key))⟩
    rw [bind_of_eq_ok hc]
    dsimp only
    rw [if_neg (Int.natCast_nonneg n1).not_lt, if_neg (not_not.mpr rfl)]
    rcases ih (i + n1) s' ch' hlen (by omega) with ⟨hl, hfree⟩ | ⟨j, s'', hl, ch'', hj⟩
    · exact .inl ⟨hl, freeCount_short key hcount hfree⟩
    · exact .inr ⟨j, s'', hl, ch'', (Nat.le_add_right _ _).trans hj.1, hj.2⟩

/-- `filewrite` of a writable inode file whose entry is held, valid and unlocked, with the file
invariants, at an offset inside the file. It panics only when `balloc` runs out of blocks, with
fewer free blocks than three for each block the range touches and for each chunk boundary.
Otherwise it stops at some `j` with `Chunked` at `j`, and returns `n` if `j = n` and `-1` if not;
it stops short only before a chunk that would pass `MAXFILE` blocks. -/
theorem filewrite_spec (pipewrite : Nat → List UInt8 → Int) {s : State} {f ip : Nat}
    {src : List UInt8} (hw : (s.ftable f).writable = true) (ht : (s.ftable f).type = .inode)
    (hip : (s.ftable f).ip = ip) (href : 0 < (s.icache ip).ref) (hv : (s.icache ip).valid)
    (hb : (s.icache ip).busy = false) (inv : s.FileInv P ip) (hdev : (s.icache ip).type ≠ .dev)
    (hoff : (s.ftable f).off ≤ (s.icache ip).size) (hchunk : 0 < writeChunk P)
    (hn : src.length < 2 ^ 31) :
    (filewrite P pipewrite s f src = .error (.panic "balloc: out of blocks") ∧
      s.disk.freeCount P <
        3 * (blocksTouched P (s.ftable f).off src.length + src.length / writeChunk P)) ∨
    ∃ j s', filewrite P pipewrite s f src =
        .ok (if j = src.length then (src.length : Int) else -1, s') ∧
      Chunked P s f ip src j s' ∧ j ≤ src.length ∧ (j < src.length →
        P.MAXFILE * P.BSIZE < (s.ftable f).off + j + min (src.length - j) (writeChunk P)) := by
  have loop := filewriteLoop_spec hip hdev href hoff hchunk hn (src.length + 1) 0 s
    (Chunked.start hv hb inv hoff) (Nat.zero_le _) (by omega)
  rw [filewrite, if_neg (by simp [hw]), ht]
  dsimp only
  rcases loop with ⟨hl, hfree⟩ | ⟨j, s', hl, ch, -, hj, hstop⟩
  · exact .inl ⟨by rw [hl]; rfl, by simpa using hfree⟩
  · exact .inr ⟨j, s', by rw [bind_of_eq_ok hl]; rfl, ch, hj, hstop⟩

/-- `fullDisk` with every cache entry unlocked and file 0 open for writing on entry 0 at
offset 0. -/
def fullFileFs : State :=
  { fullDisk with
    icache := fun _ => ⟨{ Dinode.zero with type := .file }, 1, 1, 1, false, true⟩
    ftable := fun _ => ⟨.inode, 1, false, true, 0, 0, 0⟩ }

/-- The disk of `emptyDisk`, as `mkfs` leaves it, with the cache entries and the file table of
`fullFileFs`: file 0 is open for writing at offset 0 on an empty regular file. -/
def emptyFileFs : State :=
  { fullFileFs with disk := emptyDisk.disk }

/-- The empty file of `emptyFileFs` has the file invariants: no block is mapped. -/
theorem emptyFileFs_fileInv : emptyFileFs.FileInv Params.sample 0 :=
  .of_empty (fun τ => by cases τ <;> rfl) rfl emptyDisk_formatted

/-- A failed `filewrite` keeps the chunks before the one that fails. On a writable inode file
whose entry is held, valid and unlocked, with the file invariants, at an offset inside the file,
in a configuration whose transactions hold a byte: when `filewrite` returns `-1`, it has written
the first `j < n` bytes, each chunk in a transaction of its own, and stopped before the next
chunk, which would pass `MAXFILE` blocks. The offset has moved by `j`, and the size and the
content are those of a `writei` of those `j` bytes. -/
theorem filewrite_failure_keeps_chunks (pipewrite : Nat → List UInt8 → Int) {s s' : State}
    {f ip : Nat} {src : List UInt8} (hw : (s.ftable f).writable = true)
    (ht : (s.ftable f).type = .inode) (hip : (s.ftable f).ip = ip)
    (href : 0 < (s.icache ip).ref) (hv : (s.icache ip).valid)
    (hb : (s.icache ip).busy = false) (inv : s.FileInv P ip) (hdev : (s.icache ip).type ≠ .dev)
    (hoff : (s.ftable f).off ≤ (s.icache ip).size) (hchunk : 0 < writeChunk P)
    (hn : src.length < 2 ^ 31) (h : filewrite P pipewrite s f src = .ok (-1, s')) :
    ∃ j < src.length, (s'.ftable f).off = (s.ftable f).off + j ∧
      (s'.icache ip).size = max (s.icache ip).size ((s.ftable f).off + j) ∧
      s'.content P ip = Contents.write (s.content P ip) (s.ftable f).off (src.take j) ∧
      P.MAXFILE * P.BSIZE < (s.ftable f).off + j + min (src.length - j) (writeChunk P) := by
  rcases filewrite_spec pipewrite hw ht hip href hv hb inv hdev hoff hchunk hn with
    ⟨hp, -⟩ | ⟨j, t, hf, ch, hj, hstop⟩
  · rw [hp] at h; cases h
  rw [hf, Except.ok.injEq, Prod.mk.injEq] at h
  -- only a loop that stopped short returns `-1`
  have hjn : j < src.length := by
    refine lt_of_le_of_ne hj fun he => ?_
    rw [if_pos he] at h
    omega
  obtain rfl := h.2
  exact ⟨j, hjn, by rw [ch.file], ch.size, ch.content, hstop hjn⟩

/-- A write of `MAXFILE * BSIZE + 1` bytes to the empty file of `emptyFileFs`, a disk with room
for all of them: `filewrite` stops short of the end, before a chunk that would pass `MAXFILE`
blocks, and returns `-1`. -/
theorem emptyFileFs_overlong :
    ∃ j s', filewrite Params.sample (fun _ _ => 0) emptyFileFs 0
        (List.replicate (Params.sample.MAXFILE * Params.sample.BSIZE + 1) 7) = .ok (-1, s') ∧
      Chunked Params.sample emptyFileFs 0 0
        (List.replicate (Params.sample.MAXFILE * Params.sample.BSIZE + 1) 7) j s' ∧
      j < Params.sample.MAXFILE * Params.sample.BSIZE + 1 ∧
      Params.sample.MAXFILE * Params.sample.BSIZE <
        0 + j + min (Params.sample.MAXFILE * Params.sample.BSIZE + 1 - j)
          (writeChunk Params.sample) := by
  have hfree : emptyFileFs.disk.freeCount Params.sample = 2 ^ 20 - 261 :=
    freeCount_of_used_below emptyDisk_allocated
  rcases filewrite_spec (fun _ _ => 0) rfl rfl (show (emptyFileFs.ftable 0).ip = 0 from rfl)
      (by decide) rfl rfl emptyFileFs_fileInv (by decide) (le_refl _) (by decide)
      (show (List.replicate (Params.sample.MAXFILE * Params.sample.BSIZE + 1) (7 : UInt8)).length
        < 2 ^ 31 by rw [List.length_replicate]; decide) with
    ⟨-, hshort⟩ | ⟨j, s', hf, ch, -, hstop⟩
  · rw [hfree, List.length_replicate] at hshort
    exact absurd hshort (by decide)
  rw [List.length_replicate] at hf hstop
  -- the file cannot reach past `MAXFILE` blocks, so the loop stopped short
  have hj : j < Params.sample.MAXFILE * Params.sample.BSIZE + 1 := by
    have := ch.inv.holes.size_le
    have : (s'.icache 0).size = j := by
      rw [ch.size, show (emptyFileFs.icache 0).size = 0 from rfl,
        show (emptyFileFs.ftable 0).off = 0 from rfl]
      simp
    omega
  exact ⟨j, s', by rw [hf, if_neg hj.ne], ch, hj, hstop hj⟩

theorem filewrite_failure_keeps_chunks_emptyFileFs :
    (emptyFileFs.ftable 0).writable = true ∧ (emptyFileFs.ftable 0).type = .inode ∧
      0 < (emptyFileFs.icache 0).ref ∧ (emptyFileFs.icache 0).valid ∧
      (emptyFileFs.icache 0).busy = false ∧ emptyFileFs.FileInv Params.sample 0 ∧
      (emptyFileFs.icache 0).type ≠ .dev ∧
      (emptyFileFs.ftable 0).off ≤ (emptyFileFs.icache 0).size ∧ 0 < writeChunk Params.sample ∧
      ∃ s', filewrite Params.sample (fun _ _ => 0) emptyFileFs 0
          (List.replicate (Params.sample.MAXFILE * Params.sample.BSIZE + 1) 7) = .ok (-1, s') ∧
        ∃ j < (List.replicate (Params.sample.MAXFILE * Params.sample.BSIZE + 1) (7 : UInt8)).length,
          (s'.ftable 0).off = (emptyFileFs.ftable 0).off + j ∧
          (s'.icache 0).size = max (emptyFileFs.icache 0).size ((emptyFileFs.ftable 0).off + j) ∧
          s'.content Params.sample 0 = Contents.write (emptyFileFs.content Params.sample 0)
            (emptyFileFs.ftable 0).off
            ((List.replicate (Params.sample.MAXFILE * Params.sample.BSIZE + 1) 7).take j) ∧
          Params.sample.MAXFILE * Params.sample.BSIZE < (emptyFileFs.ftable 0).off + j +
            min ((List.replicate (Params.sample.MAXFILE * Params.sample.BSIZE + 1)
              (7 : UInt8)).length - j) (writeChunk Params.sample) := by
  obtain ⟨-, s', hf, -⟩ := emptyFileFs_overlong
  exact ⟨rfl, rfl, by decide, rfl, rfl, emptyFileFs_fileInv, by decide, le_refl _, by decide, s',
    hf, filewrite_failure_keeps_chunks (fun _ _ => 0) rfl rfl
      (show (emptyFileFs.ftable 0).ip = 0 from rfl) (by decide) rfl rfl emptyFileFs_fileInv
      (by decide) (le_refl _) (by decide) (by rw [List.length_replicate]; decide) hf⟩

/-- On `emptyFileFs`, whose disk is as `mkfs` leaves it, a failed write is not atomic: the write
of `MAXFILE * BSIZE + 1` bytes returns `-1`, yet the chunks before the one that would pass
`MAXFILE` blocks have been written, and the offset, the size and the content have moved. -/
theorem filewrite_partial_failure :
    emptyFileFs.FileInv Params.sample 0 ∧
    ∃ j s', filewrite Params.sample (fun _ _ => 0) emptyFileFs 0
        (List.replicate (Params.sample.MAXFILE * Params.sample.BSIZE + 1) 7) = .ok (-1, s') ∧
      0 < j ∧ (emptyFileFs.ftable 0).off = 0 ∧ (s'.ftable 0).off = j ∧
      (emptyFileFs.icache 0).size = 0 ∧ (s'.icache 0).size = j ∧
      s'.content Params.sample 0 = List.replicate j 7 := by
  obtain ⟨j, s', hf, ch, hj, hstop⟩ := emptyFileFs_overlong
  have h0 : (emptyFileFs.icache 0).size = 0 ∧ (emptyFileFs.ftable 0).off = 0 := ⟨rfl, rfl⟩
  -- a stop at `j = 0` would leave a first chunk of `max` bytes passing `MAXFILE` blocks
  have hj0 : 0 < j := by
    rw [show Params.sample.MAXFILE * Params.sample.BSIZE = 8460288 from rfl,
      show writeChunk Params.sample = 6656 from rfl] at hstop
    omega
  refine ⟨emptyFileFs_fileInv, j, s', hf, hj0, rfl, by rw [ch.file]; exact Nat.zero_add j, rfl,
    by rw [ch.size, h0.1, h0.2]; simp, ?_⟩
  rw [ch.content, show emptyFileFs.content Params.sample 0 = [] from rfl, h0.2,
    List.take_replicate, min_eq_left hj.le]
  simp [Contents.write]

end Xv6Fs
