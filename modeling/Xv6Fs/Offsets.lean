import Xv6Fs.FileRuns

/-!
# Offsets of open files

`fileread` and `filewrite` move the offset of a file by the count `readi` or `writei` returns,
and nothing else moves it but the open call, which sets it to `0`. In every state a run of the
file layer reaches, the offset of a file on an inode is therefore inside its file
(`reachable_offsets_inside`): `0` while its entry is not loaded, and within the size of the loaded
entry unless that is a device, whose offsets its driver interprets.

Two facts carry it. A step keeps every entry a file is on (`EntryKeeps`): a loaded entry stays
loaded with its type and does not shrink. The only steps that unload or empty an entry are `iget`
of an entry without references and the `iput` that drops the last reference, and the accounting
of references (`HandleInv`) says that no file is on such an entry. And a count moves an offset to
a place inside the file: `readi` returns `-1` or a count that ends inside the file
(`readi_within`), and `writei` returns `-1`, or the count with the file grown to the end of what
it wrote (`writei_count`).

With the offsets inside, the preconditions under which `fileread` is the abstract read and
`filewrite` the abstract write (`fileread_eq`, `filewrite_spec`) hold in every reachable state of a
file on a loaded, unlocked inode that is not a device: the file layer refines the files of
`Contents` over every run (`reachable_files_refine_contents`).
-/

namespace Xv6Fs

variable {P : Params}

/-- The offset `off` of a file on cache entry `e` lies inside the file: it is `0` while the
entry is not loaded, and at most the size of a loaded entry that is not a device (the offset of
a device is its driver's). -/
def OffsetInside (e : Inode) (off : Nat) : Prop :=
  (e.valid = false → off = 0) ∧ (e.valid = true → e.type ≠ .dev → off ≤ e.size)

/-- A step from entry `e` to entry `e'` keeps a loaded entry loaded, with its type, and does not
shrink it. -/
def EntryKeeps (e e' : Inode) : Prop :=
  e.valid = true → e'.valid = true ∧ e'.type = e.type ∧ e.size ≤ e'.size

variable (P) in
/-- Every file of the table on an inode has its offset inside the file. -/
def OffsetsInside (s : State) : Prop :=
  ∀ f < P.NFILE, (s.ftable f).Holds (s.ftable f).ip →
    OffsetInside (s.icache (s.ftable f).ip) (s.ftable f).off

/-- Offset `0` is inside every file. -/
theorem OffsetInside.zero (e : Inode) : OffsetInside e 0 :=
  ⟨fun _ => rfl, fun _ _ => Nat.zero_le _⟩

/-- An offset inside a file stays inside it across a step that keeps its entry. -/
theorem OffsetInside.mono {e e' : Inode} {off : Nat} (h : OffsetInside e off)
    (k : EntryKeeps e e') : OffsetInside e' off := by
  cases hv : e.valid
  · rw [h.1 hv]; exact .zero e'
  · obtain ⟨hv', hty, hsize⟩ := k hv
    exact ⟨fun h' => (by rw [hv'] at h'; cases h'),
      fun _ hdev => (h.2 hv (hty ▸ hdev)).trans hsize⟩

/-- A change of the flags or the references of an entry keeps it. -/
theorem EntryKeeps.of_eq {e e' : Inode} (hv : e'.valid = e.valid) (ht : e'.type = e.type)
    (hs : e'.size = e.size) : EntryKeeps e e' :=
  fun h => ⟨hv ▸ h, ht, hs.ge⟩

/-- Leaving an entry keeps it. -/
theorem EntryKeeps.refl (e : Inode) : EntryKeeps e e := .of_eq rfl rfl rfl

section Steps

variable {s s' : State}

/-- Replacing an entry by one with the same flag, type and size keeps every entry. -/
theorem setInode_keeps {ip : Nat} {e : Inode} (hv : e.valid = (s.icache ip).valid)
    (ht : e.type = (s.icache ip).type) (hs : e.size = (s.icache ip).size) (x : Nat) :
    EntryKeeps (s.icache x) ((s.setInode ip e).icache x) := by
  by_cases hx : x = ip
  · subst hx; simpa using EntryKeeps.of_eq hv ht hs
  · simpa [hx] using EntryKeeps.refl _

/-- `ilock` keeps every entry: it loads only an entry that was not loaded. -/
theorem ilock_keeps {ip : Nat} (h : ilock s ip = .ok s') (x : Nat) :
    EntryKeeps (s.icache x) (s'.icache x) := by
  obtain ⟨-, -, ⟨-, rfl⟩ | ⟨hv, -, rfl⟩⟩ := ilock_cases h
  · exact setInode_keeps (by rfl) (by rfl) (by rfl) x
  · by_cases hx : x = ip
    · subst hx; intro h; rw [hv] at h; cases h
    · simpa [hx] using EntryKeeps.refl _

/-- `iunlock` keeps every entry. -/
theorem iunlock_keeps {ip : Nat} (h : iunlock s ip = .ok s') (x : Nat) :
    EntryKeeps (s.icache x) (s'.icache x) := by
  unfold iunlock at h
  split at h
  · cases h
  · cases h; exact setInode_keeps (by rfl) (by rfl) (by rfl) x

/-- `iget` keeps every referenced entry: the one it claims for a new identity had none. -/
theorem iget_keeps {dev inum ip : Nat} (h : iget P s dev inum = .ok (ip, s')) {x : Nat}
    (hx : 0 < (s.icache x).ref) : EntryKeeps (s.icache x) (s'.icache x) := by
  obtain ⟨-, ⟨-, -, -, rfl⟩ | ⟨h0, -, rfl⟩⟩ := iget_cases h
  · exact setInode_keeps (by rfl) (by rfl) (by rfl) x
  · have hne : x ≠ ip := by rintro rfl; omega
    simpa [hne] using EntryKeeps.refl _

/-- So does `ialloc`, whose `iget` follows a write of the dinode only. -/
theorem ialloc_keeps {dev : Nat} {type : FileType} {ip : Nat}
    (h : ialloc P s dev type = .ok (ip, s')) {x : Nat} (hx : 0 < (s.icache x).ref) :
    EntryKeeps (s.icache x) (s'.icache x) := by
  unfold ialloc at h
  split at h
  · simpa using iget_keeps h (by simpa using hx)
  · cases h

/-- `iput` keeps every entry but one it frees, which had no other reference. -/
theorem iput_keeps {dev ip : Nat} (c : Consistent P dev s) (hip : ip < P.NINODE)
    (href : 0 < (s.icache ip).ref)
    (h : iput P s ip = .ok s') {x : Nat} (hx : x = ip → 1 < (s.icache ip).ref) :
    EntryKeeps (s.icache x) (s'.icache x) := by
  rcases c.iput_cases hip href h with rfl | ⟨-, -, -, -, -, -, -, ho, hr⟩
  · exact setInode_keeps (by rfl) (by rfl) (by rfl) x
  · by_cases hxi : x = ip
    · have := (c.iput_frame hip href h).2 ip
      simp only [handle_self] at this
      omega
    · rw [ho x hxi]; exact .refl _

/-- `writei` of a held entry keeps every entry: it grows the file it writes, or leaves it. -/
theorem Consistent.writei_keeps {dev ip off : Nat} {src : List UInt8} {r : Int}
    (c : Consistent P dev s) (live : s.Live P ip) (hoff : off < 2 ^ 32)
    (hn : src.length < 2 ^ 32) (h : Xv6Fs.writei P s ip src off = .ok (r, s')) (x : Nat) :
    EntryKeeps (s.icache x) (s'.icache x) := by
  rcases c.writei_cases live hoff hn h with rfl | one
  · exact .refl _
  by_cases hx : x = ip
  · subst hx
    exact fun hv => ⟨one.valid ▸ hv, one.type, one.size⟩
  · rw [one.others x hx]; exact .refl _

end Steps

namespace OffsetsInside

variable {s s' : State} {held : Nat → Int}

/-- A step that leaves the table and keeps every entry a file is on keeps the offsets inside. -/
theorem of_cache (o : OffsetsInside P s) (hft : s'.ftable = s.ftable)
    (hk : ∀ f < P.NFILE, (s.ftable f).Holds (s.ftable f).ip →
      EntryKeeps (s.icache (s.ftable f).ip) (s'.icache (s.ftable f).ip)) :
    OffsetsInside P s' := by
  intro f hf hh
  rw [hft] at hh ⊢
  exact (o f hf hh).mono (hk f hf hh)

/-- `ilock` keeps the offsets inside. -/
theorem of_ilock (o : OffsetsInside P s) {ip : Nat} (h : ilock s ip = .ok s') :
    OffsetsInside P s' :=
  o.of_cache (ilock_frame h).1 fun _ _ _ => ilock_keeps h _

/-- `iunlock` keeps the offsets inside. -/
theorem of_iunlock (o : OffsetsInside P s) {ip : Nat} (h : iunlock s ip = .ok s') :
    OffsetsInside P s' :=
  o.of_cache (iunlock_frame h).1 fun _ _ _ => iunlock_keeps h _

/-- Replacing file `f` by one whose offset lies inside its file, if it is on an inode. -/
theorem setFile (o : OffsetsInside P s) {f : Nat} {file : File}
    (hfile : file.Holds file.ip → OffsetInside (s.icache file.ip) file.off) :
    OffsetsInside P (s.setFile f file) := by
  intro g hg hh
  by_cases hgf : g = f
  · subst hgf
    simp only [State.setFile_ftable, Function.update_same, State.setFile_icache] at hh ⊢
    exact hfile hh
  · simp only [State.setFile_ftable, Function.update_noteq hgf, State.setFile_icache] at hh ⊢
    exact o g hg hh

/-- The entry of a file of the table has a reference beyond the handles callers hold. -/
theorem held_lt_ref (a : Accounted P s held) {f : Nat} (hf : f < P.NFILE)
    (hh : (s.ftable f).Holds (s.ftable f).ip) :
    held (s.ftable f).ip < (s.icache (s.ftable f).ip).ref := by
  have := fileHolds_pos hf hh
  rw [a.refs _ (a.file_lt f hf hh)]
  omega

/-- `fileclose` keeps the offsets inside: the last close of a file on an inode takes it out of
the table, and when another file is on the inode the `iput` that follows only drops a
reference. -/
theorem fileclose (o : OffsetsInside P s) (inv : HandleInv P (s, held)) {f : Nat}
    (hf : f < P.NFILE) (h : Xv6Fs.fileclose P s f = .ok s') : OffsetsInside P s' := by
  have a : Accounted P s held := inv.acc
  rcases fileclose_cases h with ⟨h1, rfl⟩ | ⟨h1, hty, hput⟩ | ⟨h1, hty, rfl⟩
  · exact o.setFile fun hh => o f hf ((File.holds_withRef _ (by omega) (by omega) _).mp hh)
  · have hold : (s.ftable f).Holds (s.ftable f).ip := ⟨by omega, hty, rfl⟩
    have hip := a.file_lt f hf hold
    have href := (inv.file_entry hf hty).2
    have c₁ : Consistent P P.ROOTDEV (s.setFile f { s.ftable f with ref := 0, type := .none }) :=
      inv.cons.congr rfl rfl
    refine (o.setFile fun hh => absurd hh.2.1 (by simp)).of_cache (c₁.iput_frame hip href hput).1
      fun g hg hh => iput_keeps c₁ hip href hput fun hx => ?_
    -- file `g` is on the inode too, so two files count on it
    have hcount := fileHolds_setFile (P := P) (s := s) hf
      { s.ftable f with ref := 0, type := .none } (s.ftable f).ip
    have hg₁ := fileHolds_pos hg (hx ▸ hh)
    rw [if_pos hold, if_neg fun hh => by simp [File.Holds] at hh] at hcount
    have := a.refs _ hip
    have := a.held_nonneg (s.ftable f).ip
    simp only [State.setFile_icache]
    omega
  · exact o.setFile fun hh => absurd hh.2.1 (by simp)

/-- Every call of the inode layer or of the file table keeps the offsets inside. -/
theorem handleStep {a b : State × (Nat → Int)} (inv : HandleInv P a) (o : OffsetsInside P a.1)
    (h : HandleStep P a b) : OffsetsInside P b.1 := by
  obtain ⟨s, held⟩ := a
  replace o : OffsetsInside P s := o
  have c : Consistent P P.ROOTDEV s := inv.cons
  have a : Accounted P s held := inv.acc
  have ref_pos : ∀ f < P.NFILE, (s.ftable f).Holds (s.ftable f).ip →
      0 < (s.icache (s.ftable f).ip).ref := fun f hf hh => by
    have := held_lt_ref a hf hh
    have := a.held_nonneg (s.ftable f).ip
    omega
  cases h with
  | readi live hoff hn h =>
    obtain ⟨_, h'⟩ := c.readi_ok live hoff hn
    rw [h'] at h
    cases h
    exact o
  | writei live hoff hn h =>
    exact o.of_cache (c.writei_frame live hoff hn h).1 fun _ _ _ => c.writei_keeps live hoff hn h _
  | iget h => exact o.of_cache (iget_frame h).1 fun f hf hh => iget_keeps h (ref_pos f hf hh)
  | idup _ => exact o.of_cache rfl fun _ _ _ => setInode_keeps (by rfl) (by rfl) (by rfl) _
  | ilock _ h => exact o.of_ilock h
  | iunlock _ h => exact o.of_iunlock h
  | iput hpos h =>
    obtain ⟨hip, href⟩ := a.ref_pos hpos
    exact o.of_cache (c.iput_frame hip href h).1 fun f hf hh => iput_keeps c hip href h fun hx => by
      have := held_lt_ref a hf hh
      rw [hx] at this
      omega
  | ialloc h =>
    exact o.of_cache (ialloc_frame h).2.1 fun f hf hh => ialloc_keeps h (ref_pos f hf hh)
  | filealloc h =>
    unfold filealloc at h
    split at h
    · rename_i f hfind
      cases h
      have hf : f < P.NFILE := List.mem_range.mp (List.mem_of_find?_eq_some hfind)
      have hnone := a.closed f hf (by simpa using List.find?_some hfind)
      exact o.setFile fun hh => absurd hh.2.1 (by simp [hnone])
    · cases h
      exact o
  | fileOpen _ _ _ _ => exact o.setFile fun _ => .zero _
  | filedup hf h =>
    unfold filedup at h
    split at h
    · cases h
    · cases h
      exact o.setFile fun hh => o _ hf ((File.holds_withRef _ (by omega) (by omega) _).mp hh)
  | fileclose hf h => exact o.fileclose inv hf h

/-- So does every run of such calls. -/
theorem handleReach {a b : State × (Nat → Int)} (inv : HandleInv P a) (o : OffsetsInside P a.1)
    (h : Relation.ReflTransGen (HandleStep P) a b) : OffsetsInside P b.1 := by
  induction h with
  | refl => exact o
  | tail hab st ih => exact handleStep (inv.reach hab) ih st

/-- `filestat` keeps the offsets inside. -/
theorem filestat (o : OffsetsInside P s) {f : Nat} {r : Int × Option Stat}
    (h : Xv6Fs.filestat s f = .ok (r, s')) : OffsetsInside P s' := by
  rcases filestat_cases h with ⟨-, -, rfl⟩ | ⟨-, s₁, h₁, h₂, -⟩
  · exact o
  · exact (o.of_ilock h₁).of_iunlock h₂

/-- A count that ends inside a loaded file that is not a device, and inside `MAXFILE` blocks,
moves the offset of a file on it to a place inside it. -/
theorem advance (o : OffsetsInside P s) {f : Nat} (live : s.Live P (s.ftable f).ip)
    (c : Prop) [Decidable c] (k : Nat)
    (hk : c → (s.icache (s.ftable f).ip).type ≠ .dev →
      (s.ftable f).off + k ≤ (s.icache (s.ftable f).ip).size ∧
        (s.ftable f).off + k ≤ P.MAXFILE * P.BSIZE) :
    OffsetsInside P
      (if c then s.setFile f { s.ftable f with off := u32 ((s.ftable f).off + k) } else s) := by
  split
  · rename_i hc
    refine o.setFile fun _ => ⟨fun hv => absurd live.2.2 (by simp [hv]), fun _ hdev => ?_⟩
    have := P.maxBytes_lt
    have := hk hc hdev
    show u32 ((s.ftable f).off + k) ≤ (s.icache (s.ftable f).ip).size
    rw [u32_of_lt (by omega)]
    omega
  · exact o

/-- `fileread` keeps the offsets inside: `readi` returns `-1` or a count that ends inside the
file. -/
theorem fileread (o : OffsetsInside P s) (inv : HandleInv P (s, held))
    {piperead : Nat → Nat → Int × List UInt8} {f n : Nat} {r : Int × List UInt8}
    (hf : f < P.NFILE) (hoff : (s.ftable f).off < 2 ^ 32) (hn : n < 2 ^ 32)
    (h : Xv6Fs.fileread P piperead s f n = .ok (r, s')) : OffsetsInside P s' := by
  rcases fileread_cases h with rfl | ⟨hty, s₁, s₂, h₁, h₂, h₃⟩
  · exact o
  obtain ⟨inv₁, live, hft, -, -⟩ := inv.ilock_file hf hty h₁
  have c₁ : Consistent P P.ROOTDEV s₁ := inv₁.cons
  have hoff₁ : (s₁.ftable f).off < 2 ^ 32 := by rw [hft]; exact hoff
  obtain ⟨_, h₂'⟩ := c₁.readi_ok live hoff₁ hn
  rw [h₂'] at h₂
  cases h₂
  rw [hft] at h₂'
  refine ((o.of_ilock h₁).advance (by rw [hft]; exact live) _ _ fun hr hdev => ?_).of_iunlock h₃
  rw [hft] at hdev ⊢
  have holes := (c₁.fileInv live hdev).holes
  have := holes.size_le
  rcases readi_within hdev holes hoff hn h₂' with h | h
  · rw [h] at hr; cases hr
  · omega

/-- A transaction of `filewrite` keeps the offsets inside: `writei` returns `-1`, or the count,
with the file grown to the end of what it wrote. -/
theorem filewriteChunk (o : OffsetsInside P s) (inv : HandleInv P (s, held)) {f : Nat}
    {c : List UInt8} {r : Int} (hf : f < P.NFILE) (hty : (s.ftable f).type = .inode)
    (hoff : (s.ftable f).off < 2 ^ 32) (hc : c.length < 2 ^ 32)
    (h : Xv6Fs.filewriteChunk P s f c = .ok (r, s')) : OffsetsInside P s' := by
  obtain ⟨s₁, s₂, s₃, h₁, h₂, h₃, rfl⟩ := filewriteChunk_cases h
  obtain ⟨inv₁, live, hft, -, -⟩ := inv.ilock_trans_file hf hty h₁
  have c₁ : Consistent P P.ROOTDEV s₁ := inv₁.cons
  have hoff₁ : (s₁.ftable f).off < 2 ^ 32 := by rw [hft]; exact hoff
  obtain ⟨hft₂, hr₂⟩ := c₁.writei_frame live hoff₁ hc h₂
  have keep := c₁.writei_keeps live hoff₁ hc h₂
  have o₀ : OffsetsInside P (beginTrans s) := o
  have o₂ : OffsetsInside P s₂ := (o₀.of_ilock h₁).of_cache hft₂ fun _ _ _ => keep _
  have hip : (s₂.ftable f).ip = (s.ftable f).ip := by rw [hft₂, hft]
  obtain ⟨hv₂, hty₂, -⟩ := keep (s.ftable f).ip live.2.2
  have live₂ : s₂.Live P (s₂.ftable f).ip := by
    rw [hip]; exact ⟨live.1, by rw [hr₂]; exact live.2.1, hv₂⟩
  -- `commit_trans` touches only the log
  suffices o₃ : OffsetsInside P s₃ from o₃
  refine (o₂.advance live₂ _ _ fun hr hdev => ?_).of_iunlock h₃
  rw [hip, hty₂] at hdev
  rw [hip, hft₂]
  rcases writei_count (c₁.fileInv live hdev) hdev hoff₁ hc h₂ with h | ⟨rfl, hmax, hsize⟩
  · rw [h] at hr; cases hr
  · exact ⟨hsize, hmax⟩

/-- So does `filewrite`, one transaction after the other. -/
theorem filewrite (o : OffsetsInside P s) (inv : HandleInv P (s, held))
    {pipewrite : Nat → List UInt8 → Int} {f : Nat} {src : List UInt8} {r : Int}
    (hf : f < P.NFILE) (hoff : (s.ftable f).off < 2 ^ 32) (hn : src.length < 2 ^ 32)
    (h : Xv6Fs.filewrite P pipewrite s f src = .ok (r, s')) : OffsetsInside P s' :=
  (filewrite_keeps (fun t => HandleInv P (t, held) ∧ OffsetsInside P t)
    (fun q hty hoff hc h => by
      obtain ⟨inv', hty', hoff'⟩ := q.1.filewriteChunk hf hty hoff hc h
      exact ⟨⟨inv', q.2.filewriteChunk q.1 hf hty hoff hc h⟩, hty', hoff'⟩)
    ⟨inv, o⟩ hoff hn h).2

/-- Every call of the file layer keeps the offsets inside. -/
theorem fileStep {a b : State × (Nat → Int)} (inv : HandleInv P a) (o : OffsetsInside P a.1)
    (h : FileStep P a b) : OffsetsInside P b.1 := by
  cases h with
  | sys st => exact handleReach inv o (st.calls inv)
  | filestat _ h => exact OffsetsInside.filestat o h
  | fileread hf hoff hn h => exact OffsetsInside.fileread o inv hf hoff hn h
  | filewrite hf hoff hn h => exact OffsetsInside.filewrite o inv hf hoff hn h

/-- So does every run of the file layer. -/
theorem fileReach {a b : State × (Nat → Int)} (inv : HandleInv P a) (o : OffsetsInside P a.1)
    (h : Relation.ReflTransGen (FileStep P) a b) : OffsetsInside P b.1 := by
  induction h with
  | refl => exact o
  | tail hab st ih => exact fileStep (inv.fileReach hab) ih st

end OffsetsInside

/-- In every state a run of the file layer reaches from a consistent, accounted state whose files
have their offsets inside their files, as one with no open file has, every file of the table on
an inode is at offset `0` while its entry is not loaded, and within the size of its loaded entry
unless that is a device: no call moves an offset past the end of a loaded file that is not a
device. -/
theorem reachable_offsets_inside {s₀ s : State} {held₀ held : Nat → Int}
    (c₀ : Consistent P P.ROOTDEV s₀) (a₀ : Accounted P s₀ held₀) (o₀ : OffsetsInside P s₀)
    (run : Relation.ReflTransGen (FileStep P) (s₀, held₀) (s, held)) :
    ∀ f < P.NFILE, (s.ftable f).Holds (s.ftable f).ip →
      ((s.icache (s.ftable f).ip).valid = false → (s.ftable f).off = 0) ∧
      ((s.icache (s.ftable f).ip).valid = true → (s.icache (s.ftable f).ip).type ≠ .dev →
        (s.ftable f).off ≤ (s.icache (s.ftable f).ip).size) :=
  OffsetsInside.fileReach ⟨c₀, a₀⟩ o₀ run

/-- `sampleFs` has no open file. -/
theorem sampleFs_offsetsInside : OffsetsInside Params.sample sampleFs :=
  fun _ _ hh => absurd hh.1 (by simp [sampleFs])

theorem reachable_offsets_inside_openRootFs :
    Consistent Params.sample Params.sample.ROOTDEV sampleFs ∧
    Accounted Params.sample sampleFs (handle 0) ∧ OffsetsInside Params.sample sampleFs ∧
    Relation.ReflTransGen (FileStep Params.sample) (sampleFs, handle 0)
      (openRootFs, handle 0 - handle 0) ∧
    ∀ f < Params.sample.NFILE, (openRootFs.ftable f).Holds (openRootFs.ftable f).ip →
      ((openRootFs.icache (openRootFs.ftable f).ip).valid = false →
        (openRootFs.ftable f).off = 0) ∧
      ((openRootFs.icache (openRootFs.ftable f).ip).valid = true →
        (openRootFs.icache (openRootFs.ftable f).ip).type ≠ .dev →
        (openRootFs.ftable f).off ≤ (openRootFs.icache (openRootFs.ftable f).ip).size) :=
  ⟨sampleFs_consistent, sampleFs_accounted, sampleFs_offsetsInside, openRootFs_run,
    reachable_offsets_inside sampleFs_consistent sampleFs_accounted sampleFs_offsetsInside
      openRootFs_run⟩

end Xv6Fs
