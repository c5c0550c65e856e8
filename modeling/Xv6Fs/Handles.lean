import Xv6Fs.Ownership
import Xv6Fs.FileTable

/-!
# References of the inode cache

A reference of a cache entry is a handle that some caller holds, which `iget`, `idup` and
`ialloc` return and `iput` gives back, or a file of the table on the inode. `Accounted` says that
the count of every entry is exactly these. `HandleStep` is one call of the inode layer or of the
file table with what it does to the handles, and `HandleInv.step` says that every call keeps the
accounting and the invariant of the cache on the root device.

`HandleInv.fileclose_ref` says which reference `fileclose` drops, and `iget_fresh` that an entry
`iget` claims is read again from the disk.
-/

namespace Xv6Fs

variable (P : Params)

/-- A file of the table holds a reference to cache entry `x`: it is referenced, of type
`FD_INODE`, and on `x`. -/
def File.Holds (file : File) (x : Nat) : Prop :=
  0 < file.ref ∧ file.type = .inode ∧ file.ip = x

instance (file : File) (x : Nat) : Decidable (file.Holds x) :=
  inferInstanceAs (Decidable (_ ∧ _))

/-- The number of files of the table that hold a reference to cache entry `x`. -/
def fileHolds (s : State) (x : Nat) : Nat :=
  (List.range P.NFILE).countP fun f => (s.ftable f).Holds x

/-- The accounting of references: every reference of a cache entry is a handle a caller holds
(`held`) or a file on it. Handles and files name entries of the cache, and a file without a
reference is empty. -/
structure Accounted (s : State) (held : Nat → Int) : Prop where
  refs : ∀ x < P.NINODE, (s.icache x).ref = held x + fileHolds P s x
  held_nonneg : ∀ x, 0 ≤ held x
  held_lt : ∀ x, held x ≠ 0 → x < P.NINODE
  file_lt : ∀ f < P.NFILE, (s.ftable f).Holds (s.ftable f).ip → (s.ftable f).ip < P.NINODE
  file_nonneg : ∀ f < P.NFILE, 0 ≤ (s.ftable f).ref
  closed : ∀ f < P.NFILE, (s.ftable f).ref = 0 → (s.ftable f).type = .none

/-- One handle on cache entry `x`. -/
def handle (x : Nat) : Nat → Int := fun y => if y = x then 1 else 0

@[simp] theorem handle_self (x : Nat) : handle x x = 1 := if_pos rfl

@[simp] theorem handle_of_ne {x y : Nat} (h : y ≠ x) : handle x y = 0 := if_neg h

theorem handle_nonneg (x y : Nat) : 0 ≤ handle x y := by
  unfold handle
  split <;> decide

variable {P}

/-- Updating one entry of `g` changes a count over distinct indices by what the entry
counted. -/
theorem countP_update {β : Type} (g : Nat → β) (a : Nat) (v : β) (q : β → Bool) :
    ∀ l : List Nat, l.Nodup → a ∈ l →
      l.countP (fun x => q (Function.update g a v x)) + (if q (g a) then 1 else 0) =
        l.countP (fun x => q (g x)) + (if q v then 1 else 0)
  | [], _, h => absurd h (List.not_mem_nil _)
  | b :: l, hnd, h => by
    rw [List.nodup_cons] at hnd
    by_cases hb : b = a
    · subst hb
      have hl : l.countP (fun x => q (Function.update g b v x)) = l.countP (fun x => q (g x)) :=
        List.countP_congr fun x hx => by rw [Function.update_noteq (ne_of_mem_of_not_mem hx hnd.1)]
      simp only [List.countP_cons, Function.update_same, hl]
      omega
    · have ih := countP_update g a v q l hnd.2 ((List.mem_cons.mp h).resolve_left (Ne.symm hb))
      simp only [List.countP_cons, Function.update_noteq hb]
      omega

/-- Replacing file `f` of the table changes the files holding `x` by what `f` held. -/
theorem fileHolds_setFile {s : State} {f : Nat} (hf : f < P.NFILE) (file : File) (x : Nat) :
    (fileHolds P (s.setFile f file) x : Int) =
      fileHolds P s x - (if (s.ftable f).Holds x then 1 else 0) +
        (if file.Holds x then 1 else 0) := by
  have := countP_update s.ftable f file (fun file => decide (file.Holds x)) (List.range P.NFILE)
    (List.nodup_range _) (List.mem_range.mpr hf)
  simp only [decide_eq_true_eq] at this
  unfold fileHolds
  simp only [State.setFile_ftable]
  split_ifs at this ⊢ <;> omega

theorem fileHolds_congr {s s' : State} (h : s'.ftable = s.ftable) :
    fileHolds P s' = fileHolds P s := by
  funext x
  unfold fileHolds
  rw [h]

/-- A step that leaves the file table and changes the reference count of each cache entry as
it changes the handles keeps the accounting, when the handles stay nonnegative and on the cache. -/
theorem Accounted.cache {s s' : State} {held held' : Nat → Int} (a : Accounted P s held)
    (hft : s'.ftable = s.ftable)
    (href : ∀ x < P.NINODE, (s'.icache x).ref - held' x = (s.icache x).ref - held x)
    (hnn : ∀ x, 0 ≤ held' x) (hlt : ∀ x, held' x ≠ 0 → x < P.NINODE) :
    Accounted P s' held' := by
  refine ⟨fun x hx => ?_, hnn, hlt, ?_, ?_, ?_⟩
  · rw [fileHolds_congr hft]
    have := href x hx
    have := a.refs x hx
    omega
  all_goals rw [hft]
  exacts [a.file_lt, a.file_nonneg, a.closed]

/-- A caller that holds a handle on an entry of the cache holds a reference. -/
theorem Accounted.ref_pos {s : State} {held : Nat → Int} (a : Accounted P s held) {x : Nat}
    (hx : 0 < held x) : x < P.NINODE ∧ 0 < (s.icache x).ref := by
  have hlt := a.held_lt x (by omega)
  have := a.refs x hlt
  exact ⟨hlt, by omega⟩

/-- A caller that takes a handle on `x` holds one. -/
theorem Accounted.take_self {s : State} {held : Nat → Int} (a : Accounted P s held) (x : Nat) :
    0 < (held + handle x) x := by
  have := a.held_nonneg x
  simp only [Pi.add_apply, handle_self]
  omega

/-- The handles after taking one on `x`: nonnegative, and on the cache when `x` is. -/
theorem Accounted.take {s : State} {held : Nat → Int} (a : Accounted P s held) {x : Nat}
    (hx : x < P.NINODE) :
    (∀ y, 0 ≤ (held + handle x) y) ∧ ∀ y, (held + handle x) y ≠ 0 → y < P.NINODE := by
  refine ⟨fun y => ?_, fun y hy => ?_⟩ <;> by_cases hyx : y = x
  · subst hyx; exact (a.take_self y).le
  · simp only [Pi.add_apply, handle_of_ne hyx, add_zero]; exact a.held_nonneg y
  · exact hyx ▸ hx
  · simp only [Pi.add_apply, handle_of_ne hyx, add_zero] at hy; exact a.held_lt y hy

/-- The handles after dropping one on `x`, which the caller held. -/
theorem Accounted.drop {s : State} {held : Nat → Int} (a : Accounted P s held) {x : Nat}
    (hx : 0 < held x) :
    (∀ y, 0 ≤ (held - handle x) y) ∧ ∀ y, (held - handle x) y ≠ 0 → y < P.NINODE := by
  refine ⟨fun y => ?_, fun y hy => ?_⟩ <;> by_cases hyx : y = x
  · subst hyx; simp only [Pi.sub_apply, handle_self]; omega
  · simp only [Pi.sub_apply, handle_of_ne hyx, sub_zero]; exact a.held_nonneg y
  · subst hyx; exact (a.ref_pos hx).1
  · simp only [Pi.sub_apply, handle_of_ne hyx, sub_zero] at hy; exact a.held_lt y hy

/-- Replacing a cache entry by one with the same count changes no count. -/
theorem ref_setInode {s : State} {ip : Nat} {e : Inode} (he : e.ref = (s.icache ip).ref)
    (x : Nat) :
    ((s.setInode ip e).icache x).ref = (s.icache x).ref := by
  by_cases hx : x = ip
  · subst hx; simpa using he
  · simp [hx]

/-- `ilock` and `iunlock` change no reference count and leave the file table. -/
theorem ilock_frame {s s' : State} {ip : Nat} (h : ilock s ip = .ok s') :
    s'.ftable = s.ftable ∧ ∀ x, (s'.icache x).ref = (s.icache x).ref := by
  unfold ilock at h
  split at h
  · cases h
  split at h
  · cases h
  simp only [State.setInode_icache, Function.update_same] at h
  split at h
  · cases h
    exact ⟨rfl, ref_setInode rfl⟩
  · split at h
    · cases h
    · cases h
      rw [State.setInode_setInode]
      exact ⟨rfl, ref_setInode rfl⟩

theorem iunlock_frame {s s' : State} {ip : Nat} (h : iunlock s ip = .ok s') :
    s'.ftable = s.ftable ∧ ∀ x, (s'.icache x).ref = (s.icache x).ref := by
  unfold iunlock at h
  split at h
  · cases h
  · cases h
    exact ⟨rfl, ref_setInode rfl⟩

/-- `iget` gives one reference to the entry it returns, and leaves the file table. -/
theorem iget_frame {s s' : State} {dev inum ip : Nat} (h : iget P s dev inum = .ok (ip, s')) :
    s'.ftable = s.ftable ∧ ∀ x, (s'.icache x).ref = (s.icache x).ref + handle ip x := by
  obtain ⟨-, ⟨-, -, -, rfl⟩ | ⟨h0, -, rfl⟩⟩ := iget_cases h <;>
    refine ⟨rfl, fun x => ?_⟩ <;>
    by_cases hx : x = ip
  · subst hx; simp
  · simp [hx]
  · subst hx; simp [h0]
  · simp [hx]

/-- `ialloc` gives one reference to the cache entry it returns, and leaves the file table. -/
theorem ialloc_frame {s s' : State} {dev : Nat} {type : FileType} {ip : Nat}
    (h : ialloc P s dev type = .ok (ip, s')) :
    ip < P.NINODE ∧ s'.ftable = s.ftable ∧
      ∀ x, (s'.icache x).ref = (s.icache x).ref + handle ip x := by
  unfold ialloc at h
  split at h
  · obtain ⟨hft, href⟩ := iget_frame h
    exact ⟨(iget_cases h).1, by simpa using hft, fun x => by simpa using href x⟩
  · cases h

namespace Consistent

variable {dev : Nat} {s s' : State} (c : Consistent P dev s)
include c

/-- The invariant reads only the disk and the cache. -/
theorem congr (hd : s'.disk = s.disk) (hi : s'.icache = s.icache) : Consistent P dev s' := by
  have hl : ∀ x, s'.Live P x ↔ s.Live P x := fun x => by simp only [State.Live, hi]
  obtain ⟨formatted, inj, used, region, holes, coh, alive, ident, devs⟩ := c
  exact ⟨hd ▸ formatted, hd ▸ inj, hd ▸ used, hd ▸ region, hd ▸ holes,
    fun x hx => by rw [hd, hi]; exact coh x ((hl x).mp hx),
    fun x hx => by rw [hi]; exact alive x ((hl x).mp hx), hi ▸ ident, hi ▸ devs⟩

/-- `iput` of a referenced entry drops one of its references, changes no other, and leaves the
file table. -/
theorem iput_frame {ip : Nat} (hip : ip < P.NINODE) (href : 0 < (s.icache ip).ref)
    (h : Xv6Fs.iput P s ip = .ok s') :
    s'.ftable = s.ftable ∧ ∀ x, (s'.icache x).ref = (s.icache x).ref - handle ip x := by
  unfold Xv6Fs.iput at h
  dsimp only at h
  split at h
  · rename_i hcond
    split at h
    · cases h
    have own : (s.setInode ip { s.icache ip with busy := true }).Owns P ip := by
      unfold State.Owns
      simp only [State.setInode_disk, State.setInode_icache, Function.update_same]
      exact c.owns ⟨hip, href, hcond.2.1⟩
    obtain ⟨t, fr, -, hit⟩ := itrunc_spec own
    rw [hit] at h
    cases h
    have hr : (t.icache ip).ref = (s.icache ip).ref := by rw [fr.meta]; simp [Inode.withMap]
    refine ⟨by simp [fr.ftable], fun x => ?_⟩
    by_cases hx : x = ip
    · subst hx; simp [hr]
    · simp [hx, fr.others x hx]
  · cases h
    refine ⟨rfl, fun x => ?_⟩
    by_cases hx : x = ip
    · subst hx; simp
    · simp [hx]

/-- `writei` of a held entry changes no reference count and leaves the file table. -/
theorem writei_frame {ip off : Nat} {src : List UInt8} {r : Int} (live : s.Live P ip)
    (hoff : off < 2 ^ 32) (hn : src.length < 2 ^ 32)
    (h : Xv6Fs.writei P s ip src off = .ok (r, s')) :
    s'.ftable = s.ftable ∧ ∀ x, (s'.icache x).ref = (s.icache x).ref := by
  by_cases hdev : (s.icache ip).type = .dev
  · rw [Xv6Fs.writei, if_pos hdev] at h
    have : s' = s := by
      split at h
      · cases h; rfl
      · split at h <;> cases h <;> rfl
    subst this
    exact ⟨rfl, fun _ => rfl⟩
  by_cases href : WriteiRefuses P s ip off src.length
  · rw [(writei_neg_one hdev hoff hn).2 href] at h
    cases h
    exact ⟨rfl, fun _ => rfl⟩
  · unfold WriteiRefuses at href
    have one := c.writei_oneInode live hdev (by omega) (by omega) h
    refine ⟨(writei_ref (c.fileInv live hdev) hdev (by omega) (by omega) h).2, fun x => ?_⟩
    by_cases hx : x = ip
    · subst hx; exact one.ref
    · rw [one.others x hx]

end Consistent

/-- Replacing file `f` keeps the accounting when the handles make up for what the file held
before and holds now, and the new file is well formed. -/
theorem Accounted.setFile {s : State} {held held' : Nat → Int} (a : Accounted P s held) {f : Nat}
    (hf : f < P.NFILE) {file : File}
    (hrefs : ∀ x < P.NINODE, held' x + (if file.Holds x then 1 else 0) =
      held x + (if (s.ftable f).Holds x then 1 else 0))
    (hnn : ∀ x, 0 ≤ held' x) (hlt : ∀ x, held' x ≠ 0 → x < P.NINODE)
    (hfile : file.Holds file.ip → file.ip < P.NINODE) (hpos : 0 ≤ file.ref)
    (hclosed : file.ref = 0 → file.type = .none) : Accounted P (s.setFile f file) held' := by
  refine ⟨fun x hx => ?_, hnn, hlt, fun g hg => ?_, fun g hg => ?_, fun g hg => ?_⟩
  · rw [State.setFile_icache, a.refs x hx, fileHolds_setFile hf]
    have := hrefs x hx
    split_ifs at this ⊢ <;> omega
  all_goals
    simp only [State.setFile_ftable, Function.update_apply]
    split_ifs with hgf
  exacts [hfile, a.file_lt g hg, hpos, a.file_nonneg g hg, hclosed, a.closed g hg]

/-- Changing the count of a referenced file to another positive one keeps what it holds. -/
theorem File.holds_withRef (file : File) {r : Int} (hr : 0 < r) (hf : 0 < file.ref) (x : Nat) :
    ({ file with ref := r } : File).Holds x ↔ file.Holds x := by
  simp [File.Holds, hr, hf]

/-- A file that holds a reference to `x` is counted. -/
theorem fileHolds_pos {s : State} {f x : Nat} (hf : f < P.NFILE) (h : (s.ftable f).Holds x) :
    0 < fileHolds P s x :=
  List.countP_pos_iff.mpr ⟨f, List.mem_range.mpr hf, decide_eq_true h⟩

variable (P) in
/-- One call of the inode layer or of the file table that returns, with the handles callers
hold: `iget`, `idup` and `ialloc` give the caller one on the entry they return, `iput` takes
one, and `fileOpen` moves one into a file. The disk is the root device. -/
inductive HandleStep : State × (Nat → Int) → State × (Nat → Int) → Prop
  | readi {s s' : State} {held : Nat → Int} {ip off n : Nat} {r : Int × List UInt8} :
      s.Live P ip → off < 2 ^ 32 → n < 2 ^ 32 → readi P s ip off n = .ok (r, s') →
      HandleStep (s, held) (s', held)
  | writei {s s' : State} {held : Nat → Int} {ip off : Nat} {src : List UInt8} {r : Int} :
      s.Live P ip → off < 2 ^ 32 → src.length < 2 ^ 32 →
      writei P s ip src off = .ok (r, s') →
      HandleStep (s, held) (s', held)
  | iget {s s' : State} {held : Nat → Int} {inum ip : Nat} :
      iget P s P.ROOTDEV inum = .ok (ip, s') → HandleStep (s, held) (s', held + handle ip)
  | idup {s : State} {held : Nat → Int} {ip : Nat} :
      0 < held ip → HandleStep (s, held) (idup s ip, held + handle ip)
  | ilock {s s' : State} {held : Nat → Int} {ip : Nat} :
      0 < held ip → ilock s ip = .ok s' → HandleStep (s, held) (s', held)
  | iunlock {s s' : State} {held : Nat → Int} {ip : Nat} :
      0 < held ip → iunlock s ip = .ok s' → HandleStep (s, held) (s', held)
  | iput {s s' : State} {held : Nat → Int} {ip : Nat} :
      0 < held ip → iput P s ip = .ok s' → HandleStep (s, held) (s', held - handle ip)
  | ialloc {s s' : State} {held : Nat → Int} {type : FileType} {ip : Nat} :
      ialloc P s P.ROOTDEV type = .ok (ip, s') → HandleStep (s, held) (s', held + handle ip)
  | filealloc {s s' : State} {held : Nat → Int} {r : Option Nat} :
      filealloc P s = (r, s') → HandleStep (s, held) (s', held)
  | fileOpen {s : State} {held : Nat → Int} {f ip : Nat} {readable writable : Bool} :
      f < P.NFILE → (s.ftable f).ref = 1 → (s.ftable f).type = .none → 0 < held ip →
      HandleStep (s, held) (fileOpen s f ip readable writable, held - handle ip)
  | filedup {s s' : State} {held : Nat → Int} {f : Nat} :
      f < P.NFILE → filedup s f = .ok s' → HandleStep (s, held) (s', held)
  | fileclose {s s' : State} {held : Nat → Int} {f : Nat} :
      f < P.NFILE → fileclose P s f = .ok s' → HandleStep (s, held) (s', held)

variable (P) in
/-- The invariant of the system: the inode layer is consistent on the root device, and the
references are accounted for. -/
structure HandleInv (a : State × (Nat → Int)) : Prop where
  cons : Consistent P P.ROOTDEV a.1
  acc : Accounted P a.1 a.2

namespace HandleInv

variable {s s' : State} {held held' : Nat → Int}

/-- A step of the inode layer that moves references as it moves handles keeps the
invariant. -/
theorem of_inode (inv : HandleInv P (s, held)) (c' : Consistent P P.ROOTDEV s')
    (hft : s'.ftable = s.ftable)
    (href : ∀ x < P.NINODE, (s'.icache x).ref - held' x = (s.icache x).ref - held x)
    (hnn : ∀ x, 0 ≤ held' x) (hlt : ∀ x, held' x ≠ 0 → x < P.NINODE) :
    HandleInv P (s', held') :=
  ⟨c', inv.acc.cache hft href hnn hlt⟩

/-- A step of the file table that leaves the disk and the cache keeps the invariant when it
keeps the accounting. -/
theorem of_files (inv : HandleInv P (s, held)) (hd : s'.disk = s.disk) (hi : s'.icache = s.icache)
    (acc : Accounted P s' held') : HandleInv P (s', held') :=
  ⟨inv.cons.congr hd hi, acc⟩

/-- `iput` of a handle the caller holds keeps the invariant. -/
theorem iput (inv : HandleInv P (s, held)) {ip : Nat} (hpos : 0 < held ip)
    (h : Xv6Fs.iput P s ip = .ok s') : HandleInv P (s', held - handle ip) := by
  obtain ⟨hip, href⟩ := inv.acc.ref_pos hpos
  obtain ⟨hft, hr⟩ := inv.cons.iput_frame hip href h
  obtain ⟨hnn, hlt⟩ := inv.acc.drop hpos
  exact inv.of_inode (inv.cons.iput hip href h) hft
    (fun x _ => by simp only [hr, Pi.sub_apply]; omega) hnn hlt

/-- Changing the count of a referenced file to another positive one keeps the invariant. -/
theorem setRef (inv : HandleInv P (s, held)) {f : Nat} (hf : f < P.NFILE)
    (h0 : 0 < (s.ftable f).ref) {r : Int} (hr : 0 < r) :
    HandleInv P (s.setFile f { s.ftable f with ref := r }, held) := by
  have a : Accounted P s held := inv.acc
  have e := (s.ftable f).holds_withRef hr h0
  exact inv.of_files rfl rfl (a.setFile hf (fun x _ => by simp only [e]) a.held_nonneg a.held_lt
    (fun hh => a.file_lt f hf ((e _).mp hh)) (by simp; omega) (fun h => by simp at h; omega))

/-- `filealloc` keeps the invariant: the file it claims was empty, and holds nothing. -/
theorem filealloc (inv : HandleInv P (s, held)) {r : Option Nat}
    (h : Xv6Fs.filealloc P s = (r, s')) : HandleInv P (s', held) := by
  have a : Accounted P s held := inv.acc
  unfold Xv6Fs.filealloc at h
  split at h
  · rename_i f hfind
    cases h
    have hf : f < P.NFILE := List.mem_range.mp (List.mem_of_find?_eq_some hfind)
    have hnone : (s.ftable f).type = .none := a.closed f hf (by simpa using List.find?_some hfind)
    refine inv.of_files rfl rfl (a.setFile hf (fun x _ => ?_) a.held_nonneg a.held_lt
      (fun hh => absurd hh.2.1 (by simp [hnone])) (by simp) (fun h => by simp at h))
    simp [File.Holds, hnone]
  · cases h
    exact inv

/-- `fileOpen` moves a handle of the caller into the file it fills. -/
theorem fileOpen (inv : HandleInv P (s, held)) {f ip : Nat} {readable writable : Bool}
    (hf : f < P.NFILE) (h1 : (s.ftable f).ref = 1) (hnone : (s.ftable f).type = .none)
    (hpos : 0 < held ip) :
    HandleInv P (Xv6Fs.fileOpen s f ip readable writable, held - handle ip) := by
  have a : Accounted P s held := inv.acc
  obtain ⟨hnn, hlt⟩ := a.drop hpos
  refine inv.of_files rfl rfl (a.setFile hf (fun x _ => ?_) hnn hlt
    (fun _ => (a.ref_pos hpos).1) (by simp [h1]) (fun h => by simp [h1] at h))
  by_cases hx : x = ip
  · subst hx; simp [File.Holds, hnone, h1]
  · simp [File.Holds, hnone, hx, Ne.symm hx]

/-- `filedup` keeps the invariant. -/
theorem filedup (inv : HandleInv P (s, held)) {f : Nat} (hf : f < P.NFILE)
    (h : Xv6Fs.filedup s f = .ok s') : HandleInv P (s', held) := by
  unfold Xv6Fs.filedup at h
  split at h
  · cases h
  · cases h
    exact inv.setRef hf (by omega) (by omega)

/-- `fileclose` keeps the invariant: on the last close of a file on an inode, the reference
the file held becomes a handle of the closing call, which `iput` drops. -/
theorem fileclose (inv : HandleInv P (s, held)) {f : Nat} (hf : f < P.NFILE)
    (h : Xv6Fs.fileclose P s f = .ok s') : HandleInv P (s', held) := by
  have a : Accounted P s held := inv.acc
  rcases fileclose_cases h with ⟨h1, rfl⟩ | ⟨h1, hty, hput⟩ | ⟨h1, hty, rfl⟩
  · exact inv.setRef hf (by omega) (by omega)
  · have hip := a.file_lt f hf ⟨by omega, hty, rfl⟩
    obtain ⟨hnn, hlt⟩ := a.take hip
    have inv1 : HandleInv P (s.setFile f { s.ftable f with ref := 0, type := .none },
        held + handle (s.ftable f).ip) := by
      refine inv.of_files rfl rfl (a.setFile hf (fun x _ => ?_) hnn hlt
        (fun hh => absurd hh.2.1 (by simp)) (by simp) (fun _ => rfl))
      by_cases hx : x = (s.ftable f).ip
      · rw [hx]; simp [File.Holds, hty, h1]
      · simp [File.Holds, hx, Ne.symm hx]
    simpa using inv1.iput (a.take_self _) hput
  · exact inv.of_files rfl rfl (a.setFile hf (fun x _ => by simp [File.Holds, hty]) a.held_nonneg
      a.held_lt (fun hh => absurd hh.2.1 (by simp)) (by simp) (fun _ => rfl))

/-- Every step keeps the invariant. -/
theorem step {a b : State × (Nat → Int)} (inv : HandleInv P a) (h : HandleStep P a b) :
    HandleInv P b := by
  obtain ⟨s, held⟩ := a
  have c : Consistent P P.ROOTDEV s := inv.cons
  have a : Accounted P s held := inv.acc
  cases h with
  | readi live hoff hn h =>
    obtain ⟨_, h'⟩ := c.readi_ok live hoff hn
    rw [h'] at h
    cases h
    exact inv
  | writei live hoff hn h =>
    obtain ⟨hft, hr⟩ := c.writei_frame live hoff hn h
    exact inv.of_inode (c.writei live hoff hn h) hft (fun x _ => by rw [hr]) a.held_nonneg a.held_lt
  | iget h =>
    obtain ⟨hft, hr⟩ := iget_frame h
    obtain ⟨hnn, hlt⟩ := a.take (iget_cases h).1
    exact inv.of_inode (c.iget h) hft (fun x _ => by simp only [hr, Pi.add_apply]; omega) hnn hlt
  | @idup _ _ ip hpos =>
    obtain ⟨hip, href⟩ := a.ref_pos hpos
    obtain ⟨hnn, hlt⟩ := a.take hip
    refine inv.of_inode (c.step (.idup hip href)) rfl (fun x _ => ?_) hnn hlt
    by_cases hx : x = ip
    · subst hx; simp [Xv6Fs.idup]
    · simp [Xv6Fs.idup, hx]
  | ilock hpos h =>
    obtain ⟨hft, hr⟩ := ilock_frame h
    exact inv.of_inode (c.step (.ilock (a.ref_pos hpos).1 h)) hft (fun x _ => by rw [hr])
      a.held_nonneg a.held_lt
  | iunlock hpos h =>
    obtain ⟨hft, hr⟩ := iunlock_frame h
    exact inv.of_inode (c.step (.iunlock (a.ref_pos hpos).1 h)) hft (fun x _ => by rw [hr])
      a.held_nonneg a.held_lt
  | iput hpos h => exact inv.iput hpos h
  | ialloc h =>
    obtain ⟨hip, hft, hr⟩ := ialloc_frame h
    obtain ⟨hnn, hlt⟩ := a.take hip
    exact inv.of_inode (c.ialloc h) hft (fun x _ => by simp only [hr, Pi.add_apply]; omega) hnn hlt
  | filealloc h => exact inv.filealloc h
  | fileOpen hf h1 hnone hpos => exact inv.fileOpen hf h1 hnone hpos
  | filedup hf h => exact inv.filedup hf h
  | fileclose hf h => exact inv.fileclose hf h

/-- Every run keeps the invariant. -/
theorem reach {a b : State × (Nat → Int)} (inv : HandleInv P a)
    (h : Relation.ReflTransGen (HandleStep P) a b) : HandleInv P b := by
  induction h with
  | refl => exact inv
  | tail _ st ih => exact ih.step st

end HandleInv

/-- `fileclose` in an accounted state drops one reference of the cache, the one its file
held, exactly when it closes the last reference of a file on an inode. -/
theorem HandleInv.fileclose_ref {s s' : State} {held : Nat → Int} {f : Nat}
    (inv : HandleInv P (s, held)) (hf : f < P.NFILE) (h : Xv6Fs.fileclose P s f = .ok s') :
    ∀ x < P.NINODE, (s'.icache x).ref =
      (s.icache x).ref - (if (s.ftable f).ref = 1 ∧ (s.ftable f).Holds x then 1 else 0) := by
  have c : Consistent P P.ROOTDEV s := inv.cons
  have a : Accounted P s held := inv.acc
  rcases fileclose_cases h with ⟨h1, rfl⟩ | ⟨h1, hty, hput⟩ | ⟨h1, hty, rfl⟩
  · intro x _
    simp [show (s.ftable f).ref ≠ 1 by omega]
  · have hold : (s.ftable f).Holds (s.ftable f).ip := ⟨by omega, hty, rfl⟩
    have hip := a.file_lt f hf hold
    have href : 0 < (s.icache (s.ftable f).ip).ref := by
      have := fileHolds_pos hf hold
      have := a.held_nonneg (s.ftable f).ip
      rw [a.refs _ hip]
      omega
    have c1 : Consistent P P.ROOTDEV (s.setFile f { s.ftable f with ref := 0, type := .none }) :=
      c.congr rfl rfl
    obtain ⟨-, hr⟩ := c1.iput_frame hip href hput
    intro x _
    rw [hr]
    by_cases hx : x = (s.ftable f).ip
    · rw [hx]; simp [File.Holds, h1, hty]
    · simp [File.Holds, hx, Ne.symm hx]
  · intro x _
    simp [File.Holds, hty]

/-- An entry that `iget` claims has its flags cleared, so that the `ilock` that follows loads
the dinode of its new identity from the disk. -/
theorem iget_fresh {s s' : State} {dev inum ip : Nat} (h : iget P s dev inum = .ok (ip, s'))
    (h0 : (s.icache ip).ref = 0) :
    (s'.icache ip).busy = false ∧ (s'.icache ip).valid = false ∧
      ∀ s'', ilock s' ip = .ok s'' → (s''.icache ip).toDinode = s'.disk.dinodes inum := by
  obtain ⟨-, ⟨hr, -⟩ | ⟨-, -, rfl⟩⟩ := iget_cases h
  · omega
  refine ⟨by simp, by simp, fun s'' hl => ?_⟩
  unfold ilock at hl
  simp at hl
  split at hl
  · cases hl
  · cases hl
    simp

end Xv6Fs
