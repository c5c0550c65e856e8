import Xv6Fs.FileRuns
import Xv6Fs.NoLeaks

/-!
# The file layer over the inode layer

The calls of the file layer are built from those of the inode layer: `fileread` is `ilock`,
`readi` and `iunlock` around a move of the offset, a transaction of `filewrite` is the same with
`writei` between two records of the log, `filestat` is `ilock` and `iunlock`, and `fileclose`
ends in `iput`. What lies between them changes the file table or the log, never the disk or the
cache. `InodeLevelStep` is that view of a step: a step of the inode layer on the root device, or
one that leaves the disk and the cache as they are.

Every call of the file layer from a state with `HandleInv` is a run of such steps
(`FileStep.lower`), and so is every run of the file layer (`file_layer_refines_inode_layer`).
The invariants of the inode layer then hold over the runs of the file layer: `Consistent` and
`NoLeak` are kept by every step of the inode layer and read neither the table nor the log, so
the bitmap is exact on the blocks that were free at the start of a run of the file layer too.
-/

namespace Xv6Fs

variable {P : Params}

variable (P) in
/-- A step as the inode layer sees it: a step of the inode layer on the root device, or one that
leaves the disk, the cache, the table of unlocked inodes and the device switch as they are, so
that it changes at most the file table and the log. -/
inductive InodeLevelStep : State → State → Prop
  | inode {s s' : State} : InodeStep P P.ROOTDEV s s' → InodeLevelStep s s'
  | table {s s' : State} : s'.disk = s.disk → s'.icache = s.icache → s'.unlocked = s.unlocked →
      s'.devsw = s.devsw → InodeLevelStep s s'

/-- The runs of `InodeLevelStep`. -/
abbrev InodeLevelRun (P : Params) := Relation.ReflTransGen (InodeLevelStep P)

variable {s s' : State} {held : Nat → Int}

/-- `filealloc` is a step of the table. -/
theorem filealloc_table {r : Option Nat} (h : filealloc P s = (r, s')) : InodeLevelStep P s s' := by
  unfold filealloc at h
  split at h <;> cases h <;> exact .table rfl rfl rfl rfl

/-- `filedup` is a step of the table. -/
theorem filedup_table {f : Nat} (h : filedup s f = .ok s') : InodeLevelStep P s s' := by
  unfold filedup at h
  split at h <;> cases h
  exact .table rfl rfl rfl rfl

/-- A call of the inode layer or of the file table is a run of the inode layer: the steps of the
table change neither the disk nor the cache, and `fileclose` ends in an `iput` of the entry its
file held. -/
theorem HandleStep.lower {a b : State × (Nat → Int)} (inv : HandleInv P a)
    (h : HandleStep P a b) : InodeLevelRun P a.1 b.1 := by
  obtain ⟨s, held⟩ := a
  have a : Accounted P s held := inv.acc
  cases h with
  | readi live hoff hn h => exact .single (.inode (.readi live hoff hn h))
  | writei live hoff hn h => exact .single (.inode (.writei live hoff hn h))
  | iget h => exact .single (.inode (.iget h))
  | idup hpos =>
    obtain ⟨hip, href⟩ := a.ref_pos hpos
    exact .single (.inode (.idup hip href))
  | ilock hpos h => exact .single (.inode (.ilock (a.ref_pos hpos).1 h))
  | iunlock hpos h => exact .single (.inode (.iunlock (a.ref_pos hpos).1 h))
  | iput hpos h =>
    obtain ⟨hip, href⟩ := a.ref_pos hpos
    exact .single (.inode (.iput hip href h))
  | ialloc h => exact .single (.inode (.ialloc h))
  | filealloc h => exact .single (filealloc_table h)
  | fileOpen _ _ _ _ => exact .single (.table rfl rfl rfl rfl)
  | filedup _ h => exact .single (filedup_table h)
  | fileclose hf h =>
    rcases fileclose_cases h with ⟨-, rfl⟩ | ⟨-, hty, hput⟩ | ⟨-, -, rfl⟩
    · exact .single (.table rfl rfl rfl rfl)
    · obtain ⟨hip, href⟩ := inv.file_entry hf hty
      exact .tail (.single (.table (by rfl) (by rfl) (by rfl) (by rfl)))
        (.inode (.iput hip (by exact href) hput))
    · exact .single (.table rfl rfl rfl rfl)

/-- A run of calls is a run of the inode layer. -/
theorem HandleInv.lowerCalls {a b : State × (Nat → Int)} (inv : HandleInv P a)
    (h : Relation.ReflTransGen (HandleStep P) a b) : InodeLevelRun P a.1 b.1 := by
  induction h with
  | refl => exact .refl
  | tail hab st ih => exact ih.trans (HandleStep.lower (inv.reach hab) st)

/-- `fileread` is `ilock`, `readi`, a move of the offset and `iunlock`. -/
theorem fileread_lower (inv : HandleInv P (s, held)) {piperead : Nat → Nat → Int × List UInt8}
    {f n : Nat} {r : Int × List UInt8} (hf : f < P.NFILE) (hoff : (s.ftable f).off < 2 ^ 32)
    (hn : n < 2 ^ 32) (h : fileread P piperead s f n = .ok (r, s')) : InodeLevelRun P s s' := by
  rcases fileread_cases h with rfl | ⟨hty, s₁, s₂, h₁, h₂, h₃⟩
  · exact .refl
  obtain ⟨-, live, hft, -, -⟩ := inv.ilock_file hf hty h₁
  exact (((Relation.ReflTransGen.single (.inode (.ilock live.1 h₁))).tail
    (.inode (.readi live (by rw [hft]; exact hoff) hn h₂))).tail
    (.table (by split <;> rfl) (by split <;> rfl) (by split <;> rfl) (by split <;> rfl))).tail
    (.inode (.iunlock live.1 h₃))

/-- A transaction of `filewrite` is a record of the log, `ilock`, `writei`, a move of the
offset, `iunlock` and a record of the log. -/
theorem filewriteChunk_lower (inv : HandleInv P (s, held)) {f : Nat} {src : List UInt8}
    {r : Int} (hf : f < P.NFILE) (hty : (s.ftable f).type = .inode)
    (hoff : (s.ftable f).off < 2 ^ 32) (hn : src.length < 2 ^ 32)
    (h : filewriteChunk P s f src = .ok (r, s')) : InodeLevelRun P s s' := by
  obtain ⟨s₁, s₂, s₃, h₁, h₂, h₃, rfl⟩ := filewriteChunk_cases h
  obtain ⟨-, live, hft, -, -⟩ := inv.ilock_trans_file hf hty h₁
  exact (((((Relation.ReflTransGen.single (.table (by rfl) (by rfl) (by rfl) (by rfl))).tail
    (.inode (.ilock live.1 h₁))).tail (.inode (.writei live (by rw [hft]; exact hoff) hn h₂))).tail
    (.table (by split <;> rfl) (by split <;> rfl) (by split <;> rfl) (by split <;> rfl))).tail
    (.inode (.iunlock live.1 h₃))).tail (.table (by rfl) (by rfl) (by rfl) (by rfl))

/-- `filewrite` is its transactions one after the other. -/
theorem filewrite_lower (inv : HandleInv P (s, held)) {pipewrite : Nat → List UInt8 → Int}
    {f : Nat} {src : List UInt8} {r : Int} (hf : f < P.NFILE)
    (hoff : (s.ftable f).off < 2 ^ 32) (hn : src.length < 2 ^ 32)
    (h : filewrite P pipewrite s f src = .ok (r, s')) : InodeLevelRun P s s' :=
  (filewrite_keeps (fun t => HandleInv P (t, held) ∧ InodeLevelRun P s t)
    (fun q hty hoff hc h => by
      obtain ⟨inv', hty', hoff'⟩ := q.1.filewriteChunk hf hty hoff hc h
      exact ⟨⟨inv', q.2.trans (filewriteChunk_lower q.1 hf hty hoff hc h)⟩, hty', hoff'⟩)
    ⟨inv, .refl⟩ hoff hn h).2

/-- `filestat` is `ilock` and `iunlock`. -/
theorem filestat_lower (inv : HandleInv P (s, held)) {f : Nat} {r : Int × Option Stat}
    (hf : f < P.NFILE) (h : filestat s f = .ok (r, s')) : InodeLevelRun P s s' := by
  rcases filestat_cases h with ⟨-, -, rfl⟩ | ⟨hty, s₁, h₁, h₂, -⟩
  · exact .refl
  obtain ⟨hip, -⟩ := inv.file_entry hf hty
  exact (Relation.ReflTransGen.single (.inode (.ilock hip h₁))).tail (.inode (.iunlock hip h₂))

/-- Every call of the file layer is a run of the inode layer. -/
theorem FileStep.lower {a b : State × (Nat → Int)} (inv : HandleInv P a) (h : FileStep P a b) :
    InodeLevelRun P a.1 b.1 := by
  cases h with
  | sys st => exact inv.lowerCalls (st.calls inv)
  | filestat hf h => exact filestat_lower inv hf h
  | fileread hf hoff hn h => exact fileread_lower inv hf hoff hn h
  | filewrite hf hoff hn h => exact filewrite_lower inv hf hoff hn h

/-- Every run of the file layer is a run of the inode layer. -/
theorem HandleInv.fileLower {a b : State × (Nat → Int)} (inv : HandleInv P a)
    (h : Relation.ReflTransGen (FileStep P) a b) : InodeLevelRun P a.1 b.1 := by
  induction h with
  | refl => exact .refl
  | tail hab st ih => exact ih.trans (FileStep.lower (inv.fileReach hab) st)

/-- A run of the inode layer from a consistent state keeps the invariant and loses no block. -/
theorem InodeLevelRun.noLeak {s₀ s : State} (c₀ : Consistent P P.ROOTDEV s₀)
    (h : InodeLevelRun P s₀ s) : Consistent P P.ROOTDEV s ∧ NoLeak P s₀ s := by
  induction h with
  | refl => exact ⟨c₀, fun y hy hy₀ => by rw [hy] at hy₀; cases hy₀⟩
  | tail _ st ih =>
    cases st with
    | inode st => exact ⟨ih.1.step st, ih.2.step c₀.boot ih.1 st⟩
    | table hd hi _ _ => exact ⟨ih.1.congr hd hi, by unfold NoLeak; rw [hd]; exact ih.2⟩

/-- Every run of the file layer from a consistent, accounted state is, on the disk and the inode
cache, a run of the inode layer on the root device, whose other steps change only the file table
and the log. Hence the bitmap is exact on the blocks that were free at its start: in every state
the run reaches, such a block is marked exactly when it is in a slot of a dinode in use. -/
theorem file_layer_refines_inode_layer {s₀ s : State} {held₀ held : Nat → Int}
    (c₀ : Consistent P P.ROOTDEV s₀) (a₀ : Accounted P s₀ held₀)
    (run : Relation.ReflTransGen (FileStep P) (s₀, held₀) (s, held)) :
    Relation.ReflTransGen (InodeLevelStep P) s₀ s ∧
    ∀ y, s₀.disk.allocated P y = false → (s.disk.allocated P y ↔
      ∃ i τ, τ.Valid P ∧ s.disk.InUse i ∧ s.disk.blk P i τ = y ∧ y ≠ 0) := by
  have lower : InodeLevelRun P s₀ s := HandleInv.fileLower ⟨c₀, a₀⟩ run
  obtain ⟨c, nl⟩ := lower.noLeak c₀
  exact ⟨lower, nl.bitmap_exact c₀.boot c⟩

theorem file_layer_refines_inode_layer_openRootFs :
    Consistent Params.sample Params.sample.ROOTDEV sampleFs ∧
    Accounted Params.sample sampleFs (handle 0) ∧
    Relation.ReflTransGen (FileStep Params.sample) (sampleFs, handle 0)
      (openRootFs, handle 0 - handle 0) ∧
    Relation.ReflTransGen (InodeLevelStep Params.sample) sampleFs openRootFs ∧
    ∀ y, sampleFs.disk.allocated Params.sample y = false →
      (openRootFs.disk.allocated Params.sample y ↔ ∃ i τ, τ.Valid Params.sample ∧
        openRootFs.disk.InUse i ∧ openRootFs.disk.blk Params.sample i τ = y ∧ y ≠ 0) :=
  ⟨sampleFs_consistent, sampleFs_accounted, openRootFs_run,
    file_layer_refines_inode_layer sampleFs_consistent sampleFs_accounted openRootFs_run⟩

end Xv6Fs
