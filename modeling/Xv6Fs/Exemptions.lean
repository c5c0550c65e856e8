import Xv6Fs.Password
import Xv6Fs.Ownership

/-!
# The exemption table as a map of sets

`unlocked_inodes.pids` holds, for each inode number below `NINODES`, a row of `NPROC` process
ids, `0` for a free slot. What the password routines need of it is a finite set of processes per
inode: `State.exemptions` reads each row as the set of its nonzero ids. The spec's operations on
such a map are `Exemptions.grant`, `Exemptions.revoke` and `Exemptions.fork`, and each routine of
the table refines one of them (`unlockInode_cases`, `freeInodeLocks_exemptions`,
`forkPids_cases`, `isInodeUnlocked_eq`).

The two passes of `unlock_inode` and the fresh child id of `fork_pids` keep every row free of
duplicates (`RowsNodup`) over every run of the routines from the zeroed table.

Only the exit of a process takes it out of a row. Over every run in which `p` does not exit
(`NoExitStep`), `p` keeps each exemption it has, and `iput` and `ialloc`, which free inode
numbers and reuse them, never touch the table (`exemption_lasts_until_exit`).
-/

namespace Xv6Fs

variable (P : Params)

/-- The grant of an exemption on inode `i` to process `p`. -/
def Exemptions.grant (e : Nat → Finset Int) (i : Nat) (p : Int) : Nat → Finset Int :=
  Function.update e i (insert p (e i))

/-- The exit of process `p`: it loses every exemption. -/
def Exemptions.revoke (e : Nat → Finset Int) (p : Int) : Nat → Finset Int :=
  fun i => (e i).erase p

/-- The fork of `o` into `c`: `c` gets every exemption `o` has. -/
def Exemptions.fork (e : Nat → Finset Int) (o c : Int) : Nat → Finset Int :=
  fun i => if o ∈ e i then insert c (e i) else e i

/-- The nonzero process ids in the `NPROC` slots of a row. -/
def slots (row : Nat → Int) : Finset Int :=
  ((List.range P.NPROC).map row).toFinset.erase 0

/-- Every slot of the row is taken. -/
def RowFull (row : Nat → Int) : Prop := ∀ j < P.NPROC, row j ≠ 0

/-- No nonzero process id is in two slots of the row. -/
def RowNodup (row : Nat → Int) : Prop :=
  ∀ j < P.NPROC, ∀ k < P.NPROC, row j ≠ 0 → row j = row k → j = k

/-- No row of the table holds a nonzero process id twice. -/
def RowsNodup (t : Nat → Nat → Int) : Prop := ∀ i < NINODES, RowNodup P (t i)

/-- Replace row `i` of the table. -/
def State.setRow (s : State) (i : Nat) (row : Nat → Int) : State :=
  { s with unlocked := Function.update s.unlocked i row }

/-- The table of `s` as the spec sees it: the set of each row below `NINODES`. -/
def State.exemptions (s : State) (i : Nat) : Finset Int :=
  if i < NINODES then slots P (s.unlocked i) else ∅

variable {P}

theorem mem_slots {row : Nat → Int} {p : Int} :
    p ∈ slots P row ↔ p ≠ 0 ∧ ∃ j < P.NPROC, row j = p := by
  simp [slots]

theorem mem_exemptions {s : State} {i : Nat} {p : Int} (hi : i < NINODES) (hp : p ≠ 0) :
    p ∈ s.exemptions P i ↔ ∃ j < P.NPROC, s.unlocked i j = p := by
  simp [State.exemptions, hi, mem_slots, hp]

/-- A search of `NPROC` slots answers whether some slot satisfies the test. -/
theorem any_range {n : Nat} {q : Nat → Prop} [DecidablePred q] :
    ((List.range n).any fun j => decide (q j)) = decide (∃ j < n, q j) := by
  rw [Bool.eq_iff_iff]
  simp

/-- The first free slot `find?` returns, or a full row. -/
theorem find_free_cases (row : Nat → Int) :
    (List.range P.NPROC).find? (fun k => row k = 0) = none ∧ RowFull P row ∨
      ∃ k < P.NPROC, row k = 0 ∧ (List.range P.NPROC).find? (fun k => row k = 0) = some k := by
  cases h : (List.range P.NPROC).find? fun k => row k = 0 with
  | none =>
    refine .inl ⟨rfl, fun j hj h0 => ?_⟩
    exact List.find?_eq_none.mp h j (List.mem_range.mpr hj) (by simpa using h0)
  | some k =>
    exact .inr ⟨k, List.mem_range.mp (List.mem_of_find?_eq_some h),
      by simpa using List.find?_some h, rfl⟩

/-- Writing a nonzero id into a free slot adds it to the set of the row. -/
theorem slots_update {row : Nat → Int} {k : Nat} {p : Int} (hk : k < P.NPROC) (h0 : row k = 0)
    (hp : p ≠ 0) : slots P (Function.update row k p) = insert p (slots P row) := by
  ext q
  simp only [Finset.mem_insert, mem_slots]
  constructor
  · rintro ⟨hq, j, hj, hjq⟩
    by_cases hjk : j = k
    · subst hjk
      exact .inl (by simpa using hjq.symm)
    · exact .inr ⟨hq, j, hj, by rwa [Function.update_noteq hjk] at hjq⟩
  · rintro (rfl | ⟨hq, j, hj, rfl⟩)
    · exact ⟨hp, k, hk, by simp⟩
    · have hjk : j ≠ k := by rintro rfl; exact hq h0
      exact ⟨hq, j, hj, Function.update_noteq hjk _ _⟩

/-- Writing an id the row does not hold into a free slot keeps the row free of duplicates. -/
theorem rowNodup_update {row : Nat → Int} {k : Nat} {p : Int} (nd : RowNodup P row)
    (hk : k < P.NPROC) (h0 : row k = 0) (hp : p ∉ slots P row) :
    RowNodup P (Function.update row k p) := by
  have fresh : ∀ j < P.NPROC, row j = p → p = 0 := fun j hj hjp =>
    by_contra fun hp0 => hp (mem_slots.mpr ⟨hp0, j, hj, hjp⟩)
  intro j hj j' hj' hne heq
  by_cases hjk : j = k <;> by_cases hj'k : j' = k
  · rw [hjk, hj'k]
  · subst hjk
    simp only [Function.update_same, Function.update_noteq hj'k] at hne heq
    exact absurd (fresh j' hj' heq.symm) hne
  · subst hj'k
    simp only [Function.update_same, Function.update_noteq hjk] at hne heq
    exact absurd (fresh j hj heq) (heq ▸ hne)
  · simp only [Function.update_noteq hjk, Function.update_noteq hj'k] at hne heq
    exact nd j hj j' hj' hne heq

theorem inRow_eq {s : State} {p : Int} {inum : Nat} (hi : inum < NINODES) :
    inRow P s p inum = .ok (decide (∃ j < P.NPROC, s.unlocked inum j = p)) := by
  rw [inRow, if_neg (Nat.not_le.mpr hi), any_range]

/-- What `unlock_inode` does: nothing when the process is in the row, a panic when it is not
and the row is full, and otherwise it writes the process into the first free slot. -/
theorem unlockInode_cases {s : State} {p : Int} {inum : Nat} (hi : inum < NINODES) :
    (∃ j < P.NPROC, s.unlocked inum j = p) ∧ unlockInode P s p inum = .ok s ∨
    (¬ ∃ j < P.NPROC, s.unlocked inum j = p) ∧ RowFull P (s.unlocked inum) ∧
      unlockInode P s p inum = .error (.panic "unlock_inodes: No free pid slots found") ∨
    (¬ ∃ j < P.NPROC, s.unlocked inum j = p) ∧ ∃ k < P.NPROC, s.unlocked inum k = 0 ∧
      unlockInode P s p inum = .ok (s.setRow inum (Function.update (s.unlocked inum) k p)) := by
  unfold unlockInode
  rw [inRow_eq hi]
  by_cases hin : ∃ j < P.NPROC, s.unlocked inum j = p
  · exact .inl ⟨hin, by simp [hin, bind, Except.bind, pure, Except.pure]⟩
  have hd : decide (∃ j < P.NPROC, s.unlocked inum j = p) = false := decide_eq_false hin
  simp only [hd, bind, Except.bind, Bool.false_eq_true, if_false]
  rcases find_free_cases (s.unlocked inum) with ⟨hnone, hfull⟩ | ⟨k, hk, h0, hfind⟩
  · exact .inr (.inl ⟨hin, hfull, by rw [hnone]⟩)
  · exact .inr (.inr ⟨hin, k, hk, h0, by rw [hfind]; rfl⟩)

/-- Clearing the slots that hold `p` removes `p` from the set of the row. -/
theorem slots_clear (row : Nat → Int) (p : Int) :
    slots P (fun j => if j < P.NPROC ∧ row j = p then 0 else row j) = (slots P row).erase p := by
  ext q
  simp only [Finset.mem_erase, mem_slots]
  constructor
  · rintro ⟨hq, j, hj, hjq⟩
    split_ifs at hjq with hc
    · exact absurd hjq.symm hq
    · exact ⟨fun hqp => hc ⟨hj, hjq.trans hqp⟩, hq, j, hj, hjq⟩
  · rintro ⟨hqp, hq, j, hj, rfl⟩
    exact ⟨hq, j, hj, if_neg fun hc => hqp hc.2⟩

/-- `free_inode_locks` refines the exit of the process. -/
theorem freeInodeLocks_exemptions (s : State) (p : Int) :
    (freeInodeLocks P s p).exemptions P = Exemptions.revoke (s.exemptions P) p := by
  funext i
  unfold State.exemptions Exemptions.revoke
  split_ifs with hi
  · simp only [freeInodeLocks, hi, true_and]
    exact slots_clear (s.unlocked i) p
  · simp [hi]

/-- What `fork_pids` does to one row: nothing if the parent is not in it, a panic if it is and
the row is full, and otherwise it writes the child into the first free slot. -/
theorem forkRow_cases (row : Nat → Int) (o c : Int) :
    (¬ ∃ j < P.NPROC, row j = o) ∧ forkRow P row o c = .ok row ∨
    (∃ j < P.NPROC, row j = o) ∧ RowFull P row ∧
      forkRow P row o c = .error (.panic "fork_pids: No free pid slots found") ∨
    (∃ j < P.NPROC, row j = o) ∧ ∃ k < P.NPROC, row k = 0 ∧
      forkRow P row o c = .ok (Function.update row k c) := by
  unfold forkRow
  rw [any_range]
  by_cases hin : ∃ j < P.NPROC, row j = o
  · rw [if_pos (decide_eq_true hin)]
    rcases find_free_cases row with ⟨hnone, hfull⟩ | ⟨k, hk, h0, hfind⟩
    · exact .inr (.inl ⟨hin, hfull, by rw [hnone]⟩)
    · exact .inr (.inr ⟨hin, k, hk, h0, by rw [hfind]⟩)
  · exact .inl ⟨hin, by rw [if_neg (by simpa using hin)]⟩

/-- `fork_pids` fails on a row only when the parent is in it and it is full. -/
theorem forkRow_error {row : Nat → Int} {o c : Int} {e : Fault}
    (h : forkRow P row o c = .error e) :
    e = .panic "fork_pids: No free pid slots found" ∧ (∃ j < P.NPROC, row j = o) ∧
      RowFull P row := by
  rcases forkRow_cases row o c with ⟨_, hr⟩ | ⟨hin, hfull, hr⟩ | ⟨_, _, _, _, hr⟩ <;>
    rw [hr] at h <;> cases h
  exact ⟨rfl, hin, hfull⟩

/-- A row that holds the parent and where `fork_pids` succeeds was not full. -/
theorem forkRow_ok {row row' : Nat → Int} {o c : Int} (h : forkRow P row o c = .ok row')
    (hin : ∃ j < P.NPROC, row j = o) : ¬ RowFull P row := fun hfull => by
  rcases forkRow_cases row o c with ⟨hno, -⟩ | ⟨-, -, hr⟩ | ⟨-, k, hk, h0, -⟩
  · exact hno hin
  · rw [hr] at h; cases h
  · exact hfull k hk h0

/-- The loop of `fork_pids` over the rows `is`: it panics at a row that holds the parent and is
full, or it runs `forkRow` on each of them and leaves the others. -/
theorem forkLoop_cases {o c : Int} :
    ∀ (is : List Nat) (t : Nat → Nat → Int), is.Nodup →
      (is.foldlM (fun (t : Nat → Nat → Int) i => do
          let row ← forkRow P (t i) o c
          pure (Function.update t i row)) t =
            .error (.panic "fork_pids: No free pid slots found") ∧
        ∃ i ∈ is, (∃ j < P.NPROC, t i j = o) ∧ RowFull P (t i)) ∨
      ∃ t', is.foldlM (fun (t : Nat → Nat → Int) i => do
          let row ← forkRow P (t i) o c
          pure (Function.update t i row)) t = .ok t' ∧
        (∀ i ∈ is, (∃ j < P.NPROC, t i j = o) → ¬ RowFull P (t i)) ∧
        ∀ i, (i ∈ is → forkRow P (t i) o c = .ok (t' i)) ∧ (i ∉ is → t' i = t i)
  | [], t, _ => .inr ⟨t, rfl, by simp, fun _ => ⟨by simp, fun _ => rfl⟩⟩
  | i :: is, t, hnd => by
    rw [List.nodup_cons] at hnd
    rw [List.foldlM_cons]
    cases hr : forkRow P (t i) o c with
    | error e =>
      obtain ⟨rfl, hin, hfull⟩ := forkRow_error hr
      exact .inl ⟨rfl, i, List.mem_cons_self _ _, hin, hfull⟩
    | ok row =>
      have hsame : ∀ x ∈ is, Function.update t i row x = t x := fun x hx =>
        Function.update_noteq (ne_of_mem_of_not_mem hx hnd.1) _ _
      rcases forkLoop_cases is (Function.update t i row) hnd.2 with
        ⟨herr, x, hx, hin, hfull⟩ | ⟨t', hfold, hnf, hrows⟩
      · rw [hsame x hx] at hin hfull
        exact .inl ⟨herr, x, List.mem_cons_of_mem _ hx, hin, hfull⟩
      · refine .inr ⟨t', hfold, fun x hx hin => ?_, fun x => ⟨fun hx => ?_, fun hx => ?_⟩⟩
        · rcases List.mem_cons.mp hx with rfl | hx
          · exact forkRow_ok hr hin
          · rw [← hsame x hx] at hin ⊢
            exact hnf x hx hin
        · rcases List.mem_cons.mp hx with rfl | hx
          · rw [(hrows x).2 hnd.1, Function.update_same]
            exact hr
          · rw [← hsame x hx]
            exact (hrows x).1 hx
        · rw [List.mem_cons, not_or] at hx
          rw [(hrows x).2 hx.2, Function.update_noteq hx.1]

/-- What `fork_pids` does: it panics when a row below `NINODES` holds the parent and is full,
and otherwise runs `forkRow` on every such row and changes nothing else. -/
theorem forkPids_cases (s : State) (o c : Int) :
    (forkPids P s o c = .error (.panic "fork_pids: No free pid slots found") ∧
      ∃ i < NINODES, (∃ j < P.NPROC, s.unlocked i j = o) ∧ RowFull P (s.unlocked i)) ∨
    ∃ t', forkPids P s o c = .ok { s with unlocked := t' } ∧
      (∀ i < NINODES, (∃ j < P.NPROC, s.unlocked i j = o) → ¬ RowFull P (s.unlocked i)) ∧
      ∀ i, (i < NINODES → forkRow P (s.unlocked i) o c = .ok (t' i)) ∧
        (NINODES ≤ i → t' i = s.unlocked i) := by
  unfold forkPids
  rcases forkLoop_cases (List.range NINODES) s.unlocked (List.nodup_range _) with
    ⟨herr, i, hi, hin, hfull⟩ | ⟨t', hfold, hnf, hrows⟩
  · exact .inl ⟨by rw [herr]; rfl, i, List.mem_range.mp hi, hin, hfull⟩
  · refine .inr ⟨t', by rw [hfold]; rfl, fun i hi => hnf i (List.mem_range.mpr hi), fun i =>
      ⟨fun hi => (hrows i).1 (List.mem_range.mpr hi), fun hi => (hrows i).2 ?_⟩⟩
    simpa using hi

/-- The set of a row after `fork_pids`: the child joins exactly when the parent is in it. -/
theorem slots_forkRow {row row' : Nat → Int} {o c : Int} (ho : o ≠ 0) (hc : c ≠ 0)
    (h : forkRow P row o c = .ok row') :
    slots P row' = if o ∈ slots P row then insert c (slots P row) else slots P row := by
  rcases forkRow_cases row o c with ⟨hno, hr⟩ | ⟨-, -, hr⟩ | ⟨hin, k, hk, h0, hr⟩ <;>
    rw [hr] at h <;> cases h
  · rw [if_neg fun hmem => hno (mem_slots.mp hmem).2]
  · rw [if_pos (mem_slots.mpr ⟨ho, hin⟩), slots_update hk h0 hc]

/-- A child that is in no row keeps the row free of duplicates. -/
theorem rowNodup_forkRow {row row' : Nat → Int} {o c : Int} (nd : RowNodup P row)
    (hc : c ∉ slots P row) (h : forkRow P row o c = .ok row') : RowNodup P row' := by
  rcases forkRow_cases row o c with ⟨-, hr⟩ | ⟨-, -, hr⟩ | ⟨-, k, hk, h0, hr⟩ <;>
    rw [hr] at h <;> cases h
  · exact nd
  · exact rowNodup_update nd hk h0 hc

theorem exemptions_setRow {s : State} {i : Nat} (hi : i < NINODES) (row : Nat → Int) :
    (s.setRow i row).exemptions P = Function.update (s.exemptions P) i (slots P row) := by
  funext x
  by_cases hx : x = i
  · subst hx
    simp [State.exemptions, State.setRow, hi]
  · simp [State.exemptions, State.setRow, hx]

/-- `is_inode_unlocked` answers membership in the set of the row. -/
theorem isInodeUnlocked_eq {s : State} {p : Int} {inum : Nat} (hi : inum < NINODES)
    (hp : p ≠ 0) :
    isInodeUnlocked P s p inum = .ok (if p ∈ s.exemptions P inum then 1 else 0) := by
  unfold isInodeUnlocked
  rw [inRow_eq hi]
  by_cases hin : p ∈ s.exemptions P inum
  · simp [hin, (mem_exemptions hi hp).mp hin, bind, Except.bind, pure, Except.pure]
  · simp [hin, (mem_exemptions hi hp).not.mp hin, bind, Except.bind, pure, Except.pure]

variable (P) in
/-- The routines of `unlocked_inodes` at `s` refine the operations of the abstract table, and
the rows of `s` are free of duplicates. -/
structure RefinesExemptions (s : State) : Prop where
  nodup : RowsNodup P s.unlocked
  unlock_present : ∀ p inum, inum < NINODES → p ∈ s.exemptions P inum →
    unlockInode P s p inum = .ok s
  unlock_full : ∀ p inum, inum < NINODES → p ∉ s.exemptions P inum →
    RowFull P (s.unlocked inum) →
    unlockInode P s p inum = .error (.panic "unlock_inodes: No free pid slots found")
  unlock_grant : ∀ p inum, p ≠ 0 → inum < NINODES → p ∉ s.exemptions P inum →
    ¬ RowFull P (s.unlocked inum) → ∃ s', unlockInode P s p inum = .ok s' ∧
      s'.exemptions P = Exemptions.grant (s.exemptions P) inum p ∧
      s' = { s with unlocked := s'.unlocked }
  exit : ∀ p, (freeInodeLocks P s p).exemptions P = Exemptions.revoke (s.exemptions P) p
  fork : ∀ o c, o ≠ 0 → c ≠ 0 →
    (forkPids P s o c = .error (.panic "fork_pids: No free pid slots found") ∧
      ∃ i < NINODES, o ∈ s.exemptions P i ∧ RowFull P (s.unlocked i)) ∨
    ∃ s', forkPids P s o c = .ok s' ∧
      (∀ i < NINODES, o ∈ s.exemptions P i → ¬ RowFull P (s.unlocked i)) ∧
      s'.exemptions P = Exemptions.fork (s.exemptions P) o c ∧
      s' = { s with unlocked := s'.unlocked }
  query : ∀ p inum, p ≠ 0 → inum < NINODES →
    isInodeUnlocked P s p inum = .ok (if p ∈ s.exemptions P inum then 1 else 0)

/-- Every routine refines its operation at every state; only `nodup` needs the rows of `s`. -/
theorem refinesExemptions_of_nodup {s : State} (nd : RowsNodup P s.unlocked) :
    RefinesExemptions P s := by
  refine ⟨nd, fun p inum hi hin => ?_, fun p inum hi hno hfull => ?_,
    fun p inum hp hi hno hnf => ?_, freeInodeLocks_exemptions s, fun o c ho hc => ?_,
    fun p inum hp hi => isInodeUnlocked_eq hi hp⟩
  · have hp : p ≠ 0 := by rintro rfl; simp [State.exemptions, hi, mem_slots] at hin
    rw [mem_exemptions hi hp] at hin
    rcases unlockInode_cases (s := s) (p := p) hi with ⟨-, h⟩ | ⟨hno, -⟩ | ⟨hno, -⟩
    exacts [h, absurd hin hno, absurd hin hno]
  · rcases unlockInode_cases (s := s) (p := p) hi with
      ⟨hin, -⟩ | ⟨-, -, h⟩ | ⟨-, k, hk, h0, -⟩
    · by_cases hp : p = 0
      · subst hp; obtain ⟨j, hj, hj0⟩ := hin; exact absurd hj0 (hfull j hj)
      · exact absurd ((mem_exemptions hi hp).mpr hin) hno
    · exact h
    · exact absurd h0 (hfull k hk)
  · rw [mem_exemptions hi hp] at hno
    rcases unlockInode_cases (s := s) (p := p) hi with
      ⟨hin, -⟩ | ⟨-, hfull, -⟩ | ⟨-, k, hk, h0, h⟩
    · exact absurd hin hno
    · exact absurd hfull hnf
    · refine ⟨_, h, ?_, rfl⟩
      rw [exemptions_setRow hi, slots_update hk h0 hp]
      simp [Exemptions.grant, State.exemptions, hi]
  · rcases forkPids_cases s o c with ⟨h, i, hi, hin, hfull⟩ | ⟨t', h, hnf, hrows⟩
    · exact .inl ⟨h, i, hi, (mem_exemptions hi ho).mpr hin, hfull⟩
    · refine .inr ⟨_, h, fun i hi hin => hnf i hi ((mem_exemptions hi ho).mp hin), ?_, rfl⟩
      funext i
      unfold State.exemptions Exemptions.fork
      by_cases hi : i < NINODES
      · simp only [if_pos hi]
        exact slots_forkRow ho hc ((hrows i).1 hi)
      · simp [hi]

variable (P) in
/-- A step of the system on the table: one of its routines, with the child of `fork_pids` in
no row, or any other step, which leaves the table. -/
inductive TableStep : State → State → Prop
  | unlock {s s' : State} {pid : Int} {inum : Nat} :
      unlockInode P s pid inum = .ok s' → TableStep s s'
  | exit {s : State} {pid : Int} : TableStep s (freeInodeLocks P s pid)
  | fork {s s' : State} {o c : Int} : (∀ i < NINODES, c ∉ s.exemptions P i) →
      forkPids P s o c = .ok s' → TableStep s s'
  | other {s s' : State} : s'.unlocked = s.unlocked → TableStep s s'

/-- Every step keeps the rows free of duplicates. -/
theorem rowsNodup_step {s s' : State} (nd : RowsNodup P s.unlocked) (h : TableStep P s s') :
    RowsNodup P s'.unlocked := by
  cases h with
  | @unlock _ pid inum h =>
    by_cases hi : inum < NINODES
    · rcases unlockInode_cases (s := s) (p := pid) hi with
        ⟨-, h'⟩ | ⟨-, -, h'⟩ | ⟨hno, k, hk, h0, h'⟩ <;> rw [h'] at h <;> cases h
      · exact nd
      · intro i hi'
        by_cases hx : i = inum
        · subst hx
          simp only [State.setRow, Function.update_same]
          exact rowNodup_update (nd i hi') hk h0 fun hmem => hno (mem_slots.mp hmem).2
        · simp only [State.setRow, Function.update_noteq hx]
          exact nd i hi'
    · simp [unlockInode, inRow, Nat.not_lt.mp hi, bind, Except.bind] at h
  | @exit pid =>
    intro i hi j hj k hk hne heq
    simp only [freeInodeLocks, hi, true_and] at hne heq
    by_cases h1 : j < P.NPROC ∧ s.unlocked i j = pid
    · rw [if_pos h1] at hne; exact absurd rfl hne
    rw [if_neg h1] at hne heq
    by_cases h2 : k < P.NPROC ∧ s.unlocked i k = pid
    · rw [if_pos h2] at heq; exact absurd heq hne
    rw [if_neg h2] at heq
    exact nd i hi j hj k hk hne heq
  | fork hfresh h =>
    rcases forkPids_cases s _ _ with ⟨h', -⟩ | ⟨t', h', -, hrows⟩ <;>
      rw [h'] at h <;> cases h
    intro i hi
    have hc := hfresh i hi
    simp only [State.exemptions, if_pos hi] at hc
    exact rowNodup_forkRow (nd i hi) hc ((hrows i).1 hi)
  | other h => rw [h]; exact nd

/-- The routines of `unlocked_inodes` refine the abstract table in every state reached from
the zeroed table by any run of them, where no row ever holds a nonzero id twice. -/
theorem exemption_table_refinement {s₀ s : State} (init : ∀ i j, s₀.unlocked i j = 0)
    (run : Relation.ReflTransGen (TableStep P) s₀ s) : RefinesExemptions P s := by
  refine refinesExemptions_of_nodup ?_
  induction run with
  | refl => exact fun i _ j _ k _ hne => absurd (init i j) hne
  | tail _ st ih => exact rowsNodup_step ih st

/-- The refinement after a run from `sampleFs`, whose table is zeroed: processes 1 and 2 unlock
inode 3, and process 1 exits, leaving 2 alone in the row. -/
theorem exemption_table_refinement_sampleFs :
    (∀ i j, sampleFs.unlocked i j = 0) ∧
    ∃ s, Relation.ReflTransGen (TableStep Params.sample) sampleFs s ∧
      2 ∈ s.exemptions Params.sample 3 ∧ 1 ∉ s.exemptions Params.sample 3 ∧
      RefinesExemptions Params.sample s :=
  have run := (Relation.ReflTransGen.single
    (@TableStep.unlock Params.sample sampleFs _ 1 3 (by rfl))).tail
    (@TableStep.unlock Params.sample _ _ 2 3 (by rfl)) |>.tail (@TableStep.exit Params.sample _ 1)
  ⟨fun _ _ => rfl, _, run, by decide, by decide, exemption_table_refinement (fun _ _ => rfl) run⟩

variable (P) in
/-- A step of the table in which process `p` does not exit: a grant, the exit of another
process, a fork of a child that is in no row, or a step that leaves the table. -/
inductive NoExitStep (p : Int) : State → State → Prop
  | unlock {s s' : State} {pid : Int} {inum : Nat} :
      unlockInode P s pid inum = .ok s' → NoExitStep p s s'
  | exit {s : State} {pid : Int} : pid ≠ p → NoExitStep p s (freeInodeLocks P s pid)
  | fork {s s' : State} {o c : Int} : (∀ i < NINODES, c ∉ s.exemptions P i) →
      forkPids P s o c = .ok s' → NoExitStep p s s'
  | other {s s' : State} : s'.unlocked = s.unlocked → NoExitStep p s s'

/-- A process with an exemption is a nonzero id in a row of the table. -/
theorem mem_exemptions_cases {s : State} {i : Nat} {p : Int} (h : p ∈ s.exemptions P i) :
    i < NINODES ∧ p ≠ 0 := by
  unfold State.exemptions at h
  split_ifs at h with hi
  · exact ⟨hi, (mem_slots.mp h).1⟩
  · simp at h

/-- Writing into a free slot keeps every process of the row. -/
theorem mem_slots_update {row : Nat → Int} {k : Nat} {v p : Int} (h0 : row k = 0)
    (hp : p ∈ slots P row) : p ∈ slots P (Function.update row k v) := by
  obtain ⟨hp0, j, hj, rfl⟩ := mem_slots.mp hp
  have hjk : j ≠ k := by rintro rfl; exact hp0 h0
  exact mem_slots.mpr ⟨hp0, j, hj, Function.update_noteq hjk _ _⟩

/-- A step in which `p` does not exit keeps `p` in every row it is in: a grant and a fork only
fill free slots, and the exit of another process clears only that process. -/
theorem NoExitStep.keeps {p : Int} {s s' : State} {i : Nat} (h : NoExitStep P p s s')
    (hp : p ∈ s.exemptions P i) : p ∈ s'.exemptions P i := by
  have hi := (mem_exemptions_cases hp).1
  cases h with
  | @unlock _ pid inum h =>
    by_cases hinum : inum < NINODES
    · rcases unlockInode_cases (s := s) (p := pid) hinum with
        ⟨-, h'⟩ | ⟨-, -, h'⟩ | ⟨-, k, -, h0, h'⟩ <;> rw [h'] at h <;> cases h
      · exact hp
      · rw [exemptions_setRow hinum]
        by_cases hx : i = inum
        · subst hx
          simp only [State.exemptions, if_pos hi] at hp
          rw [Function.update_same]
          exact mem_slots_update h0 hp
        · rwa [Function.update_noteq hx]
    · simp [unlockInode, inRow, Nat.not_lt.mp hinum, bind, Except.bind] at h
  | exit hne =>
    rw [freeInodeLocks_exemptions]
    exact Finset.mem_erase.mpr ⟨hne.symm, hp⟩
  | fork _ h =>
    rcases forkPids_cases s _ _ with ⟨h', -⟩ | ⟨t', h', -, hrows⟩ <;> rw [h'] at h <;> cases h
    have hrow := (hrows i).1 hi
    simp only [State.exemptions, if_pos hi] at hp ⊢
    rcases forkRow_cases (s.unlocked i) _ _ with ⟨-, hr⟩ | ⟨-, -, hr⟩ | ⟨-, k, -, h0, hr⟩ <;>
      rw [hr] at hrow
    · rw [← Except.ok.inj hrow]; exact hp
    · cases hrow
    · rw [← Except.ok.inj hrow]; exact mem_slots_update h0 hp
  | other h => simpa only [State.exemptions, h] using hp

/-- Exemptions last until their process exits. Over every run of the table in which process
`p` does not exit, `p` stays in every row it is in, and `is_inode_unlocked` keeps answering 1
for it. `iput` of a referenced entry of a consistent state and `ialloc`, which free an inode and
reuse its number, leave the table: they are such steps, so freeing an inode and allocating its
number to a new file revokes no exemption. -/
theorem exemption_lasts_until_exit {p : Int} {i : Nat} :
    (∀ {s₀ s : State}, Relation.ReflTransGen (NoExitStep P p) s₀ s → p ∈ s₀.exemptions P i →
      p ∈ s.exemptions P i ∧ isInodeUnlocked P s p i = .ok 1) ∧
    (∀ {dev ip : Nat} {s s' : State}, Consistent P dev s → ip < P.NINODE →
      0 < (s.icache ip).ref → iput P s ip = .ok s' → NoExitStep P p s s') ∧
    (∀ {dev ip : Nat} {type : FileType} {s s' : State}, ialloc P s dev type = .ok (ip, s') →
      NoExitStep P p s s') := by
  refine ⟨fun {s₀ s} run hp => ?_, fun c hip href h => .other ?_, fun h => .other ?_⟩
  · have keep : p ∈ s.exemptions P i := by
      induction run with
      | refl => exact hp
      | tail _ st ih => exact st.keeps ih
    obtain ⟨hi, hp0⟩ := mem_exemptions_cases keep
    exact ⟨keep, by rw [isInodeUnlocked_eq hi hp0, if_pos keep]⟩
  · rcases c.iput_cases hip href h with rfl | ⟨-, -, -, hu, -⟩
    · rfl
    · exact hu
  · unfold ialloc at h
    split at h
    · obtain ⟨-, ⟨-, -, -, rfl⟩ | ⟨-, -, rfl⟩⟩ := iget_cases h <;> rfl
    · cases h

end Xv6Fs
