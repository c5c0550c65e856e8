import Xv6Fs.Handles
import Xv6Fs.Path

/-!
# Accounting over the runs of the system

A path lookup is a run of calls of the inode layer: `namex` takes a handle on the root or on the
working directory, and trades the handle on each directory for one on the entry it finds there
(`namexLoop_reach`). A step of the system, `SysStep`, is a call or a lookup. Over every run from
an accounted state, no two referenced entries of the cache have one identity, the count of each
entry is its handles and its files, `fileclose` drops the reference of its file with the file's
last reference, and an entry that `iget` claims is read again by the next `ilock`
(`reachable_inode_accounting`).
-/

namespace Xv6Fs

variable {P : Params}

/-- A byte that `read` returns is inside the array. -/
theorem Buf.read_lt {cap : Nat} {buf : Buf} {i : Nat} {c : UInt8} (h : buf.read cap i = .ok c) :
    i < cap := by
  unfold Buf.read at h
  split at h
  · assumption
  · cases h

/-- With more fuel than bytes left, `skipWhile` stops at a byte it reads and does not keep. -/
theorem skipWhile_ok {cap : Nat} {buf : Buf} {keep : UInt8 → Bool} :
    ∀ {fuel p q : Nat}, skipWhile cap buf keep fuel p = .ok q → p ≤ cap → cap < p + fuel →
      p ≤ q ∧ ∃ c, buf.read cap q = .ok c ∧ keep c = false
  | 0, _, _, _, hp, hf => absurd hf (by omega)
  | fuel + 1, p, q, h, hp, hf => by
    rw [skipWhile] at h
    obtain ⟨c, hc, h⟩ := bind_eq_ok h
    have hlt := Buf.read_lt hc
    split at h
    · obtain ⟨h1, h2⟩ := skipWhile_ok h (by omega) (by omega)
      exact ⟨by omega, h2⟩
    · cases h
      exact ⟨Nat.le_refl _, c, hc, by simpa using ‹¬ keep c = true›⟩

/-- An element `skipelem` cuts off moves the pointer forward, and inside the array. -/
theorem skipelem_some {cap : Nat} {path : Buf} {p q : Nat} {name : List UInt8} (hp : p ≤ cap)
    (h : skipelem P cap path p = .ok (some (name, q))) : p < q ∧ q < cap := by
  unfold skipelem at h
  obtain ⟨p1, h1, h⟩ := bind_eq_ok h
  obtain ⟨c, hc, h⟩ := bind_eq_ok h
  split at h
  · cases h
  rename_i hc0
  obtain ⟨q1, hq1, h⟩ := bind_eq_ok h
  obtain ⟨elem, -, h⟩ := bind_eq_ok h
  obtain ⟨q2, hq2, h⟩ := bind_eq_ok h
  cases h
  obtain ⟨hpp, c1, hc1, hk1⟩ := skipWhile_ok h1 hp (by omega)
  rw [hc] at hc1
  cases hc1
  have hp1 := Buf.read_lt hc
  obtain ⟨hpq, c2, hc2, hk2⟩ := skipWhile_ok hq1 (by omega) (by omega)
  have hq1lt := Buf.read_lt hc2
  have hne : p1 ≠ q1 := by
    rintro rfl
    rw [hc] at hc2
    cases hc2
    simp only [decide_eq_false_iff_not] at hk1 hk2
    exact hk2 ⟨hk1, hc0⟩
  obtain ⟨hqq, c3, hc3, -⟩ := skipWhile_ok hq2 (by omega) (by omega)
  exact ⟨by omega, Buf.read_lt hc3⟩

/-- A successful `ilock` leaves the entry valid. -/
theorem ilock_valid {s s' : State} {ip : Nat} (h : ilock s ip = .ok s') : (s'.icache ip).valid := by
  unfold ilock at h
  split at h
  · cases h
  split at h
  · cases h
  simp only [State.setInode_icache, Function.update_same] at h
  split at h
  · cases h
    simpa using ‹_›
  · split at h
    · cases h
    · cases h
      simp

namespace Consistent

variable {dev : Nat} {s s' : State} (c : Consistent P dev s)
include c

/-- The loop of `dirlookup` on a held directory only reads, so it returns the state it was
given. -/
theorem dirlookupLoop_state {dp : Nat} {name : List UInt8} (live : s.Live P dp)
    (hdir : (s.icache dp).type = .dir) :
    ∀ {fuel off : Nat} {r : Option (Nat × Nat)},
      dirlookupLoop P dp name fuel s off = .ok (r, s') → s' = s
  | 0, _, _, h => by cases h; rfl
  | fuel + 1, off, r, h => by
    rw [dirlookupLoop] at h
    split at h
    · have hsize := (c.fileInv live (by rw [hdir]; decide)).holes.size_le
      have := P.maxBytes_lt
      have := P.direntSize_le
      obtain ⟨r0, hr⟩ : ∃ r, readi P s dp off P.direntSize = .ok (r, s) :=
        c.readi_ok live (by omega) (by omega)
      rw [hr] at h
      simp only [bind, Except.bind] at h
      split at h
      · cases h
      split at h
      · exact dirlookupLoop_state live hdir h
      split at h
      · cases h; rfl
      · exact dirlookupLoop_state live hdir h
    · cases h; rfl

/-- `dirlookup` of a held directory finds nothing, changing nothing, or is one `iget`. -/
theorem dirlookup_cases {dp : Nat} {name : List UInt8} {r : Option (Nat × Nat)}
    (live : s.Live P dp) (h : dirlookup P s dp name = .ok (r, s')) :
    (r = none ∧ s' = s) ∨
      ∃ ip off inum, r = some (ip, off) ∧
        Xv6Fs.iget P s (s.icache dp).dev inum = .ok (ip, s') := by
  unfold dirlookup at h
  split at h
  · cases h
  rename_i hdir
  obtain ⟨⟨r0, s1⟩, hl, h⟩ := bind_eq_ok h
  have hs1 := c.dirlookupLoop_state live (by simpa using hdir) hl
  subst hs1
  rcases r0 with _ | ⟨off, inum⟩
  · cases h
    exact .inl ⟨rfl, rfl⟩
  · obtain ⟨⟨ip, s2⟩, hg, h⟩ := bind_eq_ok h
    cases h
    exact .inr ⟨ip, off, inum, rfl, hg⟩

end Consistent

/-- `iunlockput` of a handle the caller holds is two steps, dropping the handle. -/
theorem iunlockput_reach {s s' : State} {held : Nat → Int} {ip : Nat} (hpos : 0 < held ip)
    (h : iunlockput P s ip = .ok s') :
    Relation.ReflTransGen (HandleStep P) (s, held) (s', held - handle ip) := by
  obtain ⟨s1, hul, hput⟩ := bind_eq_ok h
  exact .head (.iunlock hpos hul) (.single (.iput hpos hput))

/-- The handles of a caller after a call that returns a handle on the entry `r`, if any. -/
@[simp] def withHandle (held : Nat → Int) : Option Nat → Nat → Int
  | none => held
  | some ip => held + handle ip

/-- The loop of `namex` from a directory the caller holds a handle on is a run of steps that
trades that handle for one on the inode it returns, if any. -/
theorem namexLoop_reach {cap : Nat} {path : Buf} {parent : Bool} :
    ∀ {fuel : Nat} {s s' : State} {held : Nat → Int} {ip p : Nat} {r : Option Nat}
      {name : List UInt8}, HandleInv P (s, held) → 0 < held ip → p ≤ cap →
      cap < p + fuel →
      namexLoop P cap path parent fuel s ip p = .ok ((r, name), s') →
      Relation.ReflTransGen (HandleStep P) (s, held) (s', withHandle (held - handle ip) r)
  | 0, _, _, _, _, _, _, _, _, _, hp, hf, _ => absurd hf (by omega)
  | fuel + 1, s, s', held, ip, p, r, name, inv, hpos, hp, hf, h => by
    rw [namexLoop] at h
    obtain ⟨e, he, h⟩ := bind_eq_ok h
    rcases e with _ | ⟨nm, q⟩
    · -- only slashes are left
      dsimp only at h
      split at h
      · obtain ⟨s1, hput, h⟩ := bind_eq_ok h
        cases h
        simpa using Relation.ReflTransGen.single (HandleStep.iput hpos hput)
      · cases h
        simpa using Relation.ReflTransGen.refl
    obtain ⟨hpq, hqc⟩ := skipelem_some hp he
    dsimp only at h
    obtain ⟨s1, hlock, h⟩ := bind_eq_ok h
    have inv1 := inv.step (.ilock hpos hlock)
    split at h
    · -- not a directory
      obtain ⟨s2, hul, h⟩ := bind_eq_ok h
      cases h
      simpa using
        (Relation.ReflTransGen.single (.ilock hpos hlock)).trans (iunlockput_reach hpos hul)
    obtain ⟨last, -, h⟩ := bind_eq_ok h
    split at h
    · -- `nameiparent` stops one element early
      obtain ⟨s2, hul, h⟩ := bind_eq_ok h
      cases h
      simpa using (Relation.ReflTransGen.single (.ilock hpos hlock)).tail (.iunlock hpos hul)
    obtain ⟨⟨next, s2⟩, hlook, hk⟩ := bind_eq_ok h
    clear h
    dsimp only at hk
    have c1 : Consistent P P.ROOTDEV s1 := inv1.cons
    have a1 : Accounted P s1 held := inv1.acc
    obtain ⟨hip, href1⟩ := a1.ref_pos hpos
    rcases c1.dirlookup_cases ⟨hip, href1, ilock_valid hlock⟩ hlook with
      ⟨rfl, rfl⟩ | ⟨n, off, inum, rfl, hget⟩
    · -- the element is not in the directory
      obtain ⟨s3, hul, hk⟩ := bind_eq_ok hk
      cases hk
      simpa using
        (Relation.ReflTransGen.single (.ilock hpos hlock)).trans (iunlockput_reach hpos hul)
    -- the walk moves to the entry `dirlookup` returned, dropping the directory
    obtain ⟨s3, hul, hk⟩ := bind_eq_ok hk
    rw [c1.devs ip hip href1] at hget
    have st2 : HandleStep P (s1, held) (s2, held + handle n) := .iget hget
    have r3 : Relation.ReflTransGen (HandleStep P) (s2, held + handle n)
        (s3, held + handle n - handle ip) :=
      iunlockput_reach (by have := handle_nonneg n ip; simp only [Pi.add_apply]; omega) hul
    have hpos3 : 0 < (held + handle n - handle ip) n := by
      by_cases hn : n = ip
      · rw [hn, add_sub_cancel_right]; exact hpos
      · have := a1.held_nonneg n
        simp only [Pi.sub_apply, Pi.add_apply, handle_self, handle_of_ne hn]; omega
    have ih := namexLoop_reach ((inv1.step st2).reach r3) hpos3 (by omega) (by omega) hk
    rw [sub_right_comm, add_sub_cancel_right] at ih
    exact ((Relation.ReflTransGen.single (.ilock hpos hlock)).tail st2).trans (r3.trans ih)

/-- `namex` from the root or from the working directory, whose handle the caller holds, is a run
of steps that gives the caller one handle on the inode it returns, if any. -/
theorem namex_reach {s s' : State} {held : Nat → Int} {proc : Proc} {cap : Nat} {path : Buf}
    {parent : Bool} {r : Option Nat} {name : List UInt8} (inv : HandleInv P (s, held))
    (hcwd : 0 < held proc.cwd) (h : namex P s proc cap path parent = .ok ((r, name), s')) :
    Relation.ReflTransGen (HandleStep P) (s, held) (s', withHandle held r) := by
  obtain ⟨c, -, h⟩ := bind_eq_ok h
  obtain ⟨⟨ip, s1⟩, hstart, hk⟩ := bind_eq_ok h
  clear h
  have start : Relation.ReflTransGen (HandleStep P) (s, held) (s1, held + handle ip) := by
    split at hstart
    · exact .single (.iget hstart)
    · cases hstart
      exact .single (.idup hcwd)
  have a : Accounted P s held := inv.acc
  have ih := namexLoop_reach (inv.reach start) (a.take_self ip) (Nat.zero_le _) (by omega) hk
  rw [add_sub_cancel_right] at ih
  exact start.trans ih

/-- `namei` is a run of steps that gives the caller a handle on the inode it returns. -/
theorem namei_reach {s s' : State} {held : Nat → Int} {proc : Proc} {cap : Nat} {path : Buf}
    {r : Option Nat} (inv : HandleInv P (s, held)) (hcwd : 0 < held proc.cwd)
    (h : namei P s proc cap path = .ok (r, s')) :
    Relation.ReflTransGen (HandleStep P) (s, held) (s', withHandle held r) := by
  obtain ⟨⟨⟨r', name⟩, s1⟩, hx, h⟩ := bind_eq_ok h
  cases h
  exact namex_reach inv hcwd hx

variable (P) in
/-- A step of the system: a call of the inode layer or of the file table, or a path lookup
from the working directory, whose handle the calling process holds. -/
inductive SysStep : State × (Nat → Int) → State × (Nat → Int) → Prop
  | call {a b : State × (Nat → Int)} : HandleStep P a b → SysStep a b
  | namei {s s' : State} {held : Nat → Int} {proc : Proc} {cap : Nat} {path : Buf}
      {r : Option Nat} :
      0 < held proc.cwd → namei P s proc cap path = .ok (r, s') →
      SysStep (s, held) (s', withHandle held r)
  | nameiparent {s s' : State} {held : Nat → Int} {proc : Proc} {cap : Nat} {path : Buf}
      {r : Option Nat} {name : List UInt8} :
      0 < held proc.cwd → nameiparent P s proc cap path = .ok ((r, name), s') →
      SysStep (s, held) (s', withHandle held r)

/-- A step of the system is a run of calls. -/
theorem SysStep.calls {a b : State × (Nat → Int)} (inv : HandleInv P a) (h : SysStep P a b) :
    Relation.ReflTransGen (HandleStep P) a b := by
  cases h with
  | call h => exact .single h
  | namei hcwd h => exact namei_reach inv hcwd h
  | nameiparent hcwd h => exact namex_reach inv hcwd h

/-- Every run of the system keeps the invariant. -/
theorem HandleInv.sysReach {a b : State × (Nat → Int)} (inv : HandleInv P a)
    (h : Relation.ReflTransGen (SysStep P) a b) : HandleInv P b := by
  induction h with
  | refl => exact inv
  | tail _ st ih => exact ih.reach (st.calls ih)

/-- The inode cache over every run of the system from an accounted state: no two referenced
entries have one identity; the references of each entry are the handles callers hold on it
and the files on it, one each; `fileclose` drops the reference of its file exactly when it
closes the file's last; and an entry `iget` claims is reloaded from the disk by the next
`ilock`. -/
theorem reachable_inode_accounting {s₀ s : State} {held₀ held : Nat → Int}
    (c₀ : Consistent P P.ROOTDEV s₀) (a₀ : Accounted P s₀ held₀)
    (run : Relation.ReflTransGen (SysStep P) (s₀, held₀) (s, held)) :
    (∀ x y, x < P.NINODE → y < P.NINODE → 0 < (s.icache x).ref → 0 < (s.icache y).ref →
      (s.icache x).dev = (s.icache y).dev → (s.icache x).inum = (s.icache y).inum → x = y) ∧
    (∀ x < P.NINODE, (s.icache x).ref = held x + fileHolds P s x) ∧
    (∀ f s', f < P.NFILE → fileclose P s f = .ok s' → ∀ x < P.NINODE,
      (s'.icache x).ref =
        (s.icache x).ref - (if (s.ftable f).ref = 1 ∧ (s.ftable f).Holds x then 1 else 0)) ∧
    (∀ dev inum ip s', iget P s dev inum = .ok (ip, s') → (s.icache ip).ref = 0 →
      (s'.icache ip).busy = false ∧ (s'.icache ip).valid = false ∧
        ∀ s'', ilock s' ip = .ok s'' → (s''.icache ip).toDinode = s'.disk.dinodes inum) := by
  have inv : HandleInv P (s, held) := HandleInv.sysReach ⟨c₀, a₀⟩ run
  exact ⟨fun x y hx hy hxr hyr _ hxy => inv.cons.ident x y hx hy hxr hyr hxy, inv.acc.refs,
    fun _ _ hf h => inv.fileclose_ref hf h, fun _ _ _ _ => iget_fresh⟩

/-- In `sampleFs` the one reference, of entry 0, is the handle of the working directory. -/
theorem sampleFs_accounted : Accounted Params.sample sampleFs (handle 0) := by
  have none : ∀ x, fileHolds Params.sample sampleFs x = 0 := fun x =>
    List.countP_eq_zero.mpr fun f _ => by simp [File.Holds, sampleFs]
  refine ⟨fun x _ => ?_, handle_nonneg 0, fun x hx => ?_, fun f _ hf => ?_, fun f _ => ?_,
    fun f _ _ => rfl⟩
  · rw [none]
    by_cases hx : x = 0
    · subst hx; rfl
    · simp [sampleFs, hx]
  · by_cases h0 : x = 0
    · subst h0; decide
    · exact absurd (handle_of_ne h0) hx
  · exact absurd hf.1 (lt_irrefl 0)
  · exact le_refl 0

/-- The calls `iget` of `x` and `ilock` of its entry, from `sampleFs` and the handle of the
working directory: the process holds a handle on entry 1 too. -/
theorem lockedXFs_sysRun :
    Relation.ReflTransGen (SysStep Params.sample) (sampleFs, handle 0)
      (lockedXFs, handle 0 + handle 1) :=
  .tail (.single (.call (@HandleStep.iget Params.sample sampleFs _ (handle 0) 3 1 (by rfl))))
    (.call (@HandleStep.ilock Params.sample _ _ _ 1 (by decide) (by rfl)))

/-- The accounting after `lockedXFs_sysRun`: entry 1 has the one reference of its handle. -/
theorem reachable_inode_accounting_sampleFs :
    Consistent Params.sample Params.sample.ROOTDEV sampleFs ∧
    Accounted Params.sample sampleFs (handle 0) ∧
    Relation.ReflTransGen (SysStep Params.sample) (sampleFs, handle 0)
      (lockedXFs, handle 0 + handle 1) ∧
    (∀ x y, x < Params.sample.NINODE → y < Params.sample.NINODE →
      0 < (lockedXFs.icache x).ref → 0 < (lockedXFs.icache y).ref →
      (lockedXFs.icache x).dev = (lockedXFs.icache y).dev →
      (lockedXFs.icache x).inum = (lockedXFs.icache y).inum → x = y) ∧
    (∀ x < Params.sample.NINODE,
      (lockedXFs.icache x).ref = (handle 0 + handle 1) x + fileHolds Params.sample lockedXFs x) ∧
    (∀ f s', f < Params.sample.NFILE → fileclose Params.sample lockedXFs f = .ok s' →
      ∀ x < Params.sample.NINODE, (s'.icache x).ref = (lockedXFs.icache x).ref -
        (if (lockedXFs.ftable f).ref = 1 ∧ (lockedXFs.ftable f).Holds x then 1 else 0)) ∧
    (∀ dev inum ip s', iget Params.sample lockedXFs dev inum = .ok (ip, s') →
      (lockedXFs.icache ip).ref = 0 →
      (s'.icache ip).busy = false ∧ (s'.icache ip).valid = false ∧
        ∀ s'', ilock s' ip = .ok s'' → (s''.icache ip).toDinode = s'.disk.dinodes inum) :=
  ⟨sampleFs_consistent, sampleFs_accounted, lockedXFs_sysRun,
    reachable_inode_accounting sampleFs_consistent sampleFs_accounted lockedXFs_sysRun⟩

end Xv6Fs
