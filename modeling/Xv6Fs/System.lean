import Xv6Fs.Truncate

/-!
# Runs of the inode layer

The routines of the inode layer as one system. A step is one call that returns: `readi` or
`writei` on an entry its caller holds (referenced and valid, that is locked and loaded),
`iget`, `idup`, `ilock`, `iunlock`, `iput` of a reference, or `ialloc` of an inode of some
type. A call that panics or sleeps makes no step. The disk of the model is one device, so every
`iget` and `ialloc` of a run names the same device `dev`; the offsets and counts of `readi` and
`writei` are `uint`s.

`igetScan_inl`, `igetScan_inr` and `igetScan_none` say what the scan of `iget` finds, and
`iget_iput` that an `iput` of the entry an `iget` returned gives back every entry a caller
holds as it was (`State.EqHeld`).
-/

namespace Xv6Fs

variable (P : Params)

/-- A cache entry its caller holds: inside the cache, referenced, and valid. -/
def State.Live (s : State) (ip : Nat) : Prop :=
  ip < P.NINODE ∧ 0 < (s.icache ip).ref ∧ (s.icache ip).valid

/-- One call of the inode layer that returns. -/
inductive InodeStep (dev : Nat) : State → State → Prop
  | readi {s s' : State} {ip off n : Nat} {r : Int × List UInt8} :
      s.Live P ip → off < 2 ^ 32 → n < 2 ^ 32 → readi P s ip off n = .ok (r, s') →
      InodeStep dev s s'
  | writei {s s' : State} {ip off : Nat} {src : List UInt8} {r : Int} :
      s.Live P ip → off < 2 ^ 32 → src.length < 2 ^ 32 → writei P s ip src off = .ok (r, s') →
      InodeStep dev s s'
  | iget {s s' : State} {inum ip : Nat} : iget P s dev inum = .ok (ip, s') → InodeStep dev s s'
  | idup {s : State} {ip : Nat} : ip < P.NINODE → 0 < (s.icache ip).ref →
      InodeStep dev s (idup s ip)
  | ilock {s s' : State} {ip : Nat} : ip < P.NINODE → ilock s ip = .ok s' → InodeStep dev s s'
  | iunlock {s s' : State} {ip : Nat} : ip < P.NINODE → iunlock s ip = .ok s' →
      InodeStep dev s s'
  | iput {s s' : State} {ip : Nat} : ip < P.NINODE → 0 < (s.icache ip).ref →
      iput P s ip = .ok s' → InodeStep dev s s'
  | ialloc {s s' : State} {type : FileType} {ip : Nat} :
      ialloc P s dev type = .ok (ip, s') → InodeStep dev s s'

/-- The states a run of the inode layer from `s₀` reaches. -/
inductive InodeReachable (dev : Nat) (s₀ : State) : State → Prop
  | start : InodeReachable dev s₀ s₀
  | step {s s' : State} : InodeReachable dev s₀ s → InodeStep P dev s s' →
      InodeReachable dev s₀ s'

variable {P}

/-- A hit of the scan of `iget` is a referenced entry of the list with the identity. -/
theorem igetScan_inl {s : State} {dev inum ip : Nat} :
    ∀ {ips : List Nat} {empty : Option Nat}, igetScan s dev inum ips empty = .inl ip →
      ip ∈ ips ∧ 0 < (s.icache ip).ref ∧ (s.icache ip).dev = dev ∧ (s.icache ip).inum = inum
  | [], _, h => by cases h
  | x :: ips, empty, h => by
    rw [igetScan] at h
    split at h
    · cases h
      exact ⟨List.mem_cons_self _ _, ‹_ ∧ _›⟩
    · obtain ⟨hm, hrest⟩ := igetScan_inl h
      exact ⟨List.mem_cons_of_mem _ hm, hrest⟩

/-- Without a hit the scan of `iget` returns the first unreferenced entry, if any, and no entry
of the list is referenced with the identity. -/
theorem igetScan_inr {s : State} {dev inum : Nat} :
    ∀ {ips : List Nat} {empty r : Option Nat}, igetScan s dev inum ips empty = .inr r →
      (∀ x ∈ ips, ¬ (0 < (s.icache x).ref ∧ (s.icache x).dev = dev ∧
        (s.icache x).inum = inum)) ∧
      ∀ ip, r = some ip → empty = some ip ∨ ip ∈ ips ∧ (s.icache ip).ref = 0
  | [], _, _, h => by
    cases h
    exact ⟨fun _ h => absurd h (List.not_mem_nil _), fun _ h => .inl h⟩
  | x :: ips, empty, r, h => by
    rw [igetScan] at h
    split at h
    · cases h
    · rename_i hx
      obtain ⟨hno, hr⟩ := igetScan_inr h
      refine ⟨fun y hy => ?_, fun ip hip => ?_⟩
      · rcases List.mem_cons.mp hy with rfl | hy
        exacts [hx, hno y hy]
      · rcases hr ip hip with he | ⟨hm, h0⟩
        · split at he
          · rename_i hc
            cases he
            exact .inr ⟨List.mem_cons_self _ _, hc.2⟩
          · exact .inl he
        · exact .inr ⟨List.mem_cons_of_mem _ hm, h0⟩

/-- What `iget` does: it returns an entry of the cache that either was referenced with the
identity and gains a reference, or was unreferenced, no referenced entry having the identity,
and is set to the identity with one reference and its flags cleared. -/
theorem iget_cases {s s' : State} {dev inum ip : Nat} (h : iget P s dev inum = .ok (ip, s')) :
    ip < P.NINODE ∧
      ((0 < (s.icache ip).ref ∧ (s.icache ip).dev = dev ∧ (s.icache ip).inum = inum ∧
        s' = s.setInode ip { s.icache ip with ref := (s.icache ip).ref + 1 }) ∨
      ((s.icache ip).ref = 0 ∧
        (∀ x < P.NINODE, ¬ (0 < (s.icache x).ref ∧ (s.icache x).dev = dev ∧
          (s.icache x).inum = inum)) ∧
        s' = s.setInode ip
          { s.icache ip with
            dev := dev, inum := inum, ref := 1, busy := false, valid := false })) := by
  unfold iget at h
  split at h
  · rename_i hs
    cases h
    obtain ⟨hm, hr⟩ := igetScan_inl hs
    exact ⟨List.mem_range.mp hm, .inl ⟨hr.1, hr.2.1, hr.2.2, rfl⟩⟩
  · cases h
  · rename_i x hs
    cases h
    obtain ⟨hno, hr⟩ := igetScan_inr hs
    rcases hr ip rfl with he | ⟨hm, h0⟩
    · cases he
    · exact ⟨List.mem_range.mp hm, .inr ⟨h0, fun y hy => hno y (List.mem_range.mpr hy), rfl⟩⟩

/-- A scan of `iget` that finds neither the identity nor an empty entry saw only referenced
entries. -/
theorem igetScan_none {s : State} {dev inum : Nat} :
    ∀ {ips : List Nat} {empty : Option Nat}, igetScan s dev inum ips empty = .inr none →
      empty = none ∧ ∀ x ∈ ips, (s.icache x).ref ≠ 0
  | [], _, h => by cases h; exact ⟨rfl, fun _ h => absurd h (List.not_mem_nil _)⟩
  | x :: ips, empty, h => by
    rw [igetScan] at h
    split at h
    · cases h
    · obtain ⟨he, hrest⟩ := igetScan_none h
      split at he
      · cases he
      · rename_i hc
        have hempty : empty = none := he
        refine ⟨hempty, fun y hy => ?_⟩
        rcases List.mem_cons.mp hy with rfl | hy
        exacts [fun h0 => hc ⟨hempty, h0⟩, hrest y hy]

/-- `iget` fails only with its panic, when every entry of the cache is referenced. -/
theorem iget_error {s : State} {dev inum : Nat} {e : Fault} (h : iget P s dev inum = .error e) :
    e = .panic "iget: no inodes" ∧ ∀ x < P.NINODE, (s.icache x).ref ≠ 0 := by
  unfold iget at h
  split at h
  · cases h
  · rename_i hs
    cases h
    exact ⟨rfl, fun x hx => (igetScan_none hs).2 x (List.mem_range.mpr hx)⟩
  · cases h

/-- `iput` of a reference that is not the last one to a valid inode without links only drops
it. -/
theorem iput_of_not_last {s : State} {ip : Nat}
    (h : ¬ ((s.icache ip).ref = 1 ∧ (s.icache ip).valid ∧ (s.icache ip).nlink = 0)) :
    iput P s ip = .ok (s.setInode ip { s.icache ip with ref := (s.icache ip).ref - 1 }) := by
  unfold iput
  rw [if_neg h]
  rfl


/-- `s'` is `s` but for cache entries without a reference in either: nothing a caller holds has
changed. -/
structure State.EqHeld (s s' : State) : Prop where
  frame : s' = { s with icache := s'.icache }
  held : ∀ x, s'.icache x = s.icache x ∨ (s.icache x).ref = 0 ∧ (s'.icache x).ref = 0

/-- `iput` of the entry `iget` returned gives back a state equal to the first on every held
entry: a hit only takes and drops a reference, and a claimed entry is dropped again. -/
theorem iget_iput {s s₁ : State} {dev inum ip : Nat} (h : iget P s dev inum = .ok (ip, s₁)) :
    ∃ s', iput P s₁ ip = .ok s' ∧ s.EqHeld s' := by
  obtain ⟨-, ⟨href, -, -, rfl⟩ | ⟨h0, -, rfl⟩⟩ := iget_cases h
  · refine ⟨s, ?_, ⟨rfl, fun _ => .inl rfl⟩⟩
    rw [iput_of_not_last (by simp; omega)]
    simp [State.setInode, Function.update_eq_self]
  · refine ⟨_, iput_of_not_last (by simp), ⟨rfl, fun x => ?_⟩⟩
    by_cases hx : x = ip
    · subst hx
      exact .inr ⟨h0, by simp⟩
    · exact .inl (by simp [hx])

/-- What `ilock` does when it returns: on a referenced entry that is not busy it takes the
flag, and it loads an entry that is not valid from its dinode, which has a type. -/
theorem ilock_cases {s s' : State} {ip : Nat} (h : ilock s ip = .ok s') :
    0 < (s.icache ip).ref ∧ (s.icache ip).busy = false ∧
      ((s.icache ip).valid ∧ s' = s.setInode ip { s.icache ip with busy := true } ∨
        (s.icache ip).valid = false ∧ (s.disk.dinodes (s.icache ip).inum).type ≠ .free ∧
        s' = s.setInode ip { s.icache ip with
          toDinode := s.disk.dinodes (s.icache ip).inum, busy := true, valid := true }) := by
  unfold ilock at h
  split at h
  · cases h
  split at h
  · cases h
  rename_i h1 h2
  simp only [State.setInode_icache, Function.update_same] at h
  refine ⟨by omega, by simpa using h2, ?_⟩
  split at h
  · cases h
    exact .inl ⟨‹_›, rfl⟩
  · rename_i hv
    split at h
    · cases h
    · rename_i hfree
      cases h
      exact .inr ⟨by simpa using hv, by simpa using hfree, by simp⟩

/-- `ilock` of a referenced entry that is not busy returns, unless it loads a free dinode. -/
theorem ilock_ok {s : State} {ip : Nat} (href : 0 < (s.icache ip).ref)
    (hb : (s.icache ip).busy = false)
    (hin : (s.icache ip).valid ∨ (s.disk.dinodes (s.icache ip).inum).type ≠ .free) :
    ∃ s', ilock s ip = .ok s' := by
  rw [ilock, if_neg (by omega), if_neg (by simp [hb])]
  simp only [State.setInode_icache, Function.update_same]
  split
  · exact ⟨_, rfl⟩
  · rw [if_neg (by simpa using hin.resolve_left ‹_›)]
    exact ⟨_, rfl⟩

/-- `ilock` of a referenced entry faults only by sleeping on a locked entry, or by a panic when
the dinode of an entry it must load is free. -/
theorem ilock_eq_error {s : State} {ip : Nat} {e : Fault} (href : 0 < (s.icache ip).ref) :
    ilock s ip = .error e ↔ ((s.icache ip).busy = true ∧ e = .sleeps) ∨
      ((s.icache ip).busy = false ∧ (s.icache ip).valid = false ∧
        (s.disk.dinodes (s.icache ip).inum).type = .free ∧ e = .panic "ilock: no type") := by
  rw [ilock, if_neg (by omega)]
  cases hb : (s.icache ip).busy
  · by_cases hfree : (s.disk.dinodes (s.icache ip).inum).type = .free <;>
      cases hv : (s.icache ip).valid <;> simp [hv, hfree, eq_comm (a := e)]
  · simp [eq_comm (a := e)]

theorem ilock_disk {s s' : State} {ip : Nat} (h : ilock s ip = .ok s') : s'.disk = s.disk := by
  obtain ⟨-, -, ⟨-, rfl⟩ | ⟨-, -, rfl⟩⟩ := ilock_cases h <;> rfl

theorem iunlock_disk {s s' : State} {ip : Nat} (h : iunlock s ip = .ok s') : s'.disk = s.disk := by
  unfold iunlock at h
  split at h <;> cases h; rfl

theorem iget_disk {s s' : State} {dev inum ip : Nat} (h : iget P s dev inum = .ok (ip, s')) :
    s'.disk = s.disk := by
  obtain ⟨-, ⟨-, -, -, rfl⟩ | ⟨-, -, rfl⟩⟩ := iget_cases h <;> rfl

/-- `ialloc` allocates the least free dinode from 1 on: it writes there a zeroed dinode of the
type asked for, leaves every other dinode as it was, and returns the cache entry that `iget`
gives that inode, referenced and with its identity. It panics with `"ialloc: no inodes"` exactly
when every dinode from 1 to `ninodes - 1` is in use; its one other failure is a full cache, so
with a free dinode and an unreferenced cache entry it returns. -/
theorem ialloc_least (s : State) (dev : Nat) (type : FileType) :
    (∀ ip s', ialloc P s dev type = .ok (ip, s') →
      ∃ inum, 1 ≤ inum ∧ inum < s.disk.sb.ninodes ∧ (s.disk.dinodes inum).type = .free ∧
        (∀ j, 1 ≤ j → j < inum → (s.disk.dinodes j).type ≠ .free) ∧
        s'.disk.dinodes = Function.update s.disk.dinodes inum { Dinode.zero with type := type } ∧
        (s'.icache ip).dev = dev ∧ (s'.icache ip).inum = inum ∧ 0 < (s'.icache ip).ref) ∧
    (ialloc P s dev type = .error (.panic "ialloc: no inodes") ↔
      ∀ j, 1 ≤ j → j < s.disk.sb.ninodes → (s.disk.dinodes j).type ≠ .free) ∧
    ((∃ j, 1 ≤ j ∧ j < s.disk.sb.ninodes ∧ (s.disk.dinodes j).type = .free) →
      (∃ x < P.NINODE, (s.icache x).ref = 0) → ∃ ip s', ialloc P s dev type = .ok (ip, s')) := by
  unfold ialloc
  split
  · rename_i inum hfind
    obtain ⟨hfree, hmem, hleast⟩ := List.find?_range'_eq_some.mp hfind
    rw [List.mem_range'_1] at hmem
    refine ⟨fun ip s' h => ⟨inum, hmem.1, by omega, by simpa using hfree,
      fun j h₁ h₂ => by simpa using hleast j h₁ h₂, ?_⟩, ⟨fun h => ?_, fun h => ?_⟩,
      fun _ ⟨x, hx, h0⟩ => ?_⟩
    · obtain ⟨-, ⟨href, hdev, hinum, rfl⟩ | ⟨-, -, rfl⟩⟩ := iget_cases h
      · refine ⟨rfl, by simpa using hdev, by simpa using hinum, ?_⟩
        simp only [State.setInode_icache, Function.update_same]
        exact Int.add_pos href Int.one_pos
      · exact ⟨rfl, by simp, by simp, by simp⟩
    · -- the one error of `iget` is its own
      exact absurd (iget_error h).1 (by simp)
    · exact absurd (h inum hmem.1 (by omega)) (by simpa using hfree)
    · -- `iget` fails only on a cache whose every entry is referenced
      match hg : iget P _ dev inum with
      | .ok (ip, s') => exact ⟨ip, s', rfl⟩
      | .error _ => exact absurd h0 ((iget_error hg).2 x hx)
  · rename_i hnone
    have hall : ∀ j, 1 ≤ j → j < s.disk.sb.ninodes → (s.disk.dinodes j).type ≠ .free :=
      fun j h₁ h₂ => by simpa using List.find?_range'_eq_none.mp hnone j h₁ (by omega)
    refine ⟨fun _ _ h => (nomatch h), ⟨fun _ => hall, fun _ => rfl⟩,
      fun ⟨j, h₁, h₂, hj⟩ _ => absurd hj (hall j h₁ h₂)⟩

end Xv6Fs
