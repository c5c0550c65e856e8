import Xv6Fs.Accounting
import Xv6Fs.DirSpec

/-!
# Path lookup against the directory tree

The abstract side of a path lookup lives on the disk alone. `pathElems` lists the elements
`skipelem` cuts off a path, one call after another; `Disk.lookup` finds a name in the records of
a directory, as `findName` does; `Disk.walk` looks each element up in the inode the one before
reached, and `Disk.parent` walks all but the last element and keeps the last. On a disk whose
directories form a tree (`Disk.Tree`: the root in use with a link, each directory a whole number
of records, and each live record naming an inode in use with a link), `namex` computes them:
`namei` returns the cache entry of the inode `Disk.walk` reaches, `nameiparent` that of the
directory `Disk.parent` gives, with its last element (`path_resolution`).

The walk goes in lock-step with the loop of `namex`. In the middle of it the lookup holds one
entry (`Holding`): it added one reference to it, it may have it locked, and every other count
and lock is as the lookup found it; the entry is not freed when the lookup drops it, being
referenced before or having a link. Each turn of the loop locks the entry, reads it, and trades
it for the next one; its end leaves `Lookup`: the disk and the locks as they were, and one more
reference on the entry returned, if any. The one way the walk can stop short is `iget` finding
the cache full; two free entries at the start are room enough, since the lookup holds at most
one entry when it takes the next.
-/

namespace Xv6Fs

variable (P : Params)

/-- The elements `skipelem` cuts off the path from index `p` on, one call after another, as the
loop of `namex` meets them. -/
def pathElems (cap : Nat) (path : Buf) : (fuel : Nat) → (p : Nat) →
    Except Fault (List (List UInt8))
  | 0, _ => .ok []
  | fuel + 1, p => do
    match ← skipelem P cap path p with
    | none => pure []
    | some (name, q) => do
      let names ← pathElems cap path fuel q
      pure (name :: names)

/-- Byte `p` of the file with dinode `di` on disk `d`, read through its block map as
`State.byteAt` reads that of a cache entry. -/
def Disk.byteAt (d : Disk) (di : Dinode) (p : Nat) : UInt8 :=
  d.data (slotVal P d.data di (blockSlot P (p / P.BSIZE))) (p % P.BSIZE)

/-- The content of the file with dinode `di` on disk `d`: its first `size` bytes. -/
def Disk.content (d : Disk) (di : Dinode) : List UInt8 :=
  bytesFrom (d.byteAt P di) 0 di.size

/-- The records of the directory with dinode `di` on disk `d`, decoded as `State.dirents`
decodes those of a cache entry. -/
def Disk.dirents (d : Disk) (di : Dinode) : List Dirent :=
  (List.range (di.size / P.direntSize)).map fun k =>
    Dirent.decode (bytesFrom (d.byteAt P di) (k * P.direntSize) P.direntSize)

/-- Inode `i` is in use and has a link. -/
def Disk.Linked (d : Disk) (i : Nat) : Prop :=
  (d.dinodes i).type ≠ .free ∧ 0 < (d.dinodes i).nlink

instance (d : Disk) (i : Nat) : Decidable (d.Linked i) :=
  inferInstanceAs (Decidable (_ ∧ _))

/-- The directories of the disk form a tree: the root is in use with a link, each directory
is a whole number of records, and each live record names an inode in use with a link. -/
structure Disk.Tree (d : Disk) : Prop where
  root : d.Linked P.ROOTINO
  whole : ∀ i, (d.dinodes i).type = .dir → P.direntSize ∣ (d.dinodes i).size
  linked : ∀ i, (d.dinodes i).type = .dir → ∀ e ∈ d.dirents P (d.dinodes i), e.inum ≠ 0 →
    d.Linked e.inum

/-- The inode the element `name` names in inode `i`: none unless `i` is a directory with a
live record of that name. -/
def Disk.lookup (d : Disk) (i : Nat) (name : List UInt8) : Option Nat :=
  if (d.dinodes i).type = .dir then (findName P name (d.dirents P (d.dinodes i)) 0).map Prod.snd
  else none

/-- The inode reached from inode `i` by looking each element up in the inode reached before. -/
def Disk.walk (d : Disk) : Nat → List (List UInt8) → Option Nat
  | i, [] => some i
  | i, name :: names => (d.lookup P i name).bind fun j => d.walk j names

/-- The directory reached from inode `i` by all elements but the last, with the last: what
`nameiparent` is for. Nothing for no element, or when the inode reached is not a directory. -/
def Disk.parent (d : Disk) (i : Nat) (names : List (List UInt8)) : Option (Nat × List UInt8) :=
  names.getLast?.bind fun last => (d.walk P i names.dropLast).bind fun j =>
    if (d.dinodes j).type = .dir then some (j, last) else none

/-- The inode a lookup starts from: the root for a path that begins with `'/'`, else the working
directory of `proc`. -/
def State.startIno (s : State) (proc : Proc) (path : Buf) : Nat :=
  if path 0 = some slash then P.ROOTINO else (s.icache proc.cwd).inum

variable {P}

theorem State.dirents_eq_disk (s : State) (dp : Nat) :
    s.dirents P dp = s.disk.dirents P (s.icache dp).toDinode :=
  rfl

theorem State.content_eq_disk (s : State) (ip : Nat) :
    s.content P ip = s.disk.content P (s.icache ip).toDinode :=
  rfl

@[simp] theorem Disk.walk_nil (d : Disk) (i : Nat) : d.walk P i [] = some i := rfl

@[simp] theorem Disk.walk_cons (d : Disk) (i : Nat) (name : List UInt8)
    (names : List (List UInt8)) :
    d.walk P i (name :: names) = (d.lookup P i name).bind fun j => d.walk P j names :=
  rfl

@[simp] theorem Disk.parent_nil (d : Disk) (i : Nat) : d.parent P i [] = none := rfl

theorem Disk.parent_singleton (d : Disk) (i : Nat) (name : List UInt8) :
    d.parent P i [name] = if (d.dinodes i).type = .dir then some (i, name) else none := by
  simp [Disk.parent]

/-- Before the last element, `Disk.parent` looks the first one up and goes on from there. -/
theorem Disk.parent_cons {d : Disk} {i : Nat} {name : List UInt8} {names : List (List UInt8)}
    (h : names ≠ []) :
    d.parent P i (name :: names) = (d.lookup P i name).bind fun j => d.parent P j names := by
  obtain ⟨n, ns, rfl⟩ := List.exists_cons_of_ne_nil h
  unfold Disk.parent
  rw [List.getLast?_cons_cons, List.dropLast_cons₂, Disk.walk_cons]
  cases d.lookup P i name <;> simp

/-- A name `findName` finds is that of a live record of the list. -/
theorem findName_mem {name : List UInt8} {off o j : Nat} :
    ∀ {es : List Dirent}, findName P name es off = some (o, j) → ∃ e ∈ es, e.inum = j ∧ j ≠ 0
  | [], h => by cases h
  | e :: es, h => by
    unfold findName at h
    split_ifs at h with h0 hn
    · obtain ⟨e', he', hj⟩ := findName_mem h
      exact ⟨e', List.mem_cons_of_mem _ he', hj⟩
    · cases h
      exact ⟨e, List.mem_cons_self _ _, rfl, h0⟩
    · obtain ⟨e', he', hj⟩ := findName_mem h
      exact ⟨e', List.mem_cons_of_mem _ he', hj⟩

/-- The inode a tree directory names is in use with a link. -/
theorem Disk.Tree.lookup_linked {d : Disk} (tree : d.Tree P) {i j : Nat} {name : List UInt8}
    (h : d.lookup P i name = some j) : d.Linked j := by
  unfold Disk.lookup at h
  split_ifs at h with hdir
  obtain ⟨⟨off, j'⟩, hf, rfl⟩ := Option.map_eq_some'.mp h
  obtain ⟨e, he, rfl, h0⟩ := findName_mem hf
  exact tree.linked i hdir e he h0

theorem Disk.lookup_of_not_dir {d : Disk} {i : Nat} {name : List UInt8}
    (h : (d.dinodes i).type ≠ .dir) : d.lookup P i name = none := by
  simp [Disk.lookup, h]

section Elems

variable {cap : Nat} {path : Buf}

theorem Buf.some_of_read {buf : Buf} {i : Nat} {c : UInt8} (h : buf.read cap i = .ok c) :
    buf i = some c := by
  unfold Buf.read at h
  split at h
  · split at h
    · cases h; assumption
    · cases h
  · cases h

/-- `skipWhile` stops at once on a byte it does not keep. -/
theorem skipWhile_stop {keep : UInt8 → Bool} {fuel q : Nat} {c : UInt8}
    (hq : path.read cap q = .ok c) (hk : keep c = false) :
    skipWhile cap path keep (fuel + 1) q = .ok q := by
  rw [skipWhile, bind_of_eq_ok hq]
  simp [hk, pure, Except.pure]

/-- `skipelem` reads the byte it starts at. -/
theorem skipelem_read {p : Nat} {e : Option (List UInt8 × Nat)}
    (h : skipelem P cap path p = .ok e) : ∃ c, path.read cap p = .ok c := by
  obtain ⟨p1, h1, -⟩ := bind_eq_ok h
  rw [skipWhile] at h1
  obtain ⟨c, hc, -⟩ := bind_eq_ok h1
  exact ⟨c, hc⟩

/-- After an element `skipelem` stops at a byte that is not a slash. -/
theorem skipelem_next {p q : Nat} {name : List UInt8} (hp : p ≤ cap)
    (h : skipelem P cap path p = .ok (some (name, q))) :
    ∃ c, path.read cap q = .ok c ∧ c ≠ slash := by
  unfold skipelem at h
  obtain ⟨p1, h1, h⟩ := bind_eq_ok h
  obtain ⟨c, -, h⟩ := bind_eq_ok h
  split at h
  · cases h
  obtain ⟨q1, hq1, h⟩ := bind_eq_ok h
  obtain ⟨elem, -, h⟩ := bind_eq_ok h
  obtain ⟨q2, hq2, h⟩ := bind_eq_ok h
  cases h
  obtain ⟨-, c1, hc1, -⟩ := skipWhile_ok h1 hp (by omega)
  obtain ⟨-, c2, hc2, -⟩ := skipWhile_ok hq1 (Buf.read_lt hc1).le (by omega)
  obtain ⟨-, c3, hc3, hk⟩ := skipWhile_ok hq2 (Buf.read_lt hc2).le (by omega)
  exact ⟨c3, hc3, by simpa using hk⟩

/-- At a byte that is not a slash, no element is left exactly when the byte is NUL. -/
theorem pathElems_eq_nil_iff {fuel q : Nat} {c : UInt8} {names : List (List UInt8)}
    (hfuel : 0 < fuel) (hq : path.read cap q = .ok c) (hc : c ≠ slash)
    (h : pathElems P cap path fuel q = .ok names) : names = [] ↔ c = 0 := by
  obtain ⟨f, rfl⟩ : ∃ f, fuel = f + 1 := ⟨fuel - 1, by omega⟩
  rw [pathElems] at h
  obtain ⟨e, he, h⟩ := bind_eq_ok h
  rw [skipelem, bind_of_eq_ok (skipWhile_stop hq (by simpa using hc)), bind_of_eq_ok hq] at he
  by_cases hc0 : c = 0
  · rw [if_pos hc0] at he
    cases he
    cases h
    simp [hc0]
  · rw [if_neg hc0] at he
    obtain ⟨q1, -, he⟩ := bind_eq_ok he
    obtain ⟨elem, -, he⟩ := bind_eq_ok he
    obtain ⟨q2, -, he⟩ := bind_eq_ok he
    cases he
    obtain ⟨rest, -, h⟩ := bind_eq_ok h
    cases h
    simp [hc0]

/-! A path in its array is a C string when a NUL ends it and every byte before is written;
`skipelem` then reads it without fault, and it has elements. -/

section Terminated

variable {k : Nat} (hk : path.read cap k = .ok 0)
  (hdef : ∀ i < k, ∃ c, path.read cap i = .ok c)
include hk hdef

theorem read_ok_of_le {p : Nat} (hp : p ≤ k) : ∃ c, path.read cap p = .ok c := by
  rcases Nat.lt_or_eq_of_le hp with h | rfl
  exacts [hdef p h, ⟨0, hk⟩]

/-- A `skipWhile` that does not keep NUL stops by the NUL. -/
theorem skipWhile_le_nul (keep : UInt8 → Bool) (hk0 : keep 0 = false) :
    ∀ (fuel : Nat) {p : Nat}, p ≤ k → k < p + fuel →
      ∃ q, skipWhile cap path keep fuel p = .ok q ∧ q ≤ k
  | 0, _, _, hf => absurd hf (by omega)
  | fuel + 1, p, hp, hf => by
    obtain ⟨c, hc⟩ := read_ok_of_le hk hdef hp
    rw [skipWhile, bind_of_eq_ok hc]
    by_cases hkc : keep c = true
    · have hpk : p < k := by
        rcases Nat.lt_or_eq_of_le hp with h | rfl
        · exact h
        · rw [hk] at hc; cases hc; rw [hk0] at hkc; cases hkc
      obtain ⟨q, hq, hqk⟩ := skipWhile_le_nul keep hk0 fuel (p := p + 1) hpk (by omega)
      exact ⟨q, by simp [hkc, hq], hqk⟩
    · exact ⟨p, by simp [hkc, pure, Except.pure], hp⟩

theorem mapM_read_ok {f : Nat → Nat} {l : List Nat} (hl : ∀ i ∈ l, f i < k) :
    ∃ bs, l.mapM (fun i => path.read cap (f i)) = .ok bs := by
  induction l with
  | nil => exact ⟨[], rfl⟩
  | cons i l ih =>
    obtain ⟨c, hc⟩ := read_ok_of_le hk hdef (hl i (List.mem_cons_self _ _)).le
    obtain ⟨bs, hbs⟩ := ih fun j hj => hl j (List.mem_cons_of_mem _ hj)
    exact ⟨c :: bs, by rw [List.mapM_cons, bind_of_eq_ok hc, bind_of_eq_ok hbs]; rfl⟩

/-- `skipelem` from an index by the NUL returns, and an element it cuts ends by the NUL. -/
theorem skipelem_le_nul {p : Nat} (hp : p ≤ k) :
    ∃ e, skipelem P cap path p = .ok e ∧ ∀ name q, e = some (name, q) → q ≤ k := by
  have hkc := Buf.read_lt hk
  obtain ⟨p₁, h₁, hp₁⟩ := skipWhile_le_nul hk hdef (· = slash) (by decide) (cap + 1) hp
    (by omega)
  obtain ⟨c, hc⟩ := read_ok_of_le hk hdef hp₁
  unfold skipelem
  rw [bind_of_eq_ok h₁, bind_of_eq_ok hc]
  by_cases hc0 : c = 0
  · exact ⟨none, by simp [hc0, pure, Except.pure], nofun⟩
  obtain ⟨q₁, hq₁, hq₁k⟩ := skipWhile_le_nul hk hdef (fun c => decide (c ≠ slash ∧ c ≠ 0))
    (by decide) (cap + 1) hp₁ (by omega)
  obtain ⟨bs, hbs⟩ := mapM_read_ok hk hdef (f := (p₁ + ·)) (l := List.range (q₁ - p₁))
    fun i hi => by rw [List.mem_range] at hi; show p₁ + i < k; omega
  obtain ⟨q₂, hq₂, hq₂k⟩ := skipWhile_le_nul hk hdef (· = slash) (by decide) (cap + 1) hq₁k
    (by omega)
  refine ⟨some (if P.DIRSIZ ≤ bs.length then bs.take P.DIRSIZ else bs ++ [0], q₂), ?_,
    fun _ _ h => by cases h; exact hq₂k⟩
  rw [if_neg hc0, bind_of_eq_ok hq₁, bind_of_eq_ok hbs, bind_of_eq_ok hq₂]
  rfl

/-- Every C string has the elements `skipelem` cuts off it. -/
theorem pathElems_ok : ∃ names, pathElems P cap path (cap + 1) 0 = .ok names := by
  have hkc := Buf.read_lt hk
  suffices ∀ {fuel p : Nat}, p ≤ k → k < p + fuel → ∃ names, pathElems P cap path fuel p = .ok names
    from this (Nat.zero_le _) (by omega)
  intro fuel
  induction fuel with
  | zero => exact fun _ _ => ⟨[], rfl⟩
  | succ fuel ih =>
    intro p hp hf
    obtain ⟨e, he, hq⟩ := skipelem_le_nul hk hdef hp
    rw [pathElems, bind_of_eq_ok he]
    rcases e with _ | ⟨name, q⟩
    · exact ⟨[], rfl⟩
    · have hpq := (skipelem_some (by omega) he).1
      obtain ⟨names, hn⟩ := ih (hq name q rfl) (by omega)
      exact ⟨name :: names, by dsimp only; rw [bind_of_eq_ok hn]; rfl⟩

end Terminated

end Elems

variable (P) in
/-- Two entries of the cache are unreferenced: room for the entry a lookup holds and the next
one it takes. -/
def Room (s : State) : Prop :=
  ∃ a b, a ≠ b ∧ a < P.NINODE ∧ b < P.NINODE ∧ (s.icache a).ref = 0 ∧ (s.icache b).ref = 0

variable (P) in
/-- What a lookup from `s₀` leaves, returning the entry `r`: a state that differs from `s₀` in
the cache alone and keeps the invariant of the inode layer, with no entry locked, one more
reference than in `s₀` on `r`, if any, and the count of `s₀` on every other entry. -/
structure Lookup (s₀ s : State) (r : Option Nat) : Prop where
  cons : Consistent P P.ROOTDEV s
  cache : s = { s₀ with icache := s.icache }
  refs : ∀ x, (s.icache x).ref = (s₀.icache x).ref + if r = some x then 1 else 0
  unlocked : ∀ x < P.NINODE, (s.icache x).busy = false

variable (P) in
/-- A lookup from `s₀` in the middle of its walk, at inode `i` through the cache entry `ip`: the
state differs from `s₀` in the cache alone and keeps the invariant; the lookup has one reference
on `ip` and may have it locked, and every other count and lock is that of `s₀`. The entry lies
inside the cache with the identity of `i`, an inode in use; it was referenced before or `i` has
a link, so dropping the lookup's reference does not free `i`. Locked, it is valid with the
dinode of `i`. -/
structure Holding (s₀ s : State) (ip i : Nat) (locked : Bool) : Prop where
  cons : Consistent P P.ROOTDEV s
  cache : s = { s₀ with icache := s.icache }
  refs : ∀ x, (s.icache x).ref = (s₀.icache x).ref + if x = ip then 1 else 0
  busy : ∀ x < P.NINODE, (s.icache x).busy = (locked && decide (x = ip))
  lt : ip < P.NINODE
  inum : (s.icache ip).inum = i
  inUse : (s₀.disk.dinodes i).type ≠ .free
  held : 0 ≤ (s₀.icache ip).ref
  keep : 0 < (s₀.icache ip).ref ∨ 0 < (s₀.disk.dinodes i).nlink
  dinode : locked → (s.icache ip).valid ∧ (s.icache ip).toDinode = s₀.disk.dinodes i

/-- `iget` finds an entry when one entry of the cache is unreferenced. -/
theorem iget_ok_of_free {s : State} (dev inum : Nat) (h : ∃ x < P.NINODE, (s.icache x).ref = 0) :
    ∃ ip s', iget P s dev inum = .ok (ip, s') := by
  cases hg : iget P s dev inum with
  | error e =>
    obtain ⟨x, hx, h0⟩ := h
    exact absurd h0 ((iget_error hg).2 x hx)
  | ok r => exact ⟨r.1, r.2, rfl⟩

/-- `iunlockput` of a locked entry whose reference is not the last one to a valid inode without
links unlocks it and drops the reference. -/
theorem iunlockput_keep {s : State} {ip : Nat} (hb : (s.icache ip).busy = true)
    (hr : 0 < (s.icache ip).ref)
    (hk : (s.icache ip).ref = 1 → (s.icache ip).valid → 0 < (s.icache ip).nlink) :
    iunlockput P s ip =
      .ok (s.setInode ip { s.icache ip with busy := false, ref := (s.icache ip).ref - 1 }) := by
  have hlast : ¬ ((s.icache ip).ref = 1 ∧ (s.icache ip).valid ∧ (s.icache ip).nlink = 0) :=
    fun h => by have := hk h.1 h.2.1; omega
  rw [iunlockput, iunlock, if_neg (by simp [hb]; omega), bind_of_eq_ok rfl,
    iput_of_not_last (by simpa using hlast)]
  simp only [State.setInode_setInode, State.setInode_icache, Function.update_same]

theorem cache_setInode {s₀ s : State} (h : s = { s₀ with icache := s.icache }) (ip : Nat)
    (e : Inode) : s.setInode ip e = { s₀ with icache := (s.setInode ip e).icache } := by
  rw [h]; rfl

/-- `iunlockput` keeps the invariant. -/
theorem Consistent.iunlockput {dev : Nat} {s s' : State} {ip : Nat} (c : Consistent P dev s)
    (hip : ip < P.NINODE) (href : 0 < (s.icache ip).ref)
    (h : Xv6Fs.iunlockput P s ip = .ok s') : Consistent P dev s' := by
  obtain ⟨s₁, h₁, h₂⟩ := bind_eq_ok h
  have hr₁ : 0 < (s₁.icache ip).ref := by
    unfold Xv6Fs.iunlock at h₁
    split at h₁
    · cases h₁
    · cases h₁; simpa using href
  exact (c.iunlock h₁).iput hip hr₁ h₂

theorem State.setInode_comm (s : State) {a b : Nat} (h : a ≠ b) (e e' : Inode) :
    (s.setInode a e).setInode b e' = (s.setInode b e').setInode a e := by
  simp only [State.setInode, Function.update_comm h]

namespace Lookup

variable {s₀ s : State}

/-- A lookup starts from a consistent state with no entry locked. -/
theorem start (c : Consistent P P.ROOTDEV s₀)
    (unlocked : ∀ x < P.NINODE, (s₀.icache x).busy = false) :
    Lookup P s₀ s₀ none :=
  ⟨c, rfl, fun x => by simp, unlocked⟩

theorem disk {r : Option Nat} (lk : Lookup P s₀ s r) : s.disk = s₀.disk := by
  rw [lk.cache]

/-- A lookup holding nothing that gives the entry `n` one more reference, unlocked, with the
identity of an inode `j` in use with a link, holds `n`. -/
theorem take (lk : Lookup P s₀ s none) {j n : Nat} {e : Inode}
    (hu : (s₀.disk.dinodes j).type ≠ .free)
    (hk : 0 < (s.icache n).ref ∨ 0 < (s₀.disk.dinodes j).nlink)
    (hn : n < P.NINODE) (c : Consistent P P.ROOTDEV (s.setInode n e)) (hinum : e.inum = j)
    (href : e.ref = (s.icache n).ref + 1) (hheld : 0 ≤ (s.icache n).ref)
    (hbusy : e.busy = false) : Holding P s₀ (s.setInode n e) n j false where
  cons := c
  cache := cache_setInode lk.cache n e
  refs x := by
    by_cases hx : x = n
    · subst hx; simpa [href] using lk.refs x
    · simpa [hx] using lk.refs x
  busy x hx := by
    by_cases hxn : x = n
    · subst hxn; simp [hbusy]
    · simp [hxn, lk.unlocked x hx]
  lt := hn
  inum := by simp [hinum]
  inUse := hu
  held := by have := lk.refs n; simp at this; omega
  keep := by have := lk.refs n; simp at this; rwa [← this]
  dinode := nofun

/-- `iget` of an inode in use with a link, from a lookup holding nothing: the lookup holds the
entry it returns. -/
theorem iget (lk : Lookup P s₀ s none) {j n : Nat} {s' : State} (hj : s₀.disk.Linked j)
    (hg : Xv6Fs.iget P s P.ROOTDEV j = .ok (n, s')) : Holding P s₀ s' n j false := by
  have c := lk.cons.iget hg
  obtain ⟨hn, ⟨hr, -, hi, rfl⟩ | ⟨h0, -, rfl⟩⟩ := iget_cases hg
  · exact lk.take hj.1 (.inr hj.2) hn c hi rfl hr.le (lk.unlocked n hn)
  · exact lk.take hj.1 (.inr hj.2) hn c rfl (by rw [h0]; rfl) h0.ge rfl

/-- `idup` of a referenced entry whose inode is in use, from a lookup holding nothing: the lookup
holds the entry. -/
theorem idup (lk : Lookup P s₀ s none) {ip : Nat} (hip : ip < P.NINODE)
    (hr : 0 < (s.icache ip).ref) (hu : (s₀.disk.dinodes (s.icache ip).inum).type ≠ .free) :
    Holding P s₀ (Xv6Fs.idup s ip) ip (s.icache ip).inum false :=
  lk.take hu (.inl hr) hip (lk.cons.setInode rfl rfl (fun _ => hr) fun _ _ hv => .inl ⟨hv, rfl⟩)
    rfl rfl hr.le (lk.unlocked ip hip)

end Lookup

namespace Holding

variable {s₀ s : State} {ip i : Nat} {locked : Bool}

theorem disk (h : Holding P s₀ s ip i locked) : s.disk = s₀.disk := by
  rw [h.cache]

theorem ref_pos (h : Holding P s₀ s ip i locked) : 0 < (s.icache ip).ref := by
  rw [h.refs ip, if_pos rfl]
  have := h.held
  omega

/-- Besides the one the lookup holds, an entry is free. -/
theorem free (h : Holding P s₀ s ip i locked) (room : Room P s₀) :
    ∃ x < P.NINODE, (s.icache x).ref = 0 := by
  obtain ⟨a, b, hab, ha, hb, ha0, hb0⟩ := room
  by_cases hai : a = ip
  · refine ⟨b, hb, ?_⟩
    rw [h.refs b, if_neg (by rintro rfl; exact hab hai), hb0]
    rfl
  · refine ⟨a, ha, ?_⟩
    rw [h.refs a, if_neg hai, ha0]
    rfl

/-- Dropping the lookup's reference does not free the inode. -/
theorem keep_nlink (h : Holding P s₀ s ip i locked) :
    (s.icache ip).ref = 1 → (s.icache ip).valid → 0 < (s.icache ip).nlink := by
  intro h1 hv
  have hd := h.cons.coh ip ⟨h.lt, by omega, hv⟩
  rw [h.inum, h.disk] at hd
  rw [h.refs ip, if_pos rfl] at h1
  rw [hd]
  exact h.keep.resolve_left (by omega)

/-- The walk ends holding `ip`: the entry is the answer. -/
theorem lookup (h : Holding P s₀ s ip i false) : Lookup P s₀ s (some ip) :=
  ⟨h.cons, h.cache, fun x => by rw [h.refs x]; simp [eq_comm], fun x hx => by
    simpa using h.busy x hx⟩

/-- The held entry replaced by one of the same identity and count, locked or not, valid with
the dinode of `i` when locked. -/
theorem setInode (h : Holding P s₀ s ip i locked) {e : Inode} (locked' : Bool)
    (c : Consistent P P.ROOTDEV (s.setInode ip e)) (hinum : e.inum = i)
    (href : e.ref = (s.icache ip).ref) (hbusy : e.busy = locked')
    (hd : locked' → e.valid ∧ e.toDinode = s₀.disk.dinodes i) :
    Holding P s₀ (s.setInode ip e) ip i locked' where
  cons := c
  cache := cache_setInode h.cache ip e
  refs x := by
    by_cases hx : x = ip
    · subst hx; simp [href, h.refs x]
    · simp [hx, h.refs x]
  busy x hx := by
    by_cases hxi : x = ip
    · subst hxi; simp [hbusy]
    · simp [hxi, h.busy x hx]
  lt := h.lt
  inum := by simp [hinum]
  inUse := h.inUse
  held := h.held
  keep := h.keep
  dinode := by simpa using hd

/-- The held entry replaced by one with a count one less, unlocked: the lookup drops it. -/
theorem drop (h : Holding P s₀ s ip i locked) {e : Inode}
    (c : Consistent P P.ROOTDEV (s.setInode ip e)) (href : e.ref = (s.icache ip).ref - 1)
    (hbusy : e.busy = false) : Lookup P s₀ (s.setInode ip e) none where
  cons := c
  cache := cache_setInode h.cache ip e
  refs x := by
    by_cases hx : x = ip
    · subst hx; simp [href, h.refs x]
    · simp [hx, h.refs x]
  unlocked x hx := by
    by_cases hxi : x = ip
    · subst hxi; simp [hbusy]
    · simp [hxi, h.busy x hx]

/-- `ilock` of the held entry locks it, valid with the dinode of `i`. -/
theorem ilock (h : Holding P s₀ s ip i false) :
    ∃ s', Xv6Fs.ilock s ip = .ok s' ∧ Holding P s₀ s' ip i true := by
  have hr := h.ref_pos
  have hb : (s.icache ip).busy = false := by simpa using h.busy ip h.lt
  unfold Xv6Fs.ilock
  rw [if_neg (by omega), if_neg (by simp [hb])]
  simp only [State.setInode_icache, Function.update_same]
  split
  · rename_i hv
    have hd := h.cons.coh ip ⟨h.lt, hr, hv⟩
    rw [h.inum, h.disk] at hd
    exact ⟨_, rfl, h.setInode true (h.cons.setInode rfl rfl (fun _ => hr)
      fun _ _ hv => .inl ⟨hv, rfl⟩) h.inum rfl rfl fun _ => ⟨hv, hd⟩⟩
  · have ht : (s.disk.dinodes (s.icache ip).inum).type ≠ .free := by
      rw [h.inum, h.disk]; exact h.inUse
    rw [if_neg (by simpa using ht), State.setInode_setInode]
    refine ⟨_, rfl, h.setInode true (h.cons.setInode rfl rfl (fun _ => hr)
      fun _ _ _ => .inr ⟨rfl, ht⟩) h.inum rfl rfl fun _ => ⟨rfl, ?_⟩⟩
    simp [h.inum, h.disk]

/-- `iunlock` of the locked entry. -/
theorem iunlock (h : Holding P s₀ s ip i true) :
    ∃ s', Xv6Fs.iunlock s ip = .ok s' ∧ Holding P s₀ s' ip i false := by
  have hb : (s.icache ip).busy = true := by simpa using h.busy ip h.lt
  have hr := h.ref_pos
  exact ⟨s.setInode ip { s.icache ip with busy := false },
    by rw [Xv6Fs.iunlock, if_neg (by simp [hb]; omega)],
    h.setInode false (h.cons.setInode rfl rfl id fun _ _ hv => .inl ⟨hv, rfl⟩) h.inum rfl rfl
      nofun⟩

/-- `iput` of the unlocked entry drops the lookup's reference. -/
theorem iput (h : Holding P s₀ s ip i false) :
    ∃ s', Xv6Fs.iput P s ip = .ok s' ∧ Lookup P s₀ s' none := by
  have hr := h.ref_pos
  refine ⟨_, iput_of_not_last fun hl => ?_, h.drop (h.cons.setInode rfl rfl (fun _ => hr)
    fun _ _ hv => .inl ⟨hv, rfl⟩) rfl (by simpa using h.busy ip h.lt)⟩
  have := h.keep_nlink hl.1 hl.2.1
  omega

/-- `iunlockput` of the locked entry unlocks it and drops the lookup's reference. -/
theorem iunlockput (h : Holding P s₀ s ip i true) :
    ∃ s', Xv6Fs.iunlockput P s ip = .ok s' ∧ Lookup P s₀ s' none := by
  have hr := h.ref_pos
  exact ⟨_, iunlockput_keep (by simpa using h.busy ip h.lt) hr h.keep_nlink,
    h.drop (h.cons.setInode rfl rfl (fun _ => hr) fun _ _ hv => .inl ⟨hv, rfl⟩) rfl rfl⟩

/-- A directory the lookup has locked is read whole by `dirlookup`. -/
theorem shape (h : Holding P s₀ s ip i true) (tree : s₀.disk.Tree P)
    (hdir : (s₀.disk.dinodes i).type = .dir) : DirShape P s ip := by
  obtain ⟨hv, hd⟩ := h.dinode rfl
  have htype : (s.icache ip).type = .dir := by rw [hd]; exact hdir
  exact ⟨htype, h.cons.fileInv ⟨h.lt, h.ref_pos, hv⟩ (by rw [htype]; decide),
    by rw [hd]; exact tree.whole i hdir⟩

/-- The records of a locked entry are those of its inode on disk. -/
theorem dirents (h : Holding P s₀ s ip i true) :
    s.dirents P ip = s₀.disk.dirents P (s₀.disk.dinodes i) := by
  rw [State.dirents_eq_disk, (h.dinode rfl).2, h.disk]

/-- `dirlookup` of a name the directory lacks finds nothing and changes nothing. -/
theorem dirlookup_none (h : Holding P s₀ s ip i true) (tree : s₀.disk.Tree P)
    (hdir : (s₀.disk.dinodes i).type = .dir) {name : List UInt8}
    (hf : findName P name (s₀.disk.dirents P (s₀.disk.dinodes i)) 0 = none) :
    dirlookup P s ip name = .ok (none, s) := by
  rw [(h.shape tree hdir).dirlookup_eq, h.dirents, hf]

/-- Trading the held, locked entry for another entry `n` that `iget` gave one more reference,
unlocked, with the identity of `j`: `iunlockput` of the first leaves the lookup holding `n`. -/
theorem trade (h : Holding P s₀ s ip i true) (hj : s₀.disk.Linked j) {n : Nat} {e : Inode}
    (hn : n < P.NINODE) (hne : n ≠ ip) (c : Consistent P P.ROOTDEV (s.setInode n e))
    (hinum : e.inum = j) (href : e.ref = (s.icache n).ref + 1) (hheld : 0 ≤ (s.icache n).ref)
    (hbusy : e.busy = false) :
    ∃ s', Xv6Fs.iunlockput P (s.setInode n e) ip = .ok s' ∧ Holding P s₀ s' n j false := by
  have hr := h.ref_pos
  have hip : (s.setInode n e).icache ip = s.icache ip := by simp [Ne.symm hne]
  refine ⟨_, iunlockput_keep (by rw [hip]; simpa using h.busy ip h.lt) (by rw [hip]; exact hr)
    (by rw [hip]; exact h.keep_nlink), ?_⟩
  have c' : Consistent P P.ROOTDEV ((s.setInode n e).setInode ip
      { s.icache ip with busy := false, ref := (s.icache ip).ref - 1 }) :=
    c.setInode (by rw [hip]) (by rw [hip]) (fun _ => by rw [hip]; exact hr)
      fun _ _ hv => .inl ⟨by rw [hip]; exact hv, by rw [hip]⟩
  rw [hip, State.setInode_comm _ hne] at *
  have hn' : ∀ e', (s.setInode ip e').icache n = s.icache n := fun _ => by simp [hne]
  exact (h.drop (e := { s.icache ip with busy := false, ref := (s.icache ip).ref - 1 })
    (h.cons.setInode rfl rfl (fun _ => hr) fun _ _ hv => .inl ⟨hv, rfl⟩) rfl rfl).take
    hj.1 (.inr hj.2) hn c' hinum (by rw [hn', href]) (by rw [hn']; exact hheld) hbusy

/-- `dirlookup` of a name the directory has, and `iunlockput` of the directory: the lookup
holds the entry of the inode the name names. -/
theorem dirlookup_some (h : Holding P s₀ s ip i true) (tree : s₀.disk.Tree P) (room : Room P s₀)
    (hdir : (s₀.disk.dinodes i).type = .dir) {name : List UInt8} {off j : Nat}
    (hf : findName P name (s₀.disk.dirents P (s₀.disk.dinodes i)) 0 = some (off, j)) :
    ∃ n s₂ s₃, dirlookup P s ip name = .ok (some (n, off), s₂) ∧
      Xv6Fs.iunlockput P s₂ ip = .ok s₃ ∧ Holding P s₀ s₃ n j false := by
  have hl : s₀.disk.lookup P i name = some j := by simp [Disk.lookup, hdir, hf]
  have hj := tree.lookup_linked hl
  have hr := h.ref_pos
  obtain ⟨n, s₂, hg⟩ := iget_ok_of_free P.ROOTDEV j (h.free room)
  have c₂ := h.cons.iget hg
  have hlook : dirlookup P s ip name = .ok (some (n, off), s₂) := by
    rw [(h.shape tree hdir).dirlookup_eq, h.dirents, hf]
    simp [h.cons.devs ip h.lt hr, hg, Except.map]
  refine ⟨n, s₂, ?_⟩
  obtain ⟨hn, ⟨hr', -, hi, hs₂⟩ | ⟨h0, -, rfl⟩⟩ := iget_cases hg
  · by_cases hni : n = ip
    · -- the name is the directory itself: the lookup goes on holding it
      subst hni
      obtain rfl : j = i := hi.symm.trans h.inum
      have hb₂ : (s₂.icache n).busy = true := by rw [hs₂]; simpa using h.busy n h.lt
      have hr₂ : (s₂.icache n).ref = (s.icache n).ref + 1 := by rw [hs₂]; simp
      have h3 := iunlockput_keep (P := P) hb₂ (by omega) fun h1 => by omega
      refine ⟨_, hlook, h3, ?_⟩
      have c₃ := c₂.iunlockput hn (by omega) h3
      rw [hs₂, State.setInode_setInode] at c₃ ⊢
      exact h.setInode false c₃ (by simpa using h.inum) (by simp) rfl nofun
    · subst hs₂
      obtain ⟨s₃, h3, h3'⟩ := h.trade hj hn hni c₂ hi rfl hr'.le
        (by simpa [hni] using h.busy n hn)
      exact ⟨s₃, hlook, h3, h3'⟩
  · have hni : n ≠ ip := by rintro rfl; omega
    obtain ⟨s₃, h3, h3'⟩ := h.trade hj hn hni c₂ rfl (by rw [h0]; rfl) h0.ge rfl
    exact ⟨s₃, hlook, h3, h3'⟩

end Holding

variable (P) in
/-- The answer `namex` gives from inode `i` for the elements `names`, the entry `r` read in the
cache of `s`: with `nameiparent`, the directory and last element `Disk.parent` gives; without,
the inode `Disk.walk` reaches. -/
def Answers (d : Disk) :
    Bool → Nat → List (List UInt8) → State → Option Nat → List UInt8 → Prop
  | true, i, names, s, r, name => (r.map fun x => ((s.icache x).inum, name)) = d.parent P i names
  | false, i, names, s, r, _ => (r.map fun x => (s.icache x).inum) = d.walk P i names

section Answers

variable {d : Disk} {parent : Bool} {i : Nat} {name : List UInt8} {names : List (List UInt8)}
  {s : State}

/-- An element met at a non-directory answers nothing. -/
theorem answers_not_dir (h : (d.dinodes i).type ≠ .dir) (nm : List UInt8) :
    Answers P d parent i (name :: names) s none nm := by
  cases parent
  · simp [Answers, Disk.lookup_of_not_dir h]
  · by_cases hn : names = []
    · subst hn; simp [Answers, Disk.parent_singleton, h]
    · simp [Answers, Disk.parent_cons hn, Disk.lookup_of_not_dir h]

/-- A missing element answers nothing, unless it is the last one, kept by `nameiparent`. -/
theorem answers_none (hl : d.lookup P i name = none) (hne : parent → names ≠ [])
    (nm : List UInt8) : Answers P d parent i (name :: names) s none nm := by
  cases parent
  · simp [Answers, hl]
  · simp [Answers, Disk.parent_cons (hne rfl), hl]

/-- Past an element that is found, and not the last one `nameiparent` keeps, the answer is the
one from the inode it names. -/
theorem answers_cons {j : Nat} {r : Option Nat} {nm : List UInt8}
    (hl : d.lookup P i name = some j) (hne : parent → names ≠ []) :
    Answers P d parent i (name :: names) s r nm ↔ Answers P d parent j names s r nm := by
  cases parent
  · simp [Answers, hl]
  · simp [Answers, Disk.parent_cons (hne rfl), hl]

end Answers

section Loop

variable {s₀ : State} (tree : s₀.disk.Tree P) (room : Room P s₀) {cap : Nat} {path : Buf}
include tree room

/-- The loop of `namex` from a lookup holding the entry of inode `i`, at an index from which
`skipelem` cuts the elements `names`: it answers as the tree does and leaves `Lookup`. -/
theorem namexLoop_answers (parent : Bool) :
    ∀ {fuel : Nat} {s : State} {ip i p : Nat} {names : List (List UInt8)},
      Holding P s₀ s ip i false → p ≤ cap → cap < p + fuel →
      pathElems P cap path fuel p = .ok names →
      ∃ r name s', namexLoop P cap path parent fuel s ip p = .ok ((r, name), s') ∧
        Lookup P s₀ s' r ∧ Answers P s₀.disk parent i names s' r name
  | 0, _, _, _, _, _, _, hp, hf, _ => absurd hf (by omega)
  | fuel + 1, s, ip, i, p, names, h, hp, hf, hn => by
    rw [pathElems] at hn
    obtain ⟨e, he, hn⟩ := bind_eq_ok hn
    rw [namexLoop, bind_of_eq_ok he]
    rcases e with _ | ⟨name, q⟩
    · -- only slashes are left
      cases hn
      cases parent
      · exact ⟨some ip, [], s, rfl, h.lookup, by simp [Answers, h.inum]⟩
      · obtain ⟨s', hput, lk⟩ := h.iput
        exact ⟨none, [], s', by simp [hput], lk, by simp [Answers]⟩
    obtain ⟨rest, hrest, hn⟩ := bind_eq_ok hn
    cases hn
    obtain ⟨hpq, hqc⟩ := skipelem_some hp he
    obtain ⟨c, hc, hcs⟩ := skipelem_next hp he
    have hlast : rest = [] ↔ c = 0 := pathElems_eq_nil_iff (by omega) hc hcs hrest
    obtain ⟨s₁, hlock, h₁⟩ := h.ilock
    have htype : (s₁.icache ip).type = (s₀.disk.dinodes i).type := by rw [(h₁.dinode rfl).2]
    dsimp only
    rw [bind_of_eq_ok hlock]
    by_cases hdir : (s₀.disk.dinodes i).type = .dir
    swap
    · -- a non-directory to search
      obtain ⟨s₂, hput, lk⟩ := h₁.iunlockput
      rw [if_pos (by rw [htype]; exact hdir), bind_of_eq_ok hput]
      exact ⟨none, name, s₂, rfl, lk, answers_not_dir hdir _⟩
    rw [if_neg (by rw [htype]; exact not_not.mpr hdir)]
    have hlastv : (if parent then (path.read cap q >>= fun c => pure (decide (c = 0)))
        else pure false : Except Fault Bool) = .ok (parent && decide (c = 0)) := by
      cases parent <;> simp [bind_of_eq_ok hc, pure, Except.pure]
    rw [bind_of_eq_ok hlastv]
    by_cases hl : (parent && decide (c = 0)) = true
    · -- `nameiparent` stops before the last element
      obtain ⟨hpar, hc0⟩ : parent = true ∧ c = 0 := by simpa using hl
      subst hpar
      obtain rfl : rest = [] := hlast.mpr hc0
      obtain ⟨s₂, hul, h₂⟩ := h₁.iunlock
      rw [if_pos hl, bind_of_eq_ok hul]
      exact ⟨some ip, name, s₂, rfl, h₂.lookup, by simp [Answers, Disk.parent_singleton, hdir,
        h₂.inum]⟩
    have hne : parent → rest ≠ [] := fun hp hr => hl (by simpa [hp] using hlast.mp hr)
    rw [if_neg hl]
    cases hf : findName P name (s₀.disk.dirents P (s₀.disk.dinodes i)) 0 with
    | none =>
      -- the element is missing
      obtain ⟨s₂, hput, lk⟩ := h₁.iunlockput
      rw [bind_of_eq_ok (h₁.dirlookup_none tree hdir hf)]
      dsimp only
      rw [bind_of_eq_ok hput]
      exact ⟨none, name, s₂, rfl, lk, answers_none (by simp [Disk.lookup, hdir, hf]) hne _⟩
    | some x =>
      -- the walk moves to the inode the element names
      obtain ⟨off, j⟩ := x
      obtain ⟨n, s₂, s₃, hlook, hput, h₃⟩ := h₁.dirlookup_some tree room hdir hf
      rw [bind_of_eq_ok hlook]
      dsimp only
      rw [bind_of_eq_ok hput]
      obtain ⟨r, nm, s', hloop, lk, ans⟩ :=
        namexLoop_answers parent h₃ hqc.le (by omega) hrest
      exact ⟨r, nm, s', hloop, lk,
        (answers_cons (by simp [Disk.lookup, hdir, hf]) hne).mpr ans⟩

end Loop

variable (P) in
/-- What a lookup needs of the state it starts in and of the process that makes it: the
invariant of the inode layer, a directory tree on the disk, no entry locked, two unreferenced
entries, and a working directory held in the cache, its inode in use. -/
structure LookupReady (s : State) (proc : Proc) : Prop where
  cons : Consistent P P.ROOTDEV s
  tree : s.disk.Tree P
  unlocked : ∀ x < P.NINODE, (s.icache x).busy = false
  room : Room P s
  cwd : proc.cwd < P.NINODE
  cwdRef : 0 < (s.icache proc.cwd).ref
  cwdInUse : (s.disk.dinodes (s.icache proc.cwd).inum).type ≠ .free

/-- `namex` answers as the tree does from the inode the path starts at, and leaves `Lookup`. -/
theorem namex_answers {s : State} {proc : Proc} {cap : Nat} {path : Buf}
    {names : List (List UInt8)} (ready : LookupReady P s proc) (parent : Bool)
    (hn : pathElems P cap path (cap + 1) 0 = .ok names) :
    ∃ r name s', namex P s proc cap path parent = .ok ((r, name), s') ∧ Lookup P s s' r ∧
      Answers P s.disk parent (s.startIno P proc path) names s' r name := by
  obtain ⟨c, hc⟩ : ∃ c, path.read cap 0 = .ok c := by
    rw [pathElems] at hn
    obtain ⟨e, he, -⟩ := bind_eq_ok hn
    exact skipelem_read he
  have hc0 := Buf.some_of_read hc
  have lk := Lookup.start ready.cons ready.unlocked
  rw [namex, bind_of_eq_ok hc]
  by_cases hs : c = slash
  · -- an absolute path starts at the root
    obtain ⟨a, b, -, ha, -, ha0, -⟩ := ready.room
    obtain ⟨n, s₁, hg⟩ := iget_ok_of_free P.ROOTDEV P.ROOTINO ⟨a, ha, ha0⟩
    rw [if_pos hs, bind_of_eq_ok hg, show s.startIno P proc path = P.ROOTINO by
      simp [State.startIno, hc0, hs]]
    exact namexLoop_answers ready.tree ready.room parent (lk.iget ready.tree.root hg)
      (Nat.zero_le _) (by omega) hn
  · -- a relative one at the working directory
    rw [if_neg hs, pure_bind, show s.startIno P proc path = (s.icache proc.cwd).inum by
      simp [State.startIno, hc0, hs]]
    exact namexLoop_answers ready.tree ready.room parent
      (lk.idup ready.cwd ready.cwdRef ready.cwdInUse) (Nat.zero_le _) (by omega) hn

/-- Path resolution. From a state ready for a lookup, for a path whose elements are `names`:
`namei` returns the cache entry of the inode `Disk.walk` reaches from the root, for a path that
begins with `'/'`, or from the working directory, and nothing when an inode to be searched is
not a directory or an element is missing; `nameiparent` returns the entry of the directory and
the last element `Disk.parent` gives, and nothing for a path without elements. Either call
changes the cache alone, leaves no entry locked, and adds one reference to the entry it returns
and none elsewhere. Every path that holds a C string has its elements (`pathElems_ok`), so the
two calls do this on every such path. -/
theorem path_resolution {s : State} {proc : Proc} {cap : Nat} {path : Buf}
    (ready : LookupReady P s proc) :
    (∀ names, pathElems P cap path (cap + 1) 0 = .ok names →
      (∃ r s', namei P s proc cap path = .ok (r, s') ∧
        (r.map fun x => (s'.icache x).inum) = s.disk.walk P (s.startIno P proc path) names ∧
        Lookup P s s' r) ∧
      (∃ r name s', nameiparent P s proc cap path = .ok ((r, name), s') ∧
        (r.map fun x => ((s'.icache x).inum, name)) =
          s.disk.parent P (s.startIno P proc path) names ∧
        Lookup P s s' r)) ∧
    (∀ k, path.read cap k = .ok 0 → (∀ i < k, ∃ c, path.read cap i = .ok c) →
      ∃ names, pathElems P cap path (cap + 1) 0 = .ok names ∧
      (∃ r s', namei P s proc cap path = .ok (r, s') ∧
        (r.map fun x => (s'.icache x).inum) = s.disk.walk P (s.startIno P proc path) names ∧
        Lookup P s s' r) ∧
      (∃ r name s', nameiparent P s proc cap path = .ok ((r, name), s') ∧
        (r.map fun x => ((s'.icache x).inum, name)) =
          s.disk.parent P (s.startIno P proc path) names ∧
        Lookup P s s' r)) := by
  have answers : ∀ names, pathElems P cap path (cap + 1) 0 = .ok names →
      (∃ r s', namei P s proc cap path = .ok (r, s') ∧
        (r.map fun x => (s'.icache x).inum) = s.disk.walk P (s.startIno P proc path) names ∧
        Lookup P s s' r) ∧
      (∃ r name s', nameiparent P s proc cap path = .ok ((r, name), s') ∧
        (r.map fun x => ((s'.icache x).inum, name)) =
          s.disk.parent P (s.startIno P proc path) names ∧
        Lookup P s s' r) := fun names hn => by
    obtain ⟨r, nm, s', hx, lk, ans⟩ := namex_answers ready false hn
    obtain ⟨r', nm', s'', hx', lk', ans'⟩ := namex_answers ready true hn
    exact ⟨⟨r, s', by rw [namei, bind_of_eq_ok hx]; rfl, ans, lk⟩, ⟨r', nm', s'', hx', ans', lk'⟩⟩
  -- every C string splits into its elements
  refine ⟨answers, fun k hk hdef => ?_⟩
  obtain ⟨names, hn⟩ := pathElems_ok hk hdef
  exact ⟨names, hn, answers names hn⟩

/-- The directories of `sampleFs` form a tree. -/
theorem sampleFs_tree : sampleFs.disk.Tree Params.sample where
  root := by decide
  whole i _ := by
    rw [sampleFs_dinodes]
    split_ifs <;> decide
  linked i hi := by
    rcases i with _ | _ | _ | _ | _ | i
    all_goals first | decide | exact absurd hi (by rw [sampleFs_dinodes]; simp [Dinode.zero])

/-- `sampleFs` is ready for a lookup by its process: entries 1 and 2 of the cache are free. -/
theorem sampleFs_lookupReady : LookupReady Params.sample sampleFs sampleProc where
  cons := sampleFs_consistent
  tree := sampleFs_tree
  unlocked x _ := by by_cases h : x = 0 <;> simp [sampleFs, h]
  room := ⟨1, 2, by decide, by decide, by decide, rfl, rfl⟩
  cwd := by decide
  cwdRef := by decide
  cwdInUse := by decide

/-- The lookup of `"/d/l"` in `sampleFs`, a path that holds a C string: its elements are `d` and
`l`, and both calls answer by the walk over them. -/
theorem path_resolution_sampleFs :
    LookupReady Params.sample sampleFs sampleProc ∧
      (Buf.ofStr 8 (bytesOf "/d/l")).read 8 4 = .ok 0 ∧
      pathElems Params.sample 8 (Buf.ofStr 8 (bytesOf "/d/l")) 9 0 =
        .ok [bytesOf "d" ++ [0], bytesOf "l" ++ [0]] ∧
      ((∃ r s', namei Params.sample sampleFs sampleProc 8 (Buf.ofStr 8 (bytesOf "/d/l")) =
          .ok (r, s') ∧
        (r.map fun x => (s'.icache x).inum) = sampleFs.disk.walk Params.sample
          (sampleFs.startIno Params.sample sampleProc (Buf.ofStr 8 (bytesOf "/d/l")))
          [bytesOf "d" ++ [0], bytesOf "l" ++ [0]] ∧
        Lookup Params.sample sampleFs s' r) ∧
      (∃ r name s', nameiparent Params.sample sampleFs sampleProc 8
          (Buf.ofStr 8 (bytesOf "/d/l")) = .ok ((r, name), s') ∧
        (r.map fun x => ((s'.icache x).inum, name)) = sampleFs.disk.parent Params.sample
          (sampleFs.startIno Params.sample sampleProc (Buf.ofStr 8 (bytesOf "/d/l")))
          [bytesOf "d" ++ [0], bytesOf "l" ++ [0]] ∧
        Lookup Params.sample sampleFs s' r)) := by
  have law := @path_resolution Params.sample sampleFs sampleProc 8 (Buf.ofStr 8 (bytesOf "/d/l"))
    sampleFs_lookupReady
  have hn : pathElems Params.sample 8 (Buf.ofStr 8 (bytesOf "/d/l")) 9 0 =
      .ok [bytesOf "d" ++ [0], bytesOf "l" ++ [0]] := by decide
  exact ⟨sampleFs_lookupReady, by decide, hn, law.1 _ hn⟩

/-- `sampleFs` with every entry of the cache referenced: the root in entry 0, and in entry
`ip` the inode `ip + 4`, not read. -/
def fullFs : State :=
  { sampleFs with icache := fun ip =>
      if ip = 0 then ⟨Dinode.sample .dir 64 10, 1, 1, 1, false, true⟩
      else ⟨Dinode.zero, 1, ip + 4, 1, false, false⟩ }

/-- A lookup from a consistent state whose cache is full: `namei` of `"/d"` finds the root in
the cache, but `iget` of the inode `d` names finds no entry, and the kernel panics, while the
tree has `d`. -/
theorem namei_full_cache :
    Consistent Params.sample 1 fullFs ∧ fullFs.disk.Tree Params.sample ∧
      (∀ x < Params.sample.NINODE, (fullFs.icache x).busy = false) ∧ ¬ Room Params.sample fullFs ∧
      pathElems Params.sample 8 (Buf.ofStr 8 (bytesOf "/d")) 9 0 = .ok [bytesOf "d" ++ [0]] ∧
      fullFs.disk.walk Params.sample 1 [bytesOf "d" ++ [0]] = some 2 ∧
      namei Params.sample fullFs sampleProc 8 (Buf.ofStr 8 (bytesOf "/d")) =
        .error (.panic "iget: no inodes") := by
  have c := sampleFs_consistent
  refine ⟨⟨c.formatted, c.inj, c.used, c.region, c.holes, fun x hx => ?_, fun x hx => ?_,
    fun x y _ _ _ _ hxy => ?_, fun x _ _ => ?_⟩, sampleFs_tree, fun x _ => ?_, ?_, by decide,
    by decide, by rfl⟩
  · by_cases h : x = 0
    · subst h; rfl
    · simp [State.Live, fullFs, h] at hx
  · by_cases h : x = 0
    · subst h; decide
    · simp [State.Live, fullFs, h] at hx
  · by_cases hx : x = 0 <;> by_cases hy : y = 0 <;> simp [fullFs, hx, hy] at hxy ⊢
    omega
  · by_cases h : x = 0 <;> simp [fullFs, h]
  · by_cases h : x = 0 <;> simp [fullFs, h]
  · rintro ⟨a, b, -, -, -, ha, -⟩
    by_cases h : a = 0 <;> simp [fullFs, h] at ha

end Xv6Fs
