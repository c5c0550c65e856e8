import Xv6Fs.Ownership

/-!
# Directories as finite maps

A directory of `sizeof(struct dirent)`-byte records is a map from names to inode numbers, read
by `dirlookup` and extended by `dirlink`. The abstract side works on the decoded records, a list
of `Dirent`: `findName` is the lookup of `dirlookup` (the first live record whose name matches
on `DIRSIZ` characters), `freeIdx` the first free record, and `insertRec` the record `dirlink`
adds, in the first free record or at the end. Names are compared with `namecmp`, and stored
cut or padded by `strncpy`, which `namecmp` cannot tell apart (`namecmp_strncpy`).

`State.dirents` decodes the records of a directory entry from its bytes, and `DirInv` is what a
directory needs to be such a map: a referenced directory with the file invariants of `writei`
and `readi`, a whole number of records, and live records of pairwise different names. The two
loops over the records, of `dirlookup` and of `dirlink`, then compute `findName` and `freeIdx`
(`DirShape.dirlookupLoop_eq`, `DirShape.dirlinkScan_eq`), and the `writei` of `dirlink` turns the
records into `insertRec` of the new one (`dirents_write`).

`dirlink` stores the inode number in the `ushort` of a record, so the contract holds for numbers
below `2 ^ 16`; `dirlink` cuts a larger one.
-/

namespace Xv6Fs

variable (P : Params)

/-- The first live record of `es` named `name`, the offsets counted from `off`: its offset and
its inode number. This is what the loop of `dirlookup` finds. -/
def findName (name : List UInt8) : List Dirent → Nat → Option (Nat × Nat)
  | [], _ => none
  | de :: es, off =>
    if de.inum = 0 then findName name es (off + P.direntSize)
    else if namecmp P name de.name = 0 then some (off, de.inum)
    else findName name es (off + P.direntSize)

/-- The index of the first free record of `es`, or its length. -/
def freeIdx : List Dirent → Nat
  | [] => 0
  | de :: es => if de.inum = 0 then 0 else freeIdx es + 1

/-- `es` with `de` in its first free record, or appended when none is free. -/
def insertRec (de : Dirent) : List Dirent → List Dirent
  | [] => [de]
  | e :: es => if e.inum = 0 then de :: es else e :: insertRec de es

/-- The live records of `es` have pairwise different names. -/
def NamesDistinct (es : List Dirent) : Prop :=
  es.Pairwise fun a b => a.inum ≠ 0 → b.inum ≠ 0 → namecmp P a.name b.name ≠ 0

instance (es : List Dirent) : Decidable (NamesDistinct P es) :=
  inferInstanceAs (Decidable (es.Pairwise _))

section Records

variable {P}

theorem namecmp_strncpy (u t : List UInt8) : namecmp P u (strncpy t P.DIRSIZ) = namecmp P u t :=
  strncmp_strncpy u t P.DIRSIZ

theorem namecmp_self (t : List UInt8) : namecmp P t t = 0 :=
  strncmp_self t P.DIRSIZ

theorem namecmp_eq_zero_comm (u t : List UInt8) : namecmp P u t = 0 ↔ namecmp P t u = 0 :=
  strncmp_eq_zero_comm u t P.DIRSIZ

/-- Nothing is found exactly when no live record has the name. -/
theorem findName_eq_none {name : List UInt8} :
    ∀ {es : List Dirent} {off : Nat}, findName P name es off = none ↔
      ∀ de ∈ es, de.inum ≠ 0 → namecmp P name de.name ≠ 0
  | [], _ => by simp [findName]
  | de :: es, off => by
    rw [findName, List.forall_mem_cons]
    split_ifs with h0 hn
    · simp [h0, findName_eq_none]
    · simp [h0, hn]
    · simp [h0, hn, findName_eq_none]

/-- After `insertRec` of a record named `name`, looking `name` up finds it, at the offset of the
first free record. -/
theorem findName_insertRec_self {name : List UInt8} {inum : Nat} (hinum : inum ≠ 0) :
    ∀ {es : List Dirent} {off : Nat}, findName P name es off = none →
      findName P name (insertRec ⟨inum, strncpy name P.DIRSIZ⟩ es) off =
        some (off + freeIdx es * P.direntSize, inum)
  | [], off, _ => by
    simp [insertRec, findName, hinum, namecmp_strncpy, namecmp_self, freeIdx]
  | e :: es, off, h => by
    rw [insertRec, freeIdx]
    by_cases h0 : e.inum = 0
    · simp [h0, findName, hinum, namecmp_strncpy, namecmp_self]
    · rw [findName, if_neg h0] at h
      split_ifs at h with hn
      rw [if_neg h0, if_neg h0, findName, if_neg h0, if_neg hn, findName_insertRec_self hinum h,
        Nat.succ_mul]
      congr 2
      omega

/-- Looking up a name that `de` does not match is not changed by `insertRec`. -/
theorem findName_insertRec_other {name : List UInt8} {de : Dirent}
    (hne : namecmp P name de.name ≠ 0) :
    ∀ {es : List Dirent} {off : Nat},
      findName P name (insertRec de es) off = findName P name es off
  | [], off => by simp [insertRec, findName, hne]
  | e :: es, off => by
    rw [insertRec]
    by_cases h0 : e.inum = 0
    · rw [if_pos h0, findName, findName, if_pos h0]
      split_ifs <;> rfl
    · rw [if_neg h0, findName, findName, if_neg h0, if_neg h0, findName_insertRec_other hne]

theorem mem_insertRec {de e : Dirent} {es : List Dirent} (h : e ∈ insertRec de es) :
    e = de ∨ e ∈ es := by
  induction es with
  | nil => exact .inl (List.mem_singleton.mp h)
  | cons x es ih =>
    rw [insertRec] at h
    split_ifs at h
    · rcases List.mem_cons.mp h with rfl | h
      exacts [.inl rfl, .inr (List.mem_cons_of_mem _ h)]
    · rcases List.mem_cons.mp h with rfl | h
      · exact .inr (List.mem_cons_self _ _)
      · exact (ih h).imp_right (List.mem_cons_of_mem _)

/-- A record named `name`, which no live record of `es` matches, keeps the names of `es`
distinct. -/
theorem namesDistinct_insertRec {name : List UInt8} {inum : Nat} :
    ∀ {es : List Dirent}, NamesDistinct P es →
      (∀ b ∈ es, b.inum ≠ 0 → namecmp P name b.name ≠ 0) →
      NamesDistinct P (insertRec ⟨inum, strncpy name P.DIRSIZ⟩ es)
  | [], _, _ => List.pairwise_singleton _ _
  | e :: es, hd, fresh => by
    rw [NamesDistinct, List.pairwise_cons] at hd
    rw [insertRec]
    split_ifs with h0
    · refine List.Pairwise.cons (fun b hb _ hb0 hc => ?_) hd.2
      rw [namecmp_eq_zero_comm, namecmp_strncpy, ← namecmp_eq_zero_comm] at hc
      exact fresh b (List.mem_cons_of_mem _ hb) hb0 hc
    · refine List.Pairwise.cons (fun b hb he0 hb0 hc => ?_)
        (namesDistinct_insertRec hd.2 fun b hb => fresh b (List.mem_cons_of_mem _ hb))
      rcases mem_insertRec hb with rfl | hb
      · rw [namecmp_strncpy, namecmp_eq_zero_comm] at hc
        exact fresh e (List.mem_cons_self _ _) h0 hc
      · exact hd.1 b hb he0 hb0 hc

theorem freeIdx_le_length : ∀ es : List Dirent, freeIdx es ≤ es.length
  | [] => Nat.le_refl _
  | e :: es => by
    rw [freeIdx]
    split_ifs
    · exact Nat.zero_le _
    · exact Nat.succ_le_succ (freeIdx_le_length es)

/-- A list whose entries are those of `es` but for `de` at the first free index, and which is
one longer when none is free, is `insertRec de es`. -/
theorem eq_insertRec {de : Dirent} :
    ∀ {es l : List Dirent},
      l.length = (if freeIdx es < es.length then es.length else es.length + 1) →
      (∀ j (h : j < l.length), l[j] = if j = freeIdx es then de else es.getD j de) →
      l = insertRec de es
  | [], l, hlen, hget => by
    rcases l with _ | ⟨x, _ | ⟨y, l⟩⟩ <;> simp [freeIdx] at hlen
    simpa [insertRec, freeIdx] using hget 0 (Nat.zero_lt_succ _)
  | e :: es, [], hlen, _ => by simp at hlen; split at hlen <;> omega
  | e :: es, x :: l, hlen, hget => by
    have hx := hget 0 (Nat.zero_lt_succ _)
    have htail : ∀ j (h : j < l.length),
        l[j] = if j + 1 = freeIdx (e :: es) then de else es.getD j de :=
      fun j h => hget (j + 1) (by simp [h])
    simp only [List.length_cons, List.getElem_cons_zero, List.getD_cons_zero] at hx hlen
    rw [insertRec]
    by_cases he : e.inum = 0
    · have hf : freeIdx (e :: es) = 0 := by rw [freeIdx, if_pos he]
      simp only [hf, if_pos, Nat.zero_lt_succ, Nat.add_right_cancel_iff] at hx hlen
      rw [if_pos he, hx, List.ext_getElem hlen fun j h₁ h₂ => by
        rw [htail j h₁, hf, if_neg (Nat.succ_ne_zero j)]; simp [List.getD_eq_getElem?_getD, h₂]]
    · have hf : freeIdx (e :: es) = freeIdx es + 1 := by rw [freeIdx, if_neg he]
      simp only [hf, if_neg (Nat.succ_ne_zero _).symm, Nat.add_lt_add_iff_right] at hx hlen htail
      simp only [Nat.add_right_cancel_iff] at htail
      rw [if_neg he, hx, @eq_insertRec de es l (by split at hlen <;> split <;> omega) htail]

end Records

variable {P}

variable (P) in
/-- Record `k` of the directory of cache entry `dp`, decoded from its bytes. -/
def State.record (s : State) (dp k : Nat) : Dirent :=
  Dirent.decode (bytesFrom (s.byteAt P dp) (k * P.direntSize) P.direntSize)

variable (P) in
/-- The records of the directory of cache entry `dp`, one for each whole `direntSize` bytes of
its size. -/
def State.dirents (s : State) (dp : Nat) : List Dirent :=
  (List.range ((s.icache dp).size / P.direntSize)).map (s.record P dp)

variable (P) in
/-- A directory that `dirlookup` and `dirlink` work on: a referenced directory with the file
invariants, whose size is a whole number of records and whose live records have distinct
names. -/
structure DirInv (s : State) (dp : Nat) : Prop where
  dir : (s.icache dp).type = .dir
  file : s.FileInv P dp
  ref : 0 < (s.icache dp).ref
  whole : P.direntSize ∣ (s.icache dp).size
  names : NamesDistinct P (s.dirents P dp)

@[simp]
theorem length_dirents (s : State) (dp : Nat) :
    (s.dirents P dp).length = (s.icache dp).size / P.direntSize := by
  simp [State.dirents]

@[simp]
theorem getElem_dirents (s : State) (dp j : Nat) (h : j < (s.dirents P dp).length) :
    (s.dirents P dp)[j] = s.record P dp j := by
  simp [State.dirents]

theorem drop_dirents {s : State} {dp k : Nat} (hk : k < (s.icache dp).size / P.direntSize) :
    (s.dirents P dp).drop k = s.record P dp k :: (s.dirents P dp).drop (k + 1) := by
  rw [List.drop_eq_getElem_cons (by simpa using hk)]
  simp [State.dirents]

theorem drop_dirents_of_le {s : State} {dp k : Nat} (hk : (s.icache dp).size / P.direntSize ≤ k) :
    (s.dirents P dp).drop k = [] :=
  List.drop_eq_nil_of_le (by simpa using hk)

variable (P) in
/-- A directory the loops of `dirlookup` and `dirlink` read whole: a directory with the file
invariants whose size is a whole number of records. -/
structure DirShape (s : State) (dp : Nat) : Prop where
  dir : (s.icache dp).type = .dir
  file : s.FileInv P dp
  whole : P.direntSize ∣ (s.icache dp).size

theorem DirInv.shape {s : State} {dp : Nat} (inv : DirInv P s dp) : DirShape P s dp :=
  ⟨inv.dir, inv.file, inv.whole⟩

namespace DirShape

variable {s : State} {dp : Nat} (inv : DirShape P s dp)
include inv

/-- Record `k` lies inside the file. -/
theorem record_end {k : Nat} (hk : k < (s.icache dp).size / P.direntSize) :
    k * P.direntSize + P.direntSize ≤ (s.icache dp).size := by
  have h := Nat.mul_le_mul_right P.direntSize (Nat.succ_le_of_lt hk)
  rw [Nat.div_mul_cancel inv.whole, Nat.succ_mul] at h
  exact h

/-- `readi` of record `k` returns its bytes and changes nothing. -/
theorem readi_record {k : Nat} (hk : k < (s.icache dp).size / P.direntSize) :
    readi P s dp (k * P.direntSize) P.direntSize =
      .ok (((P.direntSize : Int), bytesFrom (s.byteAt P dp) (k * P.direntSize) P.direntSize),
        s) := by
  have hend := inv.record_end hk
  have hsize := inv.file.holes.size_le
  have hlt := P.maxBytes_lt
  rw [readi_eq (by rw [inv.dir]; decide) inv.file.holes (by omega) (by omega), State.content,
    read_bytesFrom, Nat.min_eq_left (by omega)]

/-- The loop of `dirlookup` from record `k` finds what `findName` finds in the records from
`k` on, and changes nothing. -/
theorem dirlookupLoop_eq (name : List UInt8) :
    ∀ fuel k : Nat, (s.icache dp).size / P.direntSize ≤ k + fuel →
      dirlookupLoop P dp name fuel s (k * P.direntSize) =
        .ok (findName P name ((s.dirents P dp).drop k) (k * P.direntSize), s)
  | 0, k, h => by rw [drop_dirents_of_le (by omega)]; rfl
  | fuel + 1, k, h => by
    rw [dirlookupLoop]
    by_cases hk : k < (s.icache dp).size / P.direntSize
    · have hrec := dirlookupLoop_eq name fuel (k + 1) (by omega)
      rw [Nat.succ_mul] at hrec
      rw [if_pos (by have := inv.record_end hk; have := P.direntSize_pos; omega),
        inv.readi_record hk, drop_dirents hk, findName]
      simp only [bind, Except.bind, ne_eq, not_true_eq_false, if_false, State.record]
      split_ifs <;> first | rfl | exact hrec
    · rw [if_neg, drop_dirents_of_le (by omega)]
      · rfl
      · intro hlt
        exact hk ((Nat.lt_div_iff_mul_lt inv.whole k).mpr (Nat.mul_comm k _ ▸ hlt))

/-- The loop of `dirlink` from record `k` stops at the first free record from `k` on, or at
the end, and changes nothing. -/
theorem dirlinkScan_eq :
    ∀ fuel k : Nat, (s.icache dp).size / P.direntSize ≤ k + fuel →
      dirlinkScan P dp fuel s (k * P.direntSize) =
        .ok ((k + freeIdx ((s.dirents P dp).drop k)) * P.direntSize, s)
  | 0, k, h => by rw [drop_dirents_of_le (by omega)]; rfl
  | fuel + 1, k, h => by
    rw [dirlinkScan]
    by_cases hk : k < (s.icache dp).size / P.direntSize
    · have hrec := dirlinkScan_eq fuel (k + 1) (by omega)
      rw [Nat.succ_mul] at hrec
      rw [if_pos (by have := inv.record_end hk; have := P.direntSize_pos; omega),
        inv.readi_record hk, drop_dirents hk, freeIdx]
      simp only [bind, Except.bind, ne_eq, not_true_eq_false, if_false, State.record]
      split_ifs
      · rfl
      · rw [hrec, Nat.add_right_comm k 1, Nat.add_assoc]
    · rw [if_neg, drop_dirents_of_le (by omega)]
      · rfl
      · intro hlt
        exact hk ((Nat.lt_div_iff_mul_lt inv.whole k).mpr (Nat.mul_comm k _ ▸ hlt))

/-- `dirlookup` returns, for the first live record named `name`, the cache entry `iget` gives
for its inode number, with its offset; with none, nothing, changing nothing. -/
theorem dirlookup_eq (name : List UInt8) :
    dirlookup P s dp name =
      match findName P name (s.dirents P dp) 0 with
      | none => .ok (none, s)
      | some (off, inum) =>
        (iget P s (s.icache dp).dev inum).map fun r => (some (r.1, off), r.2) := by
  have h : dirlookupLoop P dp name ((s.icache dp).size + 1) s 0 =
      .ok (findName P name (s.dirents P dp) 0, s) := by
    simpa using inv.dirlookupLoop_eq name ((s.icache dp).size + 1) 0
      (by have := Nat.div_le_self (s.icache dp).size P.direntSize; omega)
  rw [dirlookup, if_neg (by rw [inv.dir]; decide), h]
  rcases findName P name (s.dirents P dp) 0 with _ | ⟨off, inum⟩
  · rfl
  · simp only [bind, Except.bind]
    cases iget P s (s.icache dp).dev inum <;> rfl

/-- The end of the record written at the first free record: inside the file if one is free,
one record past its end if none is. -/
theorem max_free_end :
    max (s.icache dp).size (freeIdx (s.dirents P dp) * P.direntSize + P.direntSize) =
      if freeIdx (s.dirents P dp) < (s.dirents P dp).length then (s.icache dp).size
      else (s.icache dp).size + P.direntSize := by
  have hn : (s.icache dp).size = (s.dirents P dp).length * P.direntSize := by
    rw [length_dirents, Nat.div_mul_cancel inv.whole]
  have hk := freeIdx_le_length (s.dirents P dp)
  rw [hn]
  split_ifs with hlt
  · have := Nat.mul_le_mul_right P.direntSize (Nat.succ_le_of_lt hlt)
    rw [Nat.succ_mul] at this
    omega
  · rw [Nat.le_antisymm hk (Nat.not_lt.mp hlt)]
    omega

end DirShape

/-- In any state, a directory or not, each turn of the loop of `dirlookup` moves on by a record
and `readi` keeps the size it compares with: fuel beyond the size is never used. -/
theorem dirlookupLoop_fuel_stable (dp : Nat) (name : List UInt8) :
    ∀ {fuel : Nat} (extra : Nat) (s : State) (off : Nat), (s.icache dp).size ≤ off + fuel →
      dirlookupLoop P dp name (fuel + extra) s off = dirlookupLoop P dp name fuel s off
  | 0, 0, _, _, _ => rfl
  | 0, _ + 1, s, off, hf => by
    rw [Nat.zero_add, dirlookupLoop, dirlookupLoop, if_neg (by omega)]
    rfl
  | fuel + 1, extra, s, off, hf => by
    rw [Nat.add_right_comm, dirlookupLoop, dirlookupLoop]
    split
    · cases hr : readi P s dp off P.direntSize with
      | error e => rfl
      | ok r =>
        obtain ⟨r, s₁⟩ := r
        have ih : dirlookupLoop P dp name (fuel + extra) s₁ (off + P.direntSize) =
            dirlookupLoop P dp name fuel s₁ (off + P.direntSize) :=
          dirlookupLoop_fuel_stable dp name extra s₁ _
            (by have := readi_size hr dp; have := P.direntSize_pos; omega)
        simp only [bind, Except.bind, ih]
    · rfl

theorem length_encode_strncpy (x : Nat) (name : List UInt8) :
    (Dirent.encode ⟨x, strncpy name P.DIRSIZ⟩).length = P.direntSize := by
  rw [length_encode, length_strncpy]
  rfl

/-- Disjoint records: record `j` lies before or after record `k`. -/
theorem record_disjoint {d j k i : Nat} (hjk : j ≠ k) (hi : i < d) :
    ¬ (k * d ≤ j * d + i ∧ j * d + i < k * d + d) := by
  rcases Nat.lt_or_gt_of_ne hjk with h | h
  · have := Nat.mul_le_mul_right d (Nat.succ_le_of_lt h)
    rw [Nat.succ_mul] at this
    omega
  · have := Nat.mul_le_mul_right d (Nat.succ_le_of_lt h)
    rw [Nat.succ_mul] at this
    omega

/-- The records after a write of the record of `(inum, name)` at the first free record, as
`dirlink` makes it: `insertRec` of that record. -/
theorem dirents_write {s s' : State} {dp inum : Nat} {name : List UInt8} (inv : DirInv P s dp)
    (h16 : inum < 2 ^ 16)
    (hsize : (s'.icache dp).size = max (s.icache dp).size
      (freeIdx (s.dirents P dp) * P.direntSize + P.direntSize))
    (h : s'.content P dp = Contents.write (s.content P dp) (freeIdx (s.dirents P dp) * P.direntSize)
      (Dirent.encode ⟨inum, strncpy name P.DIRSIZ⟩)) :
    s'.dirents P dp = insertRec ⟨inum, strncpy name P.DIRSIZ⟩ (s.dirents P dp) := by
  have hd := P.direntSize_pos
  have hn : (s.icache dp).size = (s.dirents P dp).length * P.direntSize := by
    rw [length_dirents, Nat.div_mul_cancel inv.whole]
  have hk := freeIdx_le_length (s.dirents P dp)
  have hkd := Nat.mul_le_mul_right P.direntSize hk
  have hm : (s'.icache dp).size = (if freeIdx (s.dirents P dp) < (s.dirents P dp).length then
      (s.dirents P dp).length else (s.dirents P dp).length + 1) * P.direntSize := by
    rw [hsize, inv.shape.max_free_end, hn]
    split_ifs <;> simp [Nat.succ_mul]
  have hlen : (s'.dirents P dp).length = if freeIdx (s.dirents P dp) < (s.dirents P dp).length then
      (s.dirents P dp).length else (s.dirents P dp).length + 1 := by
    rw [length_dirents, hm, Nat.mul_div_cancel _ hd]
  have hb := byteAt_of_write (by rw [hn]; exact hkd)
    (by rw [hsize, length_encode_strncpy]) h
  rw [length_encode_strncpy] at hb
  apply eq_insertRec hlen
  · intro j hj
    rw [hlen] at hj
    have hjm : (j + 1) * P.direntSize ≤ (s'.icache dp).size := by
      rw [hm]
      exact Nat.mul_le_mul_right _ hj
    rw [Nat.succ_mul] at hjm
    rw [getElem_dirents, State.record]
    split_ifs with hjk
    · subst hjk
      rw [bytesFrom_congr (g := fun p => (Dirent.encode ⟨inum, strncpy name P.DIRSIZ⟩).getD
          (p - freeIdx (s.dirents P dp) * P.direntSize) 0)
        fun i hi => by rw [hb _ (by omega), if_pos (by omega)]]
      rw [← length_encode_strncpy inum name, bytesFrom_getD, decode_encode h16]
    · have hjn : j < (s.dirents P dp).length := by
        split_ifs at hj <;> omega
      rw [bytesFrom_congr (g := s.byteAt P dp)
          fun i hi => by rw [hb _ (by omega), if_neg (record_disjoint hjk hi)],
        List.getD_eq_getElem?_getD, List.getElem?_eq_getElem hjn, Option.getD_some,
        getElem_dirents, State.record]

section Link

variable {s : State} {dp inum : Nat} {name : List UInt8}

/-- `dirlink` of a name that is present returns `-1`, changing nothing held, unless the
`iget` of `dirlookup` finds the cache full. -/
theorem dirlink_found (inv : DirInv P s dp) {off i : Nat}
    (hf : findName P name (s.dirents P dp) 0 = some (off, i)) :
    (dirlink P s dp name inum = .error (.panic "iget: no inodes") ∧
      ∀ x < P.NINODE, (s.icache x).ref ≠ 0) ∨
    ∃ s', dirlink P s dp name inum = .ok (-1, s') ∧ s.EqHeld s' := by
  rw [dirlink, inv.shape.dirlookup_eq, hf]
  dsimp only
  cases hg : iget P s (s.icache dp).dev i with
  | error e =>
    obtain ⟨rfl, hall⟩ := iget_error hg
    exact .inl ⟨rfl, hall⟩
  | ok r =>
    obtain ⟨s', hput, heq⟩ := iget_iput hg
    refine .inr ⟨s', ?_, heq⟩
    simp only [Except.map, bind, Except.bind, hput]
    rfl

variable (P) in
/-- What `dirlink` of an absent name leaves: the record of `(inum, name)` in the first free
record or appended, `name` found there, every name that does not match it found as before, and
the directory invariant. -/
structure DirLinked (s : State) (dp : Nat) (name : List UInt8) (inum : Nat) (s' : State) :
    Prop where
  dirents : s'.dirents P dp = insertRec ⟨inum, strncpy name P.DIRSIZ⟩ (s.dirents P dp)
  size : (s'.icache dp).size =
    if freeIdx (s.dirents P dp) < (s.dirents P dp).length then (s.icache dp).size
    else (s.icache dp).size + P.direntSize
  found : findName P name (s'.dirents P dp) 0 =
    some (freeIdx (s.dirents P dp) * P.direntSize, inum)
  lookup : dirlookup P s' dp name = (iget P s' (s'.icache dp).dev inum).map
    fun r => (some (r.1, freeIdx (s.dirents P dp) * P.direntSize), r.2)
  others : ∀ name', namecmp P name' name ≠ 0 →
    findName P name' (s'.dirents P dp) 0 = findName P name' (s.dirents P dp) 0
  inv : DirInv P s' dp

/-- With the name absent, `dirlink` is the `writei` of its record at the first free record. -/
theorem dirlink_eq_writei (inv : DirInv P s dp) (h16 : inum < 2 ^ 16)
    (hf : findName P name (s.dirents P dp) 0 = none) :
    dirlink P s dp name inum = (do
      let (n, s) ← writei P s dp (Dirent.encode ⟨inum, strncpy name P.DIRSIZ⟩)
        (freeIdx (s.dirents P dp) * P.direntSize)
      if n ≠ P.direntSize then .error (.panic "dirlink") else pure (0, s)) := by
  have hscan : dirlinkScan P dp ((s.icache dp).size + 1) s 0 =
      .ok (freeIdx (s.dirents P dp) * P.direntSize, s) := by
    simpa using inv.shape.dirlinkScan_eq ((s.icache dp).size + 1) 0
      (by have := Nat.div_le_self (s.icache dp).size P.direntSize; omega)
  rw [dirlink, inv.shape.dirlookup_eq, hf]
  simp only [bind, Except.bind, hscan, Nat.mod_eq_of_lt h16]

/-- A `writei` of the record at the first free record that returns writes the whole record
and leaves `DirLinked`. -/
theorem dirLinked_of_writei (inv : DirInv P s dp) (hinum : 0 < inum) (h16 : inum < 2 ^ 16)
    (hf : findName P name (s.dirents P dp) 0 = none)
    (hmax : freeIdx (s.dirents P dp) * P.direntSize + P.direntSize ≤ P.MAXFILE * P.BSIZE)
    {r : Int} {s' : State}
    (hw : writei P s dp (Dirent.encode ⟨inum, strncpy name P.DIRSIZ⟩)
      (freeIdx (s.dirents P dp) * P.direntSize) = .ok (r, s')) :
    r = P.direntSize ∧ DirLinked P s dp name inum s' := by
  have hdev : (s.icache dp).type ≠ .dev := by rw [inv.dir]; decide
  have hoff : freeIdx (s.dirents P dp) * P.direntSize ≤ (s.icache dp).size := by
    rw [← Nat.div_mul_cancel inv.whole, ← length_dirents]
    exact Nat.mul_le_mul_right _ (freeIdx_le_length _)
  have henc := length_encode_strncpy (P := P) inum name
  obtain ⟨hr, htype, hsize', hcontent, file'⟩ :=
    writei_spec inv.file hdev hoff (by rw [henc]; exact hmax) hw
  rw [henc] at hr hsize'
  have hents := dirents_write inv h16 hsize' hcontent
  have found : findName P name (s'.dirents P dp) 0 =
      some (freeIdx (s.dirents P dp) * P.direntSize, inum) := by
    rw [hents, findName_insertRec_self (Nat.pos_iff_ne_zero.mp hinum) hf, Nat.zero_add]
  have hsz := hsize'.trans inv.shape.max_free_end
  have href := (writei_ref inv.file hdev hoff (by rw [henc]; exact hmax) hw).1
  have inv' : DirInv P s' dp := by
    refine ⟨htype.trans inv.dir, file', href ▸ inv.ref, ?_, ?_⟩
    · rw [hsz]
      split_ifs
      exacts [inv.whole, Nat.dvd_add inv.whole (Nat.dvd_refl _)]
    · rw [hents]
      exact namesDistinct_insertRec inv.names (findName_eq_none.mp hf)
  refine ⟨hr, hents, hsz, found, ?_, fun name' hne => ?_, inv'⟩
  · rw [inv'.shape.dirlookup_eq, found]
  · rw [hents]
    exact findName_insertRec_other (by rwa [namecmp_strncpy])

/-- When one more record at the first free record does not fit in `MAXFILE` blocks, no record
is free, the directory is that full, and `writei` refuses the record. -/
theorem dirlink_full (inv : DirInv P s dp)
    (hmax : ¬ freeIdx (s.dirents P dp) * P.direntSize + P.direntSize ≤ P.MAXFILE * P.BSIZE) :
    writei P s dp (Dirent.encode ⟨inum, strncpy name P.DIRSIZ⟩)
        (freeIdx (s.dirents P dp) * P.direntSize) = .ok (-1, s) ∧
      freeIdx (s.dirents P dp) = (s.dirents P dp).length ∧
      P.MAXFILE * P.BSIZE < (s.icache dp).size + P.direntSize := by
  have hdev : (s.icache dp).type ≠ .dev := by rw [inv.dir]; decide
  have hn : (s.icache dp).size = (s.dirents P dp).length * P.direntSize := by
    rw [length_dirents, Nat.div_mul_cancel inv.whole]
  have hk := freeIdx_le_length (s.dirents P dp)
  have hoff : freeIdx (s.dirents P dp) * P.direntSize ≤ (s.icache dp).size := by
    rw [hn]; exact Nat.mul_le_mul_right _ hk
  have hsize := inv.file.holes.size_le
  have hlt := P.maxBytes_lt
  have hd := P.direntSize_le
  have henc := length_encode_strncpy (P := P) inum name
  have hfull : freeIdx (s.dirents P dp) = (s.dirents P dp).length := by
    refine Nat.le_antisymm hk (Nat.not_lt.mp fun hlt' => hmax ?_)
    have := Nat.mul_le_mul_right P.direntSize (Nat.succ_le_of_lt hlt')
    rw [Nat.succ_mul] at this
    omega
  refine ⟨(writei_neg_one hdev (by omega) (by omega)).2 (.inr (.inr (by omega))), hfull, ?_⟩
  rw [hfull, ← hn] at hmax
  omega

/-- `dirlink` of an absent name: it fails only because `balloc` runs out of blocks, or with
its own panic when no record is free and one more does not fit in `MAXFILE` blocks; otherwise
it returns 0 and leaves `DirLinked`. -/
theorem dirlink_not_found (inv : DirInv P s dp) (hinum : 0 < inum) (h16 : inum < 2 ^ 16)
    (hf : findName P name (s.dirents P dp) 0 = none) :
    dirlink P s dp name inum = .error (.panic "balloc: out of blocks") ∨
    (dirlink P s dp name inum = .error (.panic "dirlink") ∧
      freeIdx (s.dirents P dp) = (s.dirents P dp).length ∧
      P.MAXFILE * P.BSIZE < (s.icache dp).size + P.direntSize) ∨
    ∃ s', dirlink P s dp name inum = .ok (0, s') ∧ DirLinked P s dp name inum s' := by
  rw [dirlink_eq_writei inv h16 hf]
  by_cases hmax : freeIdx (s.dirents P dp) * P.direntSize + P.direntSize ≤ P.MAXFILE * P.BSIZE
  · cases hw : writei P s dp (Dirent.encode ⟨inum, strncpy name P.DIRSIZ⟩)
        (freeIdx (s.dirents P dp) * P.direntSize) with
    | error e =>
      have hdev : (s.icache dp).type ≠ .dev := by rw [inv.dir]; decide
      have hsize := inv.file.holes.size_le
      have hlt := P.maxBytes_lt
      have henc := length_encode_strncpy (P := P) inum name
      exact .inl (by rw [writei_error hdev (by omega) (by omega) hw]; rfl)
    | ok res =>
      obtain ⟨hr, linked⟩ := dirLinked_of_writei inv hinum h16 hf hmax hw
      exact .inr (.inr ⟨res.2, by simp [hr, bind, Except.bind, pure, Except.pure], linked⟩)
  · obtain ⟨hrefuse, hfull, hgt⟩ := dirlink_full inv hmax
    exact .inr (.inl ⟨by rw [hrefuse]; rfl, hfull, hgt⟩)

/-- `dirlink` of an absent name returns when the record fits in `MAXFILE` blocks and three
blocks are free for each block it touches. -/
theorem dirlink_ok (inv : DirInv P s dp) (h16 : inum < 2 ^ 16)
    (hf : findName P name (s.dirents P dp) 0 = none)
    (hmax : freeIdx (s.dirents P dp) * P.direntSize + P.direntSize ≤ P.MAXFILE * P.BSIZE)
    (hfree : 3 * blocksTouched P (freeIdx (s.dirents P dp) * P.direntSize) P.direntSize ≤
      s.disk.freeCount P) :
    ∃ s', dirlink P s dp name inum = .ok (0, s') := by
  have henc := length_encode_strncpy (P := P) inum name
  have hn : (s.icache dp).size = (s.dirents P dp).length * P.direntSize := by
    rw [length_dirents, Nat.div_mul_cancel inv.whole]
  obtain ⟨s', hw⟩ : ∃ s', writei P s dp (Dirent.encode ⟨inum, strncpy name P.DIRSIZ⟩)
      (freeIdx (s.dirents P dp) * P.direntSize) =
        .ok ((Dirent.encode ⟨inum, strncpy name P.DIRSIZ⟩).length, s') :=
    (writei_ok (by rw [inv.dir]; decide)
      (by rw [hn]; exact Nat.mul_le_mul_right _ (freeIdx_le_length _))
      (by rw [henc]; exact hmax) (by rw [henc]; exact hfree)).imp fun _ h => h.1
  refine ⟨s', ?_⟩
  rw [dirlink_eq_writei inv h16 hf, hw, henc]
  simp [bind, Except.bind, pure, Except.pure]

/-- `dirlink` against `dirlookup`, on a directory with the invariant and an inode number that fits
the `ushort` of a record. `dirlookup` returns what `findName` finds in the records. With the name
present, `dirlink` returns `-1` and changes nothing a caller holds, unless its `iget` finds every
cache entry referenced. With the name absent it returns 0 and leaves `DirLinked`: the record in
the first free record, or appended, the name found there, every other name found as before, and
the invariant kept. It fails then only when `balloc` runs out of blocks, or when no record is
free and one more does not fit in `MAXFILE` blocks; with room and free blocks it returns. -/
theorem dirlink_finite_map (inv : DirInv P s dp) (hinum : 0 < inum) (h16 : inum < 2 ^ 16) :
    dirlookup P s dp name = (match findName P name (s.dirents P dp) 0 with
      | none => .ok (none, s)
      | some (off, i) => (iget P s (s.icache dp).dev i).map fun r => (some (r.1, off), r.2)) ∧
    (findName P name (s.dirents P dp) 0 ≠ none →
      (dirlink P s dp name inum = .error (.panic "iget: no inodes") ∧
        ∀ x < P.NINODE, (s.icache x).ref ≠ 0) ∨
      ∃ s', dirlink P s dp name inum = .ok (-1, s') ∧ s.EqHeld s') ∧
    (findName P name (s.dirents P dp) 0 = none →
      (dirlink P s dp name inum = .error (.panic "balloc: out of blocks") ∨
        (dirlink P s dp name inum = .error (.panic "dirlink") ∧
          freeIdx (s.dirents P dp) = (s.dirents P dp).length ∧
          P.MAXFILE * P.BSIZE < (s.icache dp).size + P.direntSize) ∨
        ∃ s', dirlink P s dp name inum = .ok (0, s') ∧ DirLinked P s dp name inum s') ∧
      (freeIdx (s.dirents P dp) * P.direntSize + P.direntSize ≤ P.MAXFILE * P.BSIZE →
        3 * blocksTouched P (freeIdx (s.dirents P dp) * P.direntSize) P.direntSize ≤
          s.disk.freeCount P →
        ∃ s', dirlink P s dp name inum = .ok (0, s'))) := by
  refine ⟨inv.shape.dirlookup_eq name, fun hf => ?_,
    fun hf => ⟨dirlink_not_found inv hinum h16 hf, dirlink_ok inv h16 hf⟩⟩
  obtain ⟨⟨off, i⟩, hs⟩ := Option.ne_none_iff_exists'.mp hf
  exact dirlink_found inv hs

set_option maxRecDepth 4000 in
/-- The root of `sampleFs`, cache entry 0, is a directory with the invariant. -/
theorem sampleFs_dirInv : DirInv Params.sample sampleFs 0 :=
  ⟨rfl, sampleFs_consistent.fileInv ⟨by decide, by decide, rfl⟩ (by decide), by decide,
    by decide, by decide⟩

/-- `dirlink` of `y` with inode number 5 into the root of `sampleFs`. -/
theorem dirlink_finite_map_sampleFs :
    DirInv Params.sample sampleFs 0 ∧ 0 < 5 ∧ 5 < 2 ^ 16 ∧
    (dirlookup Params.sample sampleFs 0 (bytesOf "y") =
      (match findName Params.sample (bytesOf "y") (sampleFs.dirents Params.sample 0) 0 with
        | none => .ok (none, sampleFs)
        | some (off, i) => (iget Params.sample sampleFs (sampleFs.icache 0).dev i).map
            fun r => (some (r.1, off), r.2)) ∧
      (findName Params.sample (bytesOf "y") (sampleFs.dirents Params.sample 0) 0 ≠ none →
        (dirlink Params.sample sampleFs 0 (bytesOf "y") 5 = .error (.panic "iget: no inodes") ∧
          ∀ x < Params.sample.NINODE, (sampleFs.icache x).ref ≠ 0) ∨
        ∃ s', dirlink Params.sample sampleFs 0 (bytesOf "y") 5 = .ok (-1, s') ∧
          sampleFs.EqHeld s') ∧
      (findName Params.sample (bytesOf "y") (sampleFs.dirents Params.sample 0) 0 = none →
        (dirlink Params.sample sampleFs 0 (bytesOf "y") 5 =
            .error (.panic "balloc: out of blocks") ∨
          (dirlink Params.sample sampleFs 0 (bytesOf "y") 5 = .error (.panic "dirlink") ∧
            freeIdx (sampleFs.dirents Params.sample 0) =
              (sampleFs.dirents Params.sample 0).length ∧
            Params.sample.MAXFILE * Params.sample.BSIZE <
              (sampleFs.icache 0).size + Params.sample.direntSize) ∨
          ∃ s', dirlink Params.sample sampleFs 0 (bytesOf "y") 5 = .ok (0, s') ∧
            DirLinked Params.sample sampleFs 0 (bytesOf "y") 5 s') ∧
        (freeIdx (sampleFs.dirents Params.sample 0) * Params.sample.direntSize +
            Params.sample.direntSize ≤ Params.sample.MAXFILE * Params.sample.BSIZE →
          3 * blocksTouched Params.sample
              (freeIdx (sampleFs.dirents Params.sample 0) * Params.sample.direntSize)
              Params.sample.direntSize ≤ sampleFs.disk.freeCount Params.sample →
          ∃ s', dirlink Params.sample sampleFs 0 (bytesOf "y") 5 = .ok (0, s')))) :=
  ⟨sampleFs_dirInv, by decide, by decide,
    dirlink_finite_map sampleFs_dirInv (by decide) (by decide)⟩

set_option maxRecDepth 4000 in
/-- An inode number that does not fit the `ushort` of a record is stored cut. `dirlink` of `y`
with inode number 65536 into the root of `sampleFs` returns 0, and `dirlookup` of `y` then finds
nothing, the record having inode number 0; with 65537 it finds inode 1, the root. -/
theorem dirlink_cuts_inum :
    ((dirlink Params.sample sampleFs 0 (bytesOf "y") 65536).bind fun r =>
      (dirlookup Params.sample r.2 0 (bytesOf "y")).map fun l => (r.1, l.1.isSome)) =
      .ok (0, false) ∧
    ((dirlink Params.sample sampleFs 0 (bytesOf "y") 65537).bind fun r =>
      (dirlookup Params.sample r.2 0 (bytesOf "y")).map
        fun l => (r.1, l.1.map fun x => (l.2.icache x.1).inum)) = .ok (0, some 1) := by
  decide

end Link

end Xv6Fs
