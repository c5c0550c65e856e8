import Xv6Fs.Content

/-!
# The content of a file

The content of a file is the list of its first `size` bytes, byte `p` being read from the block
in the slot of block index `p / BSIZE` (`State.byteAt`). `Contents.write` and `Contents.read`
say what writing and reading a byte range do to such a list; `readi` and `writei` refine them on
every non-device inode whose block map is owned (`Owns`) and has no hole below its size
(`NoHoles`).

The loops go one block piece at a time: an iteration maps one block with `bmap` and moves the
bytes of the range that lie in it (`piece_div`, `piece_mod`). `readiLoop_eq` and
`writeiLoop_spec` follow by induction on the fuel. The one way a write stops short is `balloc`
running out of blocks. `readi` writes no size (`readi_size`), so a loop bounded by the size of a
file, such as that of `dirlookup`, compares with the same bound on every turn.
-/

namespace Xv6Fs

/-- `n` bytes of `f` from `off`. -/
def bytesFrom (f : Nat → UInt8) (off n : Nat) : List UInt8 :=
  (List.range n).map fun k => f (off + k)

namespace Contents

/-- Writing `src` at `off ≤ f.length`: the bytes from `off` on are replaced, and the file grows
when the write runs past its end. -/
def write (f : List UInt8) (off : Nat) (src : List UInt8) : List UInt8 :=
  f.take off ++ src ++ f.drop (off + src.length)

/-- Reading `n` bytes at `off`: those the file has from `off` on, at most `n`. -/
def read (f : List UInt8) (off n : Nat) : List UInt8 :=
  (f.drop off).take n

/-- Two writes, the second starting where the first ended, are one write of both. -/
theorem write_append (f : List UInt8) {off : Nat} (a b : List UInt8) (hoff : off ≤ f.length) :
    write (write f off a) (off + a.length) b = write f off (a ++ b) := by
  obtain ⟨f1, f2, rfl, rfl⟩ : ∃ f1 f2, f = f1 ++ f2 ∧ f1.length = off :=
    ⟨f.take off, f.drop off, (List.take_append_drop _ _).symm, by simp; omega⟩
  simp [write, List.take_append, List.drop_append, Nat.add_assoc]

/-- Two reads, the second from where the first stopped, are one read of both lengths: the first
stops short only at the end of the file, where the second finds nothing. -/
theorem read_append (f : List UInt8) (off n₁ n₂ : Nat) :
    read f off n₁ ++ read f (off + min n₁ (f.length - off)) n₂ = read f off (n₁ + n₂) := by
  rw [read, read, read, ← List.drop_drop]
  rcases le_total n₁ (f.length - off) with h | h
  · rw [min_eq_left h, List.take_add]
  · have hl : (f.drop off).length ≤ n₁ := by rw [List.length_drop]; exact h
    have hd : (f.drop off).drop (f.length - off) = [] :=
      List.drop_of_length_le (by rw [List.length_drop])
    rw [min_eq_right h, hd, List.take_nil, List.append_nil, List.take_of_length_le hl,
      List.take_of_length_le (by omega)]

/-- Reading back as many bytes as were written, from where they were written, gives them. -/
theorem read_write (f : List UInt8) {off : Nat} (src : List UInt8) (hoff : off ≤ f.length) :
    read (write f off src) off src.length = src := by
  have h : (f.take off).length = off := List.length_take_of_le hoff
  rw [read, write, List.append_assoc, List.drop_left' h, List.take_left]

end Contents

section Bytes

variable {f g : Nat → UInt8} {off n : Nat}

@[simp]
theorem length_bytesFrom : (bytesFrom f off n).length = n := by simp [bytesFrom]

theorem bytesFrom_add (f : Nat → UInt8) (off a b : Nat) :
    bytesFrom f off (a + b) = bytesFrom f off a ++ bytesFrom f (off + a) b := by
  simp only [bytesFrom, List.range_add, List.map_append, List.map_map, Function.comp_def,
    Nat.add_assoc]

theorem bytesFrom_congr (h : ∀ k < n, f (off + k) = g (off + k)) :
    bytesFrom f off n = bytesFrom g off n :=
  List.map_congr_left fun k hk => h k (List.mem_range.mp hk)

theorem take_bytesFrom (k : Nat) : (bytesFrom f off n).take k = bytesFrom f off (min k n) := by
  simp only [bytesFrom, ← List.map_take, List.take_range]

theorem drop_bytesFrom (k : Nat) : (bytesFrom f off n).drop k = bytesFrom f (off + k) (n - k) := by
  by_cases hk : k ≤ n
  · conv => lhs; rw [← Nat.add_sub_cancel' hk, bytesFrom_add]
    exact List.drop_left' length_bytesFrom
  · rw [List.drop_eq_nil_of_le (by simp; omega), Nat.sub_eq_zero_of_le (by omega)]
    rfl

/-- A list is the bytes it places from `off` on. -/
theorem bytesFrom_getD (l : List UInt8) (off : Nat) :
    bytesFrom (fun p => l.getD (p - off) 0) off l.length = l := by
  apply List.ext_getElem (by simp)
  intro k _ h₂
  simp only [bytesFrom, List.getElem_map, List.getElem_range, Nat.add_sub_cancel_left,
    List.getD_eq_getElem?_getD, List.getElem?_eq_getElem h₂, Option.getD_some]

/-- Two functions with the same bytes below `n` agree there. -/
theorem bytesFrom_eq_apply (h : bytesFrom f 0 n = bytesFrom g 0 n) :
    ∀ p < n, f p = g p := by
  intro p hp
  simpa [bytesFrom, hp] using congrArg (fun l => l[p]?) h

/-- Reading from a file given by its bytes. -/
theorem read_bytesFrom {size : Nat} (m : Nat) :
    Contents.read (bytesFrom f 0 size) off m = bytesFrom f off (min m (size - off)) := by
  rw [Contents.read, drop_bytesFrom, take_bytesFrom, Nat.zero_add]

/-- Writing into a file given by its bytes: the result is given by the bytes `g` that agree with
`src` on the range written and with `f` elsewhere. -/
theorem write_bytesFrom {size : Nat} {src : List UInt8} (hoff : off ≤ size)
    (hg : ∀ p < max size (off + src.length),
      g p = if off ≤ p ∧ p < off + src.length then src.getD (p - off) 0 else f p) :
    Contents.write (bytesFrom f 0 size) off src = bytesFrom g 0 (max size (off + src.length)) := by
  have hmax : max size (off + src.length) = off + (src.length + (size - (off + src.length))) := by
    omega
  rw [Contents.write, take_bytesFrom, drop_bytesFrom, Nat.min_eq_left hoff, hmax,
    bytesFrom_add, bytesFrom_add, List.append_assoc]
  simp only [Nat.zero_add]
  congr 1
  · exact bytesFrom_congr fun k hk => by rw [Nat.zero_add, hg k (by omega), if_neg (by omega)]
  · congr 1
    · conv => lhs; rw [← bytesFrom_getD src off]
      exact bytesFrom_congr fun k hk => by rw [hg _ (by omega), if_pos (by omega)]
    · exact bytesFrom_congr fun k hk => by rw [hg _ (by omega), if_neg (by omega)]

end Bytes

variable (P : Params)

namespace State

/-- Byte `p` of the file of cache entry `ip`, read through its block map. -/
def byteAt (s : State) (ip p : Nat) : UInt8 :=
  s.disk.data (s.slot P ip (blockSlot P (p / P.BSIZE))) (p % P.BSIZE)

/-- Byte `p` of the file of `ip` lies in a block below `MAXFILE` that is mapped. -/
def Mapped (s : State) (ip p : Nat) : Prop :=
  p / P.BSIZE < P.MAXFILE ∧ s.slot P ip (blockSlot P (p / P.BSIZE)) ≠ 0

/-- The no-hole invariant: every byte below the size of `ip` is mapped. -/
def NoHoles (s : State) (ip : Nat) : Prop :=
  ∀ p < (s.icache ip).size, s.Mapped P ip p

/-- The content of the file of cache entry `ip`: its first `size` bytes. -/
def content (s : State) (ip : Nat) : List UInt8 :=
  bytesFrom (s.byteAt P ip) 0 (s.icache ip).size

/-- Every block in the map of `ip` is a data block. -/
def MapInData (s : State) (ip : Nat) : Prop :=
  ∀ τ, τ.Valid P → s.slot P ip τ ≠ 0 → s.disk.dataStart P ≤ s.slot P ip τ

/-- The invariants the content law of a file rests on: its map is owned, the disk is formatted
and the map holds data blocks only, and the file has no holes. -/
structure FileInv (s : State) (ip : Nat) : Prop where
  own : s.Owns P ip
  formatted : s.disk.Formatted P
  region : s.MapInData P ip
  holes : s.NoHoles P ip

end State

variable {P}

/-- A file without holes fits in `MAXFILE` blocks. -/
theorem State.NoHoles.size_le {s : State} {ip : Nat} (holes : s.NoHoles P ip) :
    (s.icache ip).size ≤ P.MAXFILE * P.BSIZE := by
  by_cases h0 : (s.icache ip).size = 0
  · omega
  · have h := (holes _ (Nat.sub_lt (Nat.pos_of_ne_zero h0) Nat.one_pos)).1
    have := (Nat.div_lt_iff_lt_mul P.bsize_pos).mp h
    omega

theorem State.FileInv.boot {s : State} {ip : Nat} (inv : s.FileInv P ip) :
    s.disk.allocated P 0 :=
  inv.formatted.boot

/-- An empty file that maps no block has the invariants, on a formatted disk. -/
theorem State.FileInv.of_empty {s : State} {ip : Nat} (hz : ∀ τ, s.slot P ip τ = 0)
    (hsize : (s.icache ip).size = 0) (fmt : s.disk.Formatted P) : s.FileInv P ip :=
  ⟨.of_empty hz, fmt, fun τ _ h0 => absurd (hz τ) h0,
    fun p hp => absurd hp (by rw [hsize]; exact Nat.not_lt_zero p)⟩

/-- A step that only grows the map of `ip` keeps the disk formatted and the map in the data
region: a slot it fills gets a block that was free. -/
theorem SlotGrowth.layout {ip : Nat} {s s' : State} (g : SlotGrowth P ip s s')
    (fmt : s.disk.Formatted P) (reg : s.MapInData P ip) :
    s'.disk.Formatted P ∧ s'.MapInData P ip := by
  have hd : s'.disk.dataStart P = s.disk.dataStart P := by rw [Disk.dataStart, g.sb]; rfl
  refine ⟨fmt.mono g.sb g.marks, fun τ hτ h0 => ?_⟩
  rw [hd]
  by_cases hz : s.slot P ip τ = 0
  · exact fmt.le_of_free ((g.fresh τ hτ hz).resolve_left h0)
  · rw [g.keep τ hτ hz]; exact reg τ hτ hz

/-- The bytes `off + k` with `k < BSIZE - off % BSIZE` lie in the block of `off`. -/
theorem piece_div {off k : Nat} (hk : k < P.BSIZE - off % P.BSIZE) :
    (off + k) / P.BSIZE = off / P.BSIZE := by
  have hsplit : off + k = (off % P.BSIZE + k) + P.BSIZE * (off / P.BSIZE) := by
    have := Nat.mod_add_div off P.BSIZE; omega
  rw [hsplit, Nat.add_mul_div_left _ _ P.bsize_pos, Nat.div_eq_of_lt (by omega), Nat.zero_add]

theorem piece_mod {off k : Nat} (hk : k < P.BSIZE - off % P.BSIZE) :
    (off + k) % P.BSIZE = off % P.BSIZE + k := by
  have hsplit : off + k = (off % P.BSIZE + k) + P.BSIZE * (off / P.BSIZE) := by
    have := Nat.mod_add_div off P.BSIZE; omega
  rw [hsplit, Nat.add_mul_mod_self_left, Nat.mod_eq_of_lt (by omega)]

/-- Two bytes of one block are as far apart as their offsets in it. -/
theorem sub_of_div_eq {p off : Nat} (h : p / P.BSIZE = off / P.BSIZE) :
    p + off % P.BSIZE = off + p % P.BSIZE := by
  have := Nat.div_add_mod p P.BSIZE
  have := Nat.div_add_mod off P.BSIZE
  rw [h] at *
  omega

theorem piece_pos {off : Nat} : 0 < P.BSIZE - off % P.BSIZE := by
  have := Nat.mod_lt off P.bsize_pos; omega

/-- With every byte of the range mapped and enough fuel, the loop of `readi` reads the bytes of
the file and changes nothing. -/
theorem readiLoop_eq {s : State} {ip : Nat} :
    ∀ {fuel off rem : Nat}, rem ≤ fuel → (∀ p, off ≤ p → p < off + rem → s.Mapped P ip p) →
      readiLoop P ip fuel s off rem = .ok (bytesFrom (s.byteAt P ip) off rem, s)
  | 0, off, rem, hfuel, _ => by
    rw [Nat.le_zero.mp hfuel]; rfl
  | fuel + 1, off, rem, hfuel, mapped => by
    by_cases h0 : rem = 0
    · subst h0; rfl
    obtain ⟨hbn, hmap⟩ := mapped off (Nat.le_refl _) (by omega)
    have hm : 0 < min rem (P.BSIZE - off % P.BSIZE) := Nat.lt_min.mpr ⟨by omega, piece_pos⟩
    rw [readiLoop, if_neg h0, bmap_of_mapped hbn hmap]
    simp only [bind, Except.bind, pure, Except.pure]
    rw [readiLoop_eq (by omega) fun p h₁ h₂ => mapped p (by omega) (by omega)]
    simp only [Except.ok.injEq, Prod.mk.injEq, and_true]
    conv => rhs; rw [← Nat.add_sub_cancel' (Nat.min_le_left rem (P.BSIZE - off % P.BSIZE)),
      bytesFrom_add]
    congr 1
    refine List.map_congr_left fun k hk => ?_
    have hk' : k < P.BSIZE - off % P.BSIZE :=
      Nat.lt_of_lt_of_le (List.mem_range.mp hk) (Nat.min_le_right _ _)
    rw [State.byteAt, piece_div hk', piece_mod hk']

/-- Each turn of the loop of `readi` reads a byte or more, so as many turns as bytes are enough:
more fuel changes nothing. -/
theorem readiLoop_fuel_stable {ip : Nat} :
    ∀ {fuel rem : Nat} (extra : Nat) (s : State) (off : Nat), rem ≤ fuel →
      readiLoop P ip (fuel + extra) s off rem = readiLoop P ip fuel s off rem
  | 0, rem, extra, s, off, hfuel => by
    rw [Nat.le_zero.mp hfuel]
    cases extra <;> rfl
  | fuel + 1, rem, extra, s, off, hfuel => by
    rw [Nat.add_right_comm, readiLoop, readiLoop]
    split
    · rfl
    · have hm : 0 < min rem (P.BSIZE - off % P.BSIZE) := Nat.lt_min.mpr ⟨by omega, piece_pos⟩
      have ih : ∀ s, readiLoop P ip (fuel + extra) s (off + min rem (P.BSIZE - off % P.BSIZE))
          (rem - min rem (P.BSIZE - off % P.BSIZE)) =
          readiLoop P ip fuel s (off + min rem (P.BSIZE - off % P.BSIZE))
            (rem - min rem (P.BSIZE - off % P.BSIZE)) :=
        fun s => readiLoop_fuel_stable extra s _ (by omega)
      simp only [ih]

/-- The loop of `readi` goes through `bmap` only, so every inode keeps its size. -/
theorem readiLoop_size {ip : Nat} :
    ∀ {fuel off rem : Nat} {s s' : State} {bs : List UInt8},
      readiLoop P ip fuel s off rem = .ok (bs, s') → ∀ x, (s'.icache x).size = (s.icache x).size
  | 0, _, _, _, _, _, h, _ => by cases h; rfl
  | fuel + 1, off, rem, s, s', bs, h, x => by
    rw [readiLoop] at h
    split at h
    · cases h; rfl
    obtain ⟨⟨b, s1⟩, hb, h⟩ := bind_eq_ok h
    obtain ⟨⟨rest, s2⟩, hl, h⟩ := bind_eq_ok h
    simp only [pure, Except.pure, Except.ok.injEq, Prod.mk.injEq] at h
    obtain ⟨-, rfl⟩ := h
    rw [readiLoop_size hl x, bmap_size hb x]

/-- `readi` keeps the size of every inode. -/
theorem readi_size {s s' : State} {ip off n : Nat} {r : Int × List UInt8}
    (h : readi P s ip off n = .ok (r, s')) (x : Nat) :
    (s'.icache x).size = (s.icache x).size := by
  unfold readi at h
  dsimp only at h
  split at h
  · split at h
    · cases h; rfl
    split at h <;> cases h <;> rfl
  split at h
  · cases h; rfl
  split at h
  · rename_i hl
    cases h
    exact readiLoop_size hl x
  · cases h

/-- `readi` of a non-device inode without holes, from an offset inside the file and a range that
does not wrap: it returns as many bytes as the file has there, at most `n`, and changes
nothing. -/
theorem readi_eq {s : State} {ip off n : Nat} (hdev : (s.icache ip).type ≠ .dev)
    (holes : s.NoHoles P ip) (hoff : off ≤ (s.icache ip).size) (hwrap : off + n < 2 ^ 32) :
    readi P s ip off n =
      .ok (((min n ((s.icache ip).size - off) : Nat),
        Contents.read (s.content P ip) off n), s) := by
  have hsize := holes.size_le
  have hlt := P.maxBytes_lt
  rw [readi, if_neg hdev, u32_of_lt hwrap, if_neg (by omega)]
  have hmin : (if (s.icache ip).size < off + n then (s.icache ip).size - off else n) =
      min n ((s.icache ip).size - off) := by split <;> omega
  simp only [hmin]
  rw [readiLoop_eq (Nat.le_refl _) fun p _ h₂ => holes p (by omega), State.content,
    read_bytesFrom, i32_of_lt (by omega)]


/-- The slots of `ip` depend only on the data blocks and the map fields of its cache entry. -/
theorem slot_congr {s s' : State} {ip : Nat} (hdata : s'.disk.data = s.disk.data)
    (haddrs : (s'.icache ip).addrs = (s.icache ip).addrs)
    (hind : (s'.icache ip).indirect2 = (s.icache ip).indirect2) : s'.slot P ip = s.slot P ip := by
  funext τ
  cases τ <;> simp only [State.slot, slotVal, middleVal, hdata, haddrs, hind]

/-- `bmap` leaves every mapped byte of the file where it was. -/
theorem Grows.byteAt {s s' : State} {ip p : Nat} (g : Grows P ip s s') (own : s.Owns P ip)
    (hp : s.Mapped P ip p) : s'.Mapped P ip p ∧ s'.byteAt P ip p = s.byteAt P ip p := by
  obtain ⟨hbn, hmap⟩ := hp
  have hv := blockSlot_valid hbn
  have hkeep := g.keep _ hv hmap
  refine ⟨⟨hbn, by rw [hkeep]; exact hmap⟩, ?_⟩
  rw [State.byteAt, State.byteAt, hkeep, g.data _ (own.used _ hv hmap)]
  rintro ⟨τ, hτ, hi, hval, -⟩
  exact blockSlot_not_isIndex _ (own.inj τ _ hτ hv (hval ▸ hmap) hval ▸ hi)

/-- Ownership depends only on the slots of `ip` and on the bitmap. -/
theorem State.Owns.congr {s s' : State} {ip : Nat} (own : s.Owns P ip)
    (hslot : ∀ τ, τ.Valid P → s'.slot P ip τ = s.slot P ip τ)
    (halloc : ∀ y, s'.disk.allocated P y = s.disk.allocated P y) : s'.Owns P ip := by
  refine ⟨fun σ τ hσ hτ h0 heq => ?_, fun σ hσ h0 => ?_⟩
  · change s'.slot P ip σ ≠ 0 at h0
    change s'.slot P ip σ = s'.slot P ip τ at heq
    rw [hslot σ hσ] at h0 heq
    rw [hslot τ hτ] at heq
    exact own.inj σ τ hσ hτ h0 heq
  · change s'.slot P ip σ ≠ 0 at h0
    change s'.disk.allocated P (s'.slot P ip σ)
    rw [hslot σ hσ] at h0 ⊢
    rw [halloc]
    exact own.used σ hσ h0

/-- Writing data block `b` of `ip`, in the slot of block index `bn`: the map stays, and of the
file only the bytes of that block change. -/
theorem writeBlock_spec {s : State} {ip bn b : Nat} (blk : Nat → UInt8) (own : s.Owns P ip)
    (hbn : bn < P.MAXFILE) (hb : s.slot P ip (blockSlot P bn) = b) (hb0 : b ≠ 0) :
    let s' := (s.setDisk (s.disk.setBlock b blk)).log (.data b)
    Writes P ip s s' ∧ s'.Owns P ip ∧ (∀ τ, τ.Valid P → s'.slot P ip τ = s.slot P ip τ) ∧
      ∀ p, s.Mapped P ip p →
        s'.byteAt P ip p = if p / P.BSIZE = bn then blk (p % P.BSIZE) else s.byteAt P ip p := by
  intro s'
  have hv := blockSlot_valid hbn
  have slots : ∀ τ, τ.Valid P → s'.slot P ip τ = s.slot P ip τ := by
    refine slotVal_congr fun ρ hρ hi h0 => Function.update_noteq (fun heq => ?_) _ _
    exact blockSlot_not_isIndex bn (own.inj ρ _ hρ hv h0 (heq.trans hb.symm) ▸ hi)
  have writes : Writes P ip s s' :=
    ⟨⟨⟨rfl, rfl, fun _ _ => rfl, rfl, rfl, rfl, rfl⟩, fun τ hτ _ => slots τ hτ,
      fun τ hτ hz => .inl ((slots τ hτ).trans hz), fun y hy => by simpa [s'] using hy⟩,
      fun y _ hno =>
        Function.update_noteq (fun hyb => hno ⟨_, hv, hb.trans hyb.symm, hyb ▸ hb0⟩) _ _⟩
  refine ⟨writes, own.congr slots fun y => by simp [s'], slots, fun p ⟨hpn, hpm⟩ => ?_⟩
  rw [State.byteAt, slots _ (blockSlot_valid hpn)]
  show Function.update s.disk.data b blk _ _ = _
  by_cases hp : p / P.BSIZE = bn
  · rw [if_pos hp, hp, hb, Function.update_same]
  · rw [if_neg hp, Function.update_noteq]
    · rfl
    · intro heq
      exact hp (blockSlot_inj (own.inj _ _ (blockSlot_valid hpn) hv hpm (heq.trans hb.symm)))

theorem writeiLoop_nil {ip fuel off : Nat} {s : State} :
    writeiLoop P ip fuel s off [] = .ok (off, s) := by
  cases fuel <;> rfl

/-- Each turn of the loop of `writei` writes a byte or more, so as many turns as bytes are
enough: more fuel changes nothing. -/
theorem writeiLoop_fuel_stable {ip : Nat} :
    ∀ {fuel : Nat} (extra : Nat) (s : State) (off : Nat) {src : List UInt8}, src.length ≤ fuel →
      writeiLoop P ip (fuel + extra) s off src = writeiLoop P ip fuel s off src
  | 0, extra, s, off, src, hfuel => by
    rw [List.length_eq_zero.mp (Nat.le_zero.mp hfuel), writeiLoop_nil, writeiLoop_nil]
  | fuel + 1, extra, s, off, src, hfuel => by
    rw [Nat.add_right_comm, writeiLoop, writeiLoop]
    split
    · rfl
    · have hm : 0 < min src.length (P.BSIZE - off % P.BSIZE) :=
        Nat.lt_min.mpr ⟨List.length_pos.mpr ‹_›, piece_pos⟩
      have ih : ∀ s, writeiLoop P ip (fuel + extra) s
          (off + min src.length (P.BSIZE - off % P.BSIZE))
          (src.drop (min src.length (P.BSIZE - off % P.BSIZE))) =
          writeiLoop P ip fuel s (off + min src.length (P.BSIZE - off % P.BSIZE))
            (src.drop (min src.length (P.BSIZE - off % P.BSIZE))) :=
        fun s => writeiLoop_fuel_stable extra s _ (by rw [List.length_drop]; omega)
      simp only [ih]

theorem getD_take_of_lt {l : List UInt8} {m k : Nat} (h : k < m) :
    (l.take m).getD k 0 = l.getD k 0 := by
  simp only [List.getD_eq_getElem?_getD, List.getElem?_take, if_pos h]

theorem getD_drop (l : List UInt8) (m k : Nat) : (l.drop m).getD k 0 = l.getD (m + k) 0 := by
  simp only [List.getD_eq_getElem?_getD, List.getElem?_drop]

/-- One iteration of the loop of `writei`: after mapping the block of `off` and writing the
`m` bytes of the range that lie in it, those bytes are `src`'s and every other mapped byte is
unchanged. -/
theorem writeiLoop_piece {s s1 : State} {ip off b : Nat} (src : List UInt8)
    (own : s.Owns P ip) (boot : s.disk.allocated P 0)
    (hb : bmap P s ip (off / P.BSIZE) = .ok (b, s1)) :
    let m := min src.length (P.BSIZE - off % P.BSIZE)
    let s2 := (s1.setDisk (s1.disk.setBlock b
      (writeBytes (s1.disk.data b) (off % P.BSIZE) (src.take m)))).log (.data b)
    Writes P ip s s2 ∧ s2.Owns P ip ∧ s2.disk.allocated P 0 ∧
      (∀ p, off ≤ p → p < off + m → s2.Mapped P ip p ∧ s2.byteAt P ip p = src.getD (p - off) 0) ∧
      (∀ p, ¬ (off ≤ p ∧ p < off + m) → s.Mapped P ip p →
        s2.Mapped P ip p ∧ s2.byteAt P ip p = s.byteAt P ip p) := by
  intro m s2
  obtain ⟨g1, own1, hb0, hbn, hs1, -⟩ := bmap_spec own boot hb
  obtain ⟨w2, own2, slots2, bytes2⟩ := writeBlock_spec
    (writeBytes (s1.disk.data b) (off % P.BSIZE) (src.take m)) own1 hbn hs1 hb0
  have hmB : m ≤ P.BSIZE - off % P.BSIZE := Nat.min_le_right _ _
  have mapped2 : ∀ p, s1.Mapped P ip p → s2.Mapped P ip p := fun p ⟨hpn, hpm⟩ =>
    ⟨hpn, by rw [slots2 _ (blockSlot_valid hpn)]; exact hpm⟩
  refine ⟨g1.writes.trans w2, own2, w2.marks 0 (g1.marks 0 boot), fun p h₁ h₂ => ?_,
    fun p hout hp => ?_⟩
  · -- a byte of the piece
    have hk : p - off < P.BSIZE - off % P.BSIZE := by omega
    have hdiv := piece_div hk
    have hmod := piece_mod hk
    rw [Nat.add_sub_cancel' h₁] at hdiv hmod
    have hp1 : s1.Mapped P ip p := ⟨hdiv ▸ hbn, by rw [hdiv, hs1]; exact hb0⟩
    refine ⟨mapped2 p hp1, ?_⟩
    rw [bytes2 p hp1, if_pos hdiv, writeBytes, if_pos (by simp only [List.length_take]; omega),
      hmod, Nat.add_sub_cancel_left, getD_take_of_lt (by omega)]
  · -- a byte outside the piece
    obtain ⟨hp1, hbyte1⟩ := g1.byteAt own hp
    refine ⟨mapped2 p hp1, ?_⟩
    rw [bytes2 p hp1, ← hbyte1]
    split
    · rename_i hdiv
      have := sub_of_div_eq hdiv
      rw [writeBytes, if_neg (by simp only [List.length_take]; omega), State.byteAt, hdiv, hs1]
    · rfl

variable (P) in
/-- What a run of the loop of `writei` over `src` from `off` leaves in `s'`: the end `o` of the
range reached, every byte of the range mapped and holding its byte of `src`, every other mapped
byte unchanged, and the map still owned. -/
structure Wrote (ip off : Nat) (src : List UInt8) (s : State) (o : Nat) (s' : State) : Prop where
  reached : o = off + src.length
  writes : Writes P ip s s'
  own : s'.Owns P ip
  boot : s'.disk.allocated P 0
  written : ∀ p, off ≤ p → p < off + src.length →
    s'.Mapped P ip p ∧ s'.byteAt P ip p = src.getD (p - off) 0
  kept : ∀ p, ¬ (off ≤ p ∧ p < off + src.length) → s.Mapped P ip p →
    s'.Mapped P ip p ∧ s'.byteAt P ip p = s.byteAt P ip p

theorem Wrote.nil {s : State} {ip off : Nat} (own : s.Owns P ip) (boot : s.disk.allocated P 0) :
    Wrote P ip off [] s off s :=
  ⟨rfl, Writes.refl ip s, own, boot, fun p h₁ h₂ => absurd h₂ (by simp; omega),
    fun _ _ hp => ⟨hp, rfl⟩⟩

/-- The loop of `writei`, given enough fuel on an owned map: when it returns, it has done what
`Wrote` says. -/
theorem writeiLoop_spec {ip : Nat} :
    ∀ {fuel off o : Nat} {s s' : State} {src : List UInt8}, s.Owns P ip →
      s.disk.allocated P 0 → src.length ≤ fuel →
      writeiLoop P ip fuel s off src = .ok (o, s') → Wrote P ip off src s o s'
  | 0, off, o, s, s', src, own, boot, hfuel, h => by
    obtain rfl : src = [] := List.length_eq_zero.mp (Nat.le_zero.mp hfuel)
    rw [writeiLoop_nil] at h
    cases h
    exact Wrote.nil own boot
  | fuel + 1, off, o, s, s', src, own, boot, hfuel, h => by
    by_cases hsrc : src = []
    · subst hsrc
      rw [writeiLoop_nil] at h
      cases h
      exact Wrote.nil own boot
    rw [writeiLoop, if_neg hsrc] at h
    obtain ⟨⟨b, s1⟩, hb, h⟩ := bind_eq_ok h
    obtain ⟨w2, own2, boot2, inp, outp⟩ := writeiLoop_piece src own boot hb
    have hm : 0 < min src.length (P.BSIZE - off % P.BSIZE) :=
      Nat.lt_min.mpr ⟨List.length_pos.mpr hsrc, piece_pos⟩
    have hmlen := Nat.min_le_left src.length (P.BSIZE - off % P.BSIZE)
    obtain ⟨ho, w3, own3, boot3, inr, outr⟩ :=
      writeiLoop_spec own2 boot2 (by simp only [List.length_drop]; omega) h
    simp only [List.length_drop] at ho inr outr
    refine ⟨by omega, w2.trans w3, own3, boot3, fun p h₁ h₂ => ?_, fun p hout hp => ?_⟩
    · by_cases hp : p < off + min src.length (P.BSIZE - off % P.BSIZE)
      · obtain ⟨hm2, hb2⟩ := inp p h₁ hp
        obtain ⟨hm3, hb3⟩ := outr p (by omega) hm2
        exact ⟨hm3, hb3.trans hb2⟩
      · obtain ⟨hm3, hb3⟩ := inr p (by omega) (by omega)
        rw [getD_drop] at hb3
        exact ⟨hm3, hb3.trans (by congr 1; omega)⟩
    · obtain ⟨hm2, hb2⟩ := outp p (by omega) hp
      obtain ⟨hm3, hb3⟩ := outr p (by omega) hm2
      exact ⟨hm3, hb3.trans hb2⟩

/-- Over a range whose bytes are all mapped, the loop of `writei` maps no block: it leaves the
cache as it is. -/
theorem writeiLoop_icache {ip : Nat} :
    ∀ {fuel off o : Nat} {s s' : State} {src : List UInt8}, s.Owns P ip →
      (∀ p, off ≤ p → p < off + src.length → s.Mapped P ip p) →
      writeiLoop P ip fuel s off src = .ok (o, s') → s'.icache = s.icache
  | 0, _, _, _, _, _, _, _, h => by cases h; rfl
  | fuel + 1, off, o, s, s', src, own, hm, h => by
    by_cases hsrc : src = []
    · subst hsrc
      rw [writeiLoop_nil] at h
      cases h
      rfl
    have hlen := List.length_pos.mpr hsrc
    rw [writeiLoop, if_neg hsrc] at h
    obtain ⟨⟨b, s1⟩, hb, h⟩ := bind_eq_ok h
    obtain ⟨hbn, hmap⟩ := hm off le_rfl (by omega)
    rw [bmap_of_mapped hbn hmap] at hb
    cases hb
    obtain ⟨-, own2, slots2, -⟩ := writeBlock_spec
      (writeBytes (s.disk.data (s.slot P ip (blockSlot P (off / P.BSIZE)))) (off % P.BSIZE)
        (src.take (min src.length (P.BSIZE - off % P.BSIZE)))) own hbn rfl hmap
    have rest := writeiLoop_icache own2 (fun p h₁ h₂ => ?_) h
    · exact rest
    obtain ⟨hpn, hpm⟩ := hm p (by omega) (by simp only [List.length_drop] at h₂; omega)
    exact ⟨hpn, by rw [slots2 _ (blockSlot_valid hpn)]; exact hpm⟩

/-- Within `MAXFILE` blocks, the loop of `writei` fails only when `balloc` runs out of blocks. -/
theorem writeiLoop_error {ip : Nat} :
    ∀ {fuel off : Nat} {s : State} {src : List UInt8} {e : Fault},
      off + src.length ≤ P.MAXFILE * P.BSIZE → writeiLoop P ip fuel s off src = .error e →
      e = .panic "balloc: out of blocks"
  | 0, _, _, _, _, _, h => by cases h
  | fuel + 1, off, s, src, e, hmax, h => by
    by_cases hsrc : src = []
    · subst hsrc; rw [writeiLoop_nil] at h; cases h
    have hlen := List.length_pos.mpr hsrc
    rw [writeiLoop, if_neg hsrc] at h
    rcases bind_eq_error h with h | ⟨⟨b, s1⟩, -, h⟩
    · exact bmap_error ((Nat.div_lt_iff_lt_mul P.bsize_pos).mpr (by omega)) h
    · have hmlen := Nat.min_le_left src.length (P.BSIZE - off % P.BSIZE)
      exact writeiLoop_error (by simp only [List.length_drop]; omega) h

/-- The number of blocks that the byte range `[off, off + n)` touches. -/
def blocksTouched (P : Params) (off n : Nat) : Nat :=
  if n = 0 then 0 else (off + n - 1) / P.BSIZE + 1 - off / P.BSIZE

/-- An iteration of the loop of `writei` leaves one block less to touch. -/
theorem blocksTouched_step (off : Nat) {n : Nat} (hn : 0 < n) :
    blocksTouched P (off + min n (P.BSIZE - off % P.BSIZE)) (n - min n (P.BSIZE - off % P.BSIZE))
      + 1 ≤ blocksTouched P off n := by
  have hle : off / P.BSIZE ≤ (off + n - 1) / P.BSIZE := Nat.div_le_div_right (by omega)
  have hcases : min n (P.BSIZE - off % P.BSIZE) = n ∨
      min n (P.BSIZE - off % P.BSIZE) = P.BSIZE - off % P.BSIZE ∧
        P.BSIZE - off % P.BSIZE < n := by omega
  generalize min n (P.BSIZE - off % P.BSIZE) = m at hcases ⊢
  unfold blocksTouched
  rw [if_neg (show n ≠ 0 by omega)]
  rcases hcases with rfl | ⟨rfl, hlt⟩
  · -- the range ends in the block of `off`
    rw [if_pos (Nat.sub_self _)]; omega
  · -- the range goes on from the start of the next block
    rw [if_neg (by omega)]
    have hnext : off + (P.BSIZE - off % P.BSIZE) = P.BSIZE * (off / P.BSIZE + 1) := by
      have := Nat.div_add_mod off P.BSIZE
      have := Nat.mod_lt off P.bsize_pos
      rw [Nat.mul_succ]; omega
    have hdiv : (off + (P.BSIZE - off % P.BSIZE)) / P.BSIZE = off / P.BSIZE + 1 := by
      rw [hnext, Nat.mul_div_cancel_left _ P.bsize_pos]
    have hge : off / P.BSIZE + 1 ≤ (off + n - 1) / P.BSIZE := by
      rw [← hdiv]; exact Nat.div_le_div_right (by omega)
    have hend : off + (P.BSIZE - off % P.BSIZE) + (n - (P.BSIZE - off % P.BSIZE)) - 1 =
        off + n - 1 := by omega
    rw [hdiv, hend]
    omega

/-- Two adjacent ranges touch at most one block more than the range they make up: the block
where they meet. -/
theorem blocksTouched_split (o a b : Nat) :
    blocksTouched P o a + blocksTouched P (o + a) b ≤ blocksTouched P o (a + b) + 1 := by
  unfold blocksTouched
  rcases Nat.eq_zero_or_pos a with rfl | ha
  · rw [if_pos rfl, Nat.zero_add, Nat.add_zero, Nat.zero_add]
    exact Nat.le_succ _
  rcases Nat.eq_zero_or_pos b with rfl | hb
  · rw [if_pos rfl]
    simp only [Nat.add_zero]
    exact Nat.le_succ _
  rw [if_neg (by omega), if_neg (by omega), if_neg (by omega)]
  have h1 : o / P.BSIZE ≤ (o + a - 1) / P.BSIZE := Nat.div_le_div_right (by omega)
  have h2 : (o + a - 1) / P.BSIZE ≤ (o + a) / P.BSIZE := Nat.div_le_div_right (by omega)
  have h3 : (o + a) / P.BSIZE ≤ (o + a + b - 1) / P.BSIZE := Nat.div_le_div_right (by omega)
  rw [show o + (a + b) - 1 = o + a + b - 1 by omega]
  omega

/-- Cutting a chunk of at most `c` bytes off the front of a range: the blocks the chunk touches,
with those of the rest and its chunk boundaries, are at most those of the whole range and its
chunk boundaries. -/
theorem blocksTouched_chunk (o m : Nat) {c : Nat} (hc : 0 < c) :
    blocksTouched P o (min m c) +
        (blocksTouched P (o + min m c) (m - min m c) + (m - min m c) / c) ≤
      blocksTouched P o m + m / c := by
  rcases le_or_lt m c with hm | hm
  · rw [min_eq_left hm, Nat.sub_self]
    simp [blocksTouched]
  · have hsplit := blocksTouched_split (P := P) o c (m - c)
    rw [Nat.add_sub_cancel' hm.le] at hsplit
    rw [min_eq_right hm.le, Nat.div_eq_sub_div hc hm.le]
    omega

/-- The loop of `writei` returns when three blocks are free for each block the range touches,
and it uses at most that many. -/
theorem writeiLoop_ok (ip : Nat) :
    ∀ (fuel off : Nat) (s : State) (src : List UInt8), src.length ≤ fuel →
      off + src.length ≤ P.MAXFILE * P.BSIZE →
      3 * blocksTouched P off src.length ≤ s.disk.freeCount P →
      ∃ o s', writeiLoop P ip fuel s off src = .ok (o, s') ∧
        s.disk.freeCount P ≤ s'.disk.freeCount P + 3 * blocksTouched P off src.length
  | 0, off, s, src, hfuel, _, _ => by
    obtain rfl : src = [] := List.length_eq_zero.mp (Nat.le_zero.mp hfuel)
    exact ⟨_, _, writeiLoop_nil, Nat.le_add_right _ _⟩
  | fuel + 1, off, s, src, hfuel, hmax, hfree => by
    by_cases hsrc : src = []
    · subst hsrc; exact ⟨_, _, writeiLoop_nil, Nat.le_add_right _ _⟩
    have hlen := List.length_pos.mpr hsrc
    have hstep := blocksTouched_step (P := P) off hlen
    obtain ⟨b, s1, hb, hc⟩ := bmap_ok ip (off / P.BSIZE)
      ((Nat.div_lt_iff_lt_mul P.bsize_pos).mpr (by omega)) (by omega : 3 ≤ s.disk.freeCount P)
    have hmlen := Nat.min_le_left src.length (P.BSIZE - off % P.BSIZE)
    have hpos : 0 < min src.length (P.BSIZE - off % P.BSIZE) := Nat.lt_min.mpr ⟨hlen, piece_pos⟩
    obtain ⟨o, s', h, hc'⟩ := writeiLoop_ok ip fuel (off + min src.length (P.BSIZE - off % P.BSIZE))
      ((s1.setDisk (s1.disk.setBlock b (writeBytes (s1.disk.data b) (off % P.BSIZE)
        (src.take (min src.length (P.BSIZE - off % P.BSIZE)))))).log (.data b))
      (src.drop (min src.length (P.BSIZE - off % P.BSIZE)))
      (by simp only [List.length_drop]; omega) (by simp only [List.length_drop]; omega)
      (by simp only [List.length_drop, State.log_disk, State.setDisk_disk, freeCount_setBlock]
          omega)
    simp only [List.length_drop, State.log_disk, State.setDisk_disk, freeCount_setBlock] at hc'
    exact ⟨o, s', by rw [writeiLoop, if_neg hsrc, hb]; exact h, by omega⟩

/-- A sum of two `uint`s wraps exactly when it reaches `2 ^ 32`. -/
theorem u32_lt_iff {off n : Nat} (hoff : off < 2 ^ 32) (hn : n < 2 ^ 32) :
    u32 (off + n) < off ↔ 2 ^ 32 ≤ off + n := by
  unfold u32
  constructor
  · intro h
    by_contra h'
    rw [Nat.mod_eq_of_lt (by omega)] at h
    omega
  · intro h
    rw [Nat.mod_eq_sub_mod h, Nat.mod_eq_of_lt (by omega)]
    omega

/-- `readi` of a non-device inode without holes, at a `uint` offset and for a `uint` count,
returns `-1` or a count that ends inside the file. -/
theorem readi_within {s s' : State} {ip off n : Nat} {r : Int × List UInt8}
    (hdev : (s.icache ip).type ≠ .dev) (holes : s.NoHoles P ip) (hoff : off < 2 ^ 32)
    (hn : n < 2 ^ 32) (h : readi P s ip off n = .ok (r, s')) :
    r.1 = -1 ∨ off + r.1.toNat ≤ (s.icache ip).size := by
  by_cases hin : off ≤ (s.icache ip).size ∧ off + n < 2 ^ 32
  · rw [readi_eq hdev holes hin.1 hin.2] at h
    cases h
    right
    simp only [Int.toNat_ofNat]
    omega
  · rw [readi, if_neg hdev, if_pos (by rw [u32_lt_iff hoff hn]; omega)] at h
    cases h
    exact .inl rfl

/-- The ranges `writei` refuses: past the end of the file, wrapping, or past `MAXFILE` blocks. -/
def WriteiRefuses (P : Params) (s : State) (ip off n : Nat) : Prop :=
  (s.icache ip).size < off ∨ 2 ^ 32 ≤ off + n ∨ P.MAXFILE * P.BSIZE < off + n

/-- `writei` of a non-device inode returns `-1` exactly on the ranges it refuses, and then
changes nothing. -/
theorem writei_neg_one {s : State} {ip off : Nat} {src : List UInt8}
    (hdev : (s.icache ip).type ≠ .dev) (hoff : off < 2 ^ 32) (hn : src.length < 2 ^ 32) :
    ((∃ s', writei P s ip src off = .ok (-1, s')) ↔ WriteiRefuses P s ip off src.length) ∧
      (WriteiRefuses P s ip off src.length → writei P s ip src off = .ok (-1, s)) := by
  have hlt := P.maxBytes_lt
  have hwrap := u32_lt_iff hoff hn
  have refuses : WriteiRefuses P s ip off src.length → writei P s ip src off = .ok (-1, s) := by
    intro h
    rw [writei, if_neg hdev]
    by_cases h1 : (s.icache ip).size < off ∨ u32 (off + src.length) < off
    · rw [if_pos h1]
    · rw [if_neg h1, if_pos]
      rw [u32_of_lt (by omega)]
      unfold WriteiRefuses at h
      omega
  refine ⟨⟨fun ⟨s', h⟩ => ?_, fun h => ⟨s, refuses h⟩⟩, refuses⟩
  unfold WriteiRefuses
  by_contra hc
  rw [writei, if_neg hdev, u32_of_lt (by omega), if_neg (by omega), if_neg (by omega)] at h
  obtain ⟨⟨o, s2⟩, -, h⟩ := bind_eq_ok h
  have hr : i32 src.length = src.length := i32_of_lt (by omega)
  dsimp only at h
  split at h <;> simp only [pure, Except.pure, Except.ok.injEq, Prod.mk.injEq, hr] at h <;> omega

/-- `writei` of a non-device inode fails only when `balloc` runs out of blocks. -/
theorem writei_error {s : State} {ip off : Nat} {src : List UInt8} {e : Fault}
    (hdev : (s.icache ip).type ≠ .dev) (hoff : off < 2 ^ 32) (hn : src.length < 2 ^ 32)
    (h : writei P s ip src off = .error e) : e = .panic "balloc: out of blocks" := by
  rw [writei, if_neg hdev] at h
  split at h
  · cases h
  split at h
  · cases h
  rename_i h1 h2
  have hw : off + src.length < 2 ^ 32 := by
    by_contra h'
    exact h1 (.inr ((u32_lt_iff hoff hn).mpr (by omega)))
  rw [u32_of_lt hw] at h2
  rcases bind_eq_error h with h | ⟨⟨o, s2⟩, -, h⟩
  · exact writeiLoop_error (by omega) h
  · dsimp only at h
    split at h <;> cases h

/-- `writei` of a non-device inode returns the count when three blocks are free for each block
the range touches. -/
theorem writei_ok {s : State} {ip off : Nat} {src : List UInt8}
    (hdev : (s.icache ip).type ≠ .dev) (hoff : off ≤ (s.icache ip).size)
    (hmax : off + src.length ≤ P.MAXFILE * P.BSIZE)
    (hfree : 3 * blocksTouched P off src.length ≤ s.disk.freeCount P) :
    ∃ s', writei P s ip src off = .ok (src.length, s') ∧
      s.disk.freeCount P ≤ s'.disk.freeCount P + 3 * blocksTouched P off src.length := by
  have hlt := P.maxBytes_lt
  obtain ⟨o, s2, hl, hc⟩ := writeiLoop_ok ip src.length off s src (Nat.le_refl _) hmax hfree
  rw [writei, if_neg hdev, u32_of_lt (by omega), if_neg (by omega), if_neg (by omega), hl]
  simp only [bind, Except.bind, i32_of_lt (show src.length < 2 ^ 31 by omega)]
  split
  · exact ⟨_, rfl, by simpa [iupdate] using hc⟩
  · exact ⟨_, rfl, hc⟩

/-- `writei` of a non-device inode with the file invariants, at an offset inside the file and
with the range inside `MAXFILE` blocks: when it returns, it returns the count, the file has grown
to the end of the range if that is past its end, its content is `Contents.write` of the old
content, and the invariants still hold. -/
theorem writei_spec {s s' : State} {ip off : Nat} {src : List UInt8} {r : Int}
    (inv : s.FileInv P ip) (hdev : (s.icache ip).type ≠ .dev) (hoff : off ≤ (s.icache ip).size)
    (hmax : off + src.length ≤ P.MAXFILE * P.BSIZE) (h : writei P s ip src off = .ok (r, s')) :
    r = src.length ∧ (s'.icache ip).type = (s.icache ip).type ∧
      (s'.icache ip).size = max (s.icache ip).size (off + src.length) ∧
      s'.content P ip = Contents.write (s.content P ip) off src ∧ s'.FileInv P ip := by
  have hlt := P.maxBytes_lt
  rw [writei, if_neg hdev, u32_of_lt (by omega), if_neg (by omega), if_neg (by omega)] at h
  obtain ⟨⟨o, s2⟩, hl, h⟩ := bind_eq_ok h
  dsimp only at h
  have w := writeiLoop_spec inv.own inv.boot (Nat.le_refl _) hl
  have ho := w.reached
  have htype2 : (s2.icache ip).type = (s.icache ip).type := by rw [w.writes.meta]; rfl
  have hsize2 : (s2.icache ip).size = (s.icache ip).size := by rw [w.writes.meta]; rfl
  -- `s'` is `s2` with the size of `ip` raised to the end of the range when that is larger
  have final : r = src.length ∧ (∀ τ, s'.slot P ip τ = s2.slot P ip τ) ∧
      s'.disk.data = s2.disk.data ∧ (∀ y, s'.disk.allocated P y = s2.disk.allocated P y) ∧
      s'.disk.sb = s2.disk.sb ∧ (s'.icache ip).type = (s.icache ip).type ∧
      (s'.icache ip).size = max (s.icache ip).size (off + src.length) := by
    have hr : i32 src.length = src.length := i32_of_lt (by omega)
    split at h <;> simp only [pure, Except.pure, Except.ok.injEq, Prod.mk.injEq] at h <;>
      obtain ⟨rfl, rfl⟩ := h
    · exact ⟨hr, congrFun (slot_congr rfl (by simp) (by simp)), rfl, fun _ => rfl, rfl,
        by simp [htype2], by simp; omega⟩
    · exact ⟨hr, fun _ => rfl, rfl, fun _ => rfl, rfl, htype2, by omega⟩
  obtain ⟨hr, hslot, hdata, halloc, hsb, htype, hsize⟩ := final
  obtain ⟨fmt2, reg2⟩ := w.writes.layout inv.formatted inv.region
  have inside : ∀ p < max (s.icache ip).size (off + src.length),
      s'.Mapped P ip p ∧ s'.byteAt P ip p =
        if off ≤ p ∧ p < off + src.length then src.getD (p - off) 0 else s.byteAt P ip p := by
    intro p hp
    simp only [State.Mapped, State.byteAt, hslot, hdata]
    split
    · rename_i hin
      exact w.written p hin.1 hin.2
    · rename_i hout
      exact w.kept p hout (inv.holes p (by omega))
  refine ⟨hr, htype, hsize, ?_, ⟨w.own.congr (fun τ _ => hslot τ) halloc,
    fmt2.mono hsb fun y hy => by rw [halloc]; exact hy, fun τ hτ h0 => by
      rw [hslot] at h0 ⊢; rw [Disk.dataStart, hsb]; exact reg2 τ hτ h0,
    fun p hp => (inside p (hsize ▸ hp)).1⟩⟩
  rw [State.content, State.content, hsize]
  exact (write_bytesFrom hoff fun p hp => (inside p hp).2).symm

/-- `writei` of a non-device inode with the file invariants returns the count or `-1`, never a
part of the range; with the count, the range ends inside `MAXFILE` blocks and the file reaches
at least its end. -/
theorem writei_count {s s' : State} {ip off : Nat} {src : List UInt8} {r : Int}
    (inv : s.FileInv P ip) (hdev : (s.icache ip).type ≠ .dev) (hoff : off < 2 ^ 32)
    (hn : src.length < 2 ^ 32) (h : writei P s ip src off = .ok (r, s')) :
    r = -1 ∨ r = src.length ∧ off + src.length ≤ P.MAXFILE * P.BSIZE ∧
      off + src.length ≤ (s'.icache ip).size := by
  by_cases hre : WriteiRefuses P s ip off src.length
  · rw [(writei_neg_one hdev hoff hn).2 hre] at h
    cases h
    exact .inl rfl
  · unfold WriteiRefuses at hre
    obtain ⟨hr, -, hsize, -⟩ := writei_spec inv hdev (by omega) (by omega) h
    exact .inr ⟨hr, by omega, hsize ▸ le_max_right _ _⟩

/-- `writei` keeps the reference count of the entry and the file table. -/
theorem writei_ref {s s' : State} {ip off : Nat} {src : List UInt8} {r : Int}
    (inv : s.FileInv P ip) (hdev : (s.icache ip).type ≠ .dev) (hoff : off ≤ (s.icache ip).size)
    (hmax : off + src.length ≤ P.MAXFILE * P.BSIZE) (h : writei P s ip src off = .ok (r, s')) :
    (s'.icache ip).ref = (s.icache ip).ref ∧ s'.ftable = s.ftable := by
  have hlt := P.maxBytes_lt
  rw [writei, if_neg hdev, u32_of_lt (by omega), if_neg (by omega), if_neg (by omega)] at h
  obtain ⟨⟨o, t⟩, hl, h⟩ := bind_eq_ok h
  have w := writeiLoop_spec inv.own inv.boot (Nat.le_refl _) hl
  have ht : (t.icache ip).ref = (s.icache ip).ref := by rw [w.writes.meta]; rfl
  dsimp only at h
  split at h <;> simp only [pure, Except.pure, Except.ok.injEq, Prod.mk.injEq] at h <;>
    obtain ⟨-, rfl⟩ := h
  · simpa using ⟨ht, w.writes.ftable⟩
  · exact ⟨ht, w.writes.ftable⟩

/-- Of the cache, `writei` changes only the map and the size of the entry, and it leaves the
file table. -/
theorem writei_meta {s s' : State} {ip off : Nat} {src : List UInt8} {r : Int}
    (inv : s.FileInv P ip) (hdev : (s.icache ip).type ≠ .dev) (hoff : off ≤ (s.icache ip).size)
    (hmax : off + src.length ≤ P.MAXFILE * P.BSIZE) (h : writei P s ip src off = .ok (r, s')) :
    s'.icache ip = { (s.icache ip).withMap (s'.icache ip).addrs (s'.icache ip).indirect2 with
      size := (s'.icache ip).size } ∧
    (∀ o, o ≠ ip → s'.icache o = s.icache o) ∧ s'.ftable = s.ftable := by
  have hlt := P.maxBytes_lt
  rw [writei, if_neg hdev, u32_of_lt (by omega), if_neg (by omega), if_neg (by omega)] at h
  obtain ⟨⟨o, t⟩, hl, h⟩ := bind_eq_ok h
  have w := (writeiLoop_spec inv.own inv.boot (Nat.le_refl _) hl).writes
  dsimp only at h
  split at h <;> simp only [pure, Except.pure, Except.ok.injEq, Prod.mk.injEq] at h <;>
    obtain ⟨-, rfl⟩ := h
  · refine ⟨?_, fun x hx => by simp [hx, w.others x hx], by simp [w.ftable]⟩
    simp only [iupdate_icache, State.setInode_icache, Function.update_same]
    rw [w.meta]; rfl
  · exact ⟨by rw [w.meta]; rfl, w.others, w.ftable⟩

/-- Across `writei` of a file with the invariants, a slot of the file that was empty is still
empty or holds a block that was free. -/
theorem writei_fresh {s s' : State} {ip off : Nat} {src : List UInt8} {r : Int}
    (inv : s.FileInv P ip) (hdev : (s.icache ip).type ≠ .dev) (hoff : off ≤ (s.icache ip).size)
    (hmax : off + src.length ≤ P.MAXFILE * P.BSIZE) (h : writei P s ip src off = .ok (r, s'))
    {τ : Slot} (hτ : τ.Valid P) (hz : s.slot P ip τ = 0) :
    s'.slot P ip τ = 0 ∨ s.disk.allocated P (s'.slot P ip τ) = false := by
  have hlt := P.maxBytes_lt
  rw [writei, if_neg hdev, u32_of_lt (by omega), if_neg (by omega), if_neg (by omega)] at h
  obtain ⟨⟨o, t⟩, hl, h⟩ := bind_eq_ok h
  have w := writeiLoop_spec inv.own inv.boot (Nat.le_refl _) hl
  have hslot : s'.slot P ip = t.slot P ip := by
    dsimp only at h
    split at h <;> simp only [pure, Except.pure, Except.ok.injEq, Prod.mk.injEq] at h <;>
      obtain ⟨-, rfl⟩ := h
    · exact slot_congr rfl (by simp) (by simp)
    · rfl
  rw [hslot]
  exact w.writes.fresh τ hτ hz

/-- The bytes of a file after a write whose content is `Contents.write` of the old one. -/
theorem byteAt_of_write {s s' : State} {ip off : Nat} {src : List UInt8}
    (hoff : off ≤ (s.icache ip).size)
    (hsize : (s'.icache ip).size = max (s.icache ip).size (off + src.length))
    (h : s'.content P ip = Contents.write (s.content P ip) off src) :
    ∀ p < (s'.icache ip).size, s'.byteAt P ip p =
      if off ≤ p ∧ p < off + src.length then src.getD (p - off) 0 else s.byteAt P ip p := by
  rw [State.content, State.content, write_bytesFrom hoff (fun _ _ => rfl), ← hsize] at h
  exact bytesFrom_eq_apply h

variable (P) in
/-- The state after `writei` of `src` at `off` returned the count: the file ends at the larger
of its old end and the end of the range, holds `Contents.write` of its old content, keeps its
invariants, and every `readi` of it returns `Contents.read` of that content and changes
nothing. -/
structure WriteiDone (s : State) (ip off : Nat) (src : List UInt8) (s' : State) : Prop where
  size : (s'.icache ip).size = max (s.icache ip).size (off + src.length)
  content : s'.content P ip = Contents.write (s.content P ip) off src
  inv : s'.FileInv P ip
  read : ∀ off' n', off' ≤ (s'.icache ip).size → off' + n' < 2 ^ 32 →
    readi P s' ip off' n' = .ok (((min n' ((s'.icache ip).size - off') : Nat),
      Contents.read (Contents.write (s.content P ip) off src) off' n'), s')

/-- On a range it does not refuse, of a file with the invariants, `writei` either panics because
`balloc` runs out of blocks, or returns the count and leaves `WriteiDone`. -/
theorem writei_done {s : State} {ip off : Nat} {src : List UInt8} (inv : s.FileInv P ip)
    (hdev : (s.icache ip).type ≠ .dev) (hoff : off < 2 ^ 32) (hn : src.length < 2 ^ 32)
    (hgood : ¬ WriteiRefuses P s ip off src.length) :
    writei P s ip src off = .error (.panic "balloc: out of blocks") ∨
      ∃ s', writei P s ip src off = .ok (src.length, s') ∧ WriteiDone P s ip off src s' := by
  unfold WriteiRefuses at hgood
  have hoff' : off ≤ (s.icache ip).size := by omega
  have hmax : off + src.length ≤ P.MAXFILE * P.BSIZE := by omega
  cases h : writei P s ip src off with
  | error e => exact .inl (by rw [writei_error hdev hoff hn h])
  | ok res =>
    obtain ⟨r, s'⟩ := res
    obtain ⟨hr, htype, hsize, hcontent, inv'⟩ := writei_spec inv hdev hoff' hmax h
    refine .inr ⟨s', by rw [hr], hsize, hcontent, inv', fun off' n' h₁ h₂ => ?_⟩
    rw [readi_eq (htype ▸ hdev) inv'.holes h₁ h₂, hcontent]

end Xv6Fs
