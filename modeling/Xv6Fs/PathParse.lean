import Xv6Fs.PathSpec

/-!
# Parsing a path

A path a caller passes is a C string: its bytes, none of them NUL, and then a NUL, inside its
array (`Buf.Holds`). Its elements are `pathRuns`, the maximal nonempty runs of bytes other than
`'/'`: the pieces of the string cut at every `'/'`, with the empty pieces dropped. `skipelem`
cuts them off one after the other, each copied into `name` as `elemName` says, and returns no
element exactly when only slashes are left (`path_parsing`).

`skipelem` at index `p` of the array reads the rest `str.drop p` of the string. Each of its
three scans stops at the first byte its test fails, so it moves over the longest prefix of the
rest whose bytes pass the test, its `List.takeWhile`; the lemmas below tie every index
`skipelem` computes to a suffix of the string that way.
-/

namespace Xv6Fs

variable (P : Params)

/-- The elements of a path: the maximal nonempty runs of bytes other than `'/'`. -/
def pathRuns (str : List UInt8) : List (List UInt8) :=
  (str.splitOn slash).filter (· ≠ [])

/-- The name an element is copied into: cut to `DIRSIZ` bytes, with a NUL when shorter. -/
def elemName (run : List UInt8) : List UInt8 :=
  if P.DIRSIZ ≤ run.length then run.take P.DIRSIZ else run ++ [0]

/-- The index past the slashes from index `p` of a string. -/
def skipSlashes (str : List UInt8) (p : Nat) : Nat :=
  p + ((str.drop p).takeWhile (· = slash)).length

/-- What `skipelem` cuts off a string at index `p`: the bytes up to the next slash or NUL after
the slashes there, and the index past them and the slashes after them. -/
def nextElem (str : List UInt8) (p : Nat) : List UInt8 × Nat :=
  let p₁ := skipSlashes str p
  let run := (str.drop p₁).takeWhile fun c => c ≠ slash ∧ c ≠ 0
  (run, skipSlashes str (p₁ + run.length))

/-- The array `path` of `cap` bytes holds the C string `str`. -/
structure Buf.Holds (cap : Nat) (path : Buf) (str : List UInt8) : Prop where
  /-- The string and its NUL fit in the array. -/
  lt : str.length < cap
  /-- The string has no NUL of its own. -/
  nul : 0 ∉ str
  /-- The array holds the bytes of the string and then a NUL. -/
  bytes : ∀ i ≤ str.length, path i = some (str.getD i 0)

variable {P}

@[simp] theorem pathRuns_nil : pathRuns [] = [] := rfl

theorem pathRuns_slash (s : List UInt8) : pathRuns (slash :: s) = pathRuns s := by
  simp [pathRuns, List.splitOn, List.splitOnP_cons]

/-- Slashes in front of a string add no element. -/
theorem pathRuns_slashes {lead : List UInt8} (h : ∀ c ∈ lead, c = slash) (s : List UInt8) :
    pathRuns (lead ++ s) = pathRuns s := by
  induction lead with
  | nil => rfl
  | cons c lead ih =>
    rw [List.forall_mem_cons] at h
    rw [List.cons_append, h.1, pathRuns_slash, ih h.2]

/-- A nonempty run of bytes other than `'/'`, ended by a slash or by the end of the string, is
its first element. -/
theorem pathRuns_run {run rest : List UInt8} (hne : run ≠ []) (hrun : ∀ c ∈ run, c ≠ slash)
    (hrest : rest = [] ∨ rest.head? = some slash) :
    pathRuns (run ++ rest) = run :: pathRuns rest := by
  have hp : ∀ c ∈ run, ¬(c == slash) = true := by simpa using hrun
  rcases hrest with rfl | hrest
  · simp [pathRuns, List.splitOn, List.splitOnP_eq_single _ _ hp, hne]
  · obtain ⟨rest, rfl⟩ : ∃ t, rest = slash :: t := by
      cases rest with
      | nil => cases hrest
      | cons c t => cases hrest; exact ⟨t, rfl⟩
    rw [pathRuns_slash]
    simp [pathRuns, List.splitOn, List.splitOnP_first _ _ hp slash (by simp), hne]

example : pathRuns (bytesOf "/a//bc/") = [bytesOf "a", bytesOf "bc"] := by decide

/-- Dropping the longest prefix that passes a test leaves what `List.dropWhile` leaves. -/
theorem drop_add_takeWhile (f : UInt8 → Bool) (str : List UInt8) (p : Nat) :
    str.drop (p + ((str.drop p).takeWhile f).length) = (str.drop p).dropWhile f := by
  have h := List.drop_left ((str.drop p).takeWhile f) ((str.drop p).dropWhile f)
  rwa [List.takeWhile_append_dropWhile, List.drop_drop] at h

/-- Slashes `List.dropWhile` skips add no element. -/
theorem pathRuns_dropWhile (l : List UInt8) :
    pathRuns (l.dropWhile (· = slash)) = pathRuns l := by
  conv_rhs => rw [← List.takeWhile_append_dropWhile (· = slash) l]
  exact (pathRuns_slashes (fun c hc => by simpa using List.mem_takeWhile_imp hc) _).symm

/-- The longest prefix that passes a test is as long as its take. -/
theorem take_length_takeWhile (f : UInt8 → Bool) (l : List UInt8) :
    l.take (l.takeWhile f).length = l.takeWhile f := by
  have h := List.take_left (l.takeWhile f) (l.dropWhile f)
  rwa [List.takeWhile_append_dropWhile] at h

/-- A scan from inside a string stops inside it. -/
theorem add_length_takeWhile_le (f : UInt8 → Bool) {str : List UInt8} {p : Nat}
    (hp : p ≤ str.length) : p + ((str.drop p).takeWhile f).length ≤ str.length := by
  have := (List.takeWhile_prefix (l := str.drop p) f).length_le
  rw [List.length_drop] at this
  omega

/-- Where the rest of a string is not only slashes, the slashes end at a byte that is not one. -/
theorem drop_skipSlashes {str : List UInt8} {p : Nat} (hs : ¬∀ c ∈ str.drop p, c = slash) :
    ∃ c rest, str.drop (skipSlashes str p) = c :: rest ∧ c ≠ slash := by
  rw [skipSlashes, drop_add_takeWhile]
  rcases hd : (str.drop p).dropWhile (· = slash) with _ | ⟨c, rest⟩
  · exact absurd (by simpa using List.dropWhile_eq_nil_iff.mp hd) hs
  · have := List.head?_dropWhile_not (· = slash) (str.drop p)
    rw [hd] at this
    exact ⟨c, rest, rfl, by simpa using this⟩

/-- On a string without NUL, where the rest is not only slashes, `nextElem` cuts off its first
element and moves on to a later index of the string, not at a slash. -/
theorem nextElem_spec {str : List UInt8} {p : Nat} (hnul : 0 ∉ str) (hp : p ≤ str.length)
    (hs : ¬∀ c ∈ str.drop p, c = slash) :
    p < (nextElem str p).2 ∧ (nextElem str p).2 ≤ str.length ∧
      (str.drop (nextElem str p).2).head? ≠ some slash ∧
      pathRuns (str.drop p) = (nextElem str p).1 :: pathRuns (str.drop (nextElem str p).2) := by
  obtain ⟨c, rest, hcr, hc⟩ := drop_skipSlashes hs
  have hc0 : c ≠ 0 := fun h0 => hnul (h0 ▸ List.mem_of_mem_drop (hcr ▸ List.mem_cons_self c rest))
  -- the indices `nextElem` computes
  obtain ⟨p₁, hp₁⟩ : ∃ p₁, p₁ = skipSlashes str p := ⟨_, rfl⟩
  obtain ⟨run, hrun⟩ : ∃ run, run = (str.drop p₁).takeWhile (fun c => c ≠ slash ∧ c ≠ 0) :=
    ⟨_, rfl⟩
  obtain ⟨q₁, hq₁⟩ : ∃ q₁, q₁ = p₁ + run.length := ⟨_, rfl⟩
  obtain ⟨q, hq⟩ : ∃ q, q = skipSlashes str q₁ := ⟨_, rfl⟩
  have hn : nextElem str p = (run, q) := by rw [hq, hq₁, hrun, hp₁]; rfl
  rw [← hp₁] at hcr
  have hpp₁ : p ≤ p₁ := hp₁ ▸ Nat.le_add_right _ _
  have hp₁len : p₁ ≤ str.length := hp₁ ▸ add_length_takeWhile_le _ hp
  have hq₁len : q₁ ≤ str.length := hq₁ ▸ hrun ▸ add_length_takeWhile_le _ hp₁len
  have hqq₁ : q₁ ≤ q := hq ▸ Nat.le_add_right _ _
  have ht : str.drop p₁ = (str.drop p).dropWhile (· = slash) := hp₁ ▸ drop_add_takeWhile _ str p
  have hu : str.drop q₁ = (str.drop p₁).dropWhile (fun c => c ≠ slash ∧ c ≠ 0) :=
    hq₁ ▸ hrun ▸ drop_add_takeWhile _ str p₁
  have hrest : str.drop q = (str.drop q₁).dropWhile (· = slash) := hq ▸ drop_add_takeWhile _ str q₁
  -- the element: nonempty, without a slash, and ended by a slash or the end of the string
  have hne : run ≠ [] := by
    rw [hrun, hcr, List.takeWhile_cons, if_pos (by simpa using ⟨hc, hc0⟩)]
    exact List.cons_ne_nil _ _
  have hrun_slash : ∀ c ∈ run, c ≠ slash := fun c hc' => by
    rw [hrun] at hc'
    exact (by simpa using List.mem_takeWhile_imp hc' : c ≠ slash ∧ c ≠ 0).1
  have hsep : str.drop q₁ = [] ∨ (str.drop q₁).head? = some slash := by
    have := List.head?_dropWhile_not (fun c => c ≠ slash ∧ c ≠ 0) (str.drop p₁)
    rw [← hu] at this
    rcases hd : (str.drop q₁).head? with _ | c
    · exact .inl (List.head?_eq_none_iff.mp hd)
    · have hc0 : c ≠ 0 := fun h0 => hnul (h0 ▸ List.mem_of_mem_drop (List.mem_of_mem_head? hd))
      rw [hd] at this
      simp only [decide_eq_false_iff_not, not_and, not_not] at this
      exact .inr (congrArg some (by_contra fun hs => hc0 (this hs)))
  have hpos : 0 < run.length := List.length_pos.mpr hne
  rw [hn]
  refine ⟨by omega, hq ▸ add_length_takeWhile_le _ hq₁len, fun hs' => ?_, ?_⟩
  · have := List.head?_dropWhile_not (· = slash) (str.drop q₁)
    rw [← hrest, hs'] at this
    simp at this
  · calc pathRuns (str.drop p) = pathRuns (str.drop p₁) := by rw [ht, pathRuns_dropWhile]
      _ = pathRuns (run ++ str.drop q₁) := by rw [hrun, hu, List.takeWhile_append_dropWhile]
      _ = run :: pathRuns (str.drop q₁) := pathRuns_run hne hrun_slash hsep
      _ = run :: pathRuns (str.drop q) := by rw [hrest, pathRuns_dropWhile]

/-- `strncpy` into an array longer than the string leaves it holding the string. -/
theorem Buf.holds_ofStr {cap : Nat} {str : List UInt8} (hlt : str.length < cap)
    (hnul : 0 ∉ str) : (Buf.ofStr cap str).Holds cap str :=
  ⟨hlt, hnul, fun _ hi => if_pos (by omega)⟩

section Holds

variable {cap : Nat} {path : Buf} {str : List UInt8} (h : path.Holds cap str)
include h

theorem Buf.Holds.read_eq {i : Nat} (hi : i ≤ str.length) :
    path.read cap i = .ok (str.getD i 0) := by
  simp only [Buf.read, if_pos (show i < cap by have := h.lt; omega), h.bytes i hi]

/-- A scan that does not keep NUL moves over the longest prefix of the rest of the string that
it keeps. -/
theorem Buf.Holds.skipWhile_eq {keep : UInt8 → Bool} (hk0 : keep 0 = false) :
    ∀ (fuel : Nat) {p : Nat}, p ≤ str.length → str.length < p + fuel →
      skipWhile cap path keep fuel p = .ok (p + ((str.drop p).takeWhile keep).length)
  | 0, _, _, hf => absurd hf (by omega)
  | fuel + 1, p, hp, hf => by
    rw [skipWhile, bind_of_eq_ok (h.read_eq hp)]
    rcases Nat.lt_or_eq_of_le hp with hp | rfl
    · rw [List.drop_eq_getElem_cons hp, List.takeWhile_cons, List.getD_eq_getElem?_getD,
        List.getElem?_eq_getElem hp, Option.getD_some]
      by_cases hc : keep str[p] = true
      · rw [if_pos hc, if_pos hc, Buf.Holds.skipWhile_eq hk0 fuel (p := p + 1) hp (by omega),
          List.length_cons, Nat.add_right_comm]
        rfl
      · simp [hc, pure, Except.pure]
    · simp [hk0, pure, Except.pure]

/-- The bytes `skipelem` copies out of the array are those of the string. -/
theorem Buf.Holds.mapM_read :
    ∀ (n : Nat) {p : Nat}, p + n ≤ str.length →
      (List.range n).mapM (fun k => path.read cap (p + k)) = .ok ((str.drop p).take n)
  | 0, _, _ => rfl
  | n + 1, p, hn => by
    rw [List.range_succ, List.mapM_append, bind_of_eq_ok (Buf.Holds.mapM_read n (by omega)),
      List.mapM_cons, bind_of_eq_ok (h.read_eq (by omega)), List.take_succ,
      List.getElem?_drop, List.getD_eq_getElem?_getD, List.getElem?_eq_getElem (by omega)]
    rfl

/-- Over a rest of only slashes `skipelem` finds no element. -/
theorem Buf.Holds.skipelem_eq_none {p : Nat} (hp : p ≤ str.length)
    (hs : ∀ c ∈ str.drop p, c = slash) : skipelem P cap path p = .ok none := by
  have hall : (str.drop p).takeWhile (· = slash) = str.drop p :=
    List.takeWhile_eq_self_iff.mpr (by simpa using hs)
  have hlt := h.lt
  unfold skipelem
  rw [bind_of_eq_ok (h.skipWhile_eq (by decide) (cap + 1) hp (by omega)), hall,
    List.length_drop, Nat.add_sub_cancel' hp, bind_of_eq_ok (h.read_eq le_rfl),
    List.getD_eq_getElem?_getD, List.getElem?_eq_none le_rfl]
  rfl

/-- Where the rest is not only slashes, `skipelem` cuts off the element `nextElem` reads. -/
theorem Buf.Holds.skipelem_eq_some {p : Nat} (hp : p ≤ str.length)
    (hs : ¬∀ c ∈ str.drop p, c = slash) :
    skipelem P cap path p = .ok (some (elemName P (nextElem str p).1, (nextElem str p).2)) := by
  have hlt := h.lt
  obtain ⟨c, rest, hcr, -⟩ := drop_skipSlashes hs
  obtain ⟨p₁, hp₁⟩ : ∃ p₁, p₁ = skipSlashes str p := ⟨_, rfl⟩
  rw [← hp₁] at hcr
  have hp₁len : p₁ < str.length := by
    have := congrArg List.length hcr
    rw [List.length_drop, List.length_cons] at this
    omega
  have hget : str.getD p₁ 0 = c := by
    rw [List.getD_eq_getElem?_getD, ← List.head?_drop, hcr]
    rfl
  have hc0 : c ≠ 0 := fun h0 => h.nul (h0 ▸ List.mem_of_mem_drop (hcr ▸ List.mem_cons_self c rest))
  obtain ⟨run, hrun⟩ : ∃ run, run = (str.drop p₁).takeWhile (fun c => c ≠ slash ∧ c ≠ 0) :=
    ⟨_, rfl⟩
  have hq₁len : p₁ + run.length ≤ str.length := hrun ▸ add_length_takeWhile_le _ hp₁len.le
  unfold skipelem
  rw [bind_of_eq_ok (h.skipWhile_eq (by decide) (cap + 1) hp (by omega)), ← skipSlashes, ← hp₁,
    bind_of_eq_ok (h.read_eq hp₁len.le), hget, if_neg hc0,
    bind_of_eq_ok (h.skipWhile_eq (by decide) (cap + 1) hp₁len.le (by omega)), ← hrun,
    bind_of_eq_ok (h.mapM_read _ (by omega)), Nat.add_sub_cancel_left, hrun,
    take_length_takeWhile, ← hrun,
    bind_of_eq_ok (h.skipWhile_eq (by decide) (cap + 1) hq₁len (by omega)), ← skipSlashes]
  subst hp₁ hrun
  rfl

/-- `skipelem`, applied until it finds no element, cuts off the elements of the rest of the
string, each copied into its name. -/
theorem Buf.Holds.pathElems_eq :
    ∀ (fuel : Nat) {p : Nat}, p ≤ str.length → str.length < p + fuel →
      pathElems P cap path fuel p = .ok ((pathRuns (str.drop p)).map (elemName P))
  | 0, _, _, hf => absurd hf (by omega)
  | fuel + 1, p, hp, hf => by
    rw [pathElems]
    by_cases hs : ∀ c ∈ str.drop p, c = slash
    · rw [bind_of_eq_ok (h.skipelem_eq_none hp hs), ← pathRuns_dropWhile,
        List.dropWhile_eq_nil_iff.mpr (by simpa using hs)]
      rfl
    · obtain ⟨hpq, hq, -, hruns⟩ := nextElem_spec h.nul hp hs
      rw [bind_of_eq_ok (h.skipelem_eq_some hp hs), hruns]
      dsimp only
      rw [bind_of_eq_ok (Buf.Holds.pathElems_eq fuel hq (by omega))]
      rfl

/-- `skipelem` reads a C string only up to its NUL: on two arrays holding the same string it
returns the same. -/
theorem Buf.Holds.skipelem_congr {path' : Buf} (h' : path'.Holds cap str) {p : Nat}
    (hp : p ≤ str.length) : skipelem P cap path' p = skipelem P cap path p := by
  by_cases hs : ∀ c ∈ str.drop p, c = slash
  · rw [h.skipelem_eq_none hp hs, h'.skipelem_eq_none hp hs]
  · rw [h.skipelem_eq_some hp hs, h'.skipelem_eq_some hp hs]

theorem Buf.Holds.namexLoop_congr {path' : Buf} (h' : path'.Holds cap str) (parent : Bool) :
    ∀ (fuel : Nat) (s : State) (ip : Nat) {p : Nat}, p ≤ str.length →
      namexLoop P cap path' parent fuel s ip p = namexLoop P cap path parent fuel s ip p
  | 0, _, _, _, _ => rfl
  | fuel + 1, s, ip, p, hp => by
    rw [namexLoop, namexLoop, h.skipelem_congr h' hp]
    by_cases hs : ∀ c ∈ str.drop p, c = slash
    · rw [bind_of_eq_ok (h.skipelem_eq_none hp hs), bind_of_eq_ok (h.skipelem_eq_none hp hs)]
    · have he := h.skipelem_eq_some (P := P) hp hs
      have hq := (nextElem_spec h.nul hp hs).2.1
      have ih := fun s ip => Buf.Holds.namexLoop_congr h' parent fuel s ip hq
      rw [bind_of_eq_ok he, bind_of_eq_ok he]
      simp only [h.read_eq hq, h'.read_eq hq, ih]

/-- `namei` reads its path only up to the NUL: two arrays holding the same C string name the
same inode, from any state. -/
theorem Buf.Holds.namei_congr {path' : Buf} (h' : path'.Holds cap str) (s : State)
    (proc : Proc) : namei P s proc cap path' = namei P s proc cap path := by
  have hloop := fun fuel s ip => h.namexLoop_congr (P := P) h' false fuel s ip (Nat.zero_le _)
  simp only [namei, namex, h.read_eq (Nat.zero_le _), h'.read_eq (Nat.zero_le _), hloop]

end Holds

/-- A string `readStr` reads has no NUL. -/
theorem Buf.zero_not_mem_readStr {cap : Nat} {buf : Buf} :
    ∀ {lim o : Nat} {c : List UInt8}, buf.readStr cap o lim = .ok c → 0 ∉ c
  | 0, _, _, h => by cases h; exact List.not_mem_nil _
  | lim + 1, o, c, h => by
    rw [Buf.readStr] at h
    obtain ⟨b, -, h⟩ := bind_eq_ok h
    split at h
    · cases h; exact List.not_mem_nil _
    · obtain ⟨rest, hrest, h⟩ := bind_eq_ok h
      cases h
      exact List.not_mem_cons_of_ne_of_not_mem (Ne.symm ‹_›) (Buf.zero_not_mem_readStr hrest)

/-- `readStr` stops by a NUL the array holds within its limit, and the array holds the bytes it
read from where it started, and then a NUL. -/
theorem Buf.readStr_getD {cap : Nat} {buf : Buf} :
    ∀ {lim o k : Nat} {c : List UInt8}, buf.readStr cap o lim = .ok c → k ≤ lim →
      buf (o + k) = some 0 → c.length ≤ k ∧ ∀ i ≤ c.length, buf (o + i) = some (c.getD i 0)
  | 0, o, k, c, h, hk, h0 => by
    cases h
    obtain rfl : k = 0 := by omega
    refine ⟨le_rfl, fun i hi => ?_⟩
    obtain rfl : i = 0 := by simpa using hi
    simpa using h0
  | lim + 1, o, k, c, h, hk, h0 => by
    rw [Buf.readStr] at h
    obtain ⟨b, hb, h⟩ := bind_eq_ok h
    have hbo := Buf.some_of_read hb
    split at h
    · cases h
      refine ⟨Nat.zero_le _, fun i hi => ?_⟩
      obtain rfl : i = 0 := by simpa using hi
      simpa [‹b = 0›] using hbo
    · obtain ⟨rest, hrest, h⟩ := bind_eq_ok h
      cases h
      have hk0 : k ≠ 0 := by
        rintro rfl
        rw [Nat.add_zero, hbo] at h0
        exact ‹¬b = 0› (Option.some.inj h0)
      obtain ⟨hlen, hget⟩ := Buf.readStr_getD hrest (k := k - 1) (by omega)
        (by rw [show o + 1 + (k - 1) = o + k by omega]; exact h0)
      refine ⟨by simp only [List.length_cons]; omega, fun i hi => ?_⟩
      cases i with
      | zero => simpa only [Nat.add_zero, List.getD_cons_zero] using hbo
      | succ i =>
        rw [show o + (i + 1) = o + 1 + i by omega, hget i (by simpa using hi)]
        rfl

/-- An array whose first NUL `readStr` meets within its limit holds the string it read. -/
theorem Buf.holds_of_readStr {cap lim k : Nat} {buf : Buf} {c : List UInt8}
    (h : buf.readStr cap 0 lim = .ok c) (hk : k ≤ lim) (hkc : k < cap) (h0 : buf k = some 0) :
    buf.Holds cap c :=
  have hr := Buf.readStr_getD h hk (by rwa [Nat.zero_add])
  ⟨by omega, Buf.zero_not_mem_readStr h, fun i hi => by simpa using hr.2 i hi⟩

/-- Writing a string and then a NUL at the start of an array leaves the array holding the
string. -/
theorem Buf.holds_write {cap : Nat} {buf b : Buf} {c rest : List UInt8}
    (h : buf.write cap 0 (c ++ 0 :: rest) = .ok b) (hc : 0 ∉ c) : b.Holds cap c := by
  unfold Buf.write at h
  split at h
  · cases h
    have hlen : c.length < cap := by
      simp only [Nat.zero_add, List.length_append, List.length_cons] at *; omega
    refine ⟨hlen, hc, fun i hi => ?_⟩
    have hi' : i < 0 + (c ++ 0 :: rest).length := by simp; omega
    rw [if_pos ⟨Nat.zero_le _, hi'⟩, Nat.sub_zero, List.getD_eq_getElem?_getD]
    rcases Nat.lt_or_eq_of_le hi with hi | rfl
    · rw [List.getElem?_append_left hi, List.getElem?_eq_getElem hi]
      rfl
    · rw [List.getElem?_append_right le_rfl, List.getElem?_eq_none le_rfl, Nat.sub_self,
        List.getElem?_cons_zero]
      rfl
  · cases h

/-- A NUL written into an array is inside it, and read back. -/
theorem Buf.write_nul {cap o : Nat} {buf b : Buf} (h : buf.write cap o [0] = .ok b) :
    o < cap ∧ b o = some 0 := by
  unfold Buf.write at h
  split at h
  · cases h
    exact ⟨by simp only [List.length_singleton] at *; omega, by simp⟩
  · cases h

/-- Whether a write fits depends only on where it goes and how long it is. -/
theorem Buf.write_other {cap o : Nat} {buf b : Buf} {bs : List UInt8}
    (h : buf.write cap o bs = .ok b) (buf₂ : Buf) : ∃ b₂, buf₂.write cap o bs = .ok b₂ := by
  unfold Buf.write at h ⊢
  split at h
  · exact ⟨_, if_pos ‹_›⟩
  · cases h

/-- `safestrcpy` of the string at the start of an array to the start of another leaves it
holding that string. -/
theorem copyStr_holds {dcap scap n : Nat} {dst src b : Buf} {c : List UInt8} (hn : 0 < n)
    (hc : src.readStr scap 0 (n - 1) = .ok c) (h : copyStr dcap dst 0 scap src 0 n = .ok b) :
    b.Holds dcap c := by
  rw [copyStr, bind_of_eq_ok hc, safestrcpy, if_neg (by omega)] at h
  split at h
  · exact Buf.holds_write h (Buf.zero_not_mem_readStr hc)
  · exact Buf.holds_write h (Buf.zero_not_mem_readStr hc)

/-- Whether a copy fits depends only on the string copied, not on the array copied to. -/
theorem copyStr_other {dcap scap o so n : Nat} {dst src b : Buf}
    (h : copyStr dcap dst o scap src so n = .ok b) (dst₂ : Buf) :
    ∃ b₂, copyStr dcap dst₂ o scap src so n = .ok b₂ := by
  obtain ⟨c, hc, hw⟩ := bind_eq_ok h
  obtain ⟨b₂, hw₂⟩ := Buf.write_other hw dst₂
  exact ⟨b₂, by rw [copyStr, bind_of_eq_ok hc, hw₂]⟩

/-- An array holds one C string at most. -/
theorem Buf.Holds.unique {cap : Nat} {buf : Buf} {c d : List UInt8} (hc : buf.Holds cap c)
    (hd : buf.Holds cap d) : c = d := by
  have key : ∀ {c d : List UInt8}, buf.Holds cap c → buf.Holds cap d → c.length ≤ d.length →
      c = d := by
    intro c d hc hd hle
    have hget : ∀ i ≤ c.length, c.getD i 0 = d.getD i 0 := fun i hi =>
      Option.some.inj ((hc.bytes i hi).symm.trans (hd.bytes i (by omega)))
    have hlen : c.length = d.length := by
      refine le_antisymm hle (Nat.le_of_not_lt fun hlt => hd.nul ?_)
      have := hget c.length le_rfl
      rw [List.getD_eq_getElem?_getD, List.getElem?_eq_none le_rfl, List.getD_eq_getElem?_getD,
        List.getElem?_eq_getElem hlt, Option.getD_none, Option.getD_some] at this
      rw [this]
      exact List.getElem_mem hlt
    refine List.ext_getElem hlen fun i h1 h2 => ?_
    have := hget i h1.le
    rwa [List.getD_eq_getElem?_getD, List.getElem?_eq_getElem h1, List.getD_eq_getElem?_getD,
      List.getElem?_eq_getElem h2] at this
  rcases le_total c.length d.length with hle | hle
  exacts [key hc hd hle, (key hd hc hle).symm]

/-- Path parsing. In an array holding a C string, `skipelem` applied from the start until it
finds no element cuts off, in order, the maximal nonempty runs of bytes other than `'/'`, each
copied into its name. From any index of the string it finds no element exactly when only
slashes are left; otherwise it moves on to a later index of the string, not at a slash. -/
theorem path_parsing {cap : Nat} {path : Buf} {str : List UInt8} (h : path.Holds cap str) :
    pathElems P cap path (cap + 1) 0 = .ok ((pathRuns str).map (elemName P)) ∧
    ∀ p ≤ str.length,
      ((∀ c ∈ str.drop p, c = slash) → skipelem P cap path p = .ok none) ∧
      ((¬∀ c ∈ str.drop p, c = slash) → ∃ name q,
        skipelem P cap path p = .ok (some (name, q)) ∧ p < q ∧ q ≤ str.length ∧
          (str.drop q).head? ≠ some slash) :=
  ⟨h.pathElems_eq (cap + 1) (Nat.zero_le _) (by have := h.lt; omega),
    fun _ hp => ⟨h.skipelem_eq_none hp, fun hs =>
      let ⟨hpq, hq, hhd, _⟩ := nextElem_spec h.nul hp hs
      ⟨_, _, h.skipelem_eq_some hp hs, hpq, hq, hhd⟩⟩⟩

theorem path_parsing_ofStr :
    (Buf.ofStr 8 (bytesOf "/a//bc/")).Holds 8 (bytesOf "/a//bc/") ∧
    pathElems Params.sample 8 (Buf.ofStr 8 (bytesOf "/a//bc/")) 9 0 =
      .ok ((pathRuns (bytesOf "/a//bc/")).map (elemName Params.sample)) ∧
    ∀ p ≤ (bytesOf "/a//bc/").length,
      ((∀ c ∈ (bytesOf "/a//bc/").drop p, c = slash) →
        skipelem Params.sample 8 (Buf.ofStr 8 (bytesOf "/a//bc/")) p = .ok none) ∧
      ((¬∀ c ∈ (bytesOf "/a//bc/").drop p, c = slash) → ∃ name q,
        skipelem Params.sample 8 (Buf.ofStr 8 (bytesOf "/a//bc/")) p = .ok (some (name, q)) ∧
          p < q ∧ q ≤ (bytesOf "/a//bc/").length ∧
          ((bytesOf "/a//bc/").drop q).head? ≠ some slash) :=
  ⟨Buf.holds_ofStr (by decide) (by decide),
    path_parsing (Buf.holds_ofStr (by decide) (by decide))⟩

end Xv6Fs
