import Xv6Fs.ReadlinkSpec
import Xv6Fs.PathParse

/-!
# Runs of the canonicalization walk

A call of `filereadlink` or `filereadlinki` ends. Its restarts are counted by `loops_left`, the
argument `walkLoop` recurses on. Within a pass, each element the walk goes on from moves the
pointer into `origpath` forward, and the pointer stays inside the array (`walkStep_next`), so a
pass takes at most `MAXPATH` elements and its `MAXPATH + 1` turns of fuel are never used up. The
same holds of the loop of `namex` over the elements of a path, of the scans of `skipelem`, of
the loop of `dirlookup` over the records of a directory, whose size `readi` keeps, and of the
loop of `readi` that reads a symlink's target: more fuel changes none of them
(`canonicalization_terminates`).

`filereadlinki` is `filereadlink` but at the last element of the pass that returns, which it
copies out of `result` where `filereadlink` resolves it once more with `namei`. A run of the one
is followed step by step by a run of the other from the same point, with any caller's array
(`Follows`): a step that goes on or restarts is the same step, and a count returned with a
string comes from that last element. When the string names, in the state `filereadlinki`
leaves, an inode that is no symlink, `filereadlink` returns the same count with the same string
(`canonicalizers_agree`). `namei` may fail to name it even when the tree has it: on a full inode
cache `filereadlink` of `"/x"` panics where `filereadlinki` returns `"/x"`
(`filereadlink_full_cache`).
-/

namespace Xv6Fs

variable {P : Params}

/-- From inside the array, more fuel than bytes left changes no scan. -/
theorem skipWhile_fuel_stable {cap : Nat} {buf : Buf} {keep : UInt8 → Bool} :
    ∀ {fuel p : Nat} (extra : Nat), p ≤ cap → cap < p + fuel →
      skipWhile cap buf keep (fuel + extra) p = skipWhile cap buf keep fuel p
  | 0, _, _, hp, hf => absurd hf (by omega)
  | fuel + 1, p, extra, hp, hf => by
    rw [Nat.add_right_comm, skipWhile, skipWhile]
    cases hc : buf.read cap p with
    | error e => rfl
    | ok c =>
      have hlt := Buf.read_lt hc
      have ih : skipWhile cap buf keep (fuel + extra) (p + 1) =
          skipWhile cap buf keep fuel (p + 1) := skipWhile_fuel_stable extra (by omega) (by omega)
      simp only [bind, Except.bind, ih]

/-- A scan of `skipelem` never runs out of fuel: from any index, more changes nothing. -/
theorem skipWhile_cap_stable {cap : Nat} {buf : Buf} {keep : UInt8 → Bool} (p extra : Nat) :
    skipWhile cap buf keep (cap + 1 + extra) p = skipWhile cap buf keep (cap + 1) p := by
  by_cases hp : p ≤ cap
  · exact skipWhile_fuel_stable extra hp (by omega)
  · have hr : buf.read cap p = .error .undefined := by rw [Buf.read, if_neg (by omega)]
    rw [Nat.add_right_comm, skipWhile, skipWhile, hr]
    rfl

/-- From inside the path, the loop of `namex` never runs out of fuel: each element moves it
forward. -/
theorem namexLoop_fuel_stable {cap : Nat} {path : Buf} {parent : Bool} :
    ∀ {fuel p : Nat} (extra : Nat) (s : State) (ip : Nat), p ≤ cap → cap < p + fuel →
      namexLoop P cap path parent (fuel + extra) s ip p = namexLoop P cap path parent fuel s ip p
  | 0, _, _, _, _, hp, hf => absurd hf (by omega)
  | fuel + 1, p, extra, s, ip, hp, hf => by
    rw [Nat.add_right_comm, namexLoop, namexLoop]
    cases he : skipelem P cap path p with
    | error e => rfl
    | ok e =>
      rcases e with _ | ⟨name, q⟩
      · rfl
      · have hq := skipelem_some hp he
        have ih : ∀ s ip, namexLoop P cap path parent (fuel + extra) s ip q =
            namexLoop P cap path parent fuel s ip q :=
          fun s ip => namexLoop_fuel_stable extra s ip hq.2.le (by omega)
        simp only [bind, Except.bind, ih]

/-- An element before the last ends its step in one of three ways: a file or device returns `-1`,
a directory goes on at the same index of `origpath`, and a symlink restarts. The caller's array
only enters the `-1`. -/
theorem walkInner_cases {s s' : State} {ip : Nat} {buf origpath result : Buf}
    {resultOff len p : Nat} {w : Walk}
    (h : walkInner P s ip buf origpath result resultOff len p = .ok (w, s')) (buf₂ : Buf) :
    (w = .ret (-1) buf ∧
      walkInner P s ip buf₂ origpath result resultOff len p = .ok (.ret (-1) buf₂, s')) ∨
    ((∃ r, w = .next r (resultOff + 1) p) ∨ ∃ o r, w = .restart o r) ∧
      walkInner P s ip buf₂ origpath result resultOff len p = .ok (w, s') := by
  unfold walkInner at h ⊢
  revert h
  cases (s.icache ip).type <;> intro h
  case free => cases h
  case file | dev => cases h; exact .inl ⟨rfl, rfl⟩
  case dir =>
    refine .inr ⟨.inl ?_, h⟩
    obtain ⟨r1, -, h⟩ := bind_eq_ok h
    obtain ⟨r2, -, h⟩ := bind_eq_ok h
    obtain ⟨s1, -, h⟩ := bind_eq_ok h
    cases h
    exact ⟨_, rfl⟩
  case symlink =>
    refine .inr ⟨.inr ?_, h⟩
    obtain ⟨⟨⟨l, bytes⟩, s1⟩, -, h⟩ := bind_eq_ok h
    obtain ⟨r1, -, h⟩ := bind_eq_ok h
    obtain ⟨s2, -, h⟩ := bind_eq_ok h
    split at h
    · cases h
    obtain ⟨r2, -, h⟩ := bind_eq_ok h
    obtain ⟨r3, -, h⟩ := bind_eq_ok h
    obtain ⟨c, -, h⟩ := bind_eq_ok h
    dsimp only at h
    split at h <;>
    · obtain ⟨o, -, h⟩ := bind_eq_ok h
      cases h
      exact ⟨_, _, rfl⟩

/-- The last element, in `filereadlink`, returns or restarts. -/
theorem walkLastTarget_cases {s s' : State} {ip : Nat} {bufsiz : Int} {buf origpath result : Buf}
    {resultOff len : Nat} {w : Walk}
    (h : walkLastTarget P s ip bufsiz buf origpath result resultOff len = .ok (w, s')) :
    (∃ n b, w = .ret n b) ∨ ∃ o r, w = .restart o r := by
  unfold walkLastTarget at h
  revert h
  cases (s.icache ip).type <;> intro h
  case free => cases h
  case file | dev | dir =>
    obtain ⟨s1, -, h⟩ := bind_eq_ok h
    split at h
    · cases h; exact .inl ⟨_, _, rfl⟩
    · obtain ⟨b, -, h⟩ := bind_eq_ok h
      cases h
      exact .inl ⟨_, _, rfl⟩
  case symlink =>
    obtain ⟨⟨⟨l, bytes⟩, s1⟩, -, h⟩ := bind_eq_ok h
    obtain ⟨o1, -, h⟩ := bind_eq_ok h
    obtain ⟨s2, -, h⟩ := bind_eq_ok h
    split at h
    · cases h
    obtain ⟨o2, -, h⟩ := bind_eq_ok h
    obtain ⟨c, -, h⟩ := bind_eq_ok h
    split at h
    · obtain ⟨r1, -, h⟩ := bind_eq_ok h
      obtain ⟨o3, -, h⟩ := bind_eq_ok h
      cases h
      exact .inr ⟨_, _, rfl⟩
    · cases h
      exact .inr ⟨_, _, rfl⟩

/-- A step of a pass that goes on moves the pointer into `origpath` forward, and inside the
array. -/
theorem walkStep_next {resolveFinal : Bool} {s s' : State} {proc : Proc} {bufsiz : Int}
    {buf origpath result result' : Buf} {resultOff resultOff' p q : Nat} (hp : p ≤ P.MAXPATH)
    (h : walkStep P resolveFinal s proc bufsiz buf origpath result resultOff p =
      .ok (.next result' resultOff' q, s')) : p < q ∧ q < P.MAXPATH := by
  unfold walkStep at h
  obtain ⟨e, he, h⟩ := bind_eq_ok h
  rcases e with _ | ⟨name, q'⟩
  · cases h
  suffices q = q' from this ▸ skipelem_some hp he
  obtain ⟨c, -, h⟩ := bind_eq_ok h
  obtain ⟨len, -, h⟩ := bind_eq_ok h
  obtain ⟨r1, -, h⟩ := bind_eq_ok h
  obtain ⟨r2, -, h⟩ := bind_eq_ok h
  split at h
  · -- the last element never goes on
    split at h
    · obtain ⟨⟨ip, s1⟩, -, h⟩ := bind_eq_ok h
      rcases ip with _ | ip
      · cases h
      obtain ⟨s2, -, h⟩ := bind_eq_ok h
      rcases walkLastTarget_cases h with ⟨n, b, hw⟩ | ⟨o, r, hw⟩ <;> cases hw
    · split at h
      · cases h
      · obtain ⟨b, -, h⟩ := bind_eq_ok h
        cases h
  · obtain ⟨⟨ip, s1⟩, -, h⟩ := bind_eq_ok h
    rcases ip with _ | ip
    · cases h
    obtain ⟨s2, -, h⟩ := bind_eq_ok h
    rcases walkInner_cases h buf with ⟨hw, -⟩ | ⟨⟨r, hw⟩ | ⟨o, r, hw⟩, -⟩ <;> cases hw
    rfl

/-- From inside `origpath`, a pass never runs out of fuel: each element moves it forward. -/
theorem walkPass_fuel_stable {resolveFinal : Bool} {proc : Proc} {bufsiz : Int}
    {buf origpath : Buf} :
    ∀ {fuel p : Nat} (extra : Nat) (s : State) (result : Buf) (resultOff : Nat),
      p ≤ P.MAXPATH → P.MAXPATH < p + fuel →
      walkPass P resolveFinal proc bufsiz buf origpath (fuel + extra) s result resultOff p =
        walkPass P resolveFinal proc bufsiz buf origpath fuel s result resultOff p
  | 0, _, _, _, _, _, hp, hf => absurd hf (by omega)
  | fuel + 1, p, extra, s, result, resultOff, hp, hf => by
    rw [Nat.add_right_comm, walkPass, walkPass]
    cases hw : walkStep P resolveFinal s proc bufsiz buf origpath result resultOff p with
    | error e => rfl
    | ok r =>
      obtain ⟨w, s'⟩ := r
      cases w with
      | next result' resultOff' q =>
        have hq := walkStep_next hp hw
        exact walkPass_fuel_stable extra s' result' resultOff' hq.2.le (by omega)
      | ret n b => rfl
      | restart o r => rfl

/-- Canonicalization ends. Each element a pass goes on from moves the pointer into `origpath`
forward, inside the array, so the `MAXPATH + 1` turns a pass is given are never used up: more
fuel changes no pass, from any state and with any `origpath`. The same holds of the loop of
`namex` over the elements of a path, of every scan of `skipelem`, of the loop of `dirlookup`
over the records of a directory, and of the loop of `readi`, which reads the target of a
symlink. The restarts are counted by `loops_left`, the argument
`walkLoop` recurses on, so a call makes `MAX_SYMLINK_LOOPS` passes at most. -/
theorem canonicalization_terminates :
    (∀ (resolveFinal : Bool) (s : State) (proc : Proc) (bufsiz : Int) (buf origpath result : Buf)
      (resultOff p : Nat) (result' : Buf) (resultOff' q : Nat) (s' : State), p ≤ P.MAXPATH →
      walkStep P resolveFinal s proc bufsiz buf origpath result resultOff p =
        .ok (.next result' resultOff' q, s') → p < q ∧ q < P.MAXPATH) ∧
    (∀ (resolveFinal : Bool) (proc : Proc) (bufsiz : Int) (buf origpath : Buf) (s : State)
      (result : Buf) (resultOff extra : Nat),
      walkPass P resolveFinal proc bufsiz buf origpath (P.MAXPATH + 1 + extra) s result
        resultOff 0 =
      walkPass P resolveFinal proc bufsiz buf origpath (P.MAXPATH + 1) s result resultOff 0) ∧
    (∀ (cap : Nat) (path : Buf) (parent : Bool) (s : State) (ip extra : Nat),
      namexLoop P cap path parent (cap + 1 + extra) s ip 0 =
        namexLoop P cap path parent (cap + 1) s ip 0) ∧
    (∀ (dp : Nat) (name : List UInt8) (s : State) (extra : Nat),
      dirlookupLoop P dp name ((s.icache dp).size + 1 + extra) s 0 =
        dirlookupLoop P dp name ((s.icache dp).size + 1) s 0) ∧
    (∀ (cap : Nat) (buf : Buf) (keep : UInt8 → Bool) (p extra : Nat),
      skipWhile cap buf keep (cap + 1 + extra) p = skipWhile cap buf keep (cap + 1) p) ∧
    (∀ (ip : Nat) (s : State) (off n extra : Nat),
      readiLoop P ip (n + extra) s off n = readiLoop P ip n s off n) :=
  ⟨fun _ _ _ _ _ _ _ _ _ _ _ _ _ hp h => walkStep_next hp h,
    fun _ _ _ _ _ _ _ _ extra => walkPass_fuel_stable extra _ _ _ (Nat.zero_le _) (by omega),
    fun _ _ _ _ _ extra => namexLoop_fuel_stable extra _ _ (Nat.zero_le _) (by omega),
    fun dp name s extra => dirlookupLoop_fuel_stable dp name extra s 0 (by omega),
    fun _ _ _ p extra => skipWhile_cap_stable p extra,
    fun _ s off _ extra => readiLoop_fuel_stable extra s off le_rfl⟩

/-- `ilock` leaves an entry that `iunlock` unlocks. -/
theorem iunlock_of_ilock {s s' : State} {ip : Nat} (h : ilock s ip = .ok s') :
    ∃ s'', iunlock s' ip = .ok s'' := by
  unfold ilock at h
  split at h
  · cases h
  split at h
  · cases h
  simp only [State.setInode_icache, Function.update_same] at h
  split at h
  · cases h
    exact ⟨_, if_neg (by simp; omega)⟩
  · split at h
    · cases h
    · cases h
      exact ⟨_, if_neg (by simp; omega)⟩

/-- The last element of a file, device or directory, in `filereadlink`: the inode is unlocked,
and `result` copied out as `filereadlinki` copies it. -/
theorem walkLastTarget_copy {s s₁ : State} {ip : Nat} {bufsiz : Int}
    {buf origpath result b : Buf} {resultOff len : Nat} (ht : (s.icache ip).type ≠ .symlink)
    (hf : (s.icache ip).type ≠ .free) (hu : iunlock s ip = .ok s₁)
    (hb : ¬bufsiz < resultOff + 1)
    (hc : copyStr bufsiz.toNat buf 0 P.MAXPATH result 0 P.MAXPATH = .ok b) :
    walkLastTarget P s ip bufsiz buf origpath result resultOff len =
      .ok (.ret resultOff b, s₁) := by
  unfold walkLastTarget
  revert ht hf
  cases (s.icache ip).type <;> intro ht hf
  case free => exact absurd rfl hf
  case symlink => exact absurd rfl ht
  all_goals
    dsimp only
    rw [bind_of_eq_ok hu, if_neg hb, bind_of_eq_ok hc]
    rfl

variable (P) in
/-- What a run `run₂` of `filereadlink`, with any caller's array, does after the end `w`, `s'` of
a run of `filereadlinki` from the same point. Where the one goes on or restarts, the other does
the same. A count `n ≥ 0` returned with the array `b` is returned the same way, or comes from
the last element: `result` then holds a C string that `b` holds too, and when `namei` of
`result` names, from `s'`, an inode that locks and is no symlink, the other run returns `n`
with an array holding that string. -/
structure Follows (proc : Proc) (bufsiz : Int) (run₂ : Except Fault (Walk × State)) (w : Walk)
    (s' : State) : Prop where
  next : ∀ r o q, w = .next r o q → run₂ = .ok (w, s')
  restart : ∀ o r, w = .restart o r → run₂ = .ok (w, s')
  ret : ∀ n b, w = .ret n b → 0 ≤ n → run₂ = .ok (w, s') ∨
    ∃ result c, result.Holds P.MAXPATH c ∧ b.Holds bufsiz.toNat c ∧
      ∀ ip s₁ s₂, namei P s' proc P.MAXPATH result = .ok (some ip, s₁) → ilock s₁ ip = .ok s₂ →
        (s₂.icache ip).type ≠ .symlink → (s₂.icache ip).type ≠ .free →
        ∃ b₂ s₃, run₂ = .ok (.ret n b₂, s₃) ∧ b₂.Holds bufsiz.toNat c

namespace Follows

variable {proc : Proc} {bufsiz : Int} {run₂ : Except Fault (Walk × State)} {w : Walk}
  {s' : State}

/-- A run that ends where the other does follows it. -/
theorem of_eq (h : run₂ = .ok (w, s')) : Follows P proc bufsiz run₂ w s' :=
  ⟨fun _ _ _ _ => h, fun _ _ _ => h, fun _ _ _ _ => .inl h⟩

/-- Every run follows one that fails with `-1`. -/
theorem of_fail {b : Buf} (h : w = .ret (-1) b) : Follows P proc bufsiz run₂ w s' := by
  subst h
  exact ⟨nofun, nofun, fun _ _ hw hn => by cases hw; exact absurd hn (by decide)⟩

/-- A continuation that passes every end but `next` on keeps a run following. -/
theorem bind (F : Follows P proc bufsiz run₂ w s') (hw : ∀ r o q, w ≠ .next r o q)
    {k : Walk × State → Except Fault (Walk × State)}
    (hk : ∀ w s, (∀ r o q, w ≠ .next r o q) → k (w, s) = .ok (w, s)) :
    Follows P proc bufsiz (run₂ >>= k) w s' := by
  refine ⟨fun r o q h => absurd h (hw r o q), fun o r h => ?_, fun n b h hn => ?_⟩
  · rw [bind_of_eq_ok (F.restart o r h), hk _ _ hw]
  · rcases F.ret n b h hn with h₂ | ⟨result, c, hr, hb, hres⟩
    · exact .inl (by rw [bind_of_eq_ok h₂, hk _ _ hw])
    · refine .inr ⟨result, c, hr, hb, fun ip s₁ s₂ hn hl ht hf => ?_⟩
      obtain ⟨b₂, s₃, h₂, hb₂⟩ := hres ip s₁ s₂ hn hl ht hf
      exact ⟨b₂, s₃, by rw [bind_of_eq_ok h₂, hk _ _ fun _ _ _ h => by cases h], hb₂⟩

end Follows

/-- A step of `filereadlinki` is followed by the step of `filereadlink` from the same point, with
any caller's array: they differ only at the last element, which `filereadlinki` copies out and
`filereadlink` resolves. -/
theorem walkStep_follows {s s' : State} {proc : Proc} {bufsiz : Int}
    {buf origpath result : Buf} {resultOff p : Nat} {w : Walk}
    (h : walkStep P false s proc bufsiz buf origpath result resultOff p = .ok (w, s'))
    (buf₂ : Buf) :
    Follows P proc bufsiz (walkStep P true s proc bufsiz buf₂ origpath result resultOff p)
      w s' := by
  unfold walkStep at h ⊢
  obtain ⟨e, he, h⟩ := bind_eq_ok h
  rw [bind_of_eq_ok he]
  rcases e with _ | ⟨name, q⟩
  · cases h
    exact .of_fail rfl
  obtain ⟨c, hc, h⟩ := bind_eq_ok h
  obtain ⟨len, hlen, h⟩ := bind_eq_ok h
  obtain ⟨r1, hr1, h⟩ := bind_eq_ok h
  obtain ⟨r2, hr2, h⟩ := bind_eq_ok h
  dsimp only
  rw [bind_of_eq_ok hc, bind_of_eq_ok hlen, bind_of_eq_ok hr1, bind_of_eq_ok hr2]
  by_cases hc0 : c = 0
  · -- the last element: `filereadlinki` copies `result` out
    rw [if_pos hc0, if_neg Bool.false_ne_true] at h
    rw [if_pos hc0, if_pos rfl]
    split at h
    · cases h
      exact .of_fail rfl
    obtain ⟨b, hb, h⟩ := bind_eq_ok h
    cases h
    refine ⟨nofun, nofun, fun n b' hw _ => .inr ?_⟩
    cases hw
    obtain ⟨c', hc', -⟩ := bind_eq_ok hb
    obtain ⟨hoff, h0⟩ := Buf.write_nul hr2
    refine ⟨r2, c', Buf.holds_of_readStr hc' (k := resultOff + len) (by omega) hoff h0,
      copyStr_holds (by omega) hc' hb, fun ip s₁ s₂ hn hl ht hf => ?_⟩
    obtain ⟨s₃, hu⟩ := iunlock_of_ilock hl
    obtain ⟨b₂, hb₂⟩ := copyStr_other hb buf₂
    refine ⟨b₂, s₃, ?_, copyStr_holds (by omega) hc' hb₂⟩
    rw [bind_of_eq_ok hn]
    dsimp only
    rw [bind_of_eq_ok hl, walkLastTarget_copy ht hf hu ‹_› hb₂]
  · rw [if_neg hc0] at h ⊢
    obtain ⟨⟨ip, s1⟩, hn, h⟩ := bind_eq_ok h
    rw [bind_of_eq_ok hn]
    rcases ip with _ | ip
    · cases h
      exact .of_fail rfl
    obtain ⟨s2, hl, h⟩ := bind_eq_ok h
    dsimp only
    rw [bind_of_eq_ok hl]
    rcases walkInner_cases h buf₂ with ⟨hw, -⟩ | ⟨-, h₂⟩
    · exact .of_fail hw
    · exact .of_eq h₂

/-- A pass of `filereadlinki` is followed by the pass of `filereadlink` from the same point. -/
theorem walkPass_follows {proc : Proc} {bufsiz : Int} {buf origpath : Buf} (buf₂ : Buf) :
    ∀ {fuel : Nat} {s s' : State} {result : Buf} {resultOff p : Nat} {w : Walk},
      walkPass P false proc bufsiz buf origpath fuel s result resultOff p = .ok (w, s') →
      Follows P proc bufsiz
        (walkPass P true proc bufsiz buf₂ origpath fuel s result resultOff p) w s'
  | 0, _, _, _, _, _, _, h => by
    cases h
    exact .of_fail rfl
  | fuel + 1, s, s', result, resultOff, p, w, h => by
    rw [walkPass] at h ⊢
    obtain ⟨⟨w₁, s₁⟩, hstep, h⟩ := bind_eq_ok h
    have F := walkStep_follows hstep buf₂
    cases w₁ with
    | next r o q =>
      rw [bind_of_eq_ok (F.next r o q rfl)]
      exact walkPass_follows buf₂ h
    | _ =>
      cases h
      exact F.bind (fun _ _ _ h => by cases h) fun w s hw => by
        cases w
        exacts [absurd rfl (hw _ _ _), rfl, rfl]

/-- A pair bound from an `if` through the join point `do` makes of it is bound from the `if`:
`(result, resultOff) ← if … then … else …` of `walkLoop`. -/
theorem ite_bind_join {α β γ : Type} {c : Prop} [Decidable c] {x : Except Fault α}
    {f : α → β} {y : β} {k : β → Except Fault γ} :
    (if c then x >>= (fun a => pure (f a) >>= k) else pure y >>= k) =
      (if c then x >>= (fun a => pure (f a)) else pure y) >>= k := by
  split <;> simp [bind_assoc]

/-- A run of `filereadlinki` from `restart:` that returns a count `n ≥ 0` is followed by the run
of `filereadlink` from the same point: it returns the same, or it copied out the last element of
a pass, which `filereadlink` resolves. -/
theorem walkLoop_follows {proc : Proc} {bufsiz : Int} {buf : Buf} (buf₂ : Buf) :
    ∀ {loops : Nat} {s s' : State} {origpath result b : Buf} {n : Int},
      walkLoop P false proc bufsiz buf loops s origpath result = .ok ((n, b), s') → 0 ≤ n →
      walkLoop P true proc bufsiz buf₂ loops s origpath result = .ok ((n, b), s') ∨
      ∃ r c, r.Holds P.MAXPATH c ∧ b.Holds bufsiz.toNat c ∧
        ∀ ip s₁ s₂, namei P s' proc P.MAXPATH r = .ok (some ip, s₁) → ilock s₁ ip = .ok s₂ →
          (s₂.icache ip).type ≠ .symlink → (s₂.icache ip).type ≠ .free →
          ∃ b₂ s₃, walkLoop P true proc bufsiz buf₂ loops s origpath result =
            .ok ((n, b₂), s₃) ∧ b₂.Holds bufsiz.toNat c
  | 0, _, _, _, _, _, _, h, hn => by
    cases h
    exact absurd hn (by decide)
  | loops + 1, s, s', origpath, result, b, n, h, hn => by
    rw [walkLoop] at h ⊢
    obtain ⟨c, hc, h⟩ := bind_eq_ok h
    rw [ite_bind_join] at h
    obtain ⟨⟨r1, off⟩, hr1, h⟩ := bind_eq_ok h
    obtain ⟨r2, hr2, h⟩ := bind_eq_ok h
    obtain ⟨⟨w, s₁⟩, hpass, h⟩ := bind_eq_ok h
    rw [bind_of_eq_ok hc, ite_bind_join, bind_of_eq_ok hr1]
    dsimp only
    rw [bind_of_eq_ok hr2]
    have F := walkPass_follows buf₂ hpass
    cases w with
    | ret n' b' =>
      cases h
      rcases F.ret n b rfl hn with h₂ | ⟨r, c', hr, hb, hres⟩
      · exact .inl (by rw [bind_of_eq_ok h₂]; rfl)
      · refine .inr ⟨r, c', hr, hb, fun ip s₁ s₂ hnm hl ht hf => ?_⟩
        obtain ⟨b₂, s₃, h₂, hb₂⟩ := hres ip s₁ s₂ hnm hl ht hf
        exact ⟨b₂, s₃, by rw [bind_of_eq_ok h₂]; rfl, hb₂⟩
    | restart o r =>
      rw [bind_of_eq_ok (F.restart o r rfl)]
      dsimp only at h ⊢
      split at h
      · cases h
        exact absurd hn (by decide)
      · rw [if_neg ‹_›]
        exact walkLoop_follows buf₂ h hn
    | next _ _ _ =>
      cases h
      exact absurd hn (by decide)

/-- The two canonicalizers agree where `filereadlink` can name the answer. If `filereadlinki`
returns a count `n ≥ 0` with an array holding the string `q`, and `namei` of `q`, from the state
`filereadlinki` leaves, names an inode that locks and is no symlink, then `filereadlink`, with
any caller's array, returns the same count with an array holding the same string. -/
theorem canonicalizers_agree {s s' : State} {proc : Proc} {pathname q : List UInt8}
    {buf b : Buf} {bufsiz n : Int}
    (hi : filereadlinki P s proc pathname buf bufsiz = .ok ((n, b), s')) (hn : 0 ≤ n)
    (hq : b.Holds bufsiz.toNat q)
    (hname : ∃ ip s₁ s₂, namei P s' proc P.MAXPATH (Buf.ofStr P.MAXPATH q) = .ok (some ip, s₁) ∧
      ilock s₁ ip = .ok s₂ ∧ (s₂.icache ip).type ≠ .symlink ∧ (s₂.icache ip).type ≠ .free)
    (buf₂ : Buf) :
    ∃ b₂ s'', filereadlink P s proc pathname buf₂ bufsiz = .ok ((n, b₂), s'') ∧
      b₂.Holds bufsiz.toNat q := by
  unfold filereadlinki readlinkWalk at hi
  unfold filereadlink readlinkWalk
  split_ifs at hi ⊢
  · cases hi
    exact absurd hn (by decide)
  · -- the path `"/"` is answered apart, the same way by both
    obtain ⟨b', hw, hi⟩ := bind_eq_ok hi
    cases hi
    obtain ⟨b₂, hw₂⟩ := Buf.write_other hw buf₂
    have hb := Buf.holds_write
      (show buf.write bufsiz.toNat 0 ([slash] ++ 0 :: []) = .ok b from hw) (by decide)
    refine ⟨b₂, s, by rw [bind_of_eq_ok hw₂]; rfl, ?_⟩
    rw [← hb.unique hq]
    exact Buf.holds_write
      (show buf₂.write bufsiz.toNat 0 ([slash] ++ 0 :: []) = .ok b₂ from hw₂) (by decide)
  · rcases walkLoop_follows buf₂ hi hn with h₂ | ⟨r, c, hr, hb, hres⟩
    · exact ⟨b, s', h₂, hq⟩
    · obtain rfl := hb.unique hq
      obtain ⟨ip, s₁, s₂, hnm, hl, ht, hf⟩ := hname
      rw [hr.namei_congr (Buf.holds_ofStr hr.lt hr.nul)] at hnm
      exact hres ip s₁ s₂ hnm hl ht hf

theorem canonicalizers_agree_sampleFs :
    ∃ b, filereadlinki Params.sample sampleFs sampleProc (bytesOf "/x") Buf.empty 128 =
        .ok ((2, b), sampleFs) ∧ (0 : Int) ≤ 2 ∧ b.Holds 128 (bytesOf "/x") ∧
      (∃ ip s₁ s₂, namei Params.sample sampleFs sampleProc Params.sample.MAXPATH
          (Buf.ofStr Params.sample.MAXPATH (bytesOf "/x")) = .ok (some ip, s₁) ∧
        ilock s₁ ip = .ok s₂ ∧ (s₂.icache ip).type ≠ .symlink ∧ (s₂.icache ip).type ≠ .free) ∧
      ∃ b₂ s'', filereadlink Params.sample sampleFs sampleProc (bytesOf "/x") Buf.empty 128 =
        .ok ((2, b₂), s'') ∧ b₂.Holds 128 (bytesOf "/x") := by
  obtain ⟨b, hi, hb⟩ : ∃ b, filereadlinki Params.sample sampleFs sampleProc (bytesOf "/x")
      Buf.empty 128 = .ok ((2, b), sampleFs) ∧ b.Holds 128 (bytesOf "/x") := by
    refine ⟨_, rfl, by decide, by decide, fun i hi => ?_⟩
    obtain rfl | rfl | rfl : i = 0 ∨ i = 1 ∨ i = 2 := by
      have : i ≤ 2 := hi
      omega
    all_goals rfl
  obtain ⟨s₁, s₂, hn, hl, ht⟩ : ∃ s₁ s₂, namei Params.sample sampleFs sampleProc
      Params.sample.MAXPATH (Buf.ofStr Params.sample.MAXPATH (bytesOf "/x")) =
      .ok (some 1, s₁) ∧ ilock s₁ 1 = .ok s₂ ∧ (s₂.icache 1).type = .file :=
    ⟨_, _, rfl, rfl, rfl⟩
  have hname : ∃ ip s₁ s₂, namei Params.sample sampleFs sampleProc Params.sample.MAXPATH
      (Buf.ofStr Params.sample.MAXPATH (bytesOf "/x")) = .ok (some ip, s₁) ∧
      ilock s₁ ip = .ok s₂ ∧ (s₂.icache ip).type ≠ .symlink ∧ (s₂.icache ip).type ≠ .free :=
    ⟨1, s₁, s₂, hn, hl, by rw [ht]; decide, by rw [ht]; decide⟩
  exact ⟨b, hi, by decide, hb, hname, canonicalizers_agree hi (by decide) hb hname Buf.empty⟩

set_option maxRecDepth 2000 in
/-- On a full inode cache the two canonicalizers part. In `fullFs` the path `"/x"` names the
regular file `x`, inode 3, in the tree; `filereadlinki` copies it as it is and returns `2` with
`"/x"`, but `filereadlink` resolves its last element with `namei`, whose `iget` finds no free
cache entry, and the kernel panics. -/
theorem filereadlink_full_cache :
    (∃ b, filereadlinki Params.sample fullFs sampleProc (bytesOf "/x") Buf.empty 128 =
      .ok ((2, b), fullFs) ∧ b.Holds 128 (bytesOf "/x")) ∧
    fullFs.disk.walk Params.sample 1 [bytesOf "x" ++ [0]] = some 3 ∧
    (fullFs.disk.dinodes 3).type = .file ∧
    filereadlink Params.sample fullFs sampleProc (bytesOf "/x") Buf.empty 128 =
      .error (.panic "iget: no inodes") := by
  refine ⟨⟨_, rfl, by decide, by decide, fun i hi => ?_⟩, by decide, rfl, rfl⟩
  obtain rfl | rfl | rfl : i = 0 ∨ i = 1 ∨ i = 2 := by
    have : i ≤ 2 := hi
    omega
  all_goals rfl

end Xv6Fs
