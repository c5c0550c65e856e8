import Xv6Fs.State

/-!
# C strings and character arrays

The path and password routines keep strings in fixed-size `char` arrays and pass them as
`char *`. An array is a `Buf`: byte `i` if it was ever written. With the capacity of the array,
reading outside it, reading a byte never written, or writing past its end is undefined
behaviour, `Fault.undefined`.

A string passed in by a caller (a path, a password, a name) is the list of its bytes before the
terminating NUL, and reading it past that NUL reads zeros.

`strncmp`, `strncpy` and `safestrcpy` belong to the kernel's string library, which the sources
call but do not include.
-/

namespace Xv6Fs

/-- A `char` array: byte `i`, if it was written. -/
abbrev Buf := Nat → Option UInt8

namespace Buf

/-- An array nothing was written to. -/
def empty : Buf := fun _ => none

/-- The array holding the string `str`, its NUL, and zeros up to the end, as
`strncpy(buf, str, cap)` leaves it. -/
def ofStr (cap : Nat) (str : List UInt8) : Buf := fun i =>
  if i < cap then some (str.getD i 0) else none

/-- Read byte `i` of an array of `cap` bytes. -/
def read (cap : Nat) (buf : Buf) (i : Nat) : Except Fault UInt8 :=
  if i < cap then
    match buf i with
    | some b => .ok b
    | none => .error .undefined
  else .error .undefined

/-- Write `bs` at index `o` of an array of `cap` bytes. -/
def write (cap : Nat) (buf : Buf) (o : Nat) (bs : List UInt8) : Except Fault Buf :=
  if o + bs.length ≤ cap then
    .ok fun i => if o ≤ i ∧ i < o + bs.length then bs[i - o]? else buf i
  else .error .undefined

/-- The bytes of the string at index `o`, up to its NUL and at most `limit` of them. -/
def readStr (cap : Nat) (buf : Buf) (o : Nat) : (limit : Nat) → Except Fault (List UInt8)
  | 0 => .ok []
  | limit + 1 => do
    let b ← read cap buf o
    if b = 0 then pure []
    else do
      let rest ← readStr cap buf (o + 1) limit
      pure (b :: rest)

/-- The string at index `o`, as `strlen` reads it: a NUL must come before the end. -/
def str (cap : Nat) (buf : Buf) (o : Nat) : Except Fault (List UInt8) :=
  readStr cap buf o (cap + 1)

end Buf

/--
Modelled from the spec: `strncmp(p, q, n)` of the string library, comparing at most `n`
characters: `while(n > 0 && *p && *p == *q) n--, p++, q++;` then `0` if `n` ran out, else the
difference of the bytes where the loop stopped.
-/
def strncmp : List UInt8 → List UInt8 → Nat → Int
  | _, _, 0 => 0
  | p, q, n + 1 =>
    if p.headD 0 ≠ 0 ∧ p.headD 0 = q.headD 0 then strncmp p.tail q.tail n
    else (p.headD 0).toNat - (q.headD 0).toNat

/--
Modelled from the spec: the bytes `strncpy(s, t, n)` writes to `s`: the characters of `t` up to
its NUL and at most `n` of them, then NULs up to `n` bytes.
-/
def strncpy (t : List UInt8) (n : Nat) : List UInt8 :=
  let c := (t.takeWhile (· ≠ 0)).take n
  c ++ List.replicate (n - c.length) 0

/--
Modelled from the spec: the bytes `safestrcpy(s, t, n)` writes to `s`, given the characters `c`
it copies (those of `t` before its NUL, at most `n - 1` of them). Its loop
`while(--n > 0 && (*s++ = *t++) != 0);` stores the NUL of a short `t` and moves past it, and
`*s = 0;` then writes one more NUL.
-/
def safestrcpy (c : List UInt8) (n : Nat) : List UInt8 :=
  if n = 0 then []
  else if c.length + 1 < n then c ++ [0, 0]
  else c ++ [0]

/-- `safestrcpy(dst + o, src + so, n)` between two arrays. -/
def copyStr (dcap : Nat) (dst : Buf) (o : Nat) (scap : Nat) (src : Buf) (so n : Nat) :
    Except Fault Buf := do
  let c ← src.readStr scap so (n - 1)
  dst.write dcap o (safestrcpy c n)

/-- The bytes of an ASCII string, as a C string literal holds them before its NUL. -/
def bytesOf (str : String) : List UInt8 :=
  str.toList.map fun c => c.toNat.toUInt8

/-- `strlen(name)` of a name array as `skipelem` fills it: a name of `DIRSIZ` bytes or more is
copied without a NUL. -/
def nameLen (name : List UInt8) : Except Fault Nat :=
  if 0 ∈ name then .ok (name.takeWhile (· ≠ 0)).length else .error .undefined

@[simp]
theorem length_strncpy (t : List UInt8) (n : Nat) : (strncpy t n).length = n := by
  simp only [strncpy, List.length_append, List.length_replicate, List.length_take]
  omega

theorem strncpy_cons {a : UInt8} (ha : a ≠ 0) (t : List UInt8) (n : Nat) :
    strncpy (a :: t) (n + 1) = a :: strncpy t n := by
  simp [strncpy, List.takeWhile_cons, ha]

theorem strncpy_of_headD {t : List UInt8} (ht : t.headD 0 = 0) (n : Nat) :
    strncpy t n = List.replicate n 0 := by
  cases t with
  | nil => simp [strncpy]
  | cons a t => simp_all [strncpy, List.takeWhile_cons]

/-- Comparing with what `strncpy` stored compares with the string itself: both agree up to
the first NUL or the `n`-th character, and `strncmp` looks no further. -/
theorem strncmp_strncpy (p t : List UInt8) (n : Nat) :
    strncmp p (strncpy t n) n = strncmp p t n := by
  induction n generalizing p t with
  | zero => rfl
  | succ n ih =>
    by_cases ht : t.headD 0 = 0
    · rw [strncpy_of_headD ht, strncmp, strncmp, ht,
        show (List.replicate (n + 1) (0 : UInt8)).headD 0 = 0 from rfl,
        if_neg (fun h => h.1 h.2), if_neg (fun h => h.1 h.2)]
    · obtain ⟨a, t, rfl⟩ : ∃ a t', t = a :: t' := by
        cases t with
        | nil => exact absurd rfl ht
        | cons a t => exact ⟨a, t, rfl⟩
      rw [strncpy_cons (a := a) ht, strncmp, strncmp]
      simp only [List.headD_cons, List.tail_cons, ih]

theorem strncmp_self (t : List UInt8) (n : Nat) : strncmp t t n = 0 := by
  induction n generalizing t with
  | zero => rfl
  | succ n ih =>
    rw [strncmp]
    split
    · exact ih _
    · simp_all

/-- Whether two strings match does not depend on their order. -/
theorem strncmp_eq_zero_comm (p q : List UInt8) (n : Nat) :
    strncmp p q n = 0 ↔ strncmp q p n = 0 := by
  induction n generalizing p q with
  | zero => rfl
  | succ n ih =>
    rw [strncmp, strncmp]
    by_cases h : p.headD 0 = q.headD 0
    · by_cases h0 : p.headD 0 = 0
      · rw [← h, h0]
        simp
      · rw [if_pos ⟨h0, h⟩, if_pos ⟨h ▸ h0, h.symm⟩, ih]
    · rw [if_neg (fun h' => h h'.2), if_neg (fun h' => h h'.2.symm)]
      constructor <;> intro h' <;> exfalso <;> apply h <;> apply UInt8.toNat.inj <;> omega

end Xv6Fs
