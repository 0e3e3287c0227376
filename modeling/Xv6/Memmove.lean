import Mathlib

/-!
# Copying Bytes

The two functions `memmove`: the one of the kernel (`string.c`) goes from the end to the start if
the source begins below the destination and reaches into it, the one of the user library (`ulib.c`)
always goes from the start to the end. A pointer is an address below `2 ^ 32`.

## Main results

* `memmove_moves`: the kernel's function copies the bytes, whether the ranges overlap or not.
* `memmove_agree_iff`: **when both functions copy the bytes.** The one of the library misses those
  that it has overwritten before it comes to them.
-/

open Function (update update_of_ne update_self)

namespace Xv6.Memmove

/-- The bytes of an address space. -/
abbrev Mem := ℕ → UInt8

/-- `while(n-- > 0) *d++ = *s++;` -/
def copyUp : ℕ → ℕ → ℕ → Mem → Mem
  | 0, _, _, m => m
  | n + 1, d, s, m => copyUp n ((d + 1) % 2 ^ 32) ((s + 1) % 2 ^ 32) (update m d (m s))

/-- `while(n-- > 0) *--d = *--s;` -/
def copyDown : ℕ → ℕ → ℕ → Mem → Mem
  | 0, _, _, m => m
  | n + 1, d, s, m =>
    let d := (d + (2 ^ 32 - 1)) % 2 ^ 32
    let s := (s + (2 ^ 32 - 1)) % 2 ^ 32
    copyDown n d s (update m d (m s))

/-- `memmove(dst, src, n)` of `string.c`. -/
def memmove (dst src n : ℕ) (m : Mem) : Mem :=
  if src < dst ∧ (src + n) % 2 ^ 32 > dst then
    copyDown n ((dst + n) % 2 ^ 32) ((src + n) % 2 ^ 32) m
  else copyUp n dst src m

/-- `memmove(vdst, vsrc, n)` of `ulib.c`. Its `n` is an `int`, a negative one from `2 ^ 31` on. -/
def Ulib.memmove (dst src n : ℕ) (m : Mem) : Mem := copyUp (if n < 2 ^ 31 then n else 0) dst src m

/-- The `n` bytes that were at `src` in `m` are at `dst` in `m'`, and no other byte has changed. -/
def Moves (dst src n : ℕ) (m m' : Mem) : Prop :=
  (∀ i < n, m' (dst + i) = m (src + i)) ∧ ∀ a, (a < dst ∨ dst + n ≤ a) → m' a = m a

variable {dst src n d s i a : ℕ} {m : Mem}

/-! ### The loops -/

/-- The pointer behind the byte, unless the loop has come to its end. -/
theorem add_one_mod (h : d + (n + 1) ≤ 2 ^ 32) : n = 0 ∨ (d + 1) % 2 ^ 32 = d + 1 := by omega

/-- The first byte of a copy from the start. -/
theorem copyUp_succ (hd : d + (n + 1) ≤ 2 ^ 32) (hs : s + (n + 1) ≤ 2 ^ 32) :
    copyUp (n + 1) d s m = copyUp n (d + 1) (s + 1) (update m d (m s)) := by
  rw [copyUp]
  rcases add_one_mod hd with rfl | h1
  · rfl
  rcases add_one_mod hs with rfl | h2
  · rfl
  rw [h1, h2]

/-- The first byte of a copy from the end. -/
theorem copyDown_succ (hd : d + (n + 1) ≤ 2 ^ 32) (hs : s + (n + 1) ≤ 2 ^ 32) :
    copyDown (n + 1) ((d + (n + 1)) % 2 ^ 32) ((s + (n + 1)) % 2 ^ 32) m =
      copyDown n ((d + n) % 2 ^ 32) ((s + n) % 2 ^ 32) (update m (d + n) (m (s + n))) := by
  have hprev (x : ℕ) (hx : x + (n + 1) ≤ 2 ^ 32) :
      ((x + (n + 1)) % 2 ^ 32 + (2 ^ 32 - 1)) % 2 ^ 32 = x + n := by omega
  rw [copyDown, hprev d hd, hprev s hs, Nat.mod_eq_of_lt (by omega), Nat.mod_eq_of_lt (by omega)]

/-- A copy from the start leaves the bytes outside alone. -/
theorem copyUp_frame (hd : d + n ≤ 2 ^ 32) (hs : s + n ≤ 2 ^ 32) (ha : a < d ∨ d + n ≤ a) :
    copyUp n d s m a = m a := by
  induction n generalizing d s m with
  | zero => rfl
  | succ n ih =>
    rw [copyUp_succ hd hs, ih (by omega) (by omega) (by omega), update_of_ne (by omega)]

/-- A copy from the end leaves the bytes outside alone. -/
theorem copyDown_frame (hd : d + n ≤ 2 ^ 32) (hs : s + n ≤ 2 ^ 32) (ha : a < d ∨ d + n ≤ a) :
    copyDown n ((d + n) % 2 ^ 32) ((s + n) % 2 ^ 32) m a = m a := by
  induction n generalizing m with
  | zero => rfl
  | succ n ih =>
    rw [copyDown_succ hd hs, ih (by omega) (by omega) (by omega), update_of_ne (by omega)]

/-- Upwards, the bytes are right if none of them is overwritten before it is read. -/
theorem copyUp_moves (hd : d + n ≤ 2 ^ 32) (hs : s + n ≤ 2 ^ 32) (h : d ≤ s ∨ s + n ≤ d) :
    Moves d s n m (copyUp n d s m) := by
  refine ⟨fun i hi => ?_, fun a ha => copyUp_frame hd hs ha⟩
  induction n generalizing d s m i with
  | zero => exact absurd hi (Nat.not_lt_zero i)
  | succ n ih =>
    rw [copyUp_succ hd hs]
    cases i with
    | zero => rw [copyUp_frame (by omega) (by omega) (by omega)]; exact update_self ..
    | succ i =>
      have := ih (m := update m d (m s)) (d := d + 1) (s := s + 1) (by omega) (by omega) (by omega)
        i (by omega)
      rw [Nat.add_right_comm, Nat.add_right_comm s] at this
      rw [← Nat.add_assoc, this, update_of_ne (by omega), Nat.add_assoc]

/-- A copy from the end moves the bytes if the source is below. -/
theorem copyDown_moves (hd : d + n ≤ 2 ^ 32) (hs : s + n ≤ 2 ^ 32) (h : s < d) :
    Moves d s n m (copyDown n ((d + n) % 2 ^ 32) ((s + n) % 2 ^ 32) m) := by
  refine ⟨fun i hi => ?_, fun a ha => copyDown_frame hd hs ha⟩
  induction n generalizing m with
  | zero => exact absurd hi (Nat.not_lt_zero i)
  | succ n ih =>
    rw [copyDown_succ hd hs]
    by_cases hin : i = n
    · rw [hin, copyDown_frame (by omega) (by omega) (by omega)]
      exact update_self ..
    · rw [ih (by omega) (by omega) (by omega), update_of_ne (by omega)]

/-- **The kernel's `memmove` copies the bytes.** -/
theorem memmove_moves (hd : dst + n ≤ 2 ^ 32) (hs : src + n ≤ 2 ^ 32) :
    Moves dst src n m (memmove dst src n m) := by
  rw [memmove]
  split_ifs with h
  · exact copyDown_moves hd hs h.1
  · refine copyUp_moves hd hs ?_
    by_contra hover
    -- below the destination the source ends before the address space does
    rw [Nat.mod_eq_of_lt (by omega)] at h
    omega

/-! ### The library -/

/-- Upwards from below the destination, every byte is a copy of what is in its source at the end. -/
theorem copyUp_below (hd : d + n ≤ 2 ^ 32) (hs : s < d) (hi : i < n) :
    copyUp n d s m (d + i) = copyUp n d s m (s + i) := by
  induction n generalizing d s m i with
  | zero => exact absurd hi (Nat.not_lt_zero i)
  | succ n ih =>
    rw [copyUp_succ hd (by omega)]
    cases i with
    | zero =>
      rw [copyUp_frame (by omega) (by omega) (by omega),
        copyUp_frame (by omega) (by omega) (by omega)]
      exact (update_self ..).trans (update_of_ne (by omega) _ _).symm
    | succ i =>
      have := ih (m := update m d (m s)) (d := d + 1) (s := s + 1) (i := i) (by omega) (by omega)
        (by omega)
      rwa [Nat.add_right_comm, Nat.add_right_comm s] at this

/-- The bytes of the source from the destination on are those that are as far below them. -/
def Repeats (dst src n : ℕ) (m : Mem) : Prop :=
  ∀ a, dst ≤ a → a < src + n → m a = m (a - (dst - src))

/-- A copy from the start to above the source moves the bytes just if the source repeats itself. -/
theorem copyUp_moves_iff (hd : d + n ≤ 2 ^ 32) (hs : s < d) :
    Moves d s n m (copyUp n d s m) ↔ Repeats d s n m := by
  have hframe (a : ℕ) (ha : a < d) : copyUp n d s m a = m a :=
    copyUp_frame hd (by omega) (Or.inl ha)
  constructor
  · rintro ⟨hmove, -⟩ a ha hlt
    have h1 := hmove (a - s) (by omega)
    rw [copyUp_below hd hs (by omega), Nat.add_sub_cancel' (by omega)] at h1
    have h2 := hmove (a - d) (by omega)
    rw [Nat.add_sub_cancel' ha] at h2
    rw [← h1, h2]
    congr 1
    omega
  · intro hrep
    refine ⟨fun i => ?_, fun a => copyUp_frame hd (by omega)⟩
    induction i using Nat.strongRecOn with
    | ind i ih =>
      intro hi
      rw [copyUp_below hd hs hi]
      by_cases hlt : s + i < d
      · exact hframe _ hlt
      · -- the source is a byte of the destination that comes earlier
        have h1 := ih (s + i - d) (by omega) (by omega)
        rw [Nat.add_sub_cancel' (by omega)] at h1
        rw [h1, hrep (s + i) (by omega) (by omega)]
        congr 1
        omega

/-- Where the user library's `memmove` copies the bytes: the source may reach into the destination
from below only if it repeats itself, and a length that is negative as an `int` is right only if
there is nothing to do. -/
def UserSafe (dst src n : ℕ) (m : Mem) : Prop :=
  if n < 2 ^ 31 then src < dst → Repeats dst src n m else ∀ i < n, m (dst + i) = m (src + i)

/-- **When both copy the bytes.** -/
theorem memmove_agree_iff (hd : dst + n ≤ 2 ^ 32) (hs : src + n ≤ 2 ^ 32) :
    (Moves dst src n m (memmove dst src n m) ∧ Moves dst src n m (Ulib.memmove dst src n m)) ↔
      UserSafe dst src n m := by
  rw [and_iff_right (memmove_moves hd hs), Ulib.memmove, UserSafe]
  by_cases hn : n < 2 ^ 31
  · rw [if_pos hn, if_pos hn]
    by_cases hlt : src < dst
    · rw [copyUp_moves_iff hd hlt]
      exact ⟨fun h _ => h, fun h => h hlt⟩
    · exact iff_of_true (copyUp_moves hd hs (Or.inl (Nat.le_of_not_lt hlt))) fun h => absurd h hlt
  · rw [if_neg hn, if_neg hn]
    exact ⟨fun h => h.1, fun h => ⟨h, fun _ _ => rfl⟩⟩

/-- Two bytes to the right by one, in a memory that repeats them. -/
theorem memmove_agree_iff_const :
    Moves 1 0 2 (fun _ => 7) (memmove 1 0 2 fun _ => 7) ∧
      Moves 1 0 2 (fun _ => 7) (Ulib.memmove 1 0 2 fun _ => 7) :=
  (memmove_agree_iff (by decide) (by decide)).mpr fun _ _ _ _ => rfl

/-- Two bytes to the right by one: the library copies the first of them twice. -/
theorem memmove_disagree :
    memmove 1 0 2 (fun a => UInt8.ofNat a) 2 = 1 ∧
      Ulib.memmove 1 0 2 (fun a => UInt8.ofNat a) 2 = 0 ∧
      ¬ Moves 1 0 2 (fun a => UInt8.ofNat a) (Ulib.memmove 1 0 2 fun a => UInt8.ofNat a) := by
  refine ⟨by decide, by decide, fun h => ?_⟩
  exact absurd (h.1 1 (by decide)) (by decide)

end Xv6.Memmove
