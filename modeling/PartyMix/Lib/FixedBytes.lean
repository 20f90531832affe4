import Mathlib.Data.Vector.Basic
import Mathlib.Data.UInt

/-!
# Fixed-width byte strings and big-endian numbers

`Bytes n` is Rust's `[u8; n]`.  `beBytes n x` writes the lowest `n` base-256
digits of `x`, most significant first, so `beBytes 8` is `u64::to_be_bytes`.
Keeping the first digits divides by a power of 256 (`take_beDigits`) and two
numbers have the same digits exactly when they agree modulo `256 ^ n`
(`beBytes_inj`); these two facts decide which part of a number a cut keeps.
-/

namespace PartyMix.FixedBytes

abbrev Bytes (n : Nat) := List.Vector UInt8 n

def zeroBytes (n : Nat) : Bytes n := List.Vector.replicate n 0

theorem append_inj {m n : Nat} {a b : Bytes m} {c d : Bytes n} (h : a ++ c = b ++ d) :
    a = b ∧ c = d := by
  have hlist : a.toList ++ c.toList = b.toList ++ d.toList := by
    rw [← List.Vector.toList_append, ← List.Vector.toList_append, h]
  have hparts := List.append_inj hlist (by simp)
  exact ⟨List.Vector.toList_injective hparts.1, List.Vector.toList_injective hparts.2⟩

/-! ### Big-endian digits -/

/-- The digits of `x` below `256 ^ n`, most significant first. -/
def beDigits : Nat → Nat → List UInt8
  | 0, _ => []
  | n + 1, x => UInt8.ofNat (x / 256 ^ n) :: beDigits n x

@[simp] theorem length_beDigits (n x : Nat) : (beDigits n x).length = n := by
  induction n with
  | zero => rfl
  | succ n ih => simp [beDigits, ih]

def beBytes (n x : Nat) : Bytes n := ⟨beDigits n x, length_beDigits n x⟩

/-- Dropping the `m` lowest digits divides by `256 ^ m`. -/
theorem take_beDigits (n m x : Nat) :
    (beDigits (n + m) x).take n = beDigits n (x / 256 ^ m) := by
  induction n with
  | zero => simp [beDigits]
  | succ n ih =>
    rw [Nat.add_right_comm, beDigits, List.take_succ_cons, ih, beDigits, Nat.div_div_eq_div_mul,
      Nat.pow_add, Nat.mul_comm]

theorem beDigits_inj {n x y : Nat} :
    beDigits n x = beDigits n y ↔ x % 256 ^ n = y % 256 ^ n := by
  induction n with
  | zero => simp [beDigits, Nat.mod_one]
  | succ n ih =>
    have hsplit (z : Nat) : z % 256 ^ (n + 1) = z % 256 ^ n + 256 ^ n * (z / 256 ^ n % 256) :=
      Nat.mod_pow_succ
    have hpos : 0 < 256 ^ n := Nat.pow_pos (by decide)
    have hdigit (z : Nat) : (UInt8.ofNat (z / 256 ^ n)).toNat = z / 256 ^ n % 256 := by
      simp
    rw [beDigits, beDigits, List.cons.injEq, ih, ← UInt8.toNat_inj, hdigit, hdigit, hsplit x,
      hsplit y]
    constructor
    · rintro ⟨hhigh, hlow⟩
      rw [hhigh, hlow]
    · intro h
      have hlow : x % 256 ^ n = y % 256 ^ n := by
        have hmod := congrArg (· % 256 ^ n) h
        simpa only [Nat.add_mul_mod_self_left, Nat.mod_mod] using hmod
      refine ⟨?_, hlow⟩
      rw [hlow] at h
      exact Nat.eq_of_mul_eq_mul_left hpos (Nat.add_left_cancel h)

theorem beBytes_inj {n x y : Nat} : beBytes n x = beBytes n y ↔ x % 256 ^ n = y % 256 ^ n := by
  rw [← beDigits_inj]
  exact Subtype.ext_iff

end PartyMix.FixedBytes
