import Mathlib.Tactic.Ring
import Mathlib.Data.List.Basic

/-!
# Little-endian byte strings

`leBytes k v` is the `k`-byte little-endian image of `v` (what `memcpy` of an unsigned integer
writes on a little-endian machine, so a value that does not fit is cut to its low bytes), `ofLE`
reads such a string back. `units` and `ofUnits` do the same for a string of 16-bit units.
-/

namespace Bytes

/-- The low `k` bytes of `v`, lowest first. -/
def leBytes : Nat → Nat → List UInt8
  | 0, _ => []
  | k + 1, v => UInt8.ofNat v :: leBytes k (v / 256)

/-- The number a little-endian byte string denotes. -/
def ofLE : List UInt8 → Nat
  | [] => 0
  | b :: bs => b.toNat + 256 * ofLE bs

@[simp] theorem length_leBytes (k v : Nat) : (leBytes k v).length = k := by
  induction k generalizing v with
  | zero => rfl
  | succ k ih => simp [leBytes, ih]

theorem ofLE_leBytes (k v : Nat) : ofLE (leBytes k v) = v % 256 ^ k := by
  induction k generalizing v with
  | zero => simp [leBytes, ofLE, Nat.mod_one]
  | succ k ih =>
    have hb : (UInt8.ofNat v).toNat = v % 256 := by simp
    rw [leBytes, ofLE, ih, hb, pow_succ, mul_comm (256 ^ k) 256, Nat.mod_mul]

theorem ofLE_leBytes_of_lt {k v : Nat} (h : v < 256 ^ k) : ofLE (leBytes k v) = v := by
  rw [ofLE_leBytes, Nat.mod_eq_of_lt h]

theorem leBytes_ofLE (bs : List UInt8) : leBytes bs.length (ofLE bs) = bs := by
  induction bs with
  | nil => rfl
  | cons b bs ih =>
    have hb := b.toNat_lt
    have hdiv : (b.toNat + 256 * ofLE bs) / 256 = ofLE bs := by omega
    have hlow : UInt8.ofNat (b.toNat + 256 * ofLE bs) = b := by
      apply UInt8.toNat_inj.1
      rw [UInt8.toNat_ofNat']
      omega
    rw [ofLE, List.length_cons, leBytes, hdiv, hlow, ih]

/-- A string of 16-bit units as bytes, each unit low byte first. -/
def units (us : List UInt16) : List UInt8 := us.flatMap fun u => leBytes 2 u.toNat

/-- The 16-bit units a byte string holds; a last odd byte is not a unit. -/
def ofUnits : List UInt8 → List UInt16
  | a :: b :: rest => UInt16.ofNat (ofLE [a, b]) :: ofUnits rest
  | _ => []

@[simp] theorem length_units (us : List UInt16) : (units us).length = 2 * us.length := by
  induction us with
  | nil => rfl
  | cons u us ih =>
    rw [units, List.flatMap_cons, ← units, List.length_append, ih, length_leBytes, List.length_cons]
    omega

theorem ofUnits_units (us : List UInt16) : ofUnits (units us) = us := by
  induction us with
  | nil => rfl
  | cons u us ih =>
    have hu : UInt16.ofNat (ofLE (leBytes 2 u.toNat)) = u := by
      rw [ofLE_leBytes_of_lt (by have := u.toNat_lt; omega)]
      exact UInt16.ofNat_toNat
    rw [units, List.flatMap_cons, ← units]
    simp only [leBytes, List.cons_append, List.nil_append, ofUnits, ih] at hu ⊢
    rw [hu]

end Bytes
