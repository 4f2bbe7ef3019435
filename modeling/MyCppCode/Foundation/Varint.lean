import Mathlib.Algebra.Order.Ring.Nat
import Mathlib.Data.Nat.Bitwise
import Mathlib.Tactic.Linarith

/-!
# Varint — numbers in groups of seven bits

A number is written as bytes of seven bits each, the lowest group first, with the high bit set on all
bytes but the last.  `Encodes n bs` is the relation, in which leading groups of zeros are allowed;
`encode n` is the shortest encoding.
-/

namespace MyCppCode
namespace Foundation
namespace Varint

/-- The bytes `bs` encode the number `n`. -/
inductive Encodes : Nat → List UInt8 → Prop where
  | last (b : UInt8) : b.toNat < 128 → Encodes b.toNat [b]
  | more (b : UInt8) {n : Nat} {bs : List UInt8} :
      128 ≤ b.toNat → Encodes n bs → Encodes (b.toNat % 128 + 128 * n) (b :: bs)

def encode (n : Nat) : List UInt8 :=
  if n < 128 then [UInt8.ofNat n] else UInt8.ofNat (n % 128 + 128) :: encode (n / 128)
termination_by n
decreasing_by omega

theorem Encodes.ne_nil {n : Nat} {bs : List UInt8} (h : Encodes n bs) : bs ≠ [] := by
  cases h <;> exact List.cons_ne_nil _ _

theorem encodes_encode (n : Nat) : Encodes n (encode n) := by
  induction n using Nat.strong_induction_on with
  | h n ih =>
      rw [encode]
      split
      · rename_i hn
        have hbyte : (UInt8.ofNat n).toNat = n := by
          rw [UInt8.toNat_ofNat']
          omega
        have hlast := Encodes.last (UInt8.ofNat n) (by omega)
        rwa [hbyte] at hlast
      · have hbyte : (UInt8.ofNat (n % 128 + 128)).toNat = n % 128 + 128 := by
          rw [UInt8.toNat_ofNat']
          omega
        have hmore := Encodes.more (UInt8.ofNat (n % 128 + 128)) (by omega) (ih (n / 128) (by omega))
        have hvalue : (n % 128 + 128) % 128 + 128 * (n / 128) = n := by omega
        rwa [hbyte, hvalue] at hmore

/-- A number below `128 ^ k` needs no more than `k` bytes. -/
theorem length_encode_le {n k : Nat} (h : n < 128 ^ (k + 1)) : (encode n).length ≤ k + 1 := by
  induction k generalizing n with
  | zero =>
      rw [encode, if_pos (by omega)]
      simp
  | succ k ih =>
      rw [encode]
      split
      · simp
      · have hdiv : n / 128 < 128 ^ (k + 1) := by
          rw [pow_succ] at h
          omega
        have hlen := ih hdiv
        rw [List.length_cons]
        omega

/-! ## The bits of a byte -/

theorem and_carry_iff (b : UInt8) : b &&& 0x80 = 0x80 ↔ 128 ≤ b.toNat := by
  have hbits : ∀ n : Fin 256, n.val &&& 128 = 128 ↔ 128 ≤ n.val := by decide +kernel
  rw [← UInt8.toNat_inj, UInt8.toNat_and]
  exact hbits ⟨b.toNat, b.toNat_lt⟩

theorem toNat_and_value (b : UInt8) : (b &&& 0x7f).toNat = b.toNat % 128 := by
  rw [UInt8.toNat_and]
  exact Nat.and_two_pow_sub_one_eq_mod b.toNat 7

/-- The bits of `g` put above those of `v`. -/
theorem toNat_or_shiftLeft {v g : UInt64} {shift : Nat} (hshift : shift < 64)
    (hv : v.toNat < 2 ^ shift) (hg : g.toNat * 2 ^ shift < 2 ^ 64) :
    (v ||| g <<< UInt64.ofNat shift).toNat = v.toNat + g.toNat * 2 ^ shift := by
  have hmod : (UInt64.ofNat shift).toNat % 64 = shift := by
    rw [UInt64.toNat_ofNat']
    omega
  rw [UInt64.toNat_or, UInt64.toNat_shiftLeft, hmod, Nat.shiftLeft_eq, Nat.mod_eq_of_lt hg,
    Nat.mul_comm, Nat.or_comm, ← Nat.two_pow_add_eq_or_of_lt hv, Nat.add_comm]

end Varint
end Foundation
end MyCppCode
