import Mathlib.Algebra.Field.ZMod
import RankOne.Scalar.Residue

/-!
# The field of residues

The residues modulo a prime are a field, with the operations that systems over them use
(`Residue.instField`). They are told apart by their classes (`Residue.toZMod_injective`), so the
laws are those of the integers modulo `p`.
-/

namespace RankOne

namespace Residue

variable {p : Nat} [Modulus p]

omit [Modulus p] in
/-- The class of a residue among the integers modulo `p`. -/
def toZMod (a : Residue p) : ZMod p := a.val

omit [Modulus p] in
theorem toZMod_injective : Function.Injective (toZMod : Residue p → ZMod p) := by
  intro a b h
  have hmod := (ZMod.natCast_eq_natCast_iff' a.val b.val p).mp h
  rw [Nat.mod_eq_of_lt a.val_lt, Nat.mod_eq_of_lt b.val_lt] at hmod
  cases a
  cases b
  cases hmod
  rfl

theorem toZMod_ofNat (n : Nat) : (ofNat n : Residue p).toZMod = n := by
  show ((n % p : Nat) : ZMod p) = n
  exact ZMod.natCast_mod n p

@[simp] theorem toZMod_zero : (0 : Residue p).toZMod = 0 := by
  show (ofNat 0 : Residue p).toZMod = 0
  rw [toZMod_ofNat, Nat.cast_zero]

@[simp] theorem toZMod_one : (1 : Residue p).toZMod = 1 := by
  show (ofNat 1 : Residue p).toZMod = 1
  rw [toZMod_ofNat, Nat.cast_one]

@[simp] theorem toZMod_add (a b : Residue p) : (a + b).toZMod = a.toZMod + b.toZMod := by
  show (ofNat (a.val + b.val) : Residue p).toZMod = _
  rw [toZMod_ofNat, Nat.cast_add]
  rfl

@[simp] theorem toZMod_mul (a b : Residue p) : (a * b).toZMod = a.toZMod * b.toZMod := by
  show (ofNat (a.val * b.val) : Residue p).toZMod = _
  rw [toZMod_ofNat, Nat.cast_mul]
  rfl

@[simp] theorem toZMod_neg (a : Residue p) : (-a).toZMod = -a.toZMod := by
  show (ofNat (p - a.val) : Residue p).toZMod = _
  rw [toZMod_ofNat, Nat.cast_sub (Nat.le_of_lt a.val_lt), ZMod.natCast_self, zero_sub]
  rfl

instance instCommRing : CommRing (Residue p) where
  add_assoc a b c := toZMod_injective (by simp [add_assoc])
  zero_add a := toZMod_injective (by simp)
  add_zero a := toZMod_injective (by simp)
  add_comm a b := toZMod_injective (by simp [add_comm])
  neg_add_cancel a := toZMod_injective (by simp)
  mul_assoc a b c := toZMod_injective (by simp [mul_assoc])
  one_mul a := toZMod_injective (by simp)
  mul_one a := toZMod_injective (by simp)
  mul_comm a b := toZMod_injective (by simp [mul_comm])
  left_distrib a b c := toZMod_injective (by simp [mul_add])
  right_distrib a b c := toZMod_injective (by simp [add_mul])
  zero_mul a := toZMod_injective (by simp)
  mul_zero a := toZMod_injective (by simp)
  nsmul := nsmulRec
  zsmul := zsmulRec

variable [Fact p.Prime]

/-- The residue of the inverse class. -/
instance : Inv (Residue p) := ⟨fun a => ⟨(a.toZMod⁻¹).val, ZMod.val_lt _⟩⟩

omit [Modulus p] in
@[simp] theorem toZMod_inv (a : Residue p) : a⁻¹.toZMod = a.toZMod⁻¹ := by
  show (((a.toZMod⁻¹).val : Nat) : ZMod p) = a.toZMod⁻¹
  exact ZMod.natCast_zmod_val _

instance instField : Field (Residue p) where
  exists_pair_ne := by
    refine ⟨0, 1, fun h => ?_⟩
    have hclass := congrArg toZMod h
    rw [toZMod_zero, toZMod_one] at hclass
    exact zero_ne_one hclass
  mul_inv_cancel a ha := by
    have hclass : a.toZMod ≠ 0 := fun h => ha (toZMod_injective (h.trans toZMod_zero.symm))
    exact toZMod_injective (by simp [hclass])
  inv_zero := toZMod_injective (by simp)
  nnqsmul := _
  qsmul := _

instance : Fact (Nat.Prime 17) := ⟨by decide⟩

end Residue

end RankOne
