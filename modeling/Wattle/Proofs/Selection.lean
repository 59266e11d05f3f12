import Wattle.Lower.Expr
import Wattle.Proofs.Success

/-!
# Which instructions are chosen

Every type but `void` has a machine type, every operation that the rules allow has an
instruction, and the only conversions without one lead between a pointer and a type that is not a
32-bit integer.
-/

namespace Wattle

/-- Whether one of the types is a pointer and the other a named type that is wider than a pointer
or not an integer. -/
def Ty.crossesPointer : Ty → Ty → Bool
  | .pointer _, .base b | .base b, .pointer _ => b ∈ [BaseType.i64, .u64, .f32, .f64]
  | _, _ => false

namespace Lower

open Wasm

/-! ## Machine types -/

theorem valueType_eq_ok {t : Ty} {v : ValueType} :
    valueType t = .ok v ↔ ValueType.ofTy? t = some v := by
  simp only [valueType]
  cases ValueType.ofTy? t <;> simp

theorem ofTy?_eq_none {t : Ty} : ValueType.ofTy? t = none ↔ t = .void := by
  cases t with
  | base b => cases b <;> simp [ValueType.ofTy?, ValueType.ofBase?]
  | pointer t => simp [ValueType.ofTy?]

theorem exists_valueType {t : Ty} (h : t ≠ .void) : ∃ v, valueType t = .ok v := by
  cases hv : ValueType.ofTy? t with
  | none => exact absurd (ofTy?_eq_none.mp hv) h
  | some v => exact ⟨v, valueType_eq_ok.mpr hv⟩

/-! ## Operations -/

theorem binaryInstr_eq_ok {op : BinaryOp} {t : Ty} {i : Instr} :
    binaryInstr op t = .ok i ↔
      ∃ v num signed, ValueType.ofTy? t = some v ∧ numOp? op = some (num, signed) ∧
        (v.isFloat && op.requiresInteger) = false ∧
        i = .numeric v num (if signed then signOf t else none) := by
  simp only [binaryInstr, except_bind_eq_ok, valueType_eq_ok]
  constructor
  · rintro ⟨v, hv, h⟩
    split at h
    · cases h
    · next num signed hnum =>
      split at h
      · cases h
      · next hfloat =>
        rw [except_pure_eq_ok] at h
        exact ⟨v, num, signed, hv, hnum, by simpa using hfloat, h.symm⟩
  · rintro ⟨v, num, signed, hv, hnum, hfloat, rfl⟩
    refine ⟨v, hv, ?_⟩
    simp only [hnum, hfloat]
    rfl

theorem isFloat_of_isInteger {t : Ty} {v : ValueType} (hv : ValueType.ofTy? t = some v)
    (h : t.isInteger = true) : v.isFloat = false := by
  cases t with
  | base b =>
      cases b <;> simp_all [ValueType.ofTy?, ValueType.ofBase?, Ty.isInteger,
        BaseType.isInteger] <;> subst hv <;> rfl
  | pointer t => simp [Ty.isInteger] at h

theorem exists_binaryInstr {op : BinaryOp} {t : Ty} (hop : op ≠ .assign) (hv : t ≠ .void)
    (hint : op.requiresInteger = true → t.isInteger = true) : ∃ i, binaryInstr op t = .ok i := by
  obtain ⟨v, hv⟩ := exists_valueType hv
  rw [valueType_eq_ok] at hv
  obtain ⟨num, signed, hnum⟩ : ∃ num signed, numOp? op = some (num, signed) := by
    cases op <;> simp_all [numOp?]
  refine ⟨_, binaryInstr_eq_ok.mpr ⟨v, num, signed, hv, hnum, ?_, rfl⟩⟩
  cases hreq : op.requiresInteger with
  | false => exact Bool.and_false _
  | true => rw [isFloat_of_isInteger hv (hint hreq), Bool.false_and]

/-- An operation other than assignment is lowered in the same way whatever its left side is. -/
theorem expr_binary {scope : Scope Nat} {note : TypedNode} {op : BinaryOp}
    {left right : Expr TypedNode} (hop : op ≠ .assign) :
    expr scope (.binary note op left right) = do
      let first ← expr scope left
      let second ← expr scope right
      return first ++ second ++ [← binaryInstr op left.type] := by
  rw [expr.eq_def]
  exact if_neg hop

/-! ## Conversions -/

theorem exists_baseConversion {s t : BaseType} (hs : s ≠ .void) (ht : t ≠ .void) :
    ∃ i, baseConversion s t = .ok i := by
  cases s <;> cases t <;> simp_all [baseConversion, ValueType.ofBase?, ValueType.isFloat]

/-- Conversions between types that have values exist, unless one is a pointer and the other does
not have its width. -/
theorem exists_conversion {s t : Ty} (hs : s ≠ .void) (ht : t ≠ .void)
    (h : s.crossesPointer t = false) : ∃ i, conversion s t = .ok i := by
  cases s with
  | base b =>
      cases t with
      | base c => exact exists_baseConversion (by simpa using hs) (by simpa using ht)
      | pointer t => cases b <;> simp_all [conversion, Ty.crossesPointer]
  | pointer s =>
      cases t with
      | base c => cases c <;> simp_all [conversion, Ty.crossesPointer]
      | pointer t => exact ⟨none, rfl⟩

theorem conversion_form {s t : Ty} {i : Option Instr} (h : conversion s t = .ok i) :
    i = none ∨ ∃ target op source sign, i = some (.convert target op source sign) := by
  have hbase : ∀ {b b' : BaseType}, baseConversion b b' = .ok i →
      i = none ∨ ∃ target op source sign, i = some (.convert target op source sign) := by
    intro b b' h
    cases b <;> cases b' <;>
      simp only [baseConversion, ValueType.ofBase?, ValueType.isFloat, if_true, if_false,
        Bool.false_eq_true, reduceCtorEq, Except.ok.injEq] at h <;>
      subst h <;> simp
  cases s with
  | base b =>
      cases t with
      | base b' => exact hbase h
      | pointer t => cases b <;> simp_all [conversion]
  | pointer s =>
      cases t with
      | base b => cases b <;> simp_all [conversion]
      | pointer t => exact .inl (Except.ok.inj h).symm

theorem conversion_eq_error {s t : Ty} (h : s.crossesPointer t = true) :
    conversion s t = .error (.noConversion s t) := by
  cases s with
  | base b =>
      cases t with
      | base c => simp [Ty.crossesPointer] at h
      | pointer t => cases b <;> simp_all [conversion, Ty.crossesPointer]
  | pointer s =>
      cases t with
      | base c => cases c <;> simp_all [conversion, Ty.crossesPointer]
      | pointer t => simp [Ty.crossesPointer] at h

end Lower

end Wattle
