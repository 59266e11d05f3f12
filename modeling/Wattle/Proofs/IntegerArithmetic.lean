import Wattle.Check.Expr
import Wattle.Proofs.CheckerSound
import Wattle.Proofs.IntegerWords
import Wattle.Proofs.Simulation

/-!
# Selected instructions compute what the language says

The language computes on numbers: sums, differences and products wrap around, quotients are
truncated, and so on. The instruction that is chosen for an operator does this on the bit patterns
of the numbers, for every integer type and every pointer type. Conversions keep the number as far as
the target can hold it.
-/

namespace Wattle

open Wasm

/-! ## Operations on numbers -/

namespace Wasm.Sign

/-- The number that is left of `n` in `w` binary places. -/
def wrap (sign : Sign) (w : Nat) (n : Int) : Int :=
  match sign with
  | signed => n.bmod (2 ^ w)
  | unsigned => n % 2 ^ w

/-- The number can be written in `w` binary places. -/
def Holds (sign : Sign) (w : Nat) (n : Int) : Prop :=
  match sign with
  | signed => -2 ^ (w - 1) ≤ n ∧ n < 2 ^ (w - 1)
  | unsigned => 0 ≤ n ∧ n < 2 ^ w

instance (sign : Sign) (w : Nat) (n : Int) : Decidable (sign.Holds w n) :=
  match sign with
  | signed => inferInstanceAs (Decidable (_ ∧ _))
  | unsigned => inferInstanceAs (Decidable (_ ∧ _))

end Wasm.Sign

/-- The number with `w` binary digits, each made of the digits of `a` and `b` at its place. -/
def digitwise (f : Bool → Bool → Bool) : Nat → Int → Int → Nat
  | 0, _, _ => 0
  | w + 1, a, b => (f (a % 2 = 1) (b % 2 = 1)).toNat + 2 * digitwise f w (a / 2) (b / 2)

/-- The result of an operation on two numbers of a type with `w` bits. Comparisons give one or
zero. -/
def BinaryOp.onNumbers (sign : Sign) (w : Nat) (a b : Int) : BinaryOp → Except Stop Int
  | add => .ok (sign.wrap w (a + b))
  | sub => .ok (sign.wrap w (a - b))
  | mul => .ok (sign.wrap w (a * b))
  | div => if b = 0 ∨ ¬ sign.Holds w (a.tdiv b) then .error .trap else .ok (a.tdiv b)
  | rem => if b = 0 then .error .trap else .ok (a.tmod b)
  | bitAnd => .ok (sign.wrap w (digitwise and w a b))
  | bitOr => .ok (sign.wrap w (digitwise or w a b))
  | bitXor => .ok (sign.wrap w (digitwise xor w a b))
  | leftShift => .ok (sign.wrap w (a * 2 ^ (b % w).toNat))
  | rightShift => .ok (a.fdiv (2 ^ (b % w).toNat))
  | equal => .ok (if a = b then 1 else 0)
  | notEqual => .ok (if a ≠ b then 1 else 0)
  | less => .ok (if a < b then 1 else 0)
  | greater => .ok (if a > b then 1 else 0)
  | lessEqual => .ok (if a ≤ b then 1 else 0)
  | greaterEqual => .ok (if a ≥ b then 1 else 0)
  | assign => .error .stuck

/-! ## Patterns and numbers -/

namespace Wasm.Sign

variable {w : Nat} (sign : Sign) (x y : BitVec w)

theorem ofInt_read : BitVec.ofInt w (sign.read x) = x := by
  cases sign with
  | signed => exact BitVec.ofInt_toInt
  | unsigned => simp [read]

theorem read_ofInt (n : Int) : sign.read (BitVec.ofInt w n) = sign.wrap w n := by
  cases sign with
  | signed => exact BitVec.toInt_ofInt n
  | unsigned =>
      have hpos : (0 : Int) < 2 ^ w := Int.pow_pos (by decide)
      simp [read, wrap, Int.toNat_of_nonneg (Int.emod_nonneg n hpos.ne')]

theorem read_inj {x y : BitVec w} : sign.read x = sign.read y ↔ x = y := by
  constructor
  · intro h
    rw [← sign.ofInt_read x, h, sign.ofInt_read]
  · rintro rfl
    rfl

theorem read_eq_zero : sign.read x = 0 ↔ x = 0 := by
  have hzero : sign.read (0 : BitVec w) = 0 := by cases sign <;> simp [read]
  rw [← hzero, sign.read_inj]

theorem read_add : sign.read (x + y) = sign.wrap w (sign.read x + sign.read y) := by
  rw [← sign.read_ofInt, BitVec.ofInt_add, sign.ofInt_read, sign.ofInt_read]

theorem read_sub : sign.read (x - y) = sign.wrap w (sign.read x - sign.read y) := by
  rw [← sign.read_ofInt, Int.sub_eq_add_neg, BitVec.ofInt_add, BitVec.ofInt_neg, sign.ofInt_read,
    sign.ofInt_read, BitVec.sub_eq_add_neg]

theorem read_mul : sign.read (x * y) = sign.wrap w (sign.read x * sign.read y) := by
  rw [← sign.read_ofInt, BitVec.ofInt_mul, sign.ofInt_read, sign.ofInt_read]

theorem read_shiftLeft (k : Nat) : sign.read (x <<< k) = sign.wrap w (sign.read x * 2 ^ k) := by
  have hpower : BitVec.ofInt w (2 ^ k) = BitVec.twoPow w k := by
    apply BitVec.eq_of_toNat_eq
    rw [BitVec.toNat_twoPow, BitVec.toNat_ofInt]
    norm_cast
  rw [← sign.read_ofInt, BitVec.ofInt_mul, sign.ofInt_read, hpower,
    BitVec.shiftLeft_eq_mul_twoPow]

theorem read_emod : sign.read x % 2 ^ w = x.toNat := by
  have hpos : (0 : Int) < 2 ^ w := Int.pow_pos (by decide)
  have hbits := congrArg BitVec.toNat (sign.ofInt_read x)
  rw [BitVec.toNat_ofInt] at hbits
  rw [← hbits, Int.toNat_of_nonneg]
  · norm_cast
  · exact Int.emod_nonneg _ (by exact_mod_cast hpos.ne')

/-- The binary digits of the number are the bits of the pattern, also below zero. -/
theorem digit_read {i : Nat} (hi : i < w) :
    decide (sign.read x / 2 ^ i % 2 = 1) = x.getLsbD i := by
  have hpower : (2 : Int) ^ w = 2 ^ i * (2 * 2 ^ (w - i - 1)) := by
    rw [← pow_succ', ← pow_add]
    congr 1
    omega
  have hsplit : sign.read x =
      x.toNat + 2 ^ i * (2 * (2 ^ (w - i - 1) * (sign.read x / 2 ^ w))) := by
    have hdivided := Int.emod_add_mul_ediv (sign.read x) (2 ^ w)
    rwa [sign.read_emod, eq_comm, hpower, mul_assoc, mul_assoc, ← hpower] at hdivided
  have hpos : (0 : Int) < 2 ^ i := Int.pow_pos (by decide)
  rw [hsplit, Int.add_mul_ediv_left _ _ hpos.ne', Int.add_mul_emod_self_left,
    ← BitVec.testBit_toNat, Nat.testBit_eq_decide_div_mod_eq]
  norm_cast

end Wasm.Sign

theorem testBit_digitwise (f : Bool → Bool → Bool) (w : Nat) (a b : Int) (i : Nat) :
    (digitwise f w a b).testBit i =
      (decide (i < w) && f (a / 2 ^ i % 2 = 1) (b / 2 ^ i % 2 = 1)) := by
  induction w generalizing a b i with
  | zero => simp [digitwise]
  | succ w ih =>
      cases i with
      | zero =>
          rw [Nat.testBit_zero, digitwise, Nat.add_mul_mod_self_left]
          cases h : f (a % 2 = 1) (b % 2 = 1) <;> simp [h]
      | succ i =>
          have hrest : digitwise f (w + 1) a b / 2 = digitwise f w (a / 2) (b / 2) := by
            rw [digitwise]
            cases f (a % 2 = 1) (b % 2 = 1)
            · simp
            · simp only [Bool.toNat_true]
              omega
          rw [Nat.testBit_succ, hrest, ih, Int.ediv_ediv_of_nonneg (by decide),
            Int.ediv_ediv_of_nonneg (by decide), ← pow_succ']
          simp

theorem Wasm.Sign.read_digitwise {w : Nat} (sign : Sign) {x y z : BitVec w}
    {f : Bool → Bool → Bool} (hz : ∀ i < w, z.getLsbD i = f (x.getLsbD i) (y.getLsbD i)) :
    sign.read z = sign.wrap w (digitwise f w (sign.read x) (sign.read y)) := by
  have hbits : digitwise f w (sign.read x) (sign.read y) = z.toNat := by
    apply Nat.eq_of_testBit_eq
    intro i
    rw [testBit_digitwise, BitVec.testBit_toNat]
    by_cases hi : i < w
    · rw [hz i hi, ← sign.digit_read x hi, ← sign.digit_read y hi]
      simp [hi]
    · simp [hi, BitVec.getLsbD_of_ge z i (Nat.le_of_not_lt hi)]
  rw [hbits, ← sign.read_ofInt, BitVec.ofInt_natCast, BitVec.ofNat_toNat, BitVec.setWidth_eq]

/-! ## One operation after the other -/

namespace Lower

/-- A pattern of width `w`, made a word by `word`, stands for the number; or both trap. -/
inductive Computes {w : Nat} (word : BitVec w → Word) (sign : Sign) :
    Except Stop Word → Except Stop Int → Prop where
  | pattern (z : BitVec w) : Computes word sign (.ok (word z)) (.ok (sign.read z))
  | trap : Computes word sign (.error .trap) (.error .trap)

variable {w : Nat} (word : BitVec w → Word) (sign : Sign) (x y : BitVec w)

theorem Computes.of_eq {word : BitVec w → Word} {sign : Sign} {z : BitVec w} {n : Int}
    (h : sign.read z = n) : Computes word sign (.ok (word z)) (.ok n) :=
  h ▸ .pattern z

theorem Computes.truth {P : Prop} [Decidable P] {holds : Bool} (h : holds = true ↔ P) :
    Computes .i32 .signed (.ok (.ofBool holds)) (.ok (if P then 1 else 0)) := by
  apply Computes.of_eq
  simp only [← h]
  cases holds <;> rfl

/-- The one quotient without a pattern is that of the least number and minus one. -/
theorem holds_tdiv_iff (hw : 0 < w) :
    Sign.signed.Holds w ((Sign.signed.read x).tdiv (Sign.signed.read y)) ↔
      ¬ (x = BitVec.intMin w ∧ y = BitVec.allOnes w) := by
  simp only [Sign.read]
  constructor
  · rintro ⟨-, hlt⟩ ⟨rfl, rfl⟩
    have hmod : 2 ^ (w - 1) % 2 ^ w = 2 ^ (w - 1) :=
      Nat.mod_eq_of_lt (Nat.pow_lt_pow_right (by decide) (by omega))
    rw [BitVec.toInt_intMin, BitVec.toInt_allOnes, if_pos hw, hmod] at hlt
    simp at hlt
  · intro hpair
    rw [not_and_or, ← BitVec.neg_one_eq_allOnes] at hpair
    rw [← BitVec.toInt_sdiv_of_ne_or_ne x y hpair]
    exact ⟨BitVec.le_toInt _, BitVec.toInt_lt⟩

theorem computes_div (hw : 0 < w) :
    Computes word sign (NumOp.onBits word x y .div (some sign))
      (BinaryOp.onNumbers sign w (sign.read x) (sign.read y) .div) := by
  by_cases hy : y = 0
  · cases sign <;> simp [NumOp.onBits, BinaryOp.onNumbers, Sign.read, hy, Computes.trap]
  · have hread : sign.read y ≠ 0 := fun h => hy ((sign.read_eq_zero y).mp h)
    cases sign with
    | signed =>
        simp only [NumOp.onBits, BinaryOp.onNumbers, hy, hread, false_or, holds_tdiv_iff x y hw,
          not_not]
        split
        · exact .trap
        · next hpair =>
          rw [not_and_or, ← BitVec.neg_one_eq_allOnes] at hpair
          exact .of_eq (BitVec.toInt_sdiv_of_ne_or_ne x y hpair)
    | unsigned =>
        have hquotient : (Sign.unsigned.read x).tdiv (Sign.unsigned.read y) =
            Sign.unsigned.read (x.udiv y) := by
          simp [Sign.read]
        have hholds : Sign.unsigned.Holds w (Sign.unsigned.read (x.udiv y)) := by
          refine ⟨Int.natCast_nonneg _, ?_⟩
          have hlt := (x.udiv y).isLt
          simp only [Sign.read]
          exact_mod_cast hlt
        simp only [NumOp.onBits, BinaryOp.onNumbers, hy, hread, hquotient, hholds, false_or,
          not_true, if_false]
        exact .pattern _

theorem computes_rem :
    Computes word sign (NumOp.onBits word x y .rem (some sign))
      (BinaryOp.onNumbers sign w (sign.read x) (sign.read y) .rem) := by
  by_cases hy : y = 0
  · cases sign <;> simp [NumOp.onBits, BinaryOp.onNumbers, Sign.read, hy, Computes.trap]
  · have hread : sign.read y ≠ 0 := fun h => hy ((sign.read_eq_zero y).mp h)
    simp only [BinaryOp.onNumbers, hread, if_false]
    cases sign with
    | signed =>
        simp only [NumOp.onBits, hy, if_false]
        exact .of_eq (BitVec.toInt_srem x y)
    | unsigned =>
        simp only [NumOp.onBits, hy, if_false]
        apply Computes.of_eq
        simp [Sign.read, ← Int.ofNat_tmod]

/-- The amount of a shift is the same for the pattern and for the number. -/
theorem amount_eq (hdvd : w ∣ 2 ^ w) : (sign.read y % w).toNat = y.toNat % w := by
  have hdvd' : (w : Int) ∣ 2 ^ w := by exact_mod_cast hdvd
  rw [← Int.emod_emod_of_dvd _ hdvd', sign.read_emod]
  norm_cast

theorem computes_shiftRight (hdvd : w ∣ 2 ^ w) :
    Computes word sign (NumOp.onBits word x y .shr (some sign))
      (BinaryOp.onNumbers sign w (sign.read x) (sign.read y) .rightShift) := by
  have hpos : (0 : Int) ≤ 2 ^ (y.toNat % w) := Int.le_of_lt (Int.pow_pos (by decide))
  simp only [BinaryOp.onNumbers, amount_eq sign y hdvd, Int.fdiv_eq_ediv_of_nonneg _ hpos]
  cases sign with
  | signed =>
      apply Computes.of_eq
      simp [Sign.read, BitVec.toInt_sshiftRight, Int.shiftRight_eq_div_pow]
  | unsigned =>
      apply Computes.of_eq
      simp [Sign.read, Nat.shiftRight_eq_div_pow]

section Operators

variable {op : BinaryOp} {num : NumOp} {signed : Bool} (hnum : numOp? op = some (num, signed))
include hnum

/-- Operations other than comparisons, with the sign where the instruction has one. -/
theorem onBits_computes (hw : 0 < w) (hdvd : w ∣ 2 ^ w) (hop : op.isComparison = false) :
    Computes word sign (num.onBits word x y (if signed then some sign else none))
      (op.onNumbers sign w (sign.read x) (sign.read y)) := by
  cases op <;> simp only [numOp?, Option.some.injEq, Prod.mk.injEq, reduceCtorEq] at hnum <;>
    obtain ⟨rfl, rfl⟩ := hnum
  case add => exact .of_eq (sign.read_add x y)
  case sub => exact .of_eq (sign.read_sub x y)
  case mul => exact .of_eq (sign.read_mul x y)
  case div => exact computes_div word sign x y hw
  case rem => exact computes_rem word sign x y
  case bitAnd => exact .of_eq (sign.read_digitwise fun i _ => BitVec.getLsbD_and)
  case bitOr => exact .of_eq (sign.read_digitwise fun i _ => BitVec.getLsbD_or)
  case bitXor => exact .of_eq (sign.read_digitwise fun i _ => BitVec.getLsbD_xor)
  case leftShift =>
    apply Computes.of_eq
    rw [amount_eq sign y hdvd]
    exact sign.read_shiftLeft x _
  case rightShift => exact computes_shiftRight word sign x y hdvd
  all_goals cases hop

/-- Comparisons give an `i32`. -/
theorem onBits_compares (hop : op.isComparison = true) :
    Computes .i32 .signed (num.onBits word x y (if signed then some sign else none))
      (op.onNumbers sign w (sign.read x) (sign.read y)) := by
  cases op <;> simp only [numOp?, Option.some.injEq, Prod.mk.injEq, reduceCtorEq] at hnum <;>
    obtain ⟨rfl, rfl⟩ := hnum
  case equal => exact .truth (by simp [sign.read_inj])
  case notEqual => exact .truth (by simp [sign.read_inj])
  case less => cases sign <;> exact .truth (by simp [Sign.read, BitVec.slt, BitVec.ult])
  case greater => cases sign <;> exact .truth (by simp [Sign.read, BitVec.slt, BitVec.ult])
  case lessEqual => cases sign <;> exact .truth (by simp [Sign.read, BitVec.sle, BitVec.ule])
  case greaterEqual => cases sign <;> exact .truth (by simp [Sign.read, BitVec.sle, BitVec.ule])
  all_goals cases hop

end Operators

theorem Computes.represents {word : BitVec w → Word} {sign : Sign} {t : Ty}
    {r : Except Stop Word} {n : Except Stop Int} (h : Computes word sign r n)
    (hadmits : ∀ z, t.Admits (word z)) (hread : ∀ z, t.read (word z) = sign.read z) :
    t.Represents (r.map fun z => [z]) n := by
  cases h with
  | pattern z =>
      rw [← hread z]
      exact .value (hadmits z)
  | trap => exact .stop .trap

/-- Words of one width: comparisons leave an `i32`, other operations a word of the type. -/
theorem onBits_represents {op : BinaryOp} {num : NumOp} {signed : Bool} {t : Ty} {sign : Sign}
    (word : BitVec w → Word) (hnum : numOp? op = some (num, signed)) (hw : 0 < w)
    (hdvd : w ∣ 2 ^ w) (hadmits : ∀ z, t.Admits (word z))
    (hread : ∀ z, t.read (word z) = sign.read z) (x y : BitVec w) :
    Ty.Represents (if op.isComparison then .i32 else t)
      ((num.onBits word x y (if signed then some sign else none)).map fun z => [z])
      (op.onNumbers sign w (t.read (word x)) (t.read (word y))) := by
  rw [hread, hread]
  cases hop : op.isComparison with
  | true => exact (onBits_compares word sign x y hnum hop).represents (fun _ => rfl) fun _ => rfl
  | false => exact (onBits_computes word sign x y hnum hw hdvd hop).represents hadmits hread

theorem binaryInstr_represents {op : BinaryOp} {t : Ty} {sign : Sign} {i : Instr}
    (hsign : t.sign? = some sign) (hi : binaryInstr op t = .ok i) {x y : Word} (hx : t.Admits x)
    (hy : t.Admits y) :
    Ty.Represents (if op.isComparison then .i32 else t) (i.onWords [y, x])
      (op.onNumbers sign x.width (t.read x) (t.read y)) := by
  obtain ⟨v, num, signed, hv, hnum, -, rfl⟩ := binaryInstr_eq_ok.mp hi
  have hvoid : t ≠ .void := by
    rintro rfl
    cases hsign
  rw [signOf_eq t hvoid, hsign]
  have hread32 : ∀ z, t.read (.i32 z) = sign.read z := fun z => by simp [Ty.read, hsign]
  have hread64 : ∀ z, t.read (.i64 z) = sign.read z := fun z => by simp [Ty.read, hsign]
  obtain rfl : v = x.type := Option.some.inj (hv.symm.trans hx)
  have hsame : y.type = x.type := Option.some.inj (hy.symm.trans hx)
  cases x with
  | i32 x =>
      cases y with
      | i64 y => cases hsame
      | i32 y => exact onBits_represents .i32 hnum (by decide) (by decide) (fun _ => hx) hread32 x y
  | i64 x =>
      cases y with
      | i32 y => cases hsame
      | i64 y => exact onBits_represents .i64 hnum (by decide) (by decide) (fun _ => hx) hread64 x y

/-! ## Conversions -/

theorem conversion_cases {s t : Ty} {source target : Sign} {i : Option Instr}
    (hs : s.sign? = some source) (ht : t.sign? = some target) (h : conversion s t = .ok i) :
    (ValueType.ofTy? s = ValueType.ofTy? t ∧ i = none) ∨
      (ValueType.ofTy? s = some .i32 ∧ ValueType.ofTy? t = some .i64 ∧
        i = some (.convert .i64 .extend .i32 (some source))) ∨
      (ValueType.ofTy? s = some .i64 ∧ ValueType.ofTy? t = some .i32 ∧
        i = some (.convert .i32 .wrap .i64 none)) := by
  cases s with
  | pointer s =>
      cases t with
      | pointer t => exact .inl ⟨rfl, (Except.ok.inj h).symm⟩
      | base b => cases b <;> simp_all [conversion, ValueType.ofTy?, ValueType.ofBase?]
  | base b =>
      cases t with
      | pointer t => cases b <;> simp_all [conversion, ValueType.ofTy?, ValueType.ofBase?]
      | base c =>
          cases b <;> cases c <;> simp_all [conversion, baseConversion, ValueType.ofTy?,
            ValueType.ofBase?, Ty.sign?, signOf, BaseType.isFloat, BaseType.isSigned]

theorem read_modEq (sign sign' : Sign) (x : BitVec w) :
    sign.read x ≡ sign'.read x [ZMOD 2 ^ w] :=
  (sign.read_emod x).trans (sign'.read_emod x).symm

/-- A pattern is extended by the sign of the source, whatever that of the target. -/
theorem extend_modEq (source target : Sign) (x : BitVec 32) :
    ∃ y : BitVec 64,
      (Instr.convert .i64 .extend .i32 (some source)).onWords [.i32 x] = .ok [.i64 y] ∧
        target.read y ≡ source.read x [ZMOD 2 ^ 64] := by
  cases source with
  | signed =>
      refine ⟨x.signExtend 64, rfl, ?_⟩
      have hvalue : Sign.signed.read (x.signExtend 64) = Sign.signed.read x :=
        BitVec.toInt_signExtend_of_le (by decide)
      exact hvalue ▸ read_modEq target .signed (x.signExtend 64)
  | unsigned =>
      refine ⟨x.setWidth 64, rfl, ?_⟩
      have hvalue : Sign.unsigned.read (x.setWidth 64) = Sign.unsigned.read x :=
        congrArg Nat.cast (BitVec.toNat_setWidth_of_le (by decide))
      exact hvalue ▸ read_modEq target .unsigned (x.setWidth 64)

theorem wrap_modEq (source target : Sign) (x : BitVec 64) :
    target.read (x.setWidth 32) ≡ source.read x [ZMOD 2 ^ 32] := by
  have hlow : Sign.unsigned.read (x.setWidth 32) ≡ Sign.unsigned.read x [ZMOD 2 ^ 32] := by
    simp [Sign.read, Int.ModEq]
  have hhigh : Sign.unsigned.read x ≡ source.read x [ZMOD 2 ^ 32] :=
    (read_modEq .unsigned source x).of_dvd (by decide)
  exact ((read_modEq target .unsigned _).trans hlow).trans hhigh

theorem conversion_modEq {s t : Ty} {source target : Sign} {i : Option Instr}
    (hs : s.sign? = some source) (ht : t.sign? = some target) (h : conversion s t = .ok i)
    {x : Word} (hx : s.Admits x) :
    ∃ y, Instr.allOnWords i.toList [x] = .ok [y] ∧ t.Admits y ∧
      t.read y ≡ s.read x [ZMOD 2 ^ y.width] := by
  have hread {u : Ty} {sign : Sign} (hu : u.sign? = some sign) :
      (∀ z, u.read (.i32 z) = sign.read z) ∧ ∀ z, u.read (.i64 z) = sign.read z := by
    simp [Ty.read, hu]
  obtain ⟨hsource32, hsource64⟩ := hread hs
  obtain ⟨htarget32, htarget64⟩ := hread ht
  rcases conversion_cases hs ht h with ⟨hsame, rfl⟩ | ⟨hwide, htype, rfl⟩ | ⟨hwide, htype, rfl⟩
  · refine ⟨x, rfl, hsame.symm.trans hx, ?_⟩
    cases x with
    | i32 x => exact (htarget32 x ▸ hsource32 x ▸ read_modEq target source x)
    | i64 x => exact (htarget64 x ▸ hsource64 x ▸ read_modEq target source x)
  · cases x with
    | i64 x => cases hwide.symm.trans hx
    | i32 x =>
        obtain ⟨y, hrun, hmod⟩ := extend_modEq source target x
        refine ⟨.i64 y, ?_, htype, htarget64 y ▸ hsource32 x ▸ hmod⟩
        rw [Option.toList_some, Instr.allOnWords, List.foldlM_cons, hrun]
        rfl
  · cases x with
    | i32 x => cases hwide.symm.trans hx
    | i64 x =>
        refine ⟨.i32 (x.setWidth 32), rfl, htype, ?_⟩
        exact htarget32 _ ▸ hsource64 x ▸ wrap_modEq source target x

end Lower

open Lower

/-- Integers and pointers: for every operation that the rules allow there is an instruction, and
what it does with two words of the type is what the operation gives for the numbers that they stand
for. A conversion, where there is one, leaves a word of the target type whose number is congruent to
the one before, modulo the number of words of that type. -/
theorem selected_instructions_compute_numbers :
    (∀ (op : BinaryOp) (left right : Expr TypedNode) (location : Location) (result : Ty)
        (sign : Sign), op ≠ .assign → left.type.sign? = some sign →
      Check.binaryType op left right location = .ok result →
      ∃ i, binaryInstr op left.type = .ok i ∧
        ∀ x y : Word, left.type.Admits x → left.type.Admits y →
          result.Represents (i.onWords [y, x])
            (op.onNumbers sign x.width (left.type.read x) (left.type.read y))) ∧
    ∀ (s t : Ty) (source target : Sign) (i : Option Instr), s.sign? = some source →
      t.sign? = some target → conversion s t = .ok i → ∀ x : Word, s.Admits x →
        ∃ y, Instr.allOnWords i.toList [x] = .ok [y] ∧ t.Admits y ∧
          t.read y ≡ s.read x [ZMOD 2 ^ y.width] := by
  refine ⟨?_, fun s t source target i hs ht h x hx => conversion_modEq hs ht h hx⟩
  intro op left right location result sign hop hsign hallowed
  obtain ⟨hvoid, hint, -, rfl⟩ := Check.binaryType_allows hallowed
  obtain ⟨i, hi⟩ := exists_binaryInstr hop hvoid hint
  exact ⟨i, hi, fun x y hx hy => binaryInstr_represents hsign hi hx hy⟩

/-- Minus seven divided by two is minus three; the largest pointer is not less than zero; and minus
one becomes the largest `u64`. -/
theorem negative_operands_compute_numbers :
    let note (t : Ty) : TypedNode := ⟨⟨0, ⟨⟨1, 1⟩, ⟨1, 2⟩⟩⟩, t⟩
    let i : Expr TypedNode := .name (note .i32) "i"
    let p : Expr TypedNode := .name (note (.pointer .i32)) "p"
    (∃ instr, binaryInstr .div .i32 = .ok instr ∧
      Ty.i32.Represents (instr.onWords [.i32 2, .i32 (-7)]) (.ok (-3))) ∧
    (∃ instr, binaryInstr .less p.type = .ok instr ∧
      Ty.i32.Represents (instr.onWords [.i32 0, .i32 (-1)]) (.ok 0)) ∧
    Check.binaryType .div i i ⟨1, 1⟩ = .ok .i32 ∧
    ∃ y, Instr.allOnWords [.convert .i64 .extend .i32 (some .signed)] [.i32 (-1)] = .ok [y] ∧
      (Ty.base .u64).Admits y ∧ (Ty.base .u64).read y ≡ -1 [ZMOD 2 ^ y.width] := by
  intro note i p
  have hdiv : Check.binaryType .div i i ⟨1, 1⟩ = .ok .i32 := by decide
  have hless : Check.binaryType .less p p ⟨1, 1⟩ = .ok .i32 := by decide
  obtain ⟨binary, converted⟩ := selected_instructions_compute_numbers
  obtain ⟨quotient, hquotient, hthree⟩ := binary .div i i ⟨1, 1⟩ .i32 .signed (by decide) rfl hdiv
  obtain ⟨compare, hcompare, hzero⟩ :=
    binary .less p p ⟨1, 1⟩ .i32 .unsigned (by decide) rfl hless
  exact ⟨⟨quotient, hquotient, hthree (.i32 (-7)) (.i32 2) rfl rfl⟩,
    ⟨compare, hcompare, hzero (.i32 (-1)) (.i32 0) rfl rfl⟩, hdiv,
    converted .i32 (.base .u64) .signed .unsigned _ rfl rfl rfl (.i32 (-1)) rfl⟩

end Wattle
