import Mathlib.Data.List.Nodup
import Wattle.Lower.Program
import Wattle.Proofs.DeclaredLocals
import Wattle.Proofs.ScopeMatch
import Wattle.Proofs.Selection
import Wattle.Proofs.Typing

/-!
# Where declarations are kept

Declarations take slots in the order of the text. Wherever lowering stands in a body, the
declarations still to come have the slots from some number on, one after the other, and every
name in scope has a slot below that number.
-/

namespace Wattle

namespace Stmt

variable {table : Signatures} {result : Ty}

mutual

theorem Typed.locals : {scope : Scope Symbol} → {s : Stmt TypedNode} →
    Typed table result scope s → ∀ l ∈ s.locals, l.type ≠ .void
  | _, .cond _ arms otherwise, .cond branches last => by
      intro l hl
      rcases List.mem_append.mp hl with hl | hl
      · exact branches.locals l hl
      · exact last.locals l hl
  | _, .loop _ _ body, .loop _ _ inside => inside.locals
  | _, .ret _ none, _ => by simp [Stmt.locals]
  | _, .ret _ (some _), _ => by simp [Stmt.locals]
  | _, .declare node _ _ type _, .declare _ _ value => by
      intro l hl
      obtain rfl := List.mem_singleton.mp hl
      exact Ty.ne_void_of_voidFree value
  | _, .expr _ _, _ => by simp [Stmt.locals]

theorem ListTyped.locals : {scope : Scope Symbol} → {body : List (Stmt TypedNode)} →
    ListTyped table result scope body → ∀ l ∈ listLocals body, l.type ≠ .void
  | _, [], _ => by simp [listLocals]
  | _, s :: rest, .cons first _ others => by
      intro l hl
      rcases List.mem_append.mp hl with hl | hl
      · exact first.locals l hl
      · exact others.locals l hl

theorem ArmsTyped.locals : {scope : Scope Symbol} → {arms : List (Arm TypedNode)} →
    ArmsTyped table result scope arms → ∀ l ∈ armsLocals arms, l.type ≠ .void
  | _, [], _ => by simp [armsLocals]
  | _, ⟨_, body, _⟩ :: rest, .cons _ _ inside others => by
      intro l hl
      rcases List.mem_append.mp hl with hl | hl
      · exact inside.locals l hl
      · exact others.locals l hl

theorem ElseTyped.locals : {scope : Scope Symbol} → {otherwise : Option (List (Stmt TypedNode))} →
    ElseTyped table result scope otherwise → ∀ l ∈ elseLocals otherwise, l.type ≠ .void
  | _, none, _ => by simp [elseLocals]
  | _, some body, .some inside => inside.locals

end

end Stmt

namespace Lower

open Wasm

/-- The declarations have the slots from `next` on, in order, and `types` gives their machine
types there. -/
def Room (table : SlotTable) (types : List ValueType) (next : Nat) (locals : List LocalDecl) :
    Prop :=
  ∀ i l, locals[i]? = some l →
    table.slotFor l.id = .ok (next + i) ∧ types[next + i]? = ValueType.ofTy? l.type

namespace Room

variable {table : SlotTable} {types : List ValueType} {next : Nat} {xs ys : List LocalDecl}

theorem head {l : LocalDecl} (h : Room table types next (l :: xs)) :
    table.slotFor l.id = .ok next ∧ types[next]? = ValueType.ofTy? l.type :=
  h 0 l rfl

theorem left (h : Room table types next (xs ++ ys)) : Room table types next xs := by
  intro i l hl
  obtain ⟨hi, -⟩ := List.getElem?_eq_some_iff.mp hl
  exact h i l (by rw [List.getElem?_append_left hi, hl])

theorem right (h : Room table types next (xs ++ ys)) :
    Room table types (next + xs.length) ys := by
  intro i l hl
  have hslot := h (xs.length + i) l
    (by rw [List.getElem?_append_right (Nat.le_add_right _ _)]; simpa using hl)
  rwa [← Nat.add_assoc] at hslot

end Room

theorem lookup_of_mem {β : Type} {entries : List (Nat × β)} {key : Nat} {value : β}
    (hnodup : (entries.map Prod.fst).Nodup) (hmem : (key, value) ∈ entries) :
    entries.lookup key = some value := by
  induction entries with
  | nil => simp at hmem
  | cons entry entries ih =>
      obtain ⟨other, old⟩ := entry
      rw [List.map_cons, List.nodup_cons] at hnodup
      rcases List.mem_cons.mp hmem with heq | hrest
      · cases heq
        exact List.lookup_cons_self
      · have hne : key ≠ other := by
          rintro rfl
          exact hnodup.1 (List.mem_map.mpr ⟨_, hrest, rfl⟩)
        rw [List.lookup_cons, beq_false_of_ne hne]
        exact ih hnodup.2 hrest

theorem allocate_eq_ok {α : Type} {d : FuncDef α} {table : SlotTable}
    (h : SlotTable.allocate d = .ok table) :
    table.slots = (((Stmt.listLocals d.body).zipIdx d.signature.parameters.length).map
      fun (l, slot) => (l.id, slot)).reverse ∧
    List.Forall₂ (fun l t => valueType l.type = .ok t) (Stmt.listLocals d.body) table.locals := by
  simp only [SlotTable.allocate_eq, except_bind_eq_ok, except_pure_eq_ok] at h
  obtain ⟨types, htypes, rfl⟩ := h
  exact ⟨List.append_nil _, except_mapM_eq_ok.mp htypes⟩

theorem exists_allocate {α : Type} {d : FuncDef α}
    (h : ∀ l ∈ Stmt.listLocals d.body, l.type ≠ .void) :
    ∃ table, SlotTable.allocate d = .ok table := by
  obtain ⟨types, htypes⟩ := except_exists_mapM (f := fun l : LocalDecl => valueType l.type)
    fun l hl => exists_valueType (h l hl)
  rw [SlotTable.allocate_eq, htypes]
  exact ⟨_, rfl⟩

/-- The declarations of a function have the slots behind its parameters. -/
theorem allocate_room {α : Type} {d : FuncDef α} {table : SlotTable} {params : List ValueType}
    (hnodup : ((Stmt.listLocals d.body).map LocalDecl.id).Nodup)
    (hparams : params.length = d.signature.parameters.length)
    (h : SlotTable.allocate d = .ok table) :
    Room table (params ++ table.locals) d.signature.parameters.length
      (Stmt.listLocals d.body) := by
  obtain ⟨hslots, htypes⟩ := allocate_eq_ok h
  have hkeys : (table.slots.map Prod.fst).Nodup := by
    have hcomp : (Prod.fst ∘ fun (x : LocalDecl × Nat) => (x.1.id, x.2)) =
        LocalDecl.id ∘ Prod.fst := rfl
    rw [hslots, List.map_reverse, List.nodup_reverse, List.map_map, hcomp, ← List.map_map,
      List.zipIdx_map_fst]
    exact hnodup
  intro i l hl
  constructor
  · have hmem : (l.id, d.signature.parameters.length + i) ∈ table.slots := by
      rw [hslots, List.mem_reverse, List.mem_map]
      exact ⟨(l, _), List.mk_add_mem_zipIdx_iff_getElem?.mpr hl, rfl⟩
    simp only [SlotTable.slotFor, lookup_of_mem hkeys hmem]
  · obtain ⟨t, ht, hvalue⟩ := forall₂_getElem? htypes hl
    rw [← hparams, List.getElem?_append_right (Nat.le_add_right _ _), Nat.add_sub_cancel_left, ht]
    exact (valueType_eq_ok.mp hvalue).symm

/-! ## Parameters -/

theorem funcType_eq_ok {signature : Signature} {type : FuncType} :
    funcType signature = .ok type ↔
      List.Forall₂ (fun p v => ValueType.ofTy? p.type = some v) signature.parameters type.params ∧
        type.result = ValueType.ofTy? signature.result := by
  obtain ⟨params, result⟩ := type
  simp only [funcType, except_bind_eq_ok, except_mapM_eq_ok, valueType_eq_ok]
  cases hvoid : signature.result.isVoid with
  | true =>
      rw [ofTy?_eq_none.mpr (Ty.isVoid_iff.mp hvoid)]
      simp [except_pure_eq_ok, eq_comm (a := result)]
  | false =>
      obtain ⟨v, hv⟩ := exists_valueType (Ty.isVoid_eq_false.mp hvoid)
      rw [hv, valueType_eq_ok.mp hv]
      simp [eq_comm (a := result)]

theorem exists_funcType {signature : Signature} (h : signature.voidFree = true) :
    ∃ type, funcType signature = .ok type := by
  simp only [Signature.voidFree, Bool.and_eq_true, List.all_eq_true] at h
  obtain ⟨params, hparams⟩ := except_exists_mapM (f := fun p : Parameter => valueType p.type)
    fun p hp => exists_valueType (Ty.ne_void_of_voidFree (h.1 p hp))
  refine ⟨⟨params, ValueType.ofTy? signature.result⟩, funcType_eq_ok.mpr ⟨?_, rfl⟩⟩
  exact (except_mapM_eq_ok.mp hparams).imp fun p v hv => valueType_eq_ok.mp hv

/-- At the start of a body the rules and lowering know the same names: the parameters. -/
theorem parameterScope_match {R : Symbol → Nat → Prop} {parameters : List Parameter}
    (h : ∀ i p, parameters[i]? = some p → R ⟨p.type, .parameter⟩ i) :
    (Check.parameterScope parameters).Match R (parameterScope parameters) := by
  simp only [Check.parameterScope, parameterScope]
  refine Scope.Match.insertAll (n := Parameter.name) (m := fun q : Parameter × Nat => q.1.name)
    (u := fun p : Parameter => (⟨p.type, .parameter⟩ : Symbol)) (v := Prod.snd) ?_ Scope.Match.root
  refine List.forall₂_iff_get.mpr ⟨by simp, fun i hi hi' => ?_⟩
  have hget := h i parameters[i] (List.getElem?_eq_getElem hi)
  simpa using hget

end Lower

end Wattle
