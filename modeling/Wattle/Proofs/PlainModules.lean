import Wattle.Proofs.MemoryUse
import Wattle.Proofs.PrintedLines
import Wattle.Proofs.SpelledTokens

/-!
# Texts that reach an atom

The atoms of a module hold fixed words, numbers, and names and digits that come from the source
text. A name has letters, digits and underscores only, and digits may have a point among them, so no
source text can put anything into a module that would be read as something else.
-/

namespace Wattle

namespace Wasm

open Reader

/-! ## Words -/

/-- Whether no character of the text ends a word. -/
def isUnbroken (text : String) : Bool :=
  text.toList.all (!isDelimiter ·)

theorem isUnbroken_iff {text : String} :
    isUnbroken text = true ↔ ∀ c ∈ text.toList, isDelimiter c = false := by
  simp [isUnbroken]

instance (text : String) : Decidable (IsWord text) :=
  decidable_of_iff (text.toList ≠ [] ∧ isUnbroken text = true)
    ⟨fun h => ⟨h.1, isUnbroken_iff.mp h.2⟩, fun h => ⟨h.nonempty, isUnbroken_iff.mpr h.whole⟩⟩

theorem IsWord.unbroken {text : String} (h : IsWord text) : isUnbroken text = true :=
  isUnbroken_iff.mpr h.whole

theorem IsWord.append {first last : String} (h : IsWord first) (hlast : isUnbroken last = true) :
    IsWord (first ++ last) where
  nonempty := by
    rw [String.toList_append]
    exact List.append_ne_nil_of_left_ne_nil h.nonempty _
  whole := by
    rw [String.toList_append]
    exact List.forall_mem_append.mpr ⟨h.whole, isUnbroken_iff.mp hlast⟩

theorem IsWord.plain {text : String} (h : IsWord text) : Plain text := by
  have hplain : Plain (" ".intercalate [text]) :=
    .words (List.cons_ne_nil _ _) (List.forall_mem_singleton.mpr h)
  rwa [String.intercalate_singleton] at hplain

/-- An instruction with an operand. -/
theorem plain_pair (first : String) {last : String} (hfirst : IsWord first) (hlast : IsWord last) :
    Plain (first ++ " " ++ last) := by
  have hplain : Plain (" ".intercalate [first, last]) :=
    .words (List.cons_ne_nil _ _)
      (List.forall_mem_cons.mpr ⟨hfirst, List.forall_mem_singleton.mpr hlast⟩)
  rwa [String.intercalate_cons_cons, String.intercalate_singleton] at hplain

theorem isDelimiter_of_isNameChar {c : Char} (h : Word.isNameChar c = true) :
    isDelimiter c = false := by
  have hblank := Lexer.not_isBlank_of_isNameChar h
  have hne : ∀ d, Word.isNameChar d = false → c ≠ d := by
    rintro d hd rfl
    rw [h] at hd
    cases hd
  simp [isDelimiter, hblank, hne '(' (by decide), hne ')' (by decide), hne '"' (by decide)]

theorem isDelimiter_of_isDigit {c : Char} (h : c.isDigit = true) : isDelimiter c = false :=
  isDelimiter_of_isNameChar (by simp [Word.isNameChar, Char.isAlphanum, h])

theorem isWord_toString (n : Nat) : IsWord (toString n) where
  nonempty := by
    rw [show (toString n).toList = Nat.toDigits 10 n from Nat.toList_repr]
    exact Nat.toDigits_ne_nil
  whole := by
    rw [show (toString n).toList = Nat.toDigits 10 n from Nat.toList_repr]
    intro c hc
    exact isDelimiter_of_isDigit (Nat.isDigit_of_mem_toDigits (by decide) (by decide) hc)

theorem isWord_name (type : ValueType) : IsWord type.name := by
  cases type <;> decide

theorem isWord_identifier {name : String} (h : IsWord name) : IsWord ("$" ++ name) :=
  (by decide : IsWord "$").append h.unbroken

theorem plain_atom {text : String} (h : Plain text) : ∀ t ∈ (SExpr.atom text).atoms, Plain t :=
  List.forall_mem_singleton.mpr h

/-! ## Instructions -/

namespace Instr

mutual

/-- The names and digits that an instruction takes from elsewhere. -/
def texts : Instr → List String
  | const _ digits => [digits]
  | call name => [name]
  | block body => listTexts body
  | loop body => listTexts body
  | _ => []

def listTexts : List Instr → List String
  | [] => []
  | i :: rest => i.texts ++ listTexts rest

end

@[simp] theorem listTexts_nil : listTexts [] = [] := by
  simp only [listTexts]

@[simp] theorem listTexts_cons (i : Instr) (code : List Instr) :
    listTexts (i :: code) = i.texts ++ listTexts code := by
  simp only [listTexts]

@[simp] theorem listTexts_append (xs ys : List Instr) :
    listTexts (xs ++ ys) = listTexts xs ++ listTexts ys := by
  induction xs with
  | nil => simp
  | cons i xs ih => simp [ih]

theorem isWord_numeric (type : ValueType) (op : NumOp) (sign : Option Sign) :
    IsWord (type.name ++ "." ++ op.name ++ Sign.suffix sign) := by
  have hop : isUnbroken op.name = true := by cases op <;> decide
  have hsign : isUnbroken (Sign.suffix sign) = true := by
    match sign with
    | none | some .signed | some .unsigned => decide
  exact (((isWord_name type).append (by decide)).append hop).append hsign

theorem isWord_convert (target : ValueType) (op : ConvOp) (source : ValueType)
    (sign : Option Sign) :
    IsWord (target.name ++ "." ++ op.name ++ "_" ++ source.name ++ Sign.suffix sign) := by
  have hop : isUnbroken op.name = true := by cases op <;> decide
  have hsign : isUnbroken (Sign.suffix sign) = true := by
    match sign with
    | none | some .signed | some .unsigned => decide
  have hfirst : IsWord (target.name ++ "." ++ op.name ++ "_") :=
    (((isWord_name target).append (by decide)).append hop).append (by decide)
  exact (hfirst.append (isWord_name source).unbroken).append hsign

theorem plain_const (type : ValueType) {digits : String} (h : IsWord digits) :
    Plain (type.name ++ ".const " ++ digits) := by
  have hname : type.name ++ ".const " = type.name ++ ".const" ++ " " := by
    rw [String.append_assoc]
    rfl
  rw [hname]
  exact plain_pair _ ((isWord_name type).append (by decide)) h

mutual

/-- The atoms of an instruction are plain if what it takes from elsewhere are words. -/
theorem plain_atoms (i : Instr) (h : ∀ text ∈ i.texts, IsWord text) :
    ∀ text ∈ i.toSExpr.atoms, Plain text := by
  match i with
  | .const type digits => exact plain_atom (plain_const type (h digits List.mem_cons_self))
  | .localGet slot => exact plain_atom (plain_pair "local.get" (by decide) (isWord_toString slot))
  | .localSet slot => exact plain_atom (plain_pair "local.set" (by decide) (isWord_toString slot))
  | .numeric type op sign => exact plain_atom (isWord_numeric type op sign).plain
  | .convert target op source sign => exact plain_atom (isWord_convert target op source sign).plain
  | .eqz type => exact plain_atom ((isWord_name type).append (by decide)).plain
  | .load type => exact plain_atom ((isWord_name type).append (by decide)).plain
  | .store type => exact plain_atom ((isWord_name type).append (by decide)).plain
  | .call name =>
      have hname := isWord_identifier (h name List.mem_cons_self)
      exact plain_atom (plain_pair "call" (by decide) hname)
  | .br depth => exact plain_atom (plain_pair "br" (by decide) (isWord_toString depth))
  | .brIf depth => exact plain_atom (plain_pair "br_if" (by decide) (isWord_toString depth))
  | .drop => exact plain_atom (IsWord.plain (by decide))
  | .ret => exact plain_atom (IsWord.plain (by decide))
  | .block body | .loop body =>
      exact List.forall_mem_cons.mpr ⟨IsWord.plain (by decide), plain_atomsAll body h⟩

theorem plain_atomsAll (code : List Instr) (h : ∀ text ∈ listTexts code, IsWord text) :
    ∀ text ∈ SExpr.atomsAll (toSExprs code), Plain text := by
  match code with
  | [] => nofun
  | i :: rest =>
      rw [listTexts_cons] at h
      obtain ⟨hi, hrest⟩ := List.forall_mem_append.mp h
      rw [toSExprs, SExpr.atomsAll]
      exact List.forall_mem_append.mpr ⟨plain_atoms i hi, plain_atomsAll rest hrest⟩

end

end Instr

end Wasm

open Wasm
open Wasm.Reader (isDelimiter)

/-! ## Names and digits of a source text -/

theorem TokenKind.IsName.isWord {name : String} (h : IsName name) : IsWord name :=
  ⟨h.nonempty, fun c hc => isDelimiter_of_isNameChar (h.letters c hc)⟩

/-- A quoted name. -/
theorem TokenKind.IsName.plain_quoted {name : String} (h : IsName name) :
    Plain ("\"" ++ name ++ "\"") := by
  have hne : ∀ d, Word.isNameChar d = false → ∀ c ∈ name.toList, c ≠ d := by
    rintro d hd c hc rfl
    rw [h.letters c hc] at hd
    cases hd
  exact .quoted name fun c hc =>
    ⟨hne '"' (by decide) c hc, hne '\\' (by decide) c hc, hne '\n' (by decide) c hc⟩

theorem TokenKind.isWord_of_lexable {digits : String} {type : BaseType}
    (h : (TokenKind.number digits type).Lexable) : IsWord digits := by
  obtain ⟨word, hdigit, hread⟩ := h
  obtain ⟨p, hp⟩ := (Number.read?_eq_some_iff_literal hdigit).mp hread
  have hwhole : ∀ c ∈ p.whole, isDelimiter c = false := fun c hc =>
    isDelimiter_of_isDigit (hp.wellFormed.whole_digits c hc)
  have hdecimals : ∀ c ∈ p.decimals, isDelimiter c = false := fun c hc =>
    isDelimiter_of_isDigit (hp.wellFormed.decimals_digits c hc)
  have hpoint : isDelimiter '.' = false := by decide
  rw [hp.digits]
  constructor <;> rw [String.toList_ofList, Number.Parts.digits] <;> split
  · exact hp.wellFormed.whole_ne_nil
  · exact List.append_ne_nil_of_left_ne_nil hp.wellFormed.whole_ne_nil _
  · exact hwhole
  · exact List.forall_mem_append.mpr ⟨hwhole, List.forall_mem_cons.mpr ⟨hpoint, hdecimals⟩⟩

/-- All of the tokens stand for pieces of a text. -/
abbrev AllLexable (kinds : List TokenKind) : Prop :=
  ∀ kind ∈ kinds, kind.Lexable

theorem mem_commaSeparated {trailing : Bool} {items : List (List TokenKind)}
    {item : List TokenKind} (hitem : item ∈ items) {kind : TokenKind} (hkind : kind ∈ item) :
    kind ∈ commaSeparated trailing items := by
  match items with
  | [only] =>
      obtain rfl := List.mem_singleton.mp hitem
      exact List.mem_append_left _ hkind
  | first :: next :: rest =>
      rw [commaSeparated]
      rcases List.mem_cons.mp hitem with rfl | hitem
      · exact List.mem_append_left _ hkind
      · exact List.mem_append_right _ (List.mem_cons_of_mem _ (mem_commaSeparated hitem hkind))

theorem mem_of_mem_dropTrailingCommas {kinds : List TokenKind} {kind : TokenKind}
    (h : kind ∈ dropTrailingCommas kinds) : kind ∈ kinds := by
  fun_induction dropTrailingCommas kinds with
  | case1 => exact h
  | case2 k rest _ ih => exact List.mem_cons_of_mem _ (ih h)
  | case3 k rest _ ih =>
      rcases List.mem_cons.mp h with rfl | h
      · exact List.mem_cons_self
      · exact List.mem_cons_of_mem _ (ih h)

/-- A program that is read spells tokens that stand for pieces of the text. -/
theorem allLexable_yield {source : String} {p : Program TypedNode}
    (h : Compile.typedProgram source = .ok p) :
    ∃ digits, AllLexable (p.erase.yield digits) := by
  obtain ⟨tokens, htokens, hread, -⟩ := typedProgram_eq_ok h
  obtain ⟨-, digits, -, hyield⟩ :=
    parseProgram_reads_sentence (endOfFile_mem_of_tokenize htokens) hread
  refine ⟨digits, fun kind hkind => ?_⟩
  rw [hyield] at hkind
  have hsentence := mem_of_mem_dropTrailingCommas hkind
  obtain ⟨t, ht, rfl⟩ := List.mem_map.mp ((List.takeWhile_sublist _).subset hsentence)
  exact lexable_of_tokenize htokens ht (by simpa using List.mem_takeWhile_imp hsentence)

/-! ## Trees with other notes spell the same -/

section Notes

variable {α β : Type} (f : α → β)

mutual

theorem Expr.yield_map : (e : Expr α) → (e.map f).yield = e.yield
  | .name _ _ | .number _ _ _ => rfl
  | .call _ _ args => by rw [Expr.map, Expr.yield, Expr.yield, Expr.yields_mapList args]
  | .unary _ _ operand => by rw [Expr.map, Expr.yield, Expr.yield, Expr.yield_map operand]
  | .binary _ _ left right => by
      rw [Expr.map, Expr.yield, Expr.yield, Expr.yield_map left, Expr.yield_map right]
  | .paren _ inner => by rw [Expr.map, Expr.yield, Expr.yield, Expr.yield_map inner]
  | .cast _ operand _ => by rw [Expr.map, Expr.yield, Expr.yield, Expr.yield_map operand]

theorem Expr.yields_mapList : (es : List (Expr α)) →
    Expr.yields (Expr.mapList f es) = Expr.yields es
  | [] => rfl
  | e :: rest => by
      rw [Expr.mapList, Expr.yields, Expr.yields, Expr.yield_map e, Expr.yields_mapList rest]

end

mutual

theorem Stmt.yield_map : (s : Stmt α) → (s.map f).yield = s.yield
  | .cond _ arms otherwise => by
      rw [Stmt.map, Stmt.yield, Stmt.yield, Stmt.armsYield_mapArms arms,
        Stmt.elseYield_mapElse otherwise]
  | .loop _ condition body => by
      rw [Stmt.map, Stmt.yield, Stmt.yield, Expr.yield_map, Stmt.listYield_mapList body]
  | .ret _ none => rfl
  | .ret _ (some value) => by
      simp only [Stmt.map, Stmt.yield, Option.map_some, Expr.yield_map]
  | .declare _ _ _ _ initial => by rw [Stmt.map, Stmt.yield, Stmt.yield, Expr.yield_map]
  | .expr _ value => by rw [Stmt.map, Stmt.yield, Stmt.yield, Expr.yield_map]

theorem Stmt.listYield_mapList : (body : List (Stmt α)) →
    Stmt.listYield (Stmt.mapList f body) = Stmt.listYield body
  | [] => rfl
  | s :: rest => by
      rw [Stmt.mapList, Stmt.listYield, Stmt.listYield, Stmt.yield_map s,
        Stmt.listYield_mapList rest]

theorem Stmt.armsYield_mapArms {word : Keyword} : (arms : List (Arm α)) →
    Stmt.armsYield word (Stmt.mapArms f arms) = Stmt.armsYield word arms
  | [] => rfl
  | ⟨condition, body, _⟩ :: rest => by
      rw [Stmt.mapArms, Stmt.mapArm, Stmt.armsYield, Stmt.armsYield, Expr.yield_map,
        Stmt.listYield_mapList body, Stmt.armsYield_mapArms rest]

theorem Stmt.elseYield_mapElse : (otherwise : Option (List (Stmt α))) →
    Stmt.elseYield (Stmt.mapElse f otherwise) = Stmt.elseYield otherwise
  | none => rfl
  | some body => by
      rw [Stmt.mapElse, Stmt.elseYield, Stmt.elseYield, Stmt.listYield_mapList body]

end

theorem Func.yield_map (g : Func α) : (g.map f).yield = g.yield := by
  cases g with
  | plain d => simp only [Func.map, FuncDef.map, Func.yield, Stmt.listYield_mapList]
  | exported d => simp only [Func.map, FuncDef.map, Func.yield, Stmt.listYield_mapList]
  | imported i => rfl

end Notes

/-! ## Code -/

namespace Lower

theorem binaryInstr_texts {op : BinaryOp} {t : Ty} {i : Instr} (h : binaryInstr op t = .ok i) :
    i.texts = [] := by
  obtain ⟨v, num, signed, -, -, -, rfl⟩ := binaryInstr_eq_ok.mp h
  simp only [Instr.texts]

theorem conversion_texts {s t : Ty} {i : Option Instr} (h : conversion s t = .ok i) :
    Instr.listTexts i.toList = [] := by
  rcases conversion_form h with rfl | ⟨target, op, source, sign, rfl⟩
  · simp
  · simp [Instr.texts]

/-- The code takes words only from the source text. -/
abbrev Spelled (code : List Instr) : Prop :=
  ∀ text ∈ Instr.listTexts code, IsWord text

mutual

theorem expr_spelled {slots : Scope Nat} : (e : Expr TypedNode) → AllLexable e.yield →
    {code : List Instr} → expr slots e = .ok code → Spelled code
  | .name _ id, _, code, h => by
      simp only [expr, except_bind_eq_ok, except_pure_eq_ok] at h
      obtain ⟨slot, -, rfl⟩ := h
      simp [Spelled, Instr.texts]
  | .number _ digits base, hlex, code, h => by
      simp only [Expr.yield, AllLexable, List.forall_mem_singleton] at hlex
      simp only [expr] at h
      split at h
      · obtain rfl := Except.ok.inj h
        simpa [Spelled, Instr.texts] using TokenKind.isWord_of_lexable hlex
      · cases h
  | .call _ callee args, hlex, code, h => by
      simp only [Expr.yield, AllLexable, List.forall_mem_cons, List.forall_mem_append] at hlex
      obtain ⟨hcallee, -, hargs, -⟩ := hlex
      simp only [expr, except_bind_eq_ok, except_pure_eq_ok] at h
      obtain ⟨inner, hinner, rfl⟩ := h
      have hcode := exprs_spelled args
        (fun arg harg kind hkind => hargs kind (mem_commaSeparated harg hkind)) hinner
      have hname := TokenKind.IsName.isWord hcallee
      simpa [Spelled, Instr.texts, or_imp, forall_and] using ⟨hcode, hname⟩
  | .unary _ .negate operand, hlex, code, h => by
      simp only [expr, except_bind_eq_ok, except_pure_eq_ok] at h
      obtain ⟨v, -, inner, hinner, sub, hsub, rfl⟩ := h
      have hcode := expr_spelled operand (List.forall_mem_cons.mp hlex).2 hinner
      have hzero : IsWord "0" := by decide
      simpa [Spelled, Instr.texts, binaryInstr_texts hsub] using ⟨hzero, hcode⟩
  | .unary _ .deref operand, hlex, code, h => by
      simp only [expr, except_bind_eq_ok, except_pure_eq_ok] at h
      obtain ⟨inner, hinner, v, -, rfl⟩ := h
      have hcode := expr_spelled operand (List.forall_mem_cons.mp hlex).2 hinner
      simpa [Spelled, Instr.texts] using hcode
  | .unary _ .logicalNot operand, hlex, code, h => by
      simp only [expr, except_bind_eq_ok, except_pure_eq_ok] at h
      obtain ⟨inner, hinner, rfl⟩ := h
      have hcode := expr_spelled operand (List.forall_mem_cons.mp hlex).2 hinner
      simpa [Spelled, Instr.texts] using hcode
  | .binary _ op left right, hlex, code, h => by
      simp only [Expr.yield, AllLexable, List.forall_mem_cons, List.forall_mem_append] at hlex
      obtain ⟨hleft, -, hright⟩ := hlex
      by_cases hop : op = .assign
      · subst hop
        rw [expr.eq_def] at h
        simp only [if_true] at h
        -- only names and reads through a pointer are targets
        split at h
        · simp only [except_bind_eq_ok, except_pure_eq_ok] at h
          obtain ⟨slot, -, value, hvalue, rfl⟩ := h
          have hcode := expr_spelled right hright hvalue
          simpa [Spelled, Instr.texts] using hcode
        · next note address =>
          simp only [except_bind_eq_ok, except_pure_eq_ok] at h
          obtain ⟨place, hplace, value, hvalue, v, -, rfl⟩ := h
          have hfirst := expr_spelled address (List.forall_mem_cons.mp hleft).2 hplace
          have hsecond := expr_spelled right hright hvalue
          simpa [Spelled, Instr.texts, or_imp, forall_and] using ⟨hfirst, hsecond⟩
        · cases h
      · rw [expr_binary hop] at h
        simp only [except_bind_eq_ok, except_pure_eq_ok] at h
        obtain ⟨first, hfirst, second, hsecond, i, hi, rfl⟩ := h
        have hleftCode := expr_spelled left hleft hfirst
        have hrightCode := expr_spelled right hright hsecond
        simpa [Spelled, binaryInstr_texts hi, or_imp, forall_and] using ⟨hleftCode, hrightCode⟩
  | .paren _ inner, hlex, code, h => by
      simp only [expr] at h
      simp only [Expr.yield, AllLexable, List.forall_mem_cons, List.forall_mem_append] at hlex
      exact expr_spelled inner hlex.2.1 h
  | .cast _ operand target, hlex, code, h => by
      simp only [Expr.yield, AllLexable, List.forall_mem_append] at hlex
      simp only [expr, except_bind_eq_ok, except_pure_eq_ok] at h
      obtain ⟨inner, hinner, i, hi, rfl⟩ := h
      have hcode := expr_spelled operand hlex.1 hinner
      simpa [Spelled, conversion_texts hi] using hcode

theorem exprs_spelled {slots : Scope Nat} : (args : List (Expr TypedNode)) →
    (∀ arg ∈ Expr.yields args, AllLexable arg) → {code : List Instr} →
    exprs slots args = .ok code → Spelled code
  | [], _, code, h => by
      simp only [exprs, Except.ok.injEq] at h
      subst h
      simp [Spelled]
  | e :: rest, hlex, code, h => by
      obtain ⟨he, hrest⟩ := List.forall_mem_cons.mp hlex
      simp only [exprs, except_bind_eq_ok, except_pure_eq_ok] at h
      obtain ⟨first, hfirst, others, hothers, rfl⟩ := h
      have hcode := expr_spelled e he hfirst
      have hcodes := exprs_spelled rest hrest hothers
      simpa [Spelled, or_imp, forall_and] using ⟨hcode, hcodes⟩

end

theorem joinArms_spelled {codes : List (List Instr)} {last : Option (List Instr)}
    (hcodes : ∀ code ∈ codes, Spelled code) (hlast : ∀ code ∈ last, Spelled code) :
    Spelled [joinArms codes last] := by
  have hmany : Spelled (codes.map fun code => .block (code ++ [.br 1])) := by
    clear hlast
    induction codes with
    | nil => simp [Spelled]
    | cons code codes ih =>
        obtain ⟨hcode, hothers⟩ := List.forall_mem_cons.mp hcodes
        have hrest := ih hothers
        simpa [Spelled, Instr.texts, or_imp, forall_and] using ⟨hcode, hrest⟩
  have hend : Spelled (last.getD []) := by
    cases last with
    | none => simp [Spelled]
    | some code => exact hlast code rfl
  simp only [joinArms]
  split
  · next code => simpa [Spelled, Instr.texts] using hcodes code List.mem_cons_self
  · simpa [Spelled, Instr.texts, or_imp, forall_and] using ⟨hmany, hend⟩

section Statements

variable {slotTable : SlotTable}

mutual

theorem stmt_spelled : (s : Stmt TypedNode) → AllLexable s.yield → {slots slots' : Scope Nat} →
    {code : List Instr} → stmt slotTable s slots = .ok code slots' → Spelled code
  | .cond _ branches otherwise, hlex, slots, slots', code, h => by
      simp only [Stmt.yield, AllLexable, List.forall_mem_append] at hlex
      simp only [stmt, state_bind_eq_ok, state_pure_eq_ok] at h
      obtain ⟨codes, t, hcodes, last, u, hlast, rfl, rfl⟩ := h
      exact joinArms_spelled (arms_spelled branches hlex.1 hcodes)
        (elseBody_spelled otherwise hlex.2 hlast)
  | .loop _ condition body, hlex, slots, slots', code, h => by
      simp only [Stmt.yield, braced, AllLexable, List.forall_mem_cons, List.forall_mem_append]
        at hlex
      obtain ⟨-, -, hcondition, -, -, hbody, -⟩ := hlex
      simp only [stmt, state_bind_eq_ok, state_pure_eq_ok, exitUnless_eq_ok,
        Scope.within_eq_ok] at h
      obtain ⟨_, _, ⟨test, htest, rfl, rfl⟩, inner, t, ⟨u, hinner, rfl⟩, rfl, rfl⟩ := h
      have hfirst := expr_spelled condition hcondition htest
      have hsecond := stmts_spelled body hbody hinner
      simpa [Spelled, Instr.texts, or_imp, forall_and] using ⟨hfirst, hsecond⟩
  | .ret _ none, hlex, slots, slots', code, h => by
      simp only [stmt, returned, state_pure_eq_ok] at h
      obtain ⟨rfl, rfl⟩ := h
      simp [Spelled, Instr.texts]
  | .ret _ (some value), hlex, slots, slots', code, h => by
      simp only [Stmt.yield, Option.map_some, Option.getD_some, AllLexable, List.forall_mem_cons,
        List.forall_mem_append] at hlex
      simp only [stmt, returned, state_bind_eq_ok, state_pure_eq_ok, exprHere_eq_ok] at h
      obtain ⟨inner, t, ⟨hinner, rfl⟩, rfl, rfl⟩ := h
      have hcode := expr_spelled value hlex.2.1 hinner
      simpa [Spelled, Instr.texts] using hcode
  | .declare _ _ _ _ initial, hlex, slots, slots', code, h => by
      simp only [Stmt.yield, AllLexable, List.forall_mem_cons, List.forall_mem_append] at hlex
      obtain ⟨-, -, -, -, -, hinitial, -⟩ := hlex
      simp only [stmt, state_bind_eq_ok, state_pure_eq_ok, exprHere_eq_ok, state_ofExcept_eq_ok]
        at h
      obtain ⟨inner, _, ⟨hinner, rfl⟩, slot, _, -, _, _, -, rfl, rfl⟩ := h
      have hcode := expr_spelled initial hinitial hinner
      simpa [Spelled, Instr.texts] using hcode
  | .expr _ value, hlex, slots, slots', code, h => by
      simp only [Stmt.yield, AllLexable, List.forall_mem_append] at hlex
      simp only [stmt, state_bind_eq_ok, state_pure_eq_ok, exprHere_eq_ok] at h
      obtain ⟨inner, t, ⟨hinner, rfl⟩, rfl, rfl⟩ := h
      have hcode := expr_spelled value hlex.1 hinner
      split
      · simpa [Spelled, Instr.texts] using hcode
      · exact hcode

theorem stmts_spelled : (body : List (Stmt TypedNode)) → AllLexable (Stmt.listYield body) →
    {slots slots' : Scope Nat} → {code : List Instr} →
    stmts slotTable body slots = .ok code slots' → Spelled code
  | [], _, slots, slots', code, h => by
      simp only [stmts, state_pure_eq_ok] at h
      obtain ⟨rfl, rfl⟩ := h
      simp [Spelled]
  | s :: rest, hlex, slots, slots', code, h => by
      simp only [Stmt.listYield, AllLexable, List.forall_mem_append] at hlex
      simp only [stmts, state_bind_eq_ok, state_pure_eq_ok] at h
      obtain ⟨first, t, hfirst, others, u, hothers, rfl, rfl⟩ := h
      have hcode := stmt_spelled s hlex.1 hfirst
      have hcodes := stmts_spelled rest hlex.2 hothers
      simpa [Spelled, or_imp, forall_and] using ⟨hcode, hcodes⟩

theorem arms_spelled {word : Keyword} : (branches : List (Arm TypedNode)) →
    AllLexable (Stmt.armsYield word branches) → {slots slots' : Scope Nat} →
    {codes : List (List Instr)} → arms slotTable branches slots = .ok codes slots' →
    ∀ code ∈ codes, Spelled code
  | [], _, slots, slots', codes, h => by
      simp only [arms, state_pure_eq_ok] at h
      obtain ⟨rfl, rfl⟩ := h
      exact nofun
  | ⟨condition, body, span⟩ :: rest, hlex, slots, slots', codes, h => by
      simp only [Stmt.armsYield, braced, AllLexable, List.forall_mem_cons, List.cons_append,
        List.forall_mem_append] at hlex
      obtain ⟨-, -, hcondition, -, -, ⟨hbody, -⟩, hrest⟩ := hlex
      simp only [arms, arm, state_bind_eq_ok, state_pure_eq_ok, exitUnless_eq_ok,
        Scope.within_eq_ok] at h
      obtain ⟨_, t, ⟨_, _, ⟨test, htest, rfl, rfl⟩, inner, u, ⟨v, hinner, rfl⟩, rfl, rfl⟩, others,
        w, hothers, rfl, rfl⟩ := h
      have hfirst := expr_spelled condition hcondition htest
      have hsecond := stmts_spelled body hbody hinner
      refine List.forall_mem_cons.mpr ⟨?_, arms_spelled rest hrest hothers⟩
      simpa [Spelled, Instr.texts, or_imp, forall_and] using ⟨hfirst, hsecond⟩

theorem elseBody_spelled : (otherwise : Option (List (Stmt TypedNode))) →
    AllLexable (Stmt.elseYield otherwise) → {slots slots' : Scope Nat} →
    {last : Option (List Instr)} → elseBody slotTable otherwise slots = .ok last slots' →
    ∀ code ∈ last, Spelled code
  | none, _, slots, slots', last, h => by
      simp only [elseBody, state_pure_eq_ok] at h
      obtain ⟨rfl, rfl⟩ := h
      exact nofun
  | some body, hlex, slots, slots', last, h => by
      simp only [Stmt.elseYield, braced, AllLexable, List.forall_mem_cons, List.forall_mem_append]
        at hlex
      simp only [elseBody, state_bind_eq_ok, state_pure_eq_ok, Scope.within_eq_ok] at h
      obtain ⟨inner, t, ⟨u, hinner, rfl⟩, rfl, rfl⟩ := h
      rintro code ⟨⟩
      exact stmts_spelled body hlex.2.2.1 hinner

end

end Statements

end Lower

/-! ## Items -/

namespace Wasm

/-- All atoms of the items are plain. -/
abbrev PlainAll (items : List SExpr) : Prop :=
  ∀ text ∈ SExpr.atomsAll items, Plain text

theorem SExpr.atomsAll_append (items items' : List SExpr) :
    atomsAll (items ++ items') = atomsAll items ++ atomsAll items' := by
  induction items with
  | nil => rfl
  | cons e rest ih => rw [List.cons_append, atomsAll, ih, atomsAll, List.append_assoc]

theorem PlainAll.append {items items' : List SExpr} (h : PlainAll items) (h' : PlainAll items') :
    PlainAll (items ++ items') := by
  rw [PlainAll, SExpr.atomsAll_append]
  exact List.forall_mem_append.mpr ⟨h, h'⟩

theorem PlainAll.cons {item : SExpr} {items : List SExpr} (h : ∀ text ∈ item.atoms, Plain text)
    (h' : PlainAll items) : PlainAll (item :: items) :=
  List.forall_mem_append.mpr ⟨h, h'⟩

theorem PlainAll.word {text : String} {items : List SExpr} (h : IsWord text)
    (h' : PlainAll items) : PlainAll (.atom text :: items) :=
  .cons (plain_atom h.plain) h'

theorem PlainAll.quoted {name : String} {items : List SExpr} (h : TokenKind.IsName name)
    (h' : PlainAll items) : PlainAll (.quoted name :: items) :=
  .cons (plain_atom h.plain_quoted) h'

theorem PlainAll.nil : PlainAll [] :=
  nofun

/-- A list of plain items, as the only item. -/
theorem PlainAll.list {items : List SExpr} (h : PlainAll items) : PlainAll [.list items] :=
  .cons h .nil

theorem plainAll_typeList {word : String} (hword : IsWord word) (types : List ValueType) :
    PlainAll (typeList word types) := by
  have htypes : PlainAll (types.map fun type => .atom type.name) := by
    induction types with
    | nil => exact .nil
    | cons type types ih => exact .word (isWord_name type) ih
  rw [typeList]
  split
  · exact .nil
  · exact .list (.word hword htypes)

theorem plainAll_funcType (type : FuncType) : PlainAll type.items :=
  (plainAll_typeList (by decide) _).append (plainAll_typeList (by decide) _)

theorem plainAll_exportMark (exported : Bool) {name : String} (h : TokenKind.IsName name) :
    PlainAll (exportMark exported name) := by
  rw [exportMark]
  split
  · exact .list (.word (by decide) (.quoted h .nil))
  · exact .nil

/-- The word that an item begins with and the name behind it. -/
theorem plainAll_heading {word name : String} (hword : IsWord word) (h : TokenKind.IsName name) :
    PlainAll [.atom word, identifier name] :=
  .word hword (.word (isWord_identifier h.isWord) .nil)

theorem Func.plain (f : Func) (hname : TokenKind.IsName f.name)
    (hbody : ∀ text ∈ Instr.listTexts f.body, IsWord text) :
    ∀ text ∈ f.toSExpr.atoms, Plain text := by
  have hhead := ((plainAll_heading (by decide : IsWord "func") hname).append
    (plainAll_exportMark f.exported hname)).append (plainAll_funcType f.type)
  have hcode : PlainAll (Instr.toSExprs f.body) := Instr.plain_atomsAll f.body hbody
  exact List.forall_mem_append.mpr
    ⟨hhead, (plainAll_typeList (by decide : IsWord "local") f.locals).append hcode⟩

theorem Memory.plain (m : Memory) (exported : Bool) (hname : TokenKind.IsName m.name) :
    ∀ text ∈ (m.toSExpr exported).atoms, Plain text :=
  ((plainAll_heading (by decide) hname).append (plainAll_exportMark exported hname)).append
    (.word (isWord_toString m.pages) .nil)

theorem importItem_plain {path : ImportName} {item : SExpr} (hspace : TokenKind.IsName path.space)
    (hitem : TokenKind.IsName path.item) (h : ∀ text ∈ item.atoms, Plain text) :
    ∀ text ∈ (importItem path item).atoms, Plain text :=
  PlainAll.word (by decide) (.quoted hspace (.quoted hitem (.cons h .nil)))

theorem ImportedFunc.plain (f : ImportedFunc) (hspace : TokenKind.IsName f.path.space)
    (hitem : TokenKind.IsName f.path.item) (hname : TokenKind.IsName f.name) :
    ∀ text ∈ f.toSExpr.atoms, Plain text := by
  refine importItem_plain hspace hitem ?_
  exact (plainAll_heading (by decide : IsWord "func") hname).append (plainAll_funcType f.type)

end Wasm

/-- The tokens of a declaration, given the digits of the size of a memory. -/
def Declared.yield {α : Type} (digits : String) : Declared α → List TokenKind
  | func f => f.yield
  | memory m => m.yield digits

namespace Lower

theorem func_plain {exported : Bool} {d : FuncDef TypedNode} {f : Wasm.Func}
    (hsignature : AllLexable d.signature.yield) (hbody : AllLexable (Stmt.listYield d.body))
    (h : func exported d = .ok f) : ∀ text ∈ f.toSExpr.atoms, Plain text := by
  obtain ⟨slotTable, slots, -, hrun, -, -, hname, -⟩ := func_eq_ok h
  have hlexable : TokenKind.IsName d.signature.name := hsignature _ List.mem_cons_self
  exact f.plain (hname ▸ hlexable) (stmts_spelled d.body hbody hrun)

/-- The item of a declaration whose tokens stand for pieces of a text. -/
theorem item_plain {d : Declared TypedNode} {s : SExpr} {digits : String}
    (hlex : AllLexable (d.yield digits)) (h : item d = .ok s) : ∀ text ∈ s.atoms, Plain text := by
  cases d with
  | func declared =>
      cases declared with
      | imported i =>
          obtain ⟨type, -, rfl⟩ := except_map_eq_ok.mp h
          simp only [Declared.yield, Func.yield, ImportPath.yield, AllLexable,
            List.forall_mem_cons, List.forall_mem_append] at hlex
          obtain ⟨-, ⟨-, -, hspace, -, hitem, -⟩, hsignature, -⟩ := hlex
          exact ImportedFunc.plain _ hspace hitem (hsignature _ List.mem_cons_self)
      | plain definition =>
          obtain ⟨f, hf, rfl⟩ := except_map_eq_ok.mp h
          simp only [Declared.yield, Func.yield, braced, AllLexable, List.forall_mem_cons,
            List.forall_mem_append] at hlex
          obtain ⟨-, hsignature, -, hbody, -⟩ := hlex
          exact func_plain hsignature hbody hf
      | exported definition =>
          obtain ⟨f, hf, rfl⟩ := except_map_eq_ok.mp h
          simp only [Declared.yield, Func.yield, braced, AllLexable, List.forall_mem_cons,
            List.forall_mem_append] at hlex
          obtain ⟨-, -, hsignature, -, hbody, -⟩ := hlex
          exact func_plain hsignature hbody hf
  | memory m =>
      obtain rfl := Except.ok.inj h
      obtain ⟨node, name, size, kind⟩ := m
      simp only [Declared.yield, Memory.yield, AllLexable, List.forall_mem_cons,
        List.forall_mem_append] at hlex
      obtain ⟨-, hkind, hname, -⟩ := hlex
      cases kind with
      | imported path =>
          simp only [MemoryKind.yield, ImportPath.yield, List.forall_mem_cons] at hkind
          obtain ⟨-, -, hspace, -, hitem, -⟩ := hkind
          exact importItem_plain hspace hitem (Wasm.Memory.plain _ false hname)
      | plain | exported => exact Wasm.Memory.plain _ _ hname

end Lower

theorem Program.mem_yield {p : Program TypedNode} {digits : String} {d : Declared TypedNode}
    (hd : d ∈ p.declarations) {kind : TokenKind} (hkind : kind ∈ d.yield digits) :
    kind ∈ p.erase.yield digits := by
  rw [Program.yield, List.mem_flatMap]
  rcases List.mem_append.mp hd with hd | hd
  · obtain ⟨f, hf, rfl⟩ := List.mem_map.mp hd
    refine ⟨_, List.mem_merge.mpr (.inl (List.mem_map_of_mem (List.mem_map_of_mem hf))), ?_⟩
    rwa [Func.yield_map]
  · obtain ⟨m, hm, rfl⟩ := List.mem_map.mp hd
    exact ⟨_, List.mem_merge.mpr (.inr (List.mem_map_of_mem hm)), hkind⟩

/-- The atoms of the module of an accepted source text are plain. -/
theorem wasmModule_plain {source : String} {m : Wasm.Module}
    (h : Compile.wasmModule source = .ok m) : ∀ text ∈ m.toSExpr.atoms, Plain text := by
  simp only [Compile.wasmModule, except_bind_eq_ok, except_mapError_eq_ok] at h
  obtain ⟨p, hp, hm⟩ := h
  obtain ⟨digits, hlex⟩ := allLexable_yield hp
  have hitems := Lower.lowerProgram_items hm
  have hplain : ∀ s ∈ m.toSExpr.body, ∀ text ∈ s.atoms, Plain text := by
    intro s hs
    obtain ⟨d, hd, hitem⟩ := forall₂_partner_left hitems hs
    have hdeclared : d ∈ p.declarations := by
      rcases List.mem_append.mp hd with hd | hd <;> exact List.mem_of_mem_filter hd
    exact Lower.item_plain (fun kind hkind => hlex kind (Program.mem_yield hdeclared hkind)) hitem
  have hall : PlainAll m.toSExpr.body := by
    generalize m.toSExpr.body = items at hplain
    induction items with
    | nil => exact .nil
    | cons item items ih =>
        obtain ⟨hfirst, hrest⟩ := List.forall_mem_cons.mp hplain
        exact .cons hfirst (ih hrest)
  exact PlainAll.append (.word (by decide : IsWord "module") .nil) hall

/-- The text of a tree with plain atoms is read as the tree. Its parentheses balance, and every item
that is reached from block to block, along a path of indices, starts on a line of its own, behind
two spaces for every block that it is in. The module of an accepted source text is such a tree. -/
theorem printed_text_is_read_as_its_tree :
    (∀ e : SExpr, (∀ text ∈ e.atoms, Plain text) →
      Reader.read? e.render = some e.data ∧
      (∃ found, Reader.lexemes? e.render = some found ∧ Reader.Balanced found) ∧
      ∃ line : List Nat → Nat,
        (∀ path path' item item', e.itemAt? path = some item → e.itemAt? path' = some item' →
          line path = line path' → path = path') ∧
        ∀ path item, e.itemAt? path = some item →
          ∃ c rest, item.opening.toList = c :: rest ∧ Text.isBlank c = false ∧
            (e.render.toList.splitOn '\n')[line path]? =
              some (List.replicate (2 * path.length) ' ' ++ c :: rest)) ∧
    ∀ source text, compile source = .ok text →
      ∃ m, Compile.wasmModule source = .ok m ∧ text = m.toSExpr.render ∧
        (∀ atom ∈ m.toSExpr.atoms, Plain atom) ∧ Reader.read? text = some m.toSExpr.data := by
  constructor
  · intro e h
    refine ⟨SExpr.read?_render h, ⟨_, SExpr.lexemes?_render h, Reader.balanced_lexemesAll _⟩,
      e.lineOf, fun path path' item item' => SExpr.lineOf_inj, fun path item hitem => ?_⟩
    obtain ⟨c, rest, hopening, hblank⟩ := SExpr.exists_head_opening fun text htext =>
      h text (SExpr.mem_atoms_of_itemAt? hitem htext)
    have hrow := SExpr.getElem?_rows 0 hitem
    refine ⟨c, rest, hopening, hblank, ?_⟩
    rw [SExpr.splitOn_render h, List.getElem?_append_left, List.getElem?_map, hrow, Nat.zero_add,
      Option.map_some, String.toList_append, hopening, SExpr.indent, String.toList_ofList]
    rw [List.length_map]
    exact (List.getElem?_eq_some_iff.mp hrow).1
  · intro source text h
    obtain ⟨m, hm, rfl⟩ := except_map_eq_ok.mp h
    have hplain := wasmModule_plain hm
    exact ⟨m, hm, rfl, hplain, SExpr.read?_render hplain⟩

/-- A string that looks like an open list, and a block in a list. -/
theorem quoted_parenthesis_is_no_list :
    (∀ text ∈ (SExpr.block [] [.list [.block [.atom "a"] [.quoted "x (y"]], .atom "br 0"]).atoms,
      Plain text) ∧
    Reader.read? "(\n  ((a \"x (y\"))\n  br 0\n)\n" =
      some [.list [.list [.list [.word "a", .string "x (y"]], .word "br", .word "0"]] ∧
    compile "func import(env::log) log(x: f32): void;" =
      .ok "(module\n  (import \"env\" \"log\" (func $log (param f32)))\n)\n" ∧
    ∃ m, Compile.wasmModule "func import(env::log) log(x: f32): void;" = .ok m ∧
      ∀ atom ∈ m.toSExpr.atoms, Plain atom := by
  have hplain : ∀ text ∈
      (SExpr.block [] [.list [.block [.atom "a"] [.quoted "x (y"]], .atom "br 0"]).atoms,
      Plain text := by
    have hstring : Plain "\"x (y\"" := .quoted "x (y" (by simp)
    have hword : Plain "a" := IsWord.plain (by decide)
    have hpair : Plain "br 0" := plain_pair "br" (by decide) (by decide : IsWord "0")
    simpa [SExpr.atoms, SExpr.atomsAll, SExpr.quoted] using ⟨hword, hstring, hpair⟩
  have hread := (printed_text_is_read_as_its_tree.1 _ hplain).1
  have hcompiled : compile "func import(env::log) log(x: f32): void;" =
      .ok "(module\n  (import \"env\" \"log\" (func $log (param f32)))\n)\n" := by
    decide +kernel
  obtain ⟨m, hm, -, hatoms, -⟩ := printed_text_is_read_as_its_tree.2 _ _ hcompiled
  exact ⟨hplain, hread, hcompiled, m, hm, hatoms⟩

end Wattle
