import Wattle.Compile
import Wattle.Proofs.CheckerSound
import Wattle.Proofs.ParserGuarantees

/-!
# Accepted sources

What is known about the program in a source text that the first three stages accept: it obeys the
rules, and its declarations have numbers of their own.
-/

namespace Wattle

namespace Lexer

theorem type?_ne_void {r : Number.Reading} {type : BaseType} (h : r.type? = some type) :
    type ≠ .void := by
  rintro rfl
  simp only [Number.Reading.type?] at h
  split at h <;> simp at h

theorem classify_hasValue {word : List Char} {kind : TokenKind}
    (h : Word.classify word = .ok kind) : kind.hasValue = true := by
  simp only [Word.classify] at h
  split at h
  · split at h
    · next digits type hread =>
      obtain rfl := Except.ok.inj h
      obtain ⟨_, -, hbehind⟩ := Option.bind_eq_some_iff.mp hread
      obtain ⟨base, hbase, hrest⟩ := Option.bind_eq_some_iff.mp hbehind
      obtain ⟨_, -, heq⟩ := Option.bind_eq_some_iff.mp hrest
      obtain ⟨-, rfl⟩ := Prod.mk.inj (Option.some.inj heq)
      simpa [TokenKind.hasValue] using type?_ne_void hbase
    · cases h
  · split at h
    · obtain rfl := Except.ok.inj h
      rfl
    · obtain rfl := Except.ok.inj h
      rfl
    · split at h
      · cases h
      · obtain rfl := Except.ok.inj h
        rfl

theorem tokenOf_hasValue {line : UInt32} {piece : Piece} {t : Token}
    (h : tokenOf line piece = .ok t) : t.kind.hasValue = true := by
  cases piece with
  | mark column m =>
      obtain rfl := Except.ok.inj h
      cases m <;> rfl
  | word column text =>
      simp only [tokenOf] at h
      split at h
      · next kind hkind =>
        obtain rfl := Except.ok.inj h
        exact classify_hasValue hkind
      · cases h

theorem lexLines_hasValue {index : Nat} {rows : List (List Char)} {tokens : List Token}
    (h : lexLines index rows = .ok tokens) : ∀ t ∈ tokens, t.kind.hasValue = true := by
  induction rows generalizing index tokens with
  | nil =>
      obtain rfl := Except.ok.inj h
      simp
  | cons row rows ih =>
      simp only [lexLines, except_bind_eq_ok, except_pure_eq_ok] at h
      obtain ⟨here, hhere, below, hbelow, rfl⟩ := h
      intro t ht
      rcases List.mem_append.mp ht with ht | ht
      · obtain ⟨piece, _, hpiece⟩ := forall₂_partner_left (except_mapM_eq_ok.mp hhere) ht
        exact tokenOf_hasValue hpiece
      · exact ih hbelow t ht

end Lexer

theorem tokenize_hasValue {source : String} {tokens : List Token}
    (h : tokenize source = .ok tokens) : ∀ t ∈ tokens, t.kind.hasValue = true := by
  simp only [tokenize, except_bind_eq_ok, except_pure_eq_ok] at h
  obtain ⟨read, hread, rfl⟩ := h
  intro t ht
  rcases List.mem_append.mp ht with ht | ht
  · exact Lexer.lexLines_hasValue hread t ht
  · obtain rfl := List.mem_singleton.mp ht
    rfl

/-! ## Trees without their types -/

mutual

theorem Stmt.locals_map {α β : Type} (f : α → β) : (s : Stmt α) → (s.map f).locals = s.locals
  | .cond _ arms otherwise => by
      simp [Stmt.map, Stmt.locals, Stmt.armsLocals_map f arms, Stmt.elseLocals_map f otherwise]
  | .loop _ _ body => by simp [Stmt.map, Stmt.locals, Stmt.listLocals_map f body]
  | .ret _ _ => rfl
  | .declare _ _ _ _ _ => rfl
  | .expr _ _ => rfl

theorem Stmt.listLocals_map {α β : Type} (f : α → β) :
    (body : List (Stmt α)) → Stmt.listLocals (Stmt.mapList f body) = Stmt.listLocals body
  | [] => rfl
  | s :: rest => by
      simp [Stmt.mapList, Stmt.listLocals, Stmt.locals_map f s, Stmt.listLocals_map f rest]

theorem Stmt.armsLocals_map {α β : Type} (f : α → β) :
    (arms : List (Arm α)) → Stmt.armsLocals (Stmt.mapArms f arms) = Stmt.armsLocals arms
  | [] => rfl
  | ⟨_, body, _⟩ :: rest => by
      simp [Stmt.mapArms, Stmt.mapArm, Stmt.armsLocals, Stmt.armLocals, Stmt.listLocals_map f body,
        Stmt.armsLocals_map f rest]

theorem Stmt.elseLocals_map {α β : Type} (f : α → β) : (otherwise : Option (List (Stmt α))) →
    Stmt.elseLocals (Stmt.mapElse f otherwise) = Stmt.elseLocals otherwise
  | none => rfl
  | some body => Stmt.listLocals_map f body

end

theorem Func.distinctLocals_of_map {α β : Type} {f : α → β} {g : Func α}
    (h : (g.map f).DistinctLocals) : g.DistinctLocals := by
  rintro ⟨exported, d⟩ hd
  have hmap : (exported, d.map f) ∈ (g.map f).definition? := by
    cases g <;> simp_all [Func.definition?, Func.map]
  have hnodup := h _ hmap
  rwa [FuncDef.map, Stmt.listLocals_map] at hnodup

/-! ## The stages together -/

theorem compile_eq_ok {source text : String} :
    compile source = .ok text ↔
      ∃ p m, Compile.typedProgram source = .ok p ∧ lowerProgram p = .ok m ∧ text = m.text := by
  simp only [compile, Compile.wasmModule, except_map_eq_ok, except_bind_eq_ok,
    except_mapError_eq_ok]
  constructor
  · rintro ⟨m, ⟨p, hp, hm⟩, rfl⟩
    exact ⟨p, m, hp, hm, rfl⟩
  · rintro ⟨p, m, hp, hm, rfl⟩
    exact ⟨m, ⟨p, hp, hm⟩, rfl⟩

/-- The program in an accepted source text obeys the rules, and its declarations have numbers of
their own. -/
theorem typedProgram_sound {source : String} {p : Program TypedNode}
    (h : Compile.typedProgram source = .ok p) :
    p.Typed ∧ ∀ d ∈ p.definitions, ((Stmt.listLocals d.2.body).map LocalDecl.id).Nodup := by
  simp only [Compile.typedProgram, Compile.program, Compile.tokens, except_bind_eq_ok,
    except_mapError_eq_ok] at h
  obtain ⟨read, ⟨tokens, htokens, hread⟩, hcheck⟩ := h
  obtain ⟨hfree, hlocals⟩ := parseProgram_sound (tokenize_hasValue htokens) hread
  obtain ⟨htyped, rfl⟩ := checkProgram_sound hfree hcheck
  refine ⟨htyped, fun d hd => ?_⟩
  obtain ⟨f, hf, hdef⟩ := List.mem_filterMap.mp hd
  exact Func.distinctLocals_of_map (hlocals _ (List.mem_map_of_mem hf)) d hdef

end Wattle
