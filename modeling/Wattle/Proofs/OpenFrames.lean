import Mathlib.Data.Set.Card
import Wattle.Scope.Action

/-!
# Frames by their history

What a scope chain holds is told by the actions that led to it. A push opens a frame, and the pop
that undoes it is the first one behind it that is not needed for a later push; a pop that finds no
push to undo does nothing. An insert goes to the innermost frame that is open when it is done, and
a name means what was inserted last in the innermost open frame that has it.

Every history can be taken apart from its end: the last action opens a frame, closes one that was
opened before, closes nothing, or leaves the frames as they are. A stretch that opens a frame and
closes it again can be left out.
-/

namespace Wattle.Scope

variable {β : Type}

/-! ## Pushes and pops -/

def Action.isPush : Action β → Bool
  | push => true
  | _ => false

def Action.isPop : Action β → Bool
  | pop => true
  | _ => false

def pushes (actions : List (Action β)) : Nat :=
  actions.countP Action.isPush

def pops (actions : List (Action β)) : Nat :=
  actions.countP Action.isPop

/-- At no point of these actions have there been more pops than pushes, so they close no frame
that was open before them. -/
def StaysInside (actions : List (Action β)) : Prop :=
  ∀ front, front <+: actions → pops front ≤ pushes front

/-- Actions that close the frames they open and no others. -/
structure Balanced (actions : List (Action β)) : Prop where
  inside : StaysInside actions
  level : pops actions = pushes actions

/-- Action number `j` of the history closes the frame that action number `i` opened. -/
structure Undoes (history : List (Action β)) (i j : Nat) : Prop where
  opens : history[i]? = some .push
  closes : history[j]? = some .pop
  before : i < j
  between : Balanced ((history.take j).drop (i + 1))

/-- Action number `i` of the history opened a frame, and no later one closed it. -/
def OpenPush (history : List (Action β)) (i : Nat) : Prop :=
  history[i]? = some .push ∧ ∀ j, ¬ Undoes history i j

/-- A frame is named by the number of actions done when it was opened, which is 0 for the root;
`IsOpen history frame` says that the frame is open after the history. -/
def IsOpen (history : List (Action β)) : Nat → Prop
  | 0 => True
  | i + 1 => OpenPush history i

/-- The open frame that was opened last. -/
structure Innermost (history : List (Action β)) (frame : Nat) : Prop where
  isOpen : IsOpen history frame
  le : ∀ other, IsOpen history other → other ≤ frame

/-- The frame is open after the history, and action number `place` bound the name in it: at that
time it was the innermost one. -/
structure Binds (history : List (Action β)) (frame place : Nat) (name : String) (value : β) :
    Prop where
  isOpen : IsOpen history frame
  inserts : history[place]? = some (.insert name value)
  innermost : Innermost (history.take place) frame

/-- What a name means after a history: the value bound last in the innermost open frame that binds
it, or nothing if no open frame does. -/
def Means (history : List (Action β)) (name : String) : Option β → Prop
  | some value => ∃ frame place, Binds history frame place name value ∧
      (∀ place' value', Binds history frame place' name value' → place' ≤ place) ∧
      ∀ frame' place' value', Binds history frame' place' name value' → frame' ≤ frame
  | none => ∀ frame place value, ¬ Binds history frame place name value

/-! ## Counting -/

section Counting

variable {actions others : List (Action β)} {a : Action β}

@[simp] theorem pushes_nil : pushes ([] : List (Action β)) = 0 := rfl

@[simp] theorem pops_nil : pops ([] : List (Action β)) = 0 := rfl

@[simp] theorem pushes_append : pushes (actions ++ others) = pushes actions + pushes others :=
  List.countP_append

@[simp] theorem pops_append : pops (actions ++ others) = pops actions + pops others :=
  List.countP_append

@[simp] theorem pushes_cons : pushes (a :: actions) = pushes actions + a.isPush.toNat := by
  cases a <;> simp [pushes, List.countP_cons, Action.isPush]

@[simp] theorem pops_cons : pops (a :: actions) = pops actions + a.isPop.toNat := by
  cases a <;> simp [pops, List.countP_cons, Action.isPop]

theorem StaysInside.left (h : StaysInside (actions ++ others)) : StaysInside actions :=
  fun _ hfront => h _ (hfront.trans (List.prefix_append _ _))

theorem StaysInside.le (h : StaysInside actions) : pops actions ≤ pushes actions :=
  h _ (List.prefix_refl _)

theorem staysInside_nil : StaysInside ([] : List (Action β)) := by
  intro front hfront
  rw [List.prefix_nil.mp hfront]
  exact Nat.le_refl _

theorem staysInside_concat :
    StaysInside (actions ++ [a]) ↔
      StaysInside actions ∧ pops (actions ++ [a]) ≤ pushes (actions ++ [a]) := by
  constructor
  · exact fun h => ⟨h.left, h.le⟩
  · rintro ⟨hactions, hle⟩ front hfront
    rcases List.prefix_concat_iff.mp hfront with rfl | hfront
    · exact hle
    · exact hactions front hfront

theorem StaysInside.append (h : StaysInside actions) (h' : StaysInside others) :
    StaysInside (actions ++ others) := by
  induction others using List.reverseRecOn with
  | nil => rwa [List.append_nil]
  | append_singleton others a ih =>
      obtain ⟨hothers, hle⟩ := staysInside_concat.mp h'
      rw [← List.append_assoc, staysInside_concat]
      refine ⟨ih hothers, ?_⟩
      have hactions := h.le
      simp only [pops_append, pushes_append] at hle ⊢
      omega

/-- Actions that go below their start do so at a first pop. -/
theorem exists_first_excess (h : ¬ StaysInside actions) :
    ∃ inner rest, actions = inner ++ .pop :: rest ∧ Balanced inner := by
  induction actions using List.reverseRecOn with
  | nil => exact absurd staysInside_nil h
  | append_singleton actions a ih =>
      by_cases hactions : StaysInside actions
      · have hlt : pushes (actions ++ [a]) < pops (actions ++ [a]) := by
          by_contra hle
          exact h (staysInside_concat.mpr ⟨hactions, Nat.le_of_not_lt hle⟩)
        have hle := hactions.le
        cases a with
        | pop =>
            refine ⟨actions, [], rfl, hactions, ?_⟩
            simp [Action.isPush, Action.isPop] at hlt
            omega
        | _ =>
            simp [Action.isPush, Action.isPop] at hlt
            omega
      · obtain ⟨inner, rest, rfl, hinner⟩ := ih hactions
        exact ⟨inner, rest ++ [a], by simp, hinner⟩

end Counting

namespace Balanced

variable {actions others : List (Action β)}

theorem nil : Balanced ([] : List (Action β)) :=
  ⟨staysInside_nil, rfl⟩

theorem append (h : Balanced actions) (h' : Balanced others) : Balanced (actions ++ others) := by
  refine ⟨h.inside.append h'.inside, ?_⟩
  rw [pops_append, pushes_append, h.level, h'.level]

theorem quiet {a : Action β} (hpush : a.isPush = false) (hpop : a.isPop = false) :
    Balanced [a] := by
  refine ⟨?_, by simp [hpush, hpop]⟩
  rw [← List.nil_append [a], staysInside_concat]
  exact ⟨staysInside_nil, by simp [hpop]⟩

theorem nested (h : Balanced actions) : Balanced (.push :: actions ++ [.pop]) := by
  have hlevel := h.level
  have hpush : StaysInside [(.push : Action β)] := by
    rw [← List.nil_append [_], staysInside_concat]
    exact ⟨staysInside_nil, by simp [Action.isPop]⟩
  have hopened : StaysInside (.push :: actions) := hpush.append h.inside
  refine ⟨staysInside_concat.mpr ⟨hopened, ?_⟩, ?_⟩ <;>
    simp [Action.isPush, Action.isPop, hlevel]

/-- A balanced stretch closes every frame that it opens, from the inside. -/
theorem not_staysInside {front behind : List (Action β)}
    (h : Balanced (front ++ .push :: behind)) : ¬ StaysInside behind := by
  intro hbehind
  have hfront := h.inside.left.le
  have hlevel := h.level
  have hle := hbehind.le
  simp [Action.isPush, Action.isPop] at hlevel
  omega

end Balanced

/-! ## Frames that stay open -/

section Frames

variable {history more : List (Action β)} {i frame place : Nat} {name : String} {value : β}

/-- A frame stays open as long as the actions behind its push close no frame from before them. -/
theorem openPush_iff :
    OpenPush history i ↔ history[i]? = some .push ∧ StaysInside (history.drop (i + 1)) := by
  constructor
  · rintro ⟨hpush, hopen⟩
    refine ⟨hpush, by_contra fun hexcess => ?_⟩
    obtain ⟨inner, rest, hrest, hinner⟩ := exists_first_excess hexcess
    refine hopen (i + 1 + inner.length) ⟨hpush, ?_, by omega, ?_⟩
    · rw [← List.getElem?_drop, hrest, List.getElem?_append_right (Nat.le_refl _), Nat.sub_self]
      rfl
    · rw [List.drop_take, hrest, Nat.add_sub_cancel_left, List.take_left]
      exact hinner
  · rintro ⟨hpush, hinside⟩
    refine ⟨hpush, fun j hundoes => ?_⟩
    obtain ⟨-, hpop, hlt, hbetween⟩ := hundoes
    obtain ⟨n, rfl⟩ := Nat.exists_eq_add_of_lt hlt
    have hfront : (history.drop (i + 1)).take (n + 1) =
        (history.take (i + n + 1)).drop (i + 1) ++ [.pop] := by
      have hnext : (history.drop (i + 1))[n]? = some .pop := by
        rw [List.getElem?_drop, Nat.add_right_comm]
        exact hpop
      rw [List.take_add_one, hnext, List.drop_take]
      simp
    have hle := hinside _ (hfront ▸ List.take_prefix (n + 1) _)
    have hlevel := hbetween.level
    simp [Action.isPush, Action.isPop] at hle
    omega

theorem OpenPush.lt_length (h : OpenPush history i) : i < history.length :=
  (List.getElem?_eq_some_iff.mp h.1).1

theorem IsOpen.le_length (h : IsOpen history frame) : frame ≤ history.length := by
  cases frame with
  | zero => exact Nat.zero_le _
  | succ i => exact OpenPush.lt_length h

theorem openPush_append (hi : i < history.length) :
    OpenPush (history ++ more) i ↔
      history[i]? = some .push ∧ StaysInside (history.drop (i + 1) ++ more) := by
  rw [openPush_iff, List.getElem?_append_left hi, List.drop_append_of_le_length hi]

theorem OpenPush.of_append (h : OpenPush (history ++ more) i) (hi : i < history.length) :
    OpenPush history i := by
  obtain ⟨hpush, hinside⟩ := (openPush_append hi).mp h
  exact openPush_iff.mpr ⟨hpush, hinside.left⟩

theorem IsOpen.of_append (h : IsOpen (history ++ more) frame) (hle : frame ≤ history.length) :
    IsOpen history frame := by
  cases frame with
  | zero => trivial
  | succ i => exact OpenPush.of_append h hle

/-- Frames that are opened and closed again do not count. -/
theorem openPush_append_balanced (hmore : Balanced more) :
    OpenPush (history ++ more) i ↔ OpenPush history i := by
  constructor
  · intro h
    by_cases hi : i < history.length
    · exact h.of_append hi
    · obtain ⟨hpush, hinside⟩ := openPush_iff.mp h
      rw [List.getElem?_append_right (Nat.le_of_not_lt hi)] at hpush
      obtain ⟨hlt, hget⟩ := List.getElem?_eq_some_iff.mp hpush
      have hsplit : more = more.take (i - history.length) ++
          .push :: more.drop (i - history.length + 1) := by
        rw [← hget, ← List.drop_eq_getElem_cons hlt, List.take_append_drop]
      rw [List.drop_append, List.drop_eq_nil_of_le (by omega), List.nil_append] at hinside
      rw [hsplit] at hmore
      refine absurd ?_ hmore.not_staysInside
      rwa [← Nat.sub_add_comm (Nat.le_of_not_lt hi)]
  · intro h
    obtain ⟨hpush, hinside⟩ := openPush_iff.mp h
    exact (openPush_append h.lt_length).mpr ⟨hpush, hinside.append hmore.inside⟩

theorem isOpen_append_balanced (hmore : Balanced more) :
    IsOpen (history ++ more) frame ↔ IsOpen history frame := by
  cases frame with
  | zero => exact Iff.rfl
  | succ i => exact openPush_append_balanced hmore

theorem openPush_push :
    OpenPush (history ++ [.push]) i ↔ OpenPush history i ∨ i = history.length := by
  constructor
  · intro h
    have hlt := h.lt_length
    simp only [List.length_append, List.length_singleton] at hlt
    by_cases hi : i < history.length
    · exact .inl (h.of_append hi)
    · exact .inr (by omega)
  · rintro (h | rfl)
    · obtain ⟨hpush, hinside⟩ := openPush_iff.mp h
      refine (openPush_append h.lt_length).mpr ⟨hpush, staysInside_concat.mpr ⟨hinside, ?_⟩⟩
      have hle := hinside.le
      simp [Action.isPush, Action.isPop]
      omega
    · exact openPush_iff.mpr ⟨by simp, by simpa using staysInside_nil⟩

theorem isOpen_opened (h : StaysInside more) :
    IsOpen (history ++ .push :: more) (history.length + 1) := by
  refine openPush_iff.mpr ⟨by simp, ?_⟩
  rw [List.drop_append, List.drop_eq_nil_of_le (Nat.le_succ _), List.nil_append,
    Nat.add_sub_cancel_left]
  exact h

/-- A pop that finds no open frame closes none. -/
theorem not_openPush_pop (h : ∀ i, ¬ OpenPush history i) (i : Nat) :
    ¬ OpenPush (history ++ [.pop]) i := by
  intro hi
  have hlt := hi.lt_length
  simp only [List.length_append, List.length_singleton] at hlt
  by_cases hlt' : i < history.length
  · exact h i (hi.of_append hlt')
  · obtain rfl : i = history.length := by omega
    simpa using hi.1

/-- A history with a frame that is still open ends in a push and what is balanced behind it. -/
theorem eq_push_balanced_or_closed (history : List (Action β)) :
    (∃ before inner, history = before ++ .push :: inner ∧ Balanced inner) ∨
      ∀ i, ¬ OpenPush history i := by
  induction hlength : history.length using Nat.strongRecOn generalizing history with
  | ind n ih =>
      subst hlength
      rcases List.eq_nil_or_concat' history with rfl | ⟨earlier, a, rfl⟩
      · exact .inr fun i h => absurd h.lt_length (Nat.not_lt_zero i)
      · have hquiet : Balanced [a] →
            (∃ before inner, earlier ++ [a] = before ++ .push :: inner ∧ Balanced inner) ∨
              ∀ i, ¬ OpenPush (earlier ++ [a]) i := by
          intro ha
          rcases ih earlier.length (by simp) earlier rfl with ⟨before, inner, rfl, hinner⟩ | hclosed
          · exact .inl ⟨before, inner ++ [a], by simp, hinner.append ha⟩
          · exact .inr fun i h => hclosed i ((openPush_append_balanced ha).mp h)
        cases a with
        | push => exact .inl ⟨earlier, [], rfl, .nil⟩
        | insert name value => exact hquiet (.quiet rfl rfl)
        | lookup name => exact hquiet (.quiet rfl rfl)
        | pop =>
            rcases ih earlier.length (by simp) earlier rfl with
              ⟨before, inner, rfl, hinner⟩ | hclosed
            · -- the pop undoes the push, and what stood before the push decides
              have hcut : before ++ .push :: inner ++ [.pop] =
                  before ++ (.push :: inner ++ [.pop]) := by simp
              rw [hcut]
              rcases ih before.length (by simp) before rfl with
                ⟨before, outer, rfl, houter⟩ | hclosed
              · exact .inl ⟨before, _, by simp, houter.append hinner.nested⟩
              · exact .inr fun i h => hclosed i ((openPush_append_balanced hinner.nested).mp h)
            · exact .inr (not_openPush_pop hclosed)

/-- Histories from their end: the last action opens a frame, closes nothing, binds a name or looks
one up, or it ends a stretch that opened a frame and has closed it now. -/
@[elab_as_elim]
theorem history_induction {P : List (Action β) → Prop} (empty : P [])
    (opened : ∀ history, P history → P (history ++ [.push]))
    (closed : ∀ history before inner, history = before ++ (.push :: inner ++ [.pop]) →
      Balanced inner → P before → P history)
    (surplus : ∀ history, (∀ i, ¬ OpenPush history i) → P history → P (history ++ [.pop]))
    (bound : ∀ history name value, P history → P (history ++ [.insert name value]))
    (asked : ∀ history name, P history → P (history ++ [.lookup name]))
    (history : List (Action β)) : P history := by
  induction hlength : history.length using Nat.strongRecOn generalizing history with
  | ind n ih =>
      subst hlength
      rcases List.eq_nil_or_concat' history with rfl | ⟨earlier, a, rfl⟩
      · exact empty
      · have hearlier : P earlier := ih earlier.length (by simp) earlier rfl
        cases a with
        | push => exact opened earlier hearlier
        | insert name value => exact bound earlier name value hearlier
        | lookup name => exact asked earlier name hearlier
        | pop =>
            rcases eq_push_balanced_or_closed earlier with ⟨before, inner, rfl, hinner⟩ | hclosed
            · exact closed _ before inner (by simp) hinner (ih before.length (by simp) before rfl)
            · exact surplus earlier hclosed hearlier

end Frames

/-! ## Runs -/

section Runs

variable {s : Scope β} {actions : List (Action β)}

theorem run_append (s : Scope β) (actions others : List (Action β)) :
    run s (actions ++ others) = run (run s actions) others :=
  List.foldl_append

/-- Actions that stay inside change the innermost frame and those that they open. -/
theorem frames_run (h : StaysInside actions) :
    ∃ opened, (run s actions).frames = opened ++ s.outer ∧
      opened.length + pops actions = pushes actions + 1 := by
  induction actions using List.reverseRecOn with
  | nil => exact ⟨[s.inner], rfl, rfl⟩
  | append_singleton actions a ih =>
      obtain ⟨hactions, hle⟩ := staysInside_concat.mp h
      obtain ⟨opened, hframes, hlength⟩ := ih hactions
      have hle' := hactions.le
      obtain ⟨frame, opened, rfl⟩ : ∃ frame rest, opened = frame :: rest :=
        List.exists_cons_of_length_pos (by omega)
      obtain ⟨hinner, houter⟩ := List.cons.inj hframes
      rw [run_append]
      cases a with
      | push =>
          refine ⟨[] :: frame :: opened, congrArg ([] :: ·) hframes, ?_⟩
          simp [Action.isPush, Action.isPop] at hlength ⊢
          omega
      | pop =>
          simp [Action.isPush, Action.isPop] at hlength hle
          obtain ⟨frame', opened, rfl⟩ : ∃ frame' rest, opened = frame' :: rest :=
            List.exists_cons_of_length_pos (by omega)
          refine ⟨frame' :: opened, ?_, ?_⟩
          · have hrest : (run s actions).outer = frame' :: (opened ++ s.outer) := houter
            change (run s actions).pop.frames = _
            rw [pop, hrest]
            rfl
          · simp [Action.isPush, Action.isPop] at hlength ⊢
            omega
      | insert name value =>
          refine ⟨((name, value) :: frame) :: opened, ?_, by simpa [Action.isPush, Action.isPop]⟩
          change ((name, value) :: (run s actions).inner) :: (run s actions).outer = _
          rw [hinner, houter]
          rfl
      | lookup name => exact ⟨frame :: opened, hframes, by simpa [Action.isPush, Action.isPop]⟩

/-- A frame that is opened and closed again leaves nothing behind. -/
theorem run_nested (s : Scope β) (h : Balanced actions) :
    run s (.push :: actions ++ [.pop]) = s := by
  obtain ⟨opened, hframes, hlength⟩ := frames_run (s := s.push) h.inside
  obtain ⟨frame, rfl⟩ : ∃ frame, opened = [frame] :=
    List.length_eq_one_iff.mp (by have hlevel := h.level; omega)
  obtain ⟨-, houter⟩ := List.cons.inj hframes
  rw [run_append]
  change (run s.push actions).pop = s
  rw [pop, houter]
  rfl

theorem pop_of_depth (h : s.depth = 1) : s.pop = s := by
  obtain ⟨inner, outer⟩ := s
  obtain rfl : outer = [] := List.eq_nil_of_length_eq_zero (Nat.succ.inj h)
  rfl

theorem run_pop (h : (run s actions).depth = 1) : run s (actions ++ [.pop]) = run s actions := by
  rw [run_append]
  exact pop_of_depth h

theorem depth_run_root (history : List (Action β)) :
    (run root history).depth = 1 + {i | OpenPush history i}.ncard := by
  have hnone : ∀ {history : List (Action β)}, (∀ i, ¬ OpenPush history i) →
      {i | OpenPush history i} = ∅ := fun h => Set.eq_empty_of_forall_notMem h
  have hsame : ∀ {history more : List (Action β)}, Balanced more →
      {i | OpenPush (history ++ more) i} = {i | OpenPush history i} := fun hmore =>
    Set.ext fun _ => openPush_append_balanced hmore
  induction history using history_induction with
  | empty =>
      have hstart : ∀ i, ¬ OpenPush ([] : List (Action β)) i := fun i h =>
        Nat.not_lt_zero i h.lt_length
      rw [hnone hstart, Set.ncard_empty]
      rfl
  | opened history ih =>
      have hinsert : {i | OpenPush (history ++ [.push]) i} =
          Insert.insert history.length {i | OpenPush history i} :=
        Set.ext fun i => openPush_push.trans or_comm
      have hfinite : {i | OpenPush history i}.Finite :=
        (Set.finite_lt_nat history.length).subset fun _ => OpenPush.lt_length
      have hnew : history.length ∉ {i | OpenPush history i} := fun h =>
        Nat.lt_irrefl _ (OpenPush.lt_length h)
      rw [hinsert, Set.ncard_insert_of_notMem hnew hfinite, run_append, ← Nat.add_assoc, ← ih]
      rfl
  | closed history before inner heq hinner ih =>
      rw [heq, hsame hinner.nested, run_append, run_nested _ hinner, ih]
  | surplus history hclosed ih =>
      rw [hnone hclosed, Set.ncard_empty] at ih
      rw [hnone (not_openPush_pop hclosed), Set.ncard_empty, run_pop ih, ih]
  | bound history name value ih =>
      rw [hsame (.quiet rfl rfl), run_append, ← ih]
      rfl
  | asked history name ih =>
      rw [hsame (.quiet rfl rfl), run_append, ← ih]
      rfl

end Runs

/-! ## What a name means -/

section Meaning

variable {history : List (Action β)} {a : Action β} {frame place : Nat} {name : String} {value : β}

theorem Binds.lt_length (h : Binds history frame place name value) : place < history.length :=
  (List.getElem?_eq_some_iff.mp h.inserts).1

theorem Binds.frame_le (h : Binds history frame place name value) : frame ≤ place :=
  h.innermost.isOpen.le_length.trans (List.length_take_le _ _)

theorem binds_append {more : List (Action β)} (hplace : place < history.length) :
    Binds (history ++ more) frame place name value ↔
      IsOpen (history ++ more) frame ∧ history[place]? = some (.insert name value) ∧
        Innermost (history.take place) frame := by
  constructor
  · rintro ⟨hopen, hinserts, hinnermost⟩
    rw [List.getElem?_append_left hplace] at hinserts
    rw [List.take_append_of_le_length hplace.le] at hinnermost
    exact ⟨hopen, hinserts, hinnermost⟩
  · rintro ⟨hopen, hinserts, hinnermost⟩
    refine ⟨hopen, ?_, ?_⟩
    · rwa [List.getElem?_append_left hplace]
    · rwa [List.take_append_of_le_length hplace.le]

/-- An action that does not bind the name and closes no frame leaves what is bound. -/
theorem binds_concat (ha : ∀ value, a ≠ .insert name value)
    (hopen : ∀ frame ≤ history.length, IsOpen (history ++ [a]) frame ↔ IsOpen history frame) :
    Binds (history ++ [a]) frame place name value ↔ Binds history frame place name value := by
  constructor
  · intro h
    have hlt := h.lt_length
    simp only [List.length_append, List.length_singleton] at hlt
    rcases Nat.lt_succ_iff_lt_or_eq.mp hlt with hplace | rfl
    · obtain ⟨hframe, hinserts, hinnermost⟩ := (binds_append hplace).mp h
      exact ⟨(hopen frame (h.frame_le.trans hplace.le)).mp hframe, hinserts, hinnermost⟩
    · have hinserts := h.inserts
      simp only [List.getElem?_concat_length, Option.some.injEq] at hinserts
      exact absurd hinserts (ha value)
  · intro h
    refine (binds_append h.lt_length).mpr ⟨?_, h.inserts, h.innermost⟩
    exact (hopen frame h.isOpen.le_length).mpr h.isOpen

/-- Nothing that was bound in a frame is left when the frame is closed. -/
theorem binds_nested {inner : List (Action β)} (hinner : Balanced inner) :
    Binds (history ++ (.push :: inner ++ [.pop])) frame place name value ↔
      Binds history frame place name value := by
  constructor
  · intro h
    have hframe := (isOpen_append_balanced hinner.nested).mp h.isOpen
    by_cases hplace : place < history.length
    · obtain ⟨-, hinserts, hinnermost⟩ := (binds_append hplace).mp h
      exact ⟨hframe, hinserts, hinnermost⟩
    · -- at that time the frame of the stretch was open
      have hlt := h.lt_length
      obtain ⟨n, rfl⟩ := Nat.exists_eq_add_of_le (Nat.le_of_not_lt hplace)
      have hinserts := h.inserts
      rw [List.getElem?_append_right (Nat.le_add_right _ _), Nat.add_sub_cancel_left] at hinserts
      cases n with
      | zero => simp at hinserts
      | succ n =>
          have hn : n ≤ inner.length := by
            simp only [List.length_append, List.length_cons, List.length_nil] at hlt
            omega
          have hinnermost := h.innermost
          rw [List.take_length_add_append, List.cons_append, List.take_succ_cons,
            List.take_append_of_le_length hn] at hinnermost
          rw [← List.take_append_drop n inner] at hinner
          have hle := hinnermost.le _ (isOpen_opened hinner.inside.left)
          have hle' := hframe.le_length
          omega
  · intro h
    refine (binds_append h.lt_length).mpr ⟨?_, h.inserts, h.innermost⟩
    exact (isOpen_append_balanced hinner.nested).mpr h.isOpen

theorem binds_insert (value : β) {value' : β} :
    Binds (history ++ [.insert name value]) frame place name value' ↔
      Binds history frame place name value' ∨
        place = history.length ∧ value' = value ∧ Innermost history frame := by
  have hsame : ∀ frame, IsOpen (history ++ [.insert name value]) frame ↔ IsOpen history frame :=
    fun _ => isOpen_append_balanced (.quiet rfl rfl)
  constructor
  · intro h
    have hlt := h.lt_length
    simp only [List.length_append, List.length_singleton] at hlt
    rcases Nat.lt_succ_iff_lt_or_eq.mp hlt with hplace | rfl
    · obtain ⟨hframe, hinserts, hinnermost⟩ := (binds_append hplace).mp h
      exact .inl ⟨(hsame frame).mp hframe, hinserts, hinnermost⟩
    · obtain ⟨-, hinserts, hinnermost⟩ := h
      simp only [List.getElem?_concat_length, Option.some.injEq, Action.insert.injEq,
        true_and] at hinserts
      rw [List.take_left] at hinnermost
      exact .inr ⟨rfl, hinserts.symm, hinnermost⟩
  · rintro (h | ⟨rfl, rfl, h⟩)
    · exact (binds_append h.lt_length).mpr ⟨(hsame frame).mpr h.isOpen, h.inserts, h.innermost⟩
    · exact ⟨(hsame frame).mpr h.isOpen, List.getElem?_concat_length, by rwa [List.take_left]⟩

theorem exists_innermost (history : List (Action β)) : ∃ frame, Innermost history frame := by
  rcases eq_push_balanced_or_closed history with ⟨before, inner, rfl, hinner⟩ | hclosed
  · refine ⟨before.length + 1, isOpen_opened hinner.inside, fun other h => ?_⟩
    have hcut : before ++ .push :: inner = (before ++ [.push]) ++ inner := by simp
    rw [hcut, isOpen_append_balanced hinner] at h
    simpa using h.le_length
  · refine ⟨0, trivial, fun other h => ?_⟩
    cases other with
    | zero => exact Nat.le_refl _
    | succ i => exact absurd h (hclosed i)

/-- A history tells one meaning of a name. -/
theorem Means.unique {answer answer' : Option β} (h : Means history name answer)
    (h' : Means history name answer') : answer = answer' := by
  match answer, answer' with
  | none, none => rfl
  | none, some _ =>
      obtain ⟨frame, place, hbinds, -⟩ := h'
      exact absurd hbinds (h _ _ _)
  | some _, none =>
      obtain ⟨frame, place, hbinds, -⟩ := h
      exact absurd hbinds (h' _ _ _)
  | some value, some value' =>
      obtain ⟨frame, place, hbinds, hlast, hdeep⟩ := h
      obtain ⟨frame', place', hbinds', hlast', hdeep'⟩ := h'
      obtain rfl : frame = frame' :=
        Nat.le_antisymm (hdeep' _ _ _ hbinds) (hdeep _ _ _ hbinds')
      obtain rfl : place = place' :=
        Nat.le_antisymm (hlast' _ _ hbinds) (hlast _ _ hbinds')
      have hsame := hbinds.inserts.symm.trans hbinds'.inserts
      simpa using hsame

theorem means_congr {history' : List (Action β)}
    (h : ∀ frame place value,
      Binds history frame place name value ↔ Binds history' frame place name value)
    (answer : Option β) : Means history name answer ↔ Means history' name answer := by
  cases answer <;> simp only [Means, h]

theorem means_insert (history : List (Action β)) (name : String) (value : β) :
    Means (history ++ [.insert name value]) name (some value) := by
  obtain ⟨frame, hframe⟩ := exists_innermost history
  refine ⟨frame, history.length, (binds_insert value).mpr (.inr ⟨rfl, rfl, hframe⟩), ?_, ?_⟩
  · intro place' value' h
    have hlt := h.lt_length
    simp only [List.length_append, List.length_singleton] at hlt
    omega
  · intro frame' place' value' h
    exact hframe.le _ ((isOpen_append_balanced (.quiet rfl rfl)).mp h.isOpen)

theorem lookup?_insert_of_ne {name' : String} (s : Scope β) (h : name ≠ name') :
    (s.insert name' value).lookup? name = s.lookup? name := by
  simp [lookup?, insert, frames, List.lookup_cons, beq_false_of_ne h, List.findSome?_cons]

theorem means_lookup (history : List (Action β)) (name : String) :
    Means history name ((run root history).lookup? name) := by
  induction history using history_induction with
  | empty => exact fun frame place value h => Nat.not_lt_zero _ h.lt_length
  | opened history ih =>
      rw [run_append]
      change Means _ _ ((run root history).lookup? name)
      refine (means_congr (fun _ _ _ => binds_concat nofun fun frame hle => ?_) _).mpr ih
      cases frame with
      | zero => exact Iff.rfl
      | succ i => exact openPush_push.trans (or_iff_left (Nat.ne_of_lt hle))
  | closed history before inner heq hinner ih =>
      rw [heq, run_append, run_nested _ hinner]
      exact (means_congr (fun _ _ _ => binds_nested hinner) _).mpr ih
  | surplus history hclosed ih =>
      have hnone : {i | OpenPush history i} = ∅ := Set.eq_empty_of_forall_notMem hclosed
      have hdepth := depth_run_root history
      rw [hnone, Set.ncard_empty] at hdepth
      rw [run_pop hdepth]
      refine (means_congr (fun _ _ _ => binds_concat nofun fun frame _ => ?_) _).mpr ih
      cases frame with
      | zero => exact Iff.rfl
      | succ i => exact iff_of_false (not_openPush_pop hclosed i) (hclosed i)
  | bound history name' value ih =>
      rw [run_append]
      change Means _ _ (((run root history).insert name' value).lookup? name)
      by_cases hname : name = name'
      · subst hname
        rw [lookup?_insert_self]
        exact means_insert history name value
      · rw [lookup?_insert_of_ne _ hname]
        refine (means_congr (fun _ _ _ => binds_concat ?_ fun _ _ => ?_) _).mpr ih
        · exact fun _ h => hname (Action.insert.inj h).1.symm
        · exact isOpen_append_balanced (.quiet rfl rfl)
  | asked history name' ih =>
      refine (means_congr (fun _ _ _ => binds_concat nofun fun _ _ => ?_) _).mpr ?_
      · exact isOpen_append_balanced (.quiet rfl rfl)
      · rw [run_append]
        exact ih

end Meaning

/-- A pop closes a frame if there is one besides the root, and then it undoes a push. -/
theorem exists_undoes_iff (history : List (Action β)) :
    (∃ i, Undoes (history ++ [.pop]) i history.length) ↔ 1 < (run root history).depth := by
  have hfinite : {i | OpenPush history i}.Finite :=
    (Set.finite_lt_nat history.length).subset fun _ => OpenPush.lt_length
  rw [depth_run_root, Nat.lt_add_right_iff_pos, Set.ncard_pos hfinite]
  constructor
  · rintro ⟨i, hpush, -, hlt, hbetween⟩
    rw [List.getElem?_append_left hlt] at hpush
    rw [List.take_left] at hbetween
    exact ⟨i, openPush_iff.mpr ⟨hpush, hbetween.inside⟩⟩
  · rintro ⟨i, hopen⟩
    rcases eq_push_balanced_or_closed history with ⟨before, inner, rfl, hinner⟩ | hclosed
    · refine ⟨before.length, by simp, List.getElem?_concat_length, by simp, ?_⟩
      rw [List.take_left, List.drop_append, List.drop_eq_nil_of_le (Nat.le_succ _)]
      simpa using hinner
    · exact absurd hopen (hclosed i)

/-- After any history there is one frame besides the root for each push that no pop has undone; a
pop undoes a push exactly if there is such a frame, and otherwise does nothing. A name means what
was bound to it last in the innermost open frame that binds it. Whatever happens within a frame is
gone once the frame is closed. -/
theorem names_mean_newest_open_binding (history : List (Action β)) :
    1 ≤ (run root history).depth ∧
      (run root history).depth = 1 + {i | OpenPush history i}.ncard ∧
      (1 < (run root history).depth ↔ ∃ i, Undoes (history ++ [.pop]) i history.length) ∧
      ((run root history).depth = 1 → run root (history ++ [.pop]) = run root history) ∧
      (∀ name answer, (run root history).lookup? name = answer ↔ Means history name answer) ∧
      ∀ inner, Balanced inner →
        run root (history ++ (.push :: inner ++ [.pop])) = run root history := by
  refine ⟨Nat.succ_le_succ (Nat.zero_le _), depth_run_root history,
    (exists_undoes_iff history).symm, run_pop, ?_, ?_⟩
  · intro name answer
    constructor
    · rintro rfl
      exact means_lookup history name
    · exact fun h => (means_lookup history name).unique h
  · intro inner hinner
    rw [run_append, run_nested _ hinner]

/-- A pop with no frame to close, and a name that is bound in two frames and, in the inner one,
hidden for a while. -/
theorem hidden_name_comes_back :
    let early : List (Action Nat) := [.insert "x" 1]
    let history := early ++ [.pop, .push, .insert "x" 2]
    ((run root early).depth = 1 ∧ run root (early ++ [.pop]) = run root early) ∧
      (Means history "x" (some 2) ∧ (run root history).depth = 2) ∧
      Balanced [(.insert "x" 3 : Action Nat), .push, .pop] ∧
      run root (history ++ (.push :: [.insert "x" 3, .push, .pop] ++ [.pop])) =
        run root history := by
  intro early history
  obtain ⟨-, -, -, hpop, -, -⟩ := names_mean_newest_open_binding early
  obtain ⟨-, -, -, -, hmeans, hclosed⟩ := names_mean_newest_open_binding history
  have hinner : Balanced [(.insert "x" 3 : Action Nat), .push, .pop] :=
    (Balanced.quiet (a := .insert "x" 3) rfl rfl).append Balanced.nil.nested
  exact ⟨⟨rfl, hpop rfl⟩, ⟨(hmeans "x" _).mp rfl, rfl⟩, hinner, hclosed _ hinner⟩

end Wattle.Scope
