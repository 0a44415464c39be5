import Flowgraph.Distinct
import Flowgraph.Proofs.Run
import Mathlib.Data.Set.Card
/-!
# Constraints that hold together

A list of constraints has no contradiction exactly if some assignment of truth values meets all of them
(`Constraint.firstConflict?_eq_none_iff`), so the internal engine decides whether there is one, for lists of not too many
conditions (`Solver.answer_internal`).

Of an external engine nothing is known but what is asked of it: that it is `Steady`, its rulings depending on the constraints
alone, or that it is `Sound`, ruling out only what contradicts itself. A sound engine may still give up on any constraints, which
counts as yes; so a solver accepts all constraints that it admits (`Solver.gives_solve_of_admits`), and with some constraints it
admits fewer of them as well.
-/

namespace Flowgraph

namespace Constraint

variable {cs : List Constraint}

/-- The values seen so far leave room for the constraints to come if an assignment agrees with both. -/
theorem conflictFrom_eq_none_iff (seen : List (String × Bool)) (cs : List Constraint) :
    conflictFrom seen cs = none ↔ ∃ assignment : String → Bool,
      (∀ name v, seen.lookup name = some v → assignment name = v) ∧ ∀ c ∈ cs, c.Holds assignment := by
  induction cs generalizing seen with
  | nil =>
    refine ⟨fun _ => ⟨fun name => (seen.lookup name).getD false, fun name v h => by simp [h], by simp⟩, fun _ => rfl⟩
  | cons c cs ih =>
    rw [conflictFrom]
    cases hseen : seen.lookup c.condition with
    | none =>
      dsimp only
      rw [ih]
      refine exists_congr fun assignment => ?_
      rw [List.forall_mem_cons, Holds]
      constructor
      · rintro ⟨hagree, hrest⟩
        refine ⟨fun name v h => hagree name v ?_, hagree c.condition c.value (by simp), hrest⟩
        have hne : name ≠ c.condition := by
          rintro rfl
          rw [hseen] at h
          cases h
        have hbeq : (name == c.condition) = false := by simpa using hne
        rw [List.lookup_cons, hbeq]
        exact h
      · rintro ⟨hagree, hc, hrest⟩
        refine ⟨fun name v h => ?_, hrest⟩
        rw [List.lookup_cons] at h
        split at h
        · rename_i heq
          obtain rfl := eq_of_beq heq
          rw [hc]
          exact Option.some.inj h
        · exact hagree name v h
    | some v =>
      dsimp only
      split
      · rename_i hv
        rw [ih]
        refine exists_congr fun assignment => ?_
        rw [List.forall_mem_cons, Holds]
        exact ⟨fun h => ⟨h.1, by rw [h.1 _ _ hseen, hv], h.2⟩, fun h => ⟨h.1, h.2.2⟩⟩
      · rename_i hv
        refine ⟨fun h => absurd h (by simp), ?_⟩
        rintro ⟨assignment, hagree, hall⟩
        have hc : c.Holds assignment := hall c (by simp)
        exact absurd ((hagree _ _ hseen).symm.trans hc) hv

theorem firstConflict?_eq_none_iff :
    firstConflict? cs = none ↔ ∃ assignment : String → Bool, ∀ c ∈ cs, c.Holds assignment := by
  rw [firstConflict?, conflictFrom_eq_none_iff]
  exact exists_congr fun assignment => ⟨fun h => h.2, fun h => ⟨by simp, h⟩⟩

theorem countConditions_eq_ncard (cs : List Constraint) :
    countConditions cs = {name : String | ∃ c ∈ cs, c.condition = name}.ncard := by
  have hset : {name : String | ∃ c ∈ cs, c.condition = name} = ((cs.map condition).eraseDups.toFinset : Set String) := by
    ext name
    simp
  rw [hset, Set.ncard_coe_finset, List.toFinset_card_of_nodup (nodup_eraseDups _), countConditions]

end Constraint

/-! ## Engines -/

/-- Whether the rulings of an external engine depend on the constraints and the time limit alone. -/
def External.Steady (z : External) : Prop :=
  ∀ log log' timeout cs, z.check log timeout cs = z.check log' timeout cs

/-- Whether an external engine rules constraints out only if two of them require different values of names that agree up to a
null character. -/
def External.Sound (z : External) : Prop :=
  ∀ log timeout cs, z.check log timeout cs = .unsat →
    ∃ c ∈ cs, ∃ d ∈ cs, upToNull c.condition = upToNull d.condition ∧ c.value ≠ d.value

theorem External.steady_literal : External.literal.Steady := fun _ _ _ _ => rfl

theorem External.sound_literal : External.literal.Sound := by
  intro log timeout cs hunsat
  by_contra hnone
  push Not at hnone
  -- a name has the value that the first constraint on it requires
  have hagree : Constraint.firstConflict? (cs.map fun c => { c with condition := upToNull c.condition }) = none := by
    rw [Constraint.firstConflict?_eq_none_iff]
    refine ⟨fun known => ((cs.find? (upToNull ·.condition == known)).map (·.value)).getD false, ?_⟩
    rw [List.forall_mem_map]
    intro c hc
    cases hfind : cs.find? (upToNull ·.condition == upToNull c.condition) with
    | none => simpa using List.find?_eq_none.1 hfind c hc
    | some d =>
      have hknown : upToNull d.condition = upToNull c.condition := by simpa using List.find?_some hfind
      have hvalue := hnone d (List.mem_of_find?_eq_some hfind) c hc hknown
      simp only [Constraint.Holds, hfind, Option.map_some, Option.getD_some, hvalue]
  simp only [literal, hagree] at hunsat
  cases hunsat

/-- The answer of an engine, a ruling that it does not know being yes. -/
def Backend.answer (log : Array Report) (cs : List Constraint) : Backend → Bool
  | .internal => (Constraint.firstConflict? cs).isNone
  | .external z timeout => z.check log timeout cs != .unsat

theorem Backend.run_decide (b : Backend) (log : Array Report) (cs : List Constraint) :
    ((b.decide cs).run log).1 = .ok (b.answer log cs) := by
  cases b with
  | internal =>
    rw [decide, answer]
    cases Constraint.firstConflict? cs with
    | none => rfl
    | some condition => rfl
  | external z timeout =>
    show ((z.check log timeout cs).answer.run log).1 = _
    rw [answer]
    cases z.check log timeout cs with
    | sat => rfl
    | unsat => rfl
    | unknown reason => rfl

namespace Solver

variable {s : Solver} {log : Array Report} {cs : List Constraint}

/-! ## Answers -/

/-- The answer of a solver on some occasion. -/
def answerOn (s : Solver) (log : Array Report) (cs : List Constraint) : Except Fault Bool :=
  s.checkSize cs >>= fun _ => .ok (s.backend.answer log cs)

/-- The answer of a solver when nothing has been recorded. -/
def satisfiable (s : Solver) (cs : List Constraint) : Except Fault Bool := s.answerOn #[] cs

/-- Whether the external engine, if there is one, is steady. -/
def Steady (s : Solver) : Prop := ∀ z timeout, s.backend = .external z timeout → z.Steady

/-- Whether the external engine, if there is one, is sound. -/
def Sound (s : Solver) : Prop := ∀ z timeout, s.backend = .external z timeout → z.Sound

/-- Whether the engine may take two names for one. -/
def Alike (s : Solver) (a b : String) : Prop :=
  match s.backend with
  | .internal => a = b
  | .external .. => upToNull a = upToNull b

theorem run_solve (s : Solver) (log : Array Report) (cs : List Constraint) :
    ((s.solve cs).run log).1 = s.answerOn log cs := by
  rw [solve, answerOn]
  cases s.checkSize cs with
  | error fault => rfl
  | ok _ => exact s.backend.run_decide log cs

theorem backend_of_internal (h : s.engine = .internal) : s.backend = .internal := by
  unfold engine at h
  split at h
  · assumption
  · cases h

theorem steady_of_internal (h : s.engine = .internal) : s.Steady := by
  intro z timeout hexternal
  rw [backend_of_internal h] at hexternal
  cases hexternal

theorem gives_solve (h : s.Steady) (cs : List Constraint) : Gives (s.solve cs) (s.satisfiable cs) := by
  intro log
  have hanswer : s.backend.answer log cs = s.backend.answer #[] cs := by
    cases hbackend : s.backend with
    | internal => rfl
    | external z timeout => rw [Backend.answer, Backend.answer, h z timeout hbackend log #[]]
  rw [run_solve, satisfiable, answerOn, answerOn, hanswer]

theorem checkSize_within (h : s.maxConditions.isBelow? (Constraint.countConditions cs) = some false) :
    s.checkSize cs = .ok () := by
  simp only [checkSize, h]

theorem checkSize_beyond (h : s.maxConditions.isBelow? (Constraint.countConditions cs) = some true) :
    s.checkSize cs = .error (.tooManyConditions (Constraint.countConditions cs) s.maxConditions) := by
  simp only [checkSize, h]

theorem answerOn_within (h : s.maxConditions.isBelow? (Constraint.countConditions cs) = some false) (log : Array Report) :
    s.answerOn log cs = .ok (s.backend.answer log cs) := by
  rw [answerOn, checkSize_within h]
  rfl

theorem satisfiable_beyond (h : s.maxConditions.isBelow? (Constraint.countConditions cs) = some true) :
    s.satisfiable cs = .error (.tooManyConditions (Constraint.countConditions cs) s.maxConditions) := by
  rw [satisfiable, answerOn, checkSize_beyond h]
  rfl

theorem answer_internal (hengine : s.engine = .internal) :
    s.backend.answer log cs = true ↔ ∃ assignment : String → Bool, ∀ c ∈ cs, c.Holds assignment := by
  rw [backend_of_internal hengine, Backend.answer, Option.isNone_iff_eq_none, Constraint.firstConflict?_eq_none_iff]

/-- Constraints that hold under values which the engine need not tell apart are not ruled out. -/
theorem answer_of_holds (hsound : s.Sound) {values : String → Bool} (hholds : ∀ c ∈ cs, c.Holds values)
    (hnames : ∀ c ∈ cs, ∀ d ∈ cs, s.Alike c.condition d.condition → values c.condition = values d.condition) :
    s.backend.answer log cs = true := by
  unfold Alike at hnames
  cases hbackend : s.backend with
  | internal =>
    rw [Backend.answer, Option.isNone_iff_eq_none, Constraint.firstConflict?_eq_none_iff]
    exact ⟨values, hholds⟩
  | external z timeout =>
    rw [Backend.answer, bne_iff_ne]
    intro hunsat
    obtain ⟨c, hc, d, hd, hname, hvalue⟩ := hsound z timeout hbackend log timeout cs hunsat
    rw [hbackend] at hnames
    exact hvalue (by rw [← hholds c hc, ← hholds d hd, hnames c hc d hd hname])

/-- Whether a solver may be given constraints, and truth values that do not differ on names which its engine may take for one
agree with all of them. -/
structure Admits (s : Solver) (cs : List Constraint) : Prop where
  within : s.maxConditions.isBelow? {name : String | ∃ c ∈ cs, c.condition = name}.ncard = some false
  agree : ∃ values : String → Bool, (∀ c ∈ cs, c.Holds values) ∧ ∀ a b, s.Alike a b → values a = values b

/-- A solver with an external engine. -/
def literal : Solver := ⟨.external .literal (.int 30000), .int 4096⟩

theorem steady_literal : literal.Steady := by
  intro z timeout h
  cases h
  exact External.steady_literal

theorem sound_literal : literal.Sound := by
  intro z timeout h
  cases h
  exact External.sound_literal

end Solver

theorem Decimal.Binary.compareNat_mono {x : Decimal.Binary} {m n : Nat} (hmn : m ≤ n) (h : x.compareNat m = some .lt) :
    x.compareNat n = some .lt := by
  cases x with
  | nan => cases h
  | infinite negative => exact h
  | finite negative significand exponent =>
    simp only [compareNat] at h ⊢
    split at h
    · rename_i hnegative
      rw [if_pos hnegative]
      simp at h ⊢
      omega
    · rename_i hpositive
      rw [if_neg hpositive]
      split at h
      · rename_i hexponent
        rw [if_pos hexponent]
        simp only [Option.some.injEq, Nat.compare_eq_lt] at h ⊢
        omega
      · rename_i hexponent
        rw [if_neg hexponent]
        simp only [Option.some.injEq, Nat.compare_eq_lt] at h ⊢
        exact lt_of_lt_of_le h (Nat.mul_le_mul_right _ hmn)

theorem Value.isBelow?_of_le {v : Value} {m n : Nat} (hmn : m ≤ n) (h : v.isBelow? n = some false) :
    v.isBelow? m = some false := by
  cases v with
  | int k =>
    simp only [isBelow?, Option.some.injEq, decide_eq_false_iff_not] at h ⊢
    omega
  | bool b =>
    simp only [isBelow?, Option.some.injEq, decide_eq_false_iff_not] at h ⊢
    omega
  | real bits =>
    simp only [isBelow?, Option.some.injEq, beq_eq_false_iff_ne] at h ⊢
    exact fun hlt => h (Decimal.Binary.compareNat_mono hmn hlt)
  | null => cases h
  | text s => cases h
  | list items => cases h
  | table entries => cases h

theorem Solver.Admits.subset {s : Solver} {cs cs' : List Constraint} (h : s.Admits cs') (hsub : cs ⊆ cs') : s.Admits cs := by
  obtain ⟨hwithin, values, hvalues, hnames⟩ := h
  refine ⟨Value.isBelow?_of_le (Set.ncard_le_ncard ?_ ?_) hwithin, values, fun c hc => hvalues c (hsub hc), hnames⟩
  · rintro name ⟨c, hc, hname⟩
    exact ⟨c, hsub hc, hname⟩
  · exact (cs'.finite_toSet.image Constraint.condition).subset fun name ⟨c, hc, hname⟩ => ⟨c, hc, hname⟩

end Flowgraph
