import Flowgraph.Proofs.Branch.Satisfiable
import Flowgraph.Proofs.Run
/-!
# Conflicts among constraints

The conditions in conflict are found in one pass that remembers the first value of each condition. What the pass picks out are
the constraints that contradict the first value of their condition in the whole list (`Constraint.contradictingFrom_eq_filter`), so
a condition is in conflict exactly if it is required with both values (`Constraint.mem_conflicts_iff`), and the conditions come
in the order in which they are first contradicted (`Constraint.pairwise_conflicts`).

The internal engine stops at the first contradiction. It finds none exactly if there is no conflict, which is when some assignment of
truth values meets all constraints (`Solver.conjunctions_are_decided`).
-/

namespace Flowgraph

namespace Constraint

variable {cs : List Constraint} {c : Constraint} {name : String}

/-! ## First values -/

/-- The value that the first constraint on a condition requires. -/
def firstValue? (cs : List Constraint) (name : String) : Option Bool :=
  (cs.find? (·.condition == name)).map (·.value)

/-- Whether a constraint requires another value than the first one on its condition. -/
def contradicts (cs : List Constraint) (c : Constraint) : Bool := firstValue? cs c.condition != some c.value

/-- The place of the first constraint that contradicts the first value of a condition. -/
def contradictedAt (cs : List Constraint) (name : String) : Nat :=
  cs.findIdx fun c => contradicts cs c && c.condition == name

theorem firstValue?_cons_self (c : Constraint) (cs : List Constraint) :
    firstValue? (c :: cs) c.condition = some c.value := by
  simp [firstValue?]

theorem firstValue?_cons_of_ne (h : name ≠ c.condition) : firstValue? (c :: cs) name = firstValue? cs name := by
  simp [firstValue?, h.symm]

theorem exists_firstValue? (hc : c ∈ cs) :
    ∃ v, firstValue? cs c.condition = some v ∧ (⟨c.condition, v⟩ : Constraint) ∈ cs := by
  cases hfind : cs.find? (·.condition == c.condition) with
  | none => simpa using List.find?_eq_none.1 hfind c hc
  | some d =>
    have hd : d.condition = c.condition := by simpa using List.find?_some hfind
    refine ⟨d.value, by rw [firstValue?, hfind]; rfl, ?_⟩
    rw [← hd]
    exact List.mem_of_find?_eq_some hfind

/-! ## One pass -/

/-- The pass picks out what contradicts the first value of its condition, among the values seen before it or else in the list. -/
theorem contradictingFrom_eq_filter (seen : List (String × Bool)) (cs : List Constraint) :
    contradictingFrom seen cs =
      cs.filter fun c => (seen.lookup c.condition).or (firstValue? cs c.condition) != some c.value := by
  induction cs generalizing seen with
  | nil => rfl
  | cons c cs ih =>
    rw [contradictingFrom]
    cases hseen : seen.lookup c.condition with
    | none =>
      -- the first constraint on its condition gives the first value
      rw [List.filter_cons_of_neg (by simp [hseen, firstValue?_cons_self])]
      dsimp only
      rw [ih]
      refine List.filter_congr fun d _ => ?_
      by_cases hd : d.condition = c.condition
      · rw [hd, hseen, firstValue?_cons_self]
        simp
      · rw [firstValue?_cons_of_ne hd, List.lookup_cons, beq_eq_false_iff_ne.2 hd]
    | some v =>
      have hrest : contradictingFrom seen cs =
          cs.filter fun d => (seen.lookup d.condition).or (firstValue? (c :: cs) d.condition) != some d.value := by
        rw [ih]
        refine List.filter_congr fun d _ => ?_
        by_cases hd : d.condition = c.condition
        · rw [hd, hseen]
          rfl
        · rw [firstValue?_cons_of_ne hd]
      dsimp only
      by_cases hv : v = c.value
      · rw [if_pos hv, hrest, List.filter_cons_of_neg (by simp [hseen, hv])]
      · rw [if_neg hv, hrest, List.filter_cons_of_pos (by simpa [hseen] using hv)]

theorem conflicts_eq (cs : List Constraint) :
    conflicts cs = ((cs.filter (contradicts cs)).map condition).eraseDups := by
  rw [conflicts, contradictingFrom_eq_filter]
  rfl

theorem mem_conflicts_iff :
    name ∈ conflicts cs ↔ (⟨name, true⟩ : Constraint) ∈ cs ∧ (⟨name, false⟩ : Constraint) ∈ cs := by
  rw [conflicts_eq, List.mem_eraseDups, List.mem_map]
  constructor
  · rintro ⟨c, hc, rfl⟩
    obtain ⟨hc, hcontra⟩ := List.mem_filter.1 hc
    obtain ⟨v, hfirst, hv⟩ := exists_firstValue? hc
    have hne : v ≠ c.value := by simpa [contradicts, hfirst] using hcontra
    have hboth : ∀ value, (⟨c.condition, value⟩ : Constraint) ∈ cs := by
      intro value
      by_cases hvalue : value = c.value
      · rw [hvalue]
        exact hc
      · rwa [show value = v by cases value <;> cases v <;> simp_all]
    exact ⟨hboth true, hboth false⟩
  · rintro ⟨htrue, hfalse⟩
    obtain ⟨v, hfirst, -⟩ := exists_firstValue? htrue
    have hboth : ∀ value, (⟨name, value⟩ : Constraint) ∈ cs := by
      intro value
      cases value with
      | true => exact htrue
      | false => exact hfalse
    refine ⟨⟨name, !v⟩, List.mem_filter.2 ⟨hboth (!v), ?_⟩, rfl⟩
    simp only [contradicts, hfirst]
    cases v <;> rfl

theorem nodup_conflicts (cs : List Constraint) : (conflicts cs).Nodup := nodup_eraseDups _

theorem pairwise_conflicts (cs : List Constraint) :
    (conflicts cs).Pairwise fun a b => contradictedAt cs a < contradictedAt cs b := by
  rw [conflicts_eq]
  refine (pairwise_eraseDups _).imp fun {a b} hless => findIdx_lt_of_filter ?_
  rwa [List.idxOf, List.idxOf, List.findIdx_map, List.findIdx_map] at hless

theorem conflicts_eq_nil_iff :
    conflicts cs = [] ↔ ∃ assignment : String → Bool, ∀ c ∈ cs, c.Holds assignment := by
  rw [List.eq_nil_iff_forall_not_mem]
  constructor
  · intro hnone
    refine ⟨fun name => (firstValue? cs name).getD false, fun c hc => ?_⟩
    obtain ⟨v, hfirst, hv⟩ := exists_firstValue? hc
    show (firstValue? cs c.condition).getD false = c.value
    rw [hfirst, Option.getD_some]
    by_contra hne
    refine hnone c.condition (mem_conflicts_iff.2 ?_)
    obtain ⟨condition, value⟩ := c
    cases v <;> cases value <;> simp_all
  · rintro ⟨assignment, hall⟩ name hname
    obtain ⟨htrue, hfalse⟩ := mem_conflicts_iff.1 hname
    have hvalue : true = false := (hall _ htrue).symm.trans (hall _ hfalse)
    cases hvalue

end Constraint

/-! ## The internal engine -/

namespace Solver

open Constraint

/-- The internal engine refuses constraints exactly if the limit is below the number of their conditions, contradictory or not.
If it is not, the answer is yes exactly if some assignment of truth values meets all constraints, and exactly if there are no
conflicts. These are the conditions that are required with both values, each once, in the order of the first constraint that
contradicts the first value. -/
theorem conjunctions_are_decided (limit : Value) (cs : List Constraint) (log : Array Report) :
    let answer := (((⟨.internal, limit⟩ : Solver).solve cs).run log).1
    let used := {name : String | ∃ c ∈ cs, c.condition = name}.ncard
    ((∃ number limit', answer = .error (.tooManyConditions number limit')) ↔ limit.isBelow? used = some true) ∧
      (limit.isBelow? used = some false → ∃ holds, answer = .ok holds ∧
        (holds = true ↔ ∃ assignment : String → Bool, ∀ c ∈ cs, c.Holds assignment) ∧
        (holds = true ↔ conflicts cs = [])) ∧
      (∀ k : Int, (Value.int k).isBelow? used = some (decide (k < used))) ∧
      (conflicts cs).Nodup ∧
      (∀ name, name ∈ conflicts cs ↔ (⟨name, true⟩ : Constraint) ∈ cs ∧ (⟨name, false⟩ : Constraint) ∈ cs) ∧
      (conflicts cs).Pairwise fun a b => contradictedAt cs a < contradictedAt cs b := by
  intro answer used
  have hanswer : answer = (⟨.internal, limit⟩ : Solver).satisfiable cs := gives_solve (steady_of_internal rfl) cs log
  have hused : used = countConditions cs := (countConditions_eq_ncard cs).symm
  rw [hanswer, hused]
  refine ⟨⟨?_, fun hbelow => ⟨_, _, satisfiable_beyond hbelow⟩⟩, fun hwithin => ?_, fun _ => rfl,
    nodup_conflicts cs, fun _ => mem_conflicts_iff, pairwise_conflicts cs⟩
  · rintro ⟨number, limit', hfault⟩
    unfold satisfiable answerOn checkSize at hfault
    dsimp only at hfault
    split at hfault
    · cases hfault
    · assumption
    · cases hfault
  · have hiff : ((⟨.internal, limit⟩ : Solver).backend.answer #[] cs = true) ↔ _ := answer_internal rfl
    exact ⟨_, answerOn_within hwithin _, hiff, hiff.trans conflicts_eq_nil_iff.symm⟩

/-- Two conditions in conflict, of which the second is contradicted first. -/
def crossedValues : List Constraint :=
  [⟨"p", true⟩, ⟨"q", false⟩, ⟨"q", true⟩, ⟨"p", false⟩, ⟨"r", true⟩, ⟨"q", false⟩]

theorem conjunctions_are_decided_crossedValues :
    let used := {name : String | ∃ c ∈ crossedValues, c.condition = name}.ncard
    (Value.int 2).isBelow? used = some true ∧ (Value.int 3).isBelow? used = some false ∧
    (∃ number limit, (((⟨.internal, .int 2⟩ : Solver).solve crossedValues).run #[]).1 =
      .error (.tooManyConditions number limit)) ∧
    (((⟨.internal, .int 3⟩ : Solver).solve crossedValues).run #[]).1 = .ok false ∧
    conflicts crossedValues = ["q", "p"] := by
  intro used
  have hused : used = 3 := (countConditions_eq_ncard crossedValues).symm.trans (by decide)
  have hbelow : (Value.int 2).isBelow? used = some true := by rw [hused]; rfl
  have hwithin : (Value.int 3).isBelow? used = some false := by rw [hused]; rfl
  have hconflicts : conflicts crossedValues = ["q", "p"] := by decide
  obtain ⟨hrefused, -⟩ := conjunctions_are_decided (.int 2) crossedValues #[]
  obtain ⟨-, hanswered, -⟩ := conjunctions_are_decided (.int 3) crossedValues #[]
  obtain ⟨holds, hholds, -, hiff⟩ := hanswered hwithin
  rw [hconflicts] at hiff
  obtain rfl : holds = false := by simpa using hiff
  exact ⟨hbelow, hwithin, hrefused.2 hbelow, hholds, hconflicts⟩

end Solver

end Flowgraph
