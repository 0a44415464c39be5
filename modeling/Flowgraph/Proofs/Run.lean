import Flowgraph.Feasibility.Inquiry
import Mathlib.Data.List.Forall2
/-!
# What computations give

Tasks and inquiries leave reports and findings behind, but their results do not depend on those that are there already. A
computation `Gives` a result if it has this result wherever it is started. Every step of a task or an inquiry gives
something, and so do sequences of steps (`Gives.bind`) and loops (`Gives.foldlM`); the result is then found without the state.
Where the reports matter as well, a task `Leaves` its result and the reports that it adds.
-/

namespace Flowgraph

variable {σ α β ε : Type}

/-- The result of a computation, wherever it is started. -/
def Gives (t : ExceptT Fault (StateM σ) α) (result : Except Fault α) : Prop := ∀ s, (t.run s).1 = result

theorem bind_eq_ok_iff {value : Except ε α} {next : α → Except ε β} {b : β} :
    value >>= next = .ok b ↔ ∃ a, value = .ok a ∧ next a = .ok b := by
  cases value with
  | error fault => exact ⟨fun h => (nomatch h), fun ⟨a, h, _⟩ => (nomatch h)⟩
  | ok a => exact ⟨fun h => ⟨a, rfl, h⟩, fun ⟨_, h, hnext⟩ => Except.ok.inj h ▸ hnext⟩

theorem map_eq_ok_iff {value : Except Fault α} {f : α → β} {b : β} :
    f <$> value = .ok b ↔ ∃ a, value = .ok a ∧ f a = b := by
  cases value with
  | error fault => exact ⟨fun h => (nomatch h), fun ⟨a, h, _⟩ => (nomatch h)⟩
  | ok a => exact ⟨fun h => ⟨a, rfl, Except.ok.inj h⟩, fun ⟨_, h, hb⟩ => Except.ok.inj h ▸ congrArg Except.ok hb⟩

theorem forM_eq_ok {f : α → Except Fault Unit} {l : List α} (h : ∀ a ∈ l, f a = .ok ()) : l.forM f = .ok () := by
  induction l with
  | nil => rfl
  | cons a l ih =>
    obtain ⟨ha, hrest⟩ := List.forall_mem_cons.1 h
    rw [List.forM, ha]
    exact ih hrest

/-- Going through the partners of a list, each of which gives something fit for its partner. -/
theorem exists_mapM_of_forall₂ {γ : Type} {R : γ → α → Prop} {P : γ → β → Prop} {f : α → Except ε β} {l : List γ}
    {l' : List α} (hl : List.Forall₂ R l l') (h : ∀ c ∈ l, ∀ a, R c a → ∃ b, f a = .ok b ∧ P c b) :
    ∃ bs, l'.mapM f = .ok bs ∧ List.Forall₂ P l bs := by
  induction hl with
  | nil => exact ⟨[], rfl, .nil⟩
  | @cons c a l l' hca _ ih =>
    obtain ⟨b, hb, hP⟩ := h c (by simp) a hca
    obtain ⟨bs, hbs, hall⟩ := ih fun c' hc' => h c' (by simp [hc'])
    exact ⟨b :: bs, by rw [List.mapM_cons, hb, hbs]; rfl, .cons hP hall⟩

theorem run_bind (t : ExceptT Fault (StateM σ) α) (k : α → ExceptT Fault (StateM σ) β) (s : σ) :
    (t >>= k).run s = match t.run s with
      | (.ok a, s') => (k a).run s'
      | (.error fault, s') => (.error fault, s') := by
  show (match t s with | (a, s') => ExceptT.bindCont k a s') = match t s with
      | (.ok a, s') => (k a) s'
      | (.error fault, s') => (.error fault, s')
  rcases t s with ⟨a | a, s'⟩
  · rfl
  · rfl

theorem run_tryCatch (t : ExceptT Fault (StateM σ) α) (handler : Fault → ExceptT Fault (StateM σ) α) (s : σ) :
    (tryCatch t handler).run s = match t.run s with
      | (.ok a, s') => (.ok a, s')
      | (.error fault, s') => (handler fault).run s' := by
  show (ExceptT.tryCatch t handler).run s = _
  unfold ExceptT.tryCatch
  rcases hrun : t.run s with ⟨fault | a, s'⟩
  · simp only [ExceptT.run, ExceptT.mk, bind, StateT.bind]
    rw [show t s = _ from hrun]
  · simp only [ExceptT.run, ExceptT.mk, bind, StateT.bind]
    rw [show t s = _ from hrun]
    rfl

namespace Gives

variable {t : ExceptT Fault (StateM σ) α} {k : α → ExceptT Fault (StateM σ) β}

protected theorem pure (a : α) : Gives (Pure.pure a : ExceptT Fault (StateM σ) α) (.ok a) := fun _ => rfl

protected theorem throw (fault : Fault) : Gives (throw fault : ExceptT Fault (StateM σ) α) (.error fault) :=
  fun _ => rfl

theorem after_get {k : σ → ExceptT Fault (StateM σ) β} {result : Except Fault β} (h : ∀ s, Gives (k s) result) :
    Gives (get >>= k) result := fun s => h s s

theorem then_ok {a : α} {result : Except Fault β} (h : Gives t (.ok a)) (hk : Gives (k a) result) :
    Gives (t >>= k) result := by
  intro s
  have ht := h s
  rw [run_bind]
  rcases hrun : t.run s with ⟨out, s'⟩
  rw [hrun] at ht
  rw [show out = .ok a from ht]
  exact hk s'

theorem then_error {fault : Fault} (h : Gives t (.error fault)) : Gives (t >>= k) (.error fault) := by
  intro s
  have ht := h s
  rw [run_bind]
  rcases hrun : t.run s with ⟨out, s'⟩
  rw [hrun] at ht
  rw [show out = .error fault from ht]

/-- A step may have one of several results, if they lead to the same in the end. -/
theorem then_some {P : α → Prop} {result : Except Fault β} (h : ∀ s, ∃ a, (t.run s).1 = .ok a ∧ P a)
    (hk : ∀ a, P a → Gives (k a) result) : Gives (t >>= k) result := by
  intro s
  obtain ⟨a, ht, ha⟩ := h s
  rw [run_bind]
  rcases hrun : t.run s with ⟨out, s'⟩
  rw [hrun] at ht
  rw [show out = .ok a from ht]
  exact hk a ha s'

protected theorem bind {result : Except Fault α} {next : α → Except Fault β} (h : Gives t result)
    (hk : ∀ a, Gives (k a) (next a)) : Gives (t >>= k) (result >>= next) := by
  cases result with
  | error fault => exact h.then_error
  | ok a => exact h.then_ok (hk a)

/-- What is only recorded afterwards does not change a result. -/
theorem recorded {t : ExceptT Fault (StateM σ) α} {k : α → ExceptT Fault (StateM σ) α} {result : Except Fault α}
    (h : Gives t result) (hk : ∀ a, Gives (k a) (.ok a)) : Gives (t >>= k) result := by
  cases result with
  | error fault => exact h.then_error
  | ok a => exact h.then_ok (hk a)

/-- A loop gives what the loop of its steps' results gives. -/
theorem foldlM {step : β → α → ExceptT Fault (StateM σ) β} {pureStep : β → α → Except Fault β}
    (h : ∀ b a, Gives (step b a) (pureStep b a)) (l : List α) (b : β) :
    Gives (l.foldlM step b) (l.foldlM pureStep b) := by
  induction l generalizing b with
  | nil => exact Gives.pure b
  | cons a l ih =>
    rw [List.foldlM_cons, List.foldlM_cons]
    exact (h b a).bind ih

protected theorem mapM {f : α → ExceptT Fault (StateM σ) β} {g : α → Except Fault β} (h : ∀ a, Gives (f a) (g a)) (l : List α) :
    Gives (l.mapM f) (l.mapM g) := by
  induction l with
  | nil => exact Gives.pure []
  | cons a l ih =>
    rw [List.mapM_cons, List.mapM_cons]
    exact (h a).bind fun b => ih.bind fun bs => .pure (b :: bs)

end Gives

/-! ## Steps of tasks and inquiries -/

theorem Task.gives_reportAll (reports : List Report) : Gives (Task.reportAll reports) (.ok ()) := fun _ => rfl

theorem Task.gives_log (level : Level) (source : Source) (message : String) :
    Gives (Task.log level source message) (.ok ()) := fun _ => rfl

theorem Task.gives_ofExcept (x : Except Fault α) : Gives (Task.ofExcept x) x := by
  cases x with
  | error fault => exact Gives.throw fault
  | ok a => exact Gives.pure a

theorem Graph.gives_augment (g : Graph) (name : Option String) : Gives (g.augment name) (Augmented.ofGraph g name) :=
  (Task.gives_ofExcept _).recorded fun a => (Task.gives_reportAll a.reports).then_ok (.pure a)

theorem Graph.gives_removeLoops (g : Graph) (repair : Bool) : Gives (g.removeLoops repair) (g.loopFree repair) := by
  refine (Task.gives_ofExcept _).recorded fun h => ?_
  split
  · exact Gives.pure h
  · exact (Task.gives_log _ _ _).then_ok (.pure h)

/-- The result of a task and the reports that it adds, wherever it is started. -/
def Task.Leaves (t : Task α) (result : Except Fault α) (reports : List Report) : Prop :=
  ∀ log, t.run log = (result, log ++ reports)

namespace Task.Leaves

variable {t : Task α} {k : α → Task β} {reports reports' : List Report}

protected theorem pure (a : α) : Leaves (Pure.pure a : Task α) (.ok a) [] := by
  intro log
  rw [Array.appendList_nil]
  rfl

theorem reportAll (reports : List Report) : Leaves (Task.reportAll reports) (.ok ()) reports := fun _ => rfl

theorem then_ok {a : α} {result : Except Fault β} (h : Leaves t (.ok a) reports) (hk : Leaves (k a) result reports') :
    Leaves (t >>= k) result (reports ++ reports') := by
  intro log
  rw [run_bind, h log]
  have happend : log ++ reports ++ reports' = log ++ (reports ++ reports') := Array.ext' (by simp)
  exact happend ▸ hk (log ++ reports)

end Task.Leaves

theorem Inquiry.gives_ofExcept (x : Except Fault α) : Gives (Inquiry.ofExcept x) x := by
  cases x with
  | error fault => exact Gives.throw fault
  | ok a => exact Gives.pure a

theorem Inquiry.gives_ofTask {t : Task α} {result : Except Fault α} (h : Gives t result) :
    Gives (Inquiry.ofTask t) result := fun m => h m.reports

theorem Inquiry.gives_log (level : Level) (message : String) : Gives (Inquiry.log level message) (.ok ()) :=
  gives_ofTask (Task.gives_log level _ message)

theorem Gives.ok_iff {t : Inquiry α} {result : Except Fault α} {a : α} (h : Gives t result) :
    Gives t (.ok a) ↔ result = .ok a :=
  ⟨fun ha => (h {}).symm.trans (ha {}), fun ha => ha ▸ h⟩

end Flowgraph
