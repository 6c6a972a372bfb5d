import Mathlib

/-! Runs of a fallible machine and their refinement of a specification. A machine takes an operation to
an answer and a next state, or fails; a specification says how an operation moves an abstract state and
which answers are right there. A relation that every step keeps is kept by every run. -/

namespace LeanBbg.Refine

variable {S A Op Ans : Type}

/-- Run a list of operations, collecting the answers. -/
def run (step : S → Op → Option (Ans × S)) : S → List Op → Option (List Ans × S)
  | s, [] => some ([], s)
  | s, op :: ops =>
      (step s op).bind fun next => (run step next.2 ops).map fun rest => (next.1 :: rest.1, rest.2)

structure Spec (A Op Ans : Type) where
  apply : A → Op → A
  /-- The right answers to an operation in an abstract state. -/
  Answers : A → Op → Ans → Prop

/-- Every answer of the list is right in the state in which it is given. -/
def Spec.Agree (spec : Spec A Op Ans) : A → List Op → List Ans → Prop
  | _, [], [] => True
  | a, op :: ops, ans :: rest => spec.Answers a op ans ∧ spec.Agree (spec.apply a op) ops rest
  | _, _, _ => False

/-- A condition on steps holds along a run of the specification. -/
def Spec.Along (spec : Spec A Op Ans) (Cond : A → Op → Prop) : A → List Op → Prop
  | _, [] => True
  | a, op :: ops => Cond a op ∧ spec.Along Cond (spec.apply a op) ops

/-- From related states, a step does not fail, answers right and leads to related states. -/
def Spec.Step (spec : Spec A Op Ans) (step : S → Op → Option (Ans × S)) (Rel : S → A → Prop) (s : S) (a : A)
    (op : Op) : Prop :=
  ∃ ans s', step s op = some (ans, s') ∧ spec.Answers a op ans ∧ Rel s' (spec.apply a op)

theorem Spec.run_agree {spec : Spec A Op Ans} {step : S → Op → Option (Ans × S)} {Rel : S → A → Prop}
    {Cond : A → Op → Prop} (hstep : ∀ s a op, Rel s a → Cond a op → spec.Step step Rel s a op) {s : S} {a : A}
    (hrel : Rel s a) {ops : List Op} (hcond : spec.Along Cond a ops) :
    ∃ answers s', run step s ops = some (answers, s') ∧ spec.Agree a ops answers ∧
      Rel s' (ops.foldl spec.apply a) := by
  induction ops generalizing s a with
  | nil => exact ⟨[], s, rfl, trivial, hrel⟩
  | cons op ops ih =>
      obtain ⟨ans, s₁, hnext, hans, hrel₁⟩ := hstep s a op hrel hcond.1
      obtain ⟨answers, s', hrun, hagree, hrel'⟩ := ih hrel₁ hcond.2
      refine ⟨ans :: answers, s', ?_, ⟨hans, hagree⟩, hrel'⟩
      rw [run, hnext, Option.bind_some, hrun, Option.map_some]

/-- The state that a run reaches is related to the one of the specification. -/
theorem Spec.rel_of_run {spec : Spec A Op Ans} {step : S → Op → Option (Ans × S)} {Rel : S → A → Prop}
    {Cond : A → Op → Prop} (hstep : ∀ s a op, Rel s a → Cond a op → spec.Step step Rel s a op) {s s' : S} {a : A}
    (hrel : Rel s a) {ops : List Op} (hcond : spec.Along Cond a ops) {answers : List Ans}
    (hrun : run step s ops = some (answers, s')) : Rel s' (ops.foldl spec.apply a) := by
  obtain ⟨answers', s'', hrun', -, hrel'⟩ := run_agree hstep hrel hcond
  obtain ⟨-, rfl⟩ := Prod.mk.inj (Option.some_inj.mp (hrun.symm.trans hrun'))
  exact hrel'

/-! ### Specifications with several outcomes -/

/-- A run of a specification whose steps are a relation. -/
inductive Runs (Step : A → Op → Ans → A → Prop) : A → List Op → List Ans → A → Prop where
  | nil (a : A) : Runs Step a [] [] a
  | cons {a a' a'' : A} {op : Op} {ops : List Op} {ans : Ans} {answers : List Ans} (hstep : Step a op ans a')
      (hruns : Runs Step a' ops answers a'') : Runs Step a (op :: ops) (ans :: answers) a''

/-- A run whose states are the log of its steps. -/
theorem Runs.eq_zip {log log' : List (Op × Ans)} {ops : List Op} {answers : List Ans}
    (h : Runs (fun log op ans log' => log' = log ++ [(op, ans)]) log ops answers log') :
    log' = log ++ ops.zip answers := by
  induction h with
  | nil log => exact (List.append_nil log).symm
  | cons hstep _ ih => rw [ih, hstep, List.append_assoc, List.zip_cons_cons, List.singleton_append]

/-- A relation that may depend on the number of steps, up to a bound. When every step answers as one of the
specification, so does every run. -/
theorem exists_runs {step : S → Op → Option (Ans × S)} {Step : A → Op → Ans → A → Prop} {Rel : Nat → S → A → Prop}
    {Cond : Op → Prop} {bound : Nat} (hstep : ∀ n < bound, ∀ s a op, Rel n s a → Cond op →
      ∃ ans s' a', step s op = some (ans, s') ∧ Step a op ans a' ∧ Rel (n + 1) s' a')
    {n : Nat} {s : S} {a : A} (hrel : Rel n s a) {ops : List Op} (hcond : ∀ op ∈ ops, Cond op)
    (hbound : n + ops.length ≤ bound) :
    ∃ answers s' a', run step s ops = some (answers, s') ∧ Runs Step a ops answers a' ∧
      Rel (n + ops.length) s' a' := by
  induction ops generalizing n s a with
  | nil => exact ⟨[], s, a, rfl, .nil a, hrel⟩
  | cons op ops ih =>
      obtain ⟨hop, hops⟩ := List.forall_mem_cons.mp hcond
      rw [List.length_cons, Nat.add_comm ops.length, ← Nat.add_assoc] at hbound ⊢
      obtain ⟨ans, s₁, a₁, hnext, hanswer, hrel₁⟩ := hstep n (by omega) s a op hrel hop
      obtain ⟨answers, s', a', hrun, hruns, hrel'⟩ := ih hrel₁ hops hbound
      refine ⟨ans :: answers, s', a', ?_, .cons hanswer hruns, hrel'⟩
      rw [run, hnext, Option.bind_some, hrun, Option.map_some]

/-- A run over sets of states, each of whose states comes from one before it. -/
theorem Runs.exists_mem {Step : A → Op → Ans → A → Prop} {as as' : Set A} {ops : List Op} {answers : List Ans}
    (h : Runs (fun as op ans as' => ∀ a' ∈ as', ∃ a ∈ as, Step a op ans a') as ops answers as') :
    ∀ a' ∈ as', ∃ a ∈ as, Runs Step a ops answers a' := by
  induction h with
  | nil as => exact fun a ha => ⟨a, ha, .nil a⟩
  | cons hstep _ ih =>
      intro a'' ha''
      obtain ⟨a', ha', hruns⟩ := ih a'' ha''
      obtain ⟨a, ha, hfirst⟩ := hstep a' ha'
      exact ⟨a, ha, .cons hfirst hruns⟩

/-- A state may stand for several states of the specification, when a later step decides which of them it is. -/
theorem exists_runs_of_sets {step : S → Op → Option (Ans × S)} {Step : A → Op → Ans → A → Prop}
    {Rel : Nat → S → Set A → Prop} {Cond : Op → Prop} {bound : Nat}
    (hstep : ∀ n < bound, ∀ s as op, Rel n s as → Cond op →
      ∃ ans s' as', step s op = some (ans, s') ∧ (∀ a' ∈ as', ∃ a ∈ as, Step a op ans a') ∧ Rel (n + 1) s' as')
    {n : Nat} {s : S} {as : Set A} (hrel : Rel n s as) {ops : List Op} (hcond : ∀ op ∈ ops, Cond op)
    (hbound : n + ops.length ≤ bound) :
    ∃ answers s' as', run step s ops = some (answers, s') ∧ Rel (n + ops.length) s' as' ∧
      ∀ a' ∈ as', ∃ a ∈ as, Runs Step a ops answers a' := by
  obtain ⟨answers, s', as', hrun, hruns, hrel'⟩ := exists_runs hstep hrel hcond hbound
  exact ⟨answers, s', as', hrun, hrel', hruns.exists_mem⟩

/-- What every step of the operations keeps, every run keeps. -/
theorem Runs.invariant {Step : A → Op → Ans → A → Prop} {I : A → Prop} {Cond : Op → Prop}
    (hstep : ∀ a op ans a', I a → Cond op → Step a op ans a' → I a') {a a' : A} {ops : List Op} {answers : List Ans}
    (h : Runs Step a ops answers a') (hcond : ∀ op ∈ ops, Cond op) (ha : I a) : I a' := by
  induction h with
  | nil => exact ha
  | cons hfirst _ ih =>
      obtain ⟨hop, hops⟩ := List.forall_mem_cons.mp hcond
      exact ih hops (hstep _ _ _ _ ha hop hfirst)

/-- What a step makes good of its answer, and later steps keep, is good of all answers at the end. -/
theorem Runs.forall_answers {Step : A → Op → Ans → A → Prop} {I : A → Prop} {Good : Op → Ans → A → Prop}
    (hstep : ∀ a op ans a', I a → Step a op ans a' → I a' ∧ Good op ans a')
    (hkeep : ∀ a op ans a', I a → Step a op ans a' → ∀ op' ans', Good op' ans' a → Good op' ans' a')
    {a a' : A} {ops : List Op} {answers : List Ans} (h : Runs Step a ops answers a') (ha : I a) :
    ∀ pair ∈ ops.zip answers, Good pair.1 pair.2 a' := by
  induction h with
  | nil => exact fun pair hpair => absurd hpair List.not_mem_nil
  | @cons _ _ _ first _ answer _ hfirst hrest ih =>
      obtain ⟨hI, hgood⟩ := hstep _ _ _ _ ha hfirst
      intro pair hpair
      rcases List.mem_cons.mp hpair with rfl | hpair
      · have hboth : ∀ b op ans b', I b ∧ Good first answer b → True → Step b op ans b' → I b' ∧ Good first answer b' :=
          fun b op ans b' hb _ hnext => ⟨(hstep b op ans b' hb.1 hnext).1, hkeep b op ans b' hb.1 hnext _ _ hb.2⟩
        exact (hrest.invariant hboth (fun _ _ => trivial) ⟨hI, hgood⟩).2
      · exact ih hI pair hpair

/-! ### Runs in parts -/

theorem run_append {step : S → Op → Option (Ans × S)} {s s₁ s₂ : S} {ops ops' : List Op}
    {answers answers' : List Ans} (h : run step s ops = some (answers, s₁))
    (h' : run step s₁ ops' = some (answers', s₂)) :
    run step s (ops ++ ops') = some (answers ++ answers', s₂) := by
  induction ops generalizing s answers with
  | nil =>
      obtain ⟨rfl, rfl⟩ := Prod.mk.inj (Option.some_inj.mp h)
      exact h'
  | cons op ops ih =>
      rw [run, Option.bind_eq_some_iff] at h
      obtain ⟨next, hnext, hrest⟩ := h
      obtain ⟨⟨rest, s₁'⟩, hrun, heq⟩ := Option.map_eq_some_iff.mp hrest
      obtain ⟨rfl, rfl⟩ := Prod.mk.inj heq
      rw [List.cons_append, run, hnext, Option.bind_some, ih hrun]
      rfl

/-- A run of two lists of operations is a run of the first and then of the second. -/
theorem exists_of_run_append {step : S → Op → Option (Ans × S)} {s s₂ : S} {ops ops' : List Op}
    {answers : List Ans} (h : run step s (ops ++ ops') = some (answers, s₂)) :
    ∃ first s₁ rest, run step s ops = some (first, s₁) ∧ run step s₁ ops' = some (rest, s₂) ∧
      answers = first ++ rest := by
  induction ops generalizing s answers with
  | nil => exact ⟨[], s, answers, rfl, h, rfl⟩
  | cons op ops ih =>
      rw [List.cons_append, run, Option.bind_eq_some_iff] at h
      obtain ⟨next, hnext, hrest⟩ := h
      obtain ⟨⟨answers', s'⟩, hrun, heq⟩ := Option.map_eq_some_iff.mp hrest
      obtain ⟨rfl, rfl⟩ := Prod.mk.inj heq
      obtain ⟨first, s₁, rest, hfirst, hsecond, rfl⟩ := ih hrun
      refine ⟨next.1 :: first, s₁, rest, ?_, hsecond, rfl⟩
      rw [run, hnext, Option.bind_some, hfirst]
      rfl

theorem Spec.along_append {spec : Spec A Op Ans} {Cond : A → Op → Prop} {a : A} {ops ops' : List Op} :
    spec.Along Cond a (ops ++ ops') ↔
      spec.Along Cond a ops ∧ spec.Along Cond (ops.foldl spec.apply a) ops' := by
  induction ops generalizing a with
  | nil => exact (Iff.of_eq (true_and _)).symm
  | cons op ops ih => rw [List.cons_append, Along, Along, ih, List.foldl_cons, and_assoc]

/-- The answers of an agreeing run split where the operations do. -/
theorem Spec.Agree.append {spec : Spec A Op Ans} {a : A} {ops ops' : List Op} {answers answers' : List Ans}
    (hlen : answers.length = ops.length) (h : spec.Agree a (ops ++ ops') (answers ++ answers')) :
    spec.Agree (ops.foldl spec.apply a) ops' answers' := by
  induction ops generalizing a answers with
  | nil =>
      rw [List.eq_nil_of_length_eq_zero hlen] at h
      exact h
  | cons op ops ih =>
      cases answers with
      | nil => cases hlen
      | cons ans answers => exact ih (Nat.succ.inj hlen) h.2

theorem run_length {step : S → Op → Option (Ans × S)} {s s' : S} {ops : List Op} {answers : List Ans}
    (h : run step s ops = some (answers, s')) : answers.length = ops.length := by
  induction ops generalizing s answers with
  | nil =>
      rw [run, Option.some_inj, Prod.mk.injEq] at h
      rw [← h.1]
      rfl
  | cons op ops ih =>
      rw [run, Option.bind_eq_some_iff] at h
      obtain ⟨next, -, hrest⟩ := h
      rw [Option.map_eq_some_iff] at hrest
      obtain ⟨⟨rest, s''⟩, hrun, heq⟩ := hrest
      obtain ⟨rfl, rfl⟩ := Prod.mk.inj heq
      rw [List.length_cons, List.length_cons, ih hrun]

/-- A condition on states and operations holds at every step of a run. -/
def RunAlong (step : S → Op → Option (Ans × S)) (Cond : S → Op → Prop) : S → List Op → Prop
  | _, [] => True
  | s, op :: ops => Cond s op ∧ ∀ next, step s op = some next → RunAlong step Cond next.2 ops

/-- A condition that can be read off each answer holds along a run when all answers show it. -/
theorem runAlong_iff {step : S → Op → Option (Ans × S)} {Cond : S → Op → Prop} (Shown : Ans → Prop)
    (h : ∀ s op next, step s op = some next → (Shown next.1 ↔ Cond s op)) {s s' : S} {ops : List Op}
    {answers : List Ans} (hrun : run step s ops = some (answers, s')) :
    (∀ ans ∈ answers, Shown ans) ↔ RunAlong step Cond s ops := by
  induction ops generalizing s answers with
  | nil =>
      obtain ⟨rfl, rfl⟩ := Prod.mk.inj (Option.some_inj.mp hrun)
      simp [RunAlong]
  | cons op ops ih =>
      rw [run, Option.bind_eq_some_iff] at hrun
      obtain ⟨next, hnext, hrest⟩ := hrun
      obtain ⟨⟨rest, s''⟩, hrun, heq⟩ := Option.map_eq_some_iff.mp hrest
      obtain ⟨rfl, rfl⟩ := Prod.mk.inj heq
      rw [RunAlong, List.forall_mem_cons, h s op next hnext, ih hrun]
      refine and_congr_right fun _ => ⟨fun halong next' hnext' => ?_, fun halong => halong next hnext⟩
      obtain rfl := Option.some_inj.mp (hnext.symm.trans hnext')
      exact halong

/-- An invariant with the answers so far, kept by every step, holds at the end of a run. -/
theorem run_induction {step : S → Op → Option (Ans × S)} {I : List Ans → S → Prop}
    (h : ∀ acc s op next, I acc s → step s op = some next → I (acc ++ [next.1]) next.2) {s s' : S} {ops : List Op}
    {acc answers : List Ans} (hs : I acc s) (hrun : run step s ops = some (answers, s')) : I (acc ++ answers) s' := by
  induction ops generalizing s acc answers with
  | nil =>
      obtain ⟨rfl, rfl⟩ := Prod.mk.inj (Option.some_inj.mp hrun)
      rwa [List.append_nil]
  | cons op ops ih =>
      rw [run, Option.bind_eq_some_iff] at hrun
      obtain ⟨next, hnext, hrest⟩ := hrun
      obtain ⟨⟨rest, s''⟩, hrun, heq⟩ := Option.map_eq_some_iff.mp hrest
      obtain ⟨rfl, rfl⟩ := Prod.mk.inj heq
      have := ih (h acc s op next hs hnext) hrun
      rwa [List.append_assoc] at this

theorem runAlong_of_forall {step : S → Op → Option (Ans × S)} {Cond : S → Op → Prop} {ops : List Op}
    (h : ∀ op ∈ ops, ∀ s, Cond s op) (s : S) : RunAlong step Cond s ops := by
  induction ops generalizing s with
  | nil => trivial
  | cons op ops ih =>
      obtain ⟨hhead, htail⟩ := List.forall_mem_cons.mp h
      exact ⟨hhead s, fun next _ => ih htail next.2⟩

/-- Two conditions along a run are one. -/
theorem RunAlong.and {step : S → Op → Option (Ans × S)} {Cond Cond' : S → Op → Prop} {s : S} {ops : List Op}
    (h : RunAlong step Cond s ops) (h' : RunAlong step Cond' s ops) :
    RunAlong step (fun s op => Cond s op ∧ Cond' s op) s ops := by
  induction ops generalizing s with
  | nil => trivial
  | cons op ops ih => exact ⟨⟨h.1, h'.1⟩, fun next hnext => ih (h.2 next hnext) (h'.2 next hnext)⟩

/-- An invariant with the operations so far, kept by every step that meets a condition, holds at the end of a
run along which the condition holds. -/
theorem run_induction_along {step : S → Op → Option (Ans × S)} {Cond : S → Op → Prop} {I : List Op → S → Prop}
    (h : ∀ done s op next, I done s → Cond s op → step s op = some next → I (done ++ [op]) next.2) (done : List Op)
    {s s' : S} {ops : List Op} {answers : List Ans} (hs : I done s) (halong : RunAlong step Cond s ops)
    (hrun : run step s ops = some (answers, s')) : I (done ++ ops) s' := by
  induction ops generalizing s done answers with
  | nil =>
      obtain ⟨-, rfl⟩ := Prod.mk.inj (Option.some_inj.mp hrun)
      rwa [List.append_nil]
  | cons op ops ih =>
      rw [run, Option.bind_eq_some_iff] at hrun
      obtain ⟨next, hnext, hrest⟩ := hrun
      obtain ⟨⟨rest, s''⟩, hrun, heq⟩ := Option.map_eq_some_iff.mp hrest
      obtain ⟨rfl, rfl⟩ := Prod.mk.inj heq
      have := ih (done ++ [op]) (h done s op next hs halong.1 hnext) (halong.2 next hnext) hrun
      rwa [List.append_assoc] at this

/-- A machine that never fails at a step has a run for every list of operations. -/
theorem exists_run {step : S → Op → Option (Ans × S)} (h : ∀ s op, ∃ next, step s op = some next) (s : S)
    (ops : List Op) : ∃ answers s', run step s ops = some (answers, s') := by
  induction ops generalizing s with
  | nil => exact ⟨[], s, rfl⟩
  | cons op ops ih =>
      obtain ⟨next, hnext⟩ := h s op
      obtain ⟨answers, s', hrun⟩ := ih next.2
      refine ⟨next.1 :: answers, s', ?_⟩
      rw [run, hnext, Option.bind_some, hrun]
      rfl

end LeanBbg.Refine
