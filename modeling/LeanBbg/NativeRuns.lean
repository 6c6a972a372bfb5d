import LeanBbg.GraphRuns

/-! Runs of the graph with its policy, and what an accepted batch has checked before each of its events. An
invariant of these runs may use the checks, and conditions on the events of the batches. -/

set_option linter.unusedSectionVars false

namespace LeanBbg

open Attempt

variable {F : Type} [Hemera F] [DecidableEq F] [Brakedown F]

namespace Bbg

/-- What is checked before an event of a batch is applied. -/
def Checked (b : Bbg F) : NativeChange → Prop
  | .signal signal header => validate b signal (signalKey F header.neuron header.step) header = .ok ()
  | _ => True

end Bbg

namespace Prepared

variable {p p' : Prepared F}

theorem event_checked {change : NativeChange} (h : p.event change = .ok p') : p.bbg.Checked change := by
  cases change with
  | signal signal header =>
      change p.signal signal header = .ok p' at h
      rw [Prepared.signal] at h
      rw [Bbg.Checked]
      cases hvalid : validate p.bbg signal (signalKey F header.neuron header.step) header with
      | error e =>
          rw [hvalid] at h
          cases h
      | ok u => rfl
  | intent intent => trivial
  | localCredit neuron token amount focus => trivial

theorem events_checked {events : List NativeChange} (h : events.foldlM eventSnapshot p = .ok p') :
    Refine.RunAlong Bbg.plainStep Bbg.Checked p.bbg events := by
  induction events generalizing p with
  | nil => trivial
  | cons change events ih =>
      rw [List.foldlM_cons] at h
      obtain ⟨p₁, hfirst, hrest⟩ := exists_of_bind_ok h
      obtain ⟨p₂, hevent, hsnapshot⟩ := exists_of_bind_ok hfirst
      obtain rfl := Except.ok.inj hsnapshot
      refine ⟨event_checked hevent, fun next hnext => ?_⟩
      obtain ⟨b₂, hplain, rfl⟩ := Option.map_eq_some_iff.mp hnext
      obtain rfl := Option.some_inj.mp ((event_refines hevent).1.symm.trans hplain)
      have hrest := ih hrest
      exact hrest

end Prepared

namespace Bbg

variable {b : Bbg F} {events : List NativeChange} {p : Prepared F}

/-- Every event of an accepted batch has passed its checks at the state before it. -/
theorem prepare_checked (h : b.prepareNativeBatch events = .ok p) : Refine.RunAlong plainStep Checked b events := by
  have hrun := runBatch_of_prepare h
  rw [runBatch] at hrun
  obtain ⟨p₁, hbegin, hrun⟩ := exists_of_bind_ok hrun
  obtain ⟨p₂, hevents, -⟩ := exists_of_bind_ok hrun
  obtain ⟨hbbg, -⟩ := beginBatch_view hbegin
  have hchecked := Prepared.events_checked hevents
  rwa [hbbg] at hchecked

/-- An invariant that every checked event of a kind keeps is kept by an accepted batch of such events. -/
theorem prepare_induction {Good : Bbg F → NativeChange → Prop} {I : List NativeChange → Bbg F → Prop}
    (h : ∀ done b change b', I done b → b.Checked change → Good b change → b.plainEvent change = some b' →
      I (done ++ [change]) b')
    (hI : I [] b) (hprepare : b.prepareNativeBatch events = .ok p) (hgood : Refine.RunAlong plainStep Good b events) :
    I events p.publish := by
  refine Refine.run_induction_along (I := I) (fun done b change next hI hcond hstep => ?_) [] hI
    ((prepare_checked hprepare).and hgood) (prepare_refines hprepare)
  obtain ⟨b', hevent, rfl⟩ := Option.map_eq_some_iff.mp hstep
  exact h done b change b' hI hcond.1 hcond.2 hevent

/-! ### The policy -/

/-- A new policy, or an operation under the policy in force. -/
inductive Act where
  | configure (config : PruneConfig)
  | op (op : Op)

def act (b : Bbg F) : Act → Option (List Signal × Bbg F)
  | .configure config => some ([], { b with pruneConfig := config })
  | .op op => b.step op

variable [NebuRoundTrip F]

theorem exists_act (b : Bbg F) (a : Act) : ∃ next, b.act a = some next := by
  cases a with
  | configure config => exact ⟨_, rfl⟩
  | op op => exact exists_step b op

end Bbg

end LeanBbg
