/-
  Stepwise.Proofs.Readings
  ────────────────────────────────────────────────────────────────────────────
  **THE READINGS OF A PLAN AGREE.**

  The plain function knows nothing of steps, and the cost nothing of answers;
  each of them is what the driver finds, under every continuation.
-/
import Stepwise.Cps.Plan
import Stepwise.Proofs.Answers

namespace Stepwise

universe u

/-! ## §1. What each operation does to a cost. -/

namespace Cost

variable {ρ : Type u}

theorem ofDelay_after (n : Nat) (d : Delay ρ) : ofDelay (.after n d) = (ofDelay d).plus n := by
  show Cost.mk (Delay.after n d).steps (Delay.after n d).events = ⟨n + d.steps, d.events⟩
  rw [Delay.steps_after, Delay.events_after, Nat.add_comm]

theorem ofDelay_later (next : Unit → Delay ρ) :
    ofDelay (.later next) = (ofDelay (next ())).plus 1 :=
  ofDelay_after 1 (next ())

theorem events_drive_eq_enclosed (d : Delay ρ) : d.drive.events = (ofDelay d).enclosed.events :=
  Delay.events_drive d

/-- An answer that waits behind the log of a drive costs its own driver no step. -/
theorem ofDelay_replay_drive (d : Delay ρ) (r : ρ) :
    ofDelay (.replay d.drive.events (.now r)) = (ofDelay d).enclosed := by
  show Cost.mk (Delay.replay d.drive.events (.now r)).steps
      (Delay.replay d.drive.events (.now r)).events = _
  rw [Delay.steps_replay, Delay.events_replay, Delay.steps_now, Delay.events_now,
    List.append_nil, events_drive_eq_enclosed]
  rfl

end Cost

namespace Plan

variable {ρ α : Type u}

/-! ## §2. The computation answers what the plan means. -/

theorem run_apply_toCps (p : Plan ρ α) :
    ∀ k : α → Delay ρ, (p.toCps.apply k).run = p.meaning fun a => (k a).run := by
  -- at a `bind` the source runs into the function, so `k` cannot be fixed
  induction p with
  | pure a => intro k; rfl
  | defer n a =>
      intro k
      show (Delay.postpone n fun _ => k a).run = (k a).run
      rw [Delay.postpone_eq_after, Delay.run_after]
  | abort r => intro k; rfl
  | post a g =>
      intro k
      -- the log of the inner drive is put back in front of the answer
      show (Delay.replay (k a).drive.events (.now (g (k a).run))).run = g (k a).run
      rw [Delay.run_replay]
      rfl
  | bind m f ihm ihf =>
      intro k
      show ((m.toCps.bind fun a => (f a).toCps).apply k).run
          = m.meaning fun a => (f a).meaning fun b => (k b).run
      -- the hypothesis for `m` at the continuation that runs into `f`
      rw [Cps.run_apply_bind, ihm]
      refine congrArg m.meaning (funext fun a => ?_)
      rw [Delay.run_later, ihf a k]
  | map m f ihm =>
      intro k
      show ((m.toCps.map f).apply k).run = m.meaning fun a => (k (f a)).run
      rw [Cps.run_apply_map, ihm]
      refine congrArg m.meaning (funext fun a => ?_)
      rw [Delay.run_later]

theorem respectsResults_toCps (p : Plan ρ α) : p.toCps.RespectsResults := by
  intro k k' h
  rw [run_apply_toCps, run_apply_toCps, funext h]

/-- **No continuation tells two plans apart exactly when they mean the same.** -/
theorem toCps_equiv_iff (p q : Plan ρ α) : p.toCps ≈ q.toCps ↔ p.meaning = q.meaning := by
  constructor
  · intro h
    funext c
    have hc : (p.toCps.apply fun a => .now (c a)).run = (q.toCps.apply fun a => .now (c a)).run :=
      h _
    rwa [run_apply_toCps, run_apply_toCps] at hc
  · intro h k
    rw [run_apply_toCps, run_apply_toCps, h]

/-- **THE DRIVEN COMPUTATION REFINES THE PLAIN ONE**: under every continuation, also one that is
not done, driving what a plan describes gives the meaning of the plan at the continuation's own
answers; with a final function, or with nothing behind it, it gives the meaning there.  The other
names of `bind` and of `pure` build nothing else. -/
theorem run_toCps_eq_meaning (p : Plan ρ α) :
    (∀ k : α → Delay ρ, (p.toCps.apply k).run = p.meaning fun a => (k a).run)
    ∧ (∀ c : α → ρ, p.toCps.runWith c = p.meaning c)
    ∧ (∀ q : Plan ρ ρ, q.toCps.run = q.meaning id)
    ∧ (∀ (β : Type u) (f : α → Plan ρ β),
        (p.toCps.flatMap fun a => (f a).toCps) = (p.bind f).toCps
        ∧ (p.toCps.andThen fun a => (f a).toCps) = (p.bind f).toCps
        ∧ (p.toCps >>= fun a => (f a).toCps) = (p.bind f).toCps)
    ∧ (∀ a : α, (Pure.pure a : Cps ρ α) = (pure a : Plan ρ α).toCps) := by
  refine ⟨p.run_apply_toCps, ?_, ?_, fun β f => ⟨rfl, rfl, rfl⟩, fun a => rfl⟩
  · intro c
    exact p.run_apply_toCps fun a => .now (c a)
  · intro q
    exact q.run_apply_toCps .now

/-- A plan that gives up is not brought back by what comes after it. -/
example : (((Plan.abort 7 : Plan Nat Nat).bind fun a => .post a (· + 1)).map (· * 2)).toCps.run
    = 7 := rfl

/-! ## §3. The computation costs what the plan costs. -/

theorem ofDelay_apply_toCps (p : Plan ρ α) :
    ∀ k : α → Delay ρ,
      Cost.ofDelay (p.toCps.apply k) = p.cost fun a => .ofDelay (k a) := by
  induction p with
  | pure a => intro k; rfl
  | defer n a =>
      intro k
      show Cost.ofDelay (.postpone n fun _ => k a) = (Cost.ofDelay (k a)).plus n
      rw [Delay.postpone_eq_after, Cost.ofDelay_after]
  | abort r => intro k; rfl
  | post a g =>
      intro k
      -- the inner drive keeps its steps to itself and leaves its whole log
      exact Cost.ofDelay_replay_drive (k a) (g (k a).drive.value)
  | bind m f ihm ihf =>
      intro k
      show Cost.ofDelay (.later fun _ => m.toCps.apply fun a => .later fun _ => (f a).toCps.apply k)
          = (m.cost fun a => ((f a).cost fun b => .ofDelay (k b)).plus 1).plus 1
      rw [Cost.ofDelay_later, ihm]
      -- one step is called for the source, one more once the function's value is there
      refine congrArg (fun c => (m.cost c).plus 1) (funext fun a => ?_)
      rw [Cost.ofDelay_later, ihf a k]
  | map m f ihm =>
      intro k
      show Cost.ofDelay (.later fun _ => m.toCps.apply fun a => .later fun _ => k (f a))
          = (m.cost fun a => (Cost.ofDelay (k (f a))).plus 1).plus 1
      rw [Cost.ofDelay_later, ihm]
      refine congrArg (fun c => (m.cost c).plus 1) (funext fun a => ?_)
      rw [Cost.ofDelay_later]

theorem events_drive_toCps (p : Plan ρ α) (k : α → Delay ρ) :
    (p.toCps.apply k).drive.events
      = (p.cost fun a => .ofDelay (k a)).events
          ++ [.finished (p.cost fun a => .ofDelay (k a)).steps] := by
  rw [Cost.events_drive_eq_enclosed, ofDelay_apply_toCps]
  rfl

/-- **THE LOG OF A DRIVE IS THE COST OF THE PLAN**, under every continuation: the driver calls as
many steps as the cost function says, whether its loop runs or each step is called by hand, and its
log holds the events of the cost, then its own event with these steps.  An inner drive has ended
its log before, and the steps called there are not among those of the outer one. -/
theorem log_toCps_eq_cost (p : Plan ρ α) :
    (∀ k : α → Delay ρ,
      let c := p.cost fun a => .ofDelay (k a)
      (p.toCps.apply k).drive.events = c.events ++ [.finished c.steps]
      ∧ (p.toCps.apply k).advance (c.steps + 1)
          = .finished (p.meaning fun a => (k a).run) c.steps)
    ∧ (∀ f : α → ρ,
        let c := p.cost fun _ => ⟨0, []⟩
        (p.toCps.runWithTraced f).events = c.events ++ [.finished c.steps])
    ∧ (∀ q : Plan ρ ρ,
        let c := q.cost fun _ => ⟨0, []⟩
        q.toCps.runTraced.events = c.events ++ [.finished c.steps])
    ∧ (∀ (a : α) (g : ρ → ρ) (k : α → Delay ρ),
        ((post a g).toCps.apply k).drive.events = (k a).drive.events ++ [.finished 0]) := by
  refine ⟨fun k => ⟨p.events_drive_toCps k, ?_⟩, ?_, ?_, ?_⟩
  · -- each step called by hand
    have hsteps : (p.toCps.apply k).steps = (p.cost fun a => .ofDelay (k a)).steps :=
      congrArg Cost.steps (p.ofDelay_apply_toCps k)
    have hvalue : (p.toCps.apply k).value = p.meaning fun a => (k a).run := by
      rw [← Delay.run_eq_value, run_apply_toCps]
    rw [← hsteps, ← hvalue]
    exact Delay.advance_of_steps_lt _ _ (Nat.lt_succ_self _)
  · -- a final function costs nothing
    intro f
    exact p.events_drive_toCps fun a => .now (f a)
  · intro q
    exact q.events_drive_toCps .now
  · -- the outer log is that of the inner drive and one event more
    intro a g k
    rw [events_drive_toCps, Cost.events_drive_eq_enclosed]
    rfl

/-- The inner drive calls five steps, the one around it a single one. -/
example : (((Plan.post 1 (· * 2)).bind fun a => (Plan.defer 2 a).map (· + 1)).toCps.runTraced.events
    : List Event) = [.finished 5, .finished 1] := by decide

end Plan

end Stepwise
