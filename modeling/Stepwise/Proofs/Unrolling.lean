/-
  Stepwise.Proofs.Unrolling
  ────────────────────────────────────────────────────────────────────────────
  **A RECURSION THROUGH BIND IS THE CHAIN OF ITS LAYERS.**

  `chain` stacks its layers before anything runs, `unroll` while it is driven.
  They meet when the base is reached:

      (unroll base layer n).apply k = .after (2 * n) ((chain base layer n).apply k)
-/
import Stepwise.Proofs.Fusion

namespace Stepwise

universe u v

variable {ρ : Type u} {α : Type v}

/-! ## §1. A chain is a tower. -/

namespace Tower

/-- The tower of the layers `layer 0`, …, `layer (n - 1)`, the first one lowest. -/
def stack (layer : Nat → Layer ρ α α) : Nat → Tower ρ α α
  | 0 => base
  | n + 1 => (stack layer n).add (layer n)

theorem on_stack (m : Cps ρ α) (layer : Nat → Layer ρ α α) (n : Nat) :
    (stack layer n).on m = m.chain layer n := by
  induction n with
  | zero => rfl
  | succ n ih =>
      show (layer n).on ((stack layer n).on m) = _
      rw [ih, Cps.chain_succ]

end Tower

/-! ## §2. A chain of maps is a pipeline. -/

namespace Pipeline

/-- The functions `g 0`, …, `g (n - 1)`, one after the other. -/
def stack (g : Nat → α → α) : Nat → Pipeline α α
  | 0 => base
  | n + 1 => (stack g n).add (g n)

theorem tower_stack (g : Nat → α → α) (n : Nat) :
    ((stack g n).tower : Tower ρ α α) = Tower.stack (fun i => .map (g i)) n := by
  induction n with
  | zero => rfl
  | succ n ih => exact congrArg (Tower.add · (.map (g n))) ih

theorem length_stack (g : Nat → α → α) (n : Nat) : (stack g n).length = n := by
  induction n with
  | zero => rfl
  | succ n ih => exact congrArg (· + 1) ih

theorem through_stack (g : Nat → α → α) (n : Nat) (a : α) :
    (stack g n).through a = n.fold (fun i _ b => g i b) a := by
  induction n with
  | zero => rfl
  | succ n ih => rw [Nat.fold_succ, ← ih]; rfl

end Pipeline

namespace Cps

/-! ## §3. One level of the recursion. -/

/-- The recursion binds itself: no other function is called at the number below. -/
theorem unroll_succ_eq_bind_unroll (base : Cps ρ α) (layer : Nat → Layer ρ α α) (n : Nat) :
    base.unroll layer (n + 1) = (layer n).on ((Cps.pure n).bind (base.unroll layer)) := by
  rw [unroll_succ]
  rfl

theorem apply_unroll_succ (base : Cps ρ α) (layer : Nat → Layer ρ α α) (n : Nat)
    (k : α → Delay ρ) :
    (base.unroll layer (n + 1)).apply k
      = .after 3 ((base.unroll layer n).apply fun a => .later fun _ => (layer n).feed a k) := by
  rw [unroll_succ_eq_bind_unroll, Layer.apply_on]
  rfl

theorem apply_chain_succ (base : Cps ρ α) (layer : Nat → Layer ρ α α) (n : Nat)
    (k : α → Delay ρ) :
    (base.chain layer (n + 1)).apply k
      = .later fun _ => (base.chain layer n).apply fun a => .later fun _ =>
          (layer n).feed a k := by
  rw [chain_succ, Layer.apply_on]

/-! ## §4. The recursion and the chain. -/

theorem apply_unroll (base : Cps ρ α) (layer : Nat → Layer ρ α α) (n : Nat) :
    ∀ k : α → Delay ρ,
      (base.unroll layer n).apply k = .after (2 * n) ((base.chain layer n).apply k) := by
  -- `k` is general: the layer of each level goes into what follows the level below
  induction n with
  | zero => intro k; rw [unroll_zero, chain_zero]; rfl
  | succ n ih =>
      intro k
      -- what follows the level below, in the recursion and in the chain alike
      let rest : α → Delay ρ := fun a => .later fun _ => (layer n).feed a k
      have hsteps : 3 + 2 * n = 2 * (n + 1) + 1 := by omega
      calc (base.unroll layer (n + 1)).apply k
          = .after 3 ((base.unroll layer n).apply rest) := apply_unroll_succ base layer n k
        _ = .after 3 (.after (2 * n) ((base.chain layer n).apply rest)) := by rw [ih]
        _ = .after (2 * (n + 1) + 1) ((base.chain layer n).apply rest) := by
              rw [← Delay.after_add, hsteps]
        _ = .after (2 * (n + 1)) (.later fun _ => (base.chain layer n).apply rest) :=
              Delay.after_succ_eq_after_later _ _
        _ = .after (2 * (n + 1)) ((base.chain layer (n + 1)).apply k) := by
              rw [apply_chain_succ]

theorem unroll_equiv_chain (base : Cps ρ α) (layer : Nat → Layer ρ α α) (n : Nat) :
    base.unroll layer n ≈ base.chain layer n := by
  intro k
  rw [apply_unroll, Delay.run_after]

theorem apply_unroll_pure_map (b : α) (g : Nat → α → α) (n : Nat) (k : α → Delay ρ) :
    ((Cps.pure b).unroll (fun i => .map (g i)) n).apply k
      = .after (4 * n) (k (n.fold (fun i _ a => g i a) b)) := by
  have hsteps : 2 * n + n + n = 4 * n := by omega
  -- the chain is the tower of a pipeline
  rw [apply_unroll, ← Tower.on_stack, ← Pipeline.tower_stack, Pipeline.apply_on_tower, apply_pure,
    Pipeline.length_stack, Pipeline.through_stack, ← Delay.after_add, ← Delay.after_add, hsteps]

/-- **THE RECURSION IS THE CHAIN BEHIND TWO STEPS PER LEVEL**, whatever the layers are, and over
every base and under every continuation whose answers are delays, which are finite.  So both have
the same answers; over a pure base, with a map in each layer, the answer is that of the continuation
at the value that went through all of them, and the recursion calls four steps per level before. -/
theorem unroll_unwinds_to_chain (base : Cps ρ α) (layer : Nat → Layer ρ α α) (n : Nat) :
    (base.unroll layer 0 = base
      ∧ ∀ i, base.unroll layer (i + 1) = (layer i).on ((Cps.pure i).bind (base.unroll layer)))
    ∧ (base.chain layer 0 = base
      ∧ ∀ i, base.chain layer (i + 1) = (layer i).on (base.chain layer i))
    ∧ (∀ k : α → Delay ρ,
        (base.unroll layer n).apply k = .after (2 * n) ((base.chain layer n).apply k))
    ∧ (∀ k : α → Delay ρ,
        ((base.unroll layer n).apply k).run = ((base.chain layer n).apply k).run)
    ∧ (∀ (b : α) (g : Nat → α → α) (k : α → Delay ρ),
        let r := n.fold (fun i _ a => g i a) b
        ((Cps.pure b).unroll (fun i => .map (g i)) n).apply k = .after (4 * n) (k r)
        ∧ (((Cps.pure b).unroll (fun i => .map (g i)) n).apply k).run = (k r).run
        ∧ (((Cps.pure b).chain (fun i => .map (g i)) n).apply k).run = (k r).run) := by
  refine ⟨⟨unroll_zero base layer, unroll_succ_eq_bind_unroll base layer⟩,
    ⟨chain_zero base layer, chain_succ base layer⟩, apply_unroll base layer n,
    unroll_equiv_chain base layer n, ?_⟩
  intro b g k r
  have hunroll : ((Cps.pure b).unroll (fun i => .map (g i)) n).apply k = .after (4 * n) (k r) :=
    apply_unroll_pure_map b g n k
  have hrun : (((Cps.pure b).unroll (fun i => .map (g i)) n).apply k).run = (k r).run := by
    rw [hunroll, Delay.run_after]
  refine ⟨hunroll, hrun, ?_⟩
  rw [← hrun]
  exact (unroll_equiv_chain (Cps.pure b) (fun i => .map (g i)) n k).symm

end Cps

end Stepwise
