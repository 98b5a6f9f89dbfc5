/-
  Stepwise.Proofs.Fusion
  ────────────────────────────────────────────────────────────────────────────
  **MAPS FUSE INTO THE FINAL FUNCTION.**

  Maps, one over the other, unwind over every source into

      (p.tower.on m).apply k
        = .after p.length (m.apply fun a => .after p.length (k (p.through a)))

  A source that respects results does not see the steps behind it.
-/
import Stepwise.Proofs.Readings
import Stepwise.Proofs.Unwinding

namespace Stepwise

universe u v

/-! ## §1. Functions one after the other. -/

/-- Functions one after the other, from values of type `α` at the bottom to the index at the top. -/
inductive Pipeline (α : Type v) : Type v → Type (v + 1) where
  /-- No function. -/
  | base : Pipeline α α
  /-- One more function, for what the others give. -/
  | add {β γ : Type v} (lower : Pipeline α β) (f : β → γ) : Pipeline α γ

namespace Pipeline

variable {ρ : Type u} {α β : Type v}

/-- The composition of the functions. -/
def through : {β : Type v} → Pipeline α β → α → β
  | _, base => id
  | _, add lower f => f ∘ lower.through

/-- The number of functions. -/
def length : {β : Type v} → Pipeline α β → Nat
  | _, base => 0
  | _, add lower _ => lower.length + 1

/-- A map for each function, the first one lowest. -/
def tower : {β : Type v} → Pipeline α β → Tower ρ α β
  | _, base => .base
  | _, add lower f => .add lower.tower (.map f)

/-! ## §2. Maps one over the other. -/

theorem height_tower (p : Pipeline α β) : (p.tower : Tower ρ α β).height = p.length := by
  induction p with
  | base => rfl
  | add lower f ih => exact congrArg (· + 1) ih

/-- A value goes through the maps one step at a time. -/
theorem entry_tower (p : Pipeline α β) :
    ∀ (k : β → Delay ρ) (a : α), p.tower.entry k a = .after p.length (k (p.through a)) := by
  induction p with
  | base => intro k a; rfl
  | add lower f ih =>
      intro k a
      -- the top map waits behind the last step
      show lower.tower.entry (fun b => .later fun _ => k (f b)) a = _
      rw [ih, ← Delay.after_succ_eq_after_later]
      rfl

theorem apply_on_tower (p : Pipeline α β) (m : Cps ρ α) (k : β → Delay ρ) :
    (p.tower.on m).apply k
      = .after p.length (m.apply fun a => .after p.length (k (p.through a))) := by
  rw [Tower.apply_on_eq_after, height_tower]
  refine congrArg (fun rest => Delay.after p.length (m.apply rest)) ?_
  funext a
  exact p.entry_tower k a

/-- **The steps of the maps do not show in the answer**, if the source cannot tell continuations
with the same answers apart. -/
theorem run_apply_on_tower (p : Pipeline α β) {m : Cps ρ α} (hm : m.RespectsResults)
    (k : β → Delay ρ) :
    ((p.tower.on m).apply k).run = (m.apply fun a => k (p.through a)).run := by
  rw [apply_on_tower, Delay.run_after]
  refine hm _ _ ?_
  intro a
  exact Delay.run_after p.length (k (p.through a))

theorem runWith_on_tower (p : Pipeline α β) {m : Cps ρ α} (hm : m.RespectsResults) (c : β → ρ) :
    (p.tower.on m).runWith c = m.runWith (c ∘ p.through) :=
  p.run_apply_on_tower hm fun b => .now (c b)

theorem respectsResults_tower (p : Pipeline α β) : (p.tower : Tower ρ α β).RespectsResults := by
  induction p with
  | base => trivial
  | add lower f ih => exact ⟨ih, fun b => Cps.respectsResults_pure (f b)⟩

end Pipeline

namespace Cps

variable {ρ : Type u} {α β γ : Type v}

/-! ## §3. One map, and two. -/

theorem map_id_equiv {m : Cps ρ α} (hm : m.RespectsResults) : m.map id ≈ m := by
  intro k
  exact (Pipeline.base.add id).run_apply_on_tower hm k

theorem map_map_equiv {m : Cps ρ α} (hm : m.RespectsResults) (f : α → β) (g : β → γ) :
    (m.map f).map g ≈ m.map (g ∘ f) := by
  intro k
  -- both are the source in front of both functions
  have htwo := ((Pipeline.base.add f).add g).run_apply_on_tower hm k
  have hone := (Pipeline.base.add (g ∘ f)).run_apply_on_tower hm k
  exact htwo.trans hone.symm

theorem runWith_map {m : Cps ρ α} (hm : m.RespectsResults) (f : α → β) (c : β → ρ) :
    (m.map f).runWith c = m.runWith (c ∘ f) :=
  (Pipeline.base.add f).runWith_on_tower hm c

/-- A final function may as well be mapped: the step in front of its value does not show in the
answer. -/
theorem run_map {m : Cps ρ α} (hm : m.RespectsResults) (c : α → ρ) :
    (m.map c).run = m.runWith c := by
  show ((m.map c).apply .now).run = (m.apply fun a => .now (c a)).run
  rw [run_apply_map]
  refine hm _ _ ?_
  intro a
  exact Delay.run_later _

/-- **MAPS FUSE INTO THE FINAL FUNCTION** over every source that respects results: mapping the
identity changes nothing, two maps are the map of the composition, and a final function is a map
with nothing behind it.  Any number of maps, one over the other, is one map of the composition of
their functions, and one final function that is composed with it.  They keep the source's respect
of results, and all this is so under every continuation. -/
theorem maps_fuse_into_final_function {m : Cps ρ α} (hm : m.RespectsResults) :
    (∀ c : α → ρ, (m.map id).runWith c = m.runWith c)
    ∧ (∀ (f : α → β) (g : β → γ) (c : γ → ρ),
        ((m.map f).map g).runWith c = (m.map (g ∘ f)).runWith c
        ∧ (m.map (g ∘ f)).runWith c = m.runWith (c ∘ g ∘ f))
    ∧ (∀ c : α → ρ, m.runWith c = (m.map c).run)
    ∧ (∀ (p : Pipeline α β) (c : β → ρ),
        (p.tower.on m).runWith c = m.runWith (c ∘ p.through)
        ∧ (p.tower.on m).runWith c = (m.map p.through).runWith c
        ∧ (p.tower.on m).runWith c = (m.map (c ∘ p.through)).run)
    ∧ (∀ (p : Pipeline α β) (k : β → Delay ρ),
        ((p.tower.on m).apply k).run = (m.apply fun a => k (p.through a)).run)
    ∧ (∀ p : Pipeline α β, (p.tower.on m).RespectsResults) := by
  refine ⟨?_, ?_, ?_, ?_, ?_, ?_⟩
  · intro c
    exact map_id_equiv hm fun a => .now (c a)
  · intro f g c
    have hcomp := runWith_map hm (g ∘ f) c
    exact ⟨map_map_equiv hm f g _, hcomp⟩
  · intro c
    exact (run_map hm c).symm
  · intro p c
    have hp := p.runWith_on_tower hm c
    refine ⟨hp, ?_, ?_⟩
    · rw [hp, runWith_map hm]
    · rw [hp, run_map hm]
  · intro p k
    exact p.run_apply_on_tower hm k
  · intro p
    exact p.respectsResults_tower.on hm

/-- Three maps with three types over a source that gives up for some values, and that otherwise
drives what follows itself and works on the answer. -/
theorem maps_fuse_over_post_and_abort :
    let source : Nat → Cps Nat Nat := fun n =>
      ((Plan.post n (· * 2)).bind fun a => if a < 3 then .defer 2 a else .abort 100).toCps
    let p : Pipeline Nat Bool := ((Pipeline.base.add (· + 1)).add fun n => [n]).add (·.contains 2)
    let c : Bool → Nat := fun b => if b then 7 else 8
    (∀ n, (source n).RespectsResults)
      ∧ (p.tower.on (source 1)).runWith c = (source 1).runWith (c ∘ p.through)
      ∧ (source 1).runWith (c ∘ p.through) = 14
      ∧ (p.tower.on (source 2)).runWith c = ((source 2).map (c ∘ p.through)).run
      ∧ ((source 2).map (c ∘ p.through)).run = 16
      ∧ (p.tower.on (source 5)).runWith c = 200 := by
  intro source p c
  have hsource : ∀ n, (source n).RespectsResults := fun n => Plan.respectsResults_toCps _
  have fuse := fun n =>
    maps_fuse_into_final_function (β := Bool) (γ := Bool) (hsource n)
  exact ⟨hsource, ((fuse 1).2.2.2.1 p c).1, rfl, ((fuse 2).2.2.2.1 p c).2.2, rfl,
    ((fuse 5).2.2.2.1 p c).1⟩

/-- A source that looks whether its continuation is done tells a map of the identity from nothing
at all. -/
example : ∃ m : Cps Bool Unit, (m.map id).runWith (fun _ => true) ≠ m.runWith fun _ => true :=
  ⟨⟨fun k => .now (k ()).isDone⟩, by decide⟩

end Cps

end Stepwise
