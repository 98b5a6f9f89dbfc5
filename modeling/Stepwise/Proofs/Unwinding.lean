/-
  Stepwise.Proofs.Unwinding
  ────────────────────────────────────────────────────────────────────────────
  **A TOWER UNWINDS ONE LAYER PER STEP.**

  Over a base of which nothing is assumed, a tower has the normal form

      (t.on ⟨F⟩).apply k = .after t.height (F (t.entry k))

  in whose continuation `t.entry k` the lowest layer waits first.
-/
import Stepwise.Cps.Tower
import Stepwise.Delay.Lemmas

namespace Stepwise.Tower

universe u v

variable {ρ : Type u} {α β γ : Type v}

/-! ## §1. Towers on towers. -/

/-- The tower `upper` put on the tower `lower`. -/
def append (lower : Tower ρ α β) : {γ : Type v} → Tower ρ β γ → Tower ρ α γ
  | _, base => lower
  | _, add upper top => add (lower.append upper) top

theorem on_append (lower : Tower ρ α β) (upper : Tower ρ β γ) (m : Cps ρ α) :
    (lower.append upper).on m = upper.on (lower.on m) := by
  induction upper with
  | base => rfl
  | add upper top ih => exact congrArg top.on ih

theorem height_append (lower : Tower ρ α β) (upper : Tower ρ β γ) :
    (lower.append upper).height = lower.height + upper.height := by
  induction upper with
  | base => rfl
  | add upper top ih =>
      show (lower.append upper).height + 1 = lower.height + (upper.height + 1)
      rw [ih, Nat.add_assoc]

theorem entry_append (lower : Tower ρ α β) (upper : Tower ρ β γ) (k : γ → Delay ρ) :
    (lower.append upper).entry k = lower.entry (upper.entry k) := by
  -- only `upper` is taken apart, so the continuation grows by its layers and by no others
  induction upper with
  | base => rfl
  | add upper top ih => exact ih _

/-- **The lowest layer comes first**, behind a step of its own, and the rest of the tower is what
follows it. -/
theorem entry_lowest_append (l : Layer ρ α β) (t : Tower ρ β γ) (k : γ → Delay ρ) :
    ((base.add l).append t).entry k = fun a => .later fun _ => l.feed a (t.entry k) := by
  rw [entry_append]
  rfl

theorem exists_layer_at (t : Tower ρ α β) :
    ∀ i, i < t.height →
      ∃ (γ δ : Type v) (lower : Tower ρ α γ) (l : Layer ρ γ δ) (upper : Tower ρ δ β),
        lower.height = i ∧ t = lower.append ((base.add l).append upper) := by
  induction t with
  | base => intro i h; exact absurd h (Nat.not_lt_zero i)
  | @add β γ t top ih =>
      intro i h
      by_cases hi : i < t.height
      · -- the layer is found below the top, and the top goes over what is above it
        obtain ⟨γ', δ, lower, l, upper, hlower, ht⟩ := ih i hi
        refine ⟨γ', δ, lower, l, upper.add top, hlower, ?_⟩
        show t.add top = (lower.append ((base.add l).append upper)).add top
        rw [← ht]
      · -- the place is that of the top layer
        have hlast : t.height = i := by
          have h' : i < t.height + 1 := h
          omega
        exact ⟨β, γ, t, top, base, hlast, rfl⟩

/-! ## §2. The normal form. -/

theorem apply_on_eq_after (t : Tower ρ α β) (m : Cps ρ α) :
    ∀ k : β → Delay ρ, (t.on m).apply k = .after t.height (m.apply (t.entry k)) := by
  -- `k` is general: one level down it has grown by the top layer
  induction t with
  | base => intro k; rfl
  | add lower top ih =>
      intro k
      -- the top layer becomes the last link of what `lower` has for a continuation
      show (top.on (lower.on m)).apply k
          = .after (lower.height + 1)
              (m.apply (lower.entry fun b => .later fun _ => top.feed b k))
      rw [Layer.apply_on, ih, Delay.after_succ]

/-- **EVERY CHAIN UNWINDS ONE LAYER PER STEP**, whatever its base does with its continuation, as
long as it comes to an answer (a `Delay` is finite): exactly as many pending steps as there are
layers lie before the base, and its continuation runs through the layers from the lowest to the
top, each behind its own step.  A base that drops its continuation ends the chain: no layer's
function and not `k` is in the result.  The other names of `bind` make no other layer. -/
theorem chain_unwinds_layer_by_layer (t : Tower ρ α β) (F : (α → Delay ρ) → Delay ρ)
    (k : β → Delay ρ) :
    (t.on ⟨F⟩).apply k = .after t.height (F (t.entry k))
    ∧ (∀ i, i ≤ t.height →
        ((t.on ⟨F⟩).apply k).advance i = .paused (.after (t.height - i) (F (t.entry k))))
    ∧ (base : Tower ρ β β).entry k = k
    ∧ (∀ (δ : Type v) (l : Layer ρ δ α),
        (∀ m : Cps ρ δ, ((base.add l).append t).on m = t.on (l.on m))
        ∧ ((base.add l).append t).entry k = fun a => .later fun _ => l.feed a (t.entry k))
    ∧ (∀ i, i < t.height →
        ∃ (γ δ : Type v) (lower : Tower ρ α γ) (l : Layer ρ γ δ) (upper : Tower ρ δ β),
          lower.height = i ∧ lower.height + (1 + upper.height) = t.height
          ∧ t = lower.append ((base.add l).append upper)
          ∧ t.entry k = lower.entry fun a => .later fun _ => l.feed a (upper.entry k))
    ∧ (∀ d : Delay ρ, (t.on ⟨fun _ => d⟩).apply k = .after t.height d)
    ∧ (∀ (δ : Type v) (f : β → Cps ρ δ),
        (t.on ⟨F⟩).flatMap f = (t.add (.bind f)).on ⟨F⟩
        ∧ (t.on ⟨F⟩).andThen f = (t.add (.bind f)).on ⟨F⟩) := by
  have normal : (t.on ⟨F⟩).apply k = .after t.height (F (t.entry k)) :=
    t.apply_on_eq_after ⟨F⟩ k
  refine ⟨normal, ?_, rfl, ?_, ?_, ?_, fun δ f => ⟨rfl, rfl⟩⟩
  · -- the base is not reached before the last step
    intro i h
    rw [normal]
    exact Delay.advanceFrom_after _ i t.height 0 h
  · -- one more layer at the bottom
    intro δ l
    exact ⟨fun m => on_append (base.add l) t m, entry_lowest_append l t k⟩
  · -- the layer at the place `i`
    intro i h
    obtain ⟨γ, δ, lower, l, upper, hlower, ht⟩ := t.exists_layer_at i h
    refine ⟨γ, δ, lower, l, upper, hlower, ?_, ht, ?_⟩
    · rw [ht, height_append, height_append]
      rfl
    · rw [ht, entry_append, entry_lowest_append]
  · intro d
    exact t.apply_on_eq_after ⟨fun _ => d⟩ k

/-- Two layers over a base that looks whether its continuation is done, and then gives up: after
one step nothing has been looked at, after the second the chain has its answer. -/
theorem chain_unwinds_over_peek :
    let t : Tower Nat Nat Nat := .add (.add .base (.bind fun a => .defer a a)) (.map (· + 1))
    let F : (Nat → Delay Nat) → Delay Nat := fun K => if (K 0).isDone then .now 1 else .now 2
    2 ≤ t.height ∧ 1 < t.height
      ∧ ((t.on ⟨F⟩).apply .now).advance 1 = .paused (.later fun _ => .now 2)
      ∧ ((t.on ⟨F⟩).apply .now).advance 2 = .paused (.now 2)
      ∧ ∃ (γ δ : Type) (lower : Tower Nat Nat γ) (l : Layer Nat γ δ) (upper : Tower Nat δ Nat),
          lower.height = 1 ∧ t = lower.append ((base.add l).append upper) := by
  intro t F
  obtain ⟨-, pending, -, -, layer, -⟩ := chain_unwinds_layer_by_layer t F .now
  refine ⟨by decide, by decide, pending 1 (by decide), pending 2 (by decide), ?_⟩
  obtain ⟨γ, δ, lower, l, upper, hlower, -, ht, -⟩ := layer 1 (by decide)
  exact ⟨γ, δ, lower, l, upper, hlower, ht⟩

end Stepwise.Tower
