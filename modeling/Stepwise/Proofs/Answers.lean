/-
  Stepwise.Proofs.Answers
  ────────────────────────────────────────────────────────────────────────────
  **COMPUTATIONS COMPARED BY WHAT THEY ANSWER.**

  The two sides of a monad law are different delays.  What they have in common
  is the answer, under every continuation: `m ≈ m'`.  The laws that move steps
  behind a source need that it cannot tell them: `RespectsResults`.
-/
import Stepwise.Cps.Tower
import Stepwise.Delay.Lemmas

namespace Stepwise

universe u v w x

/-! ## §1. Answering alike. -/

namespace Cps

variable {ρ : Type u} {α : Type v}

/-- No continuation tells the answers of the two computations apart. -/
def AnswersAlike (m m' : Cps ρ α) : Prop :=
  ∀ k : α → Delay ρ, (m.apply k).run = (m'.apply k).run

instance : Setoid (Cps ρ α) where
  r := AnswersAlike
  iseqv :=
    { refl := fun _ _ => rfl
      symm := fun h k => (h k).symm
      trans := fun h h' k => (h k).trans (h' k) }

/-! ## §2. Simple computations respect results. -/

theorem respectsResults_pure (a : α) : (Cps.pure a : Cps ρ α).RespectsResults := by
  intro k k' h
  exact h a

theorem respectsResults_abort (r : ρ) : (abort r : Cps ρ α).RespectsResults := by
  intro k k' _
  rfl

theorem respectsResults_defer (n : Nat) (a : α) : (defer n a : Cps ρ α).RespectsResults := by
  intro k k' h
  show (Delay.postpone n fun _ => k a).run = (Delay.postpone n fun _ => k' a).run
  rw [Delay.postpone_eq_after, Delay.postpone_eq_after, Delay.run_after, Delay.run_after, h a]

theorem respectsResults_post (a : α) (g : ρ → ρ) : (post a g).RespectsResults := by
  intro k k' h
  show (Delay.replay (k a).drive.events (.now (g (k a).run))).run
      = (Delay.replay (k' a).drive.events (.now (g (k' a).run))).run
  -- the events of the two inner drives differ, their answers do not
  rw [Delay.run_replay, Delay.run_replay, h a]

end Cps

/-! ## §3. One layer. -/

namespace Layer

variable {ρ : Type u} {α : Type v} {β : Type w}

/-- The computation that a layer leads into at a value. -/
def into (l : Layer ρ α β) (a : α) : Cps ρ β := ⟨l.feed a⟩

/-- A layer that leads into computations that respect results. -/
def RespectsResults (l : Layer ρ α β) : Prop := ∀ a, (l.into a).RespectsResults

theorem run_apply_on (l : Layer ρ α β) (m : Cps ρ α) (k : β → Delay ρ) :
    ((l.on m).apply k).run = (m.apply fun a => .later fun _ => (l.into a).apply k).run := by
  rw [apply_on, Delay.run_later]
  rfl

theorem RespectsResults.on {l : Layer ρ α β} {m : Cps ρ α} (hl : l.RespectsResults)
    (hm : m.RespectsResults) : (l.on m).RespectsResults := by
  intro k k' h
  have hrest : ∀ a, (Delay.later fun _ => (l.into a).apply k).run
      = (Delay.later fun _ => (l.into a).apply k').run := by
    intro a
    rw [Delay.run_later, Delay.run_later]
    exact hl a k k' h
  rw [run_apply_on, run_apply_on]
  exact hm _ _ hrest

/-- **A layer keeps answers alike**, in its source and in what it leads into. -/
theorem on_congr {l l' : Layer ρ α β} {m m' : Cps ρ α} (hm : m.RespectsResults) (h : m ≈ m')
    (hl : ∀ a, l.into a ≈ l'.into a) : l.on m ≈ l'.on m' := by
  intro k
  have hrest : ∀ a, (Delay.later fun _ => (l.into a).apply k).run
      = (Delay.later fun _ => (l'.into a).apply k).run := by
    intro a
    rw [Delay.run_later, Delay.run_later]
    exact hl a k
  -- first the layer changes behind the old source, then the source in front of the new layer
  calc ((l.on m).apply k).run
      = (m.apply fun a => .later fun _ => (l.into a).apply k).run := run_apply_on l m k
    _ = (m.apply fun a => .later fun _ => (l'.into a).apply k).run := hm _ _ hrest
    _ = (m'.apply fun a => .later fun _ => (l'.into a).apply k).run := h _
    _ = ((l'.on m').apply k).run := (run_apply_on l' m' k).symm

end Layer

namespace Cps

variable {ρ : Type u} {α : Type v} {β : Type w} {γ : Type x}

theorem run_apply_bind (m : Cps ρ α) (f : α → Cps ρ β) (k : β → Delay ρ) :
    ((m.bind f).apply k).run = (m.apply fun a => .later fun _ => (f a).apply k).run :=
  Layer.run_apply_on (.bind f) m k

theorem run_apply_map (f : α → β) (m : Cps ρ α) (k : β → Delay ρ) :
    ((m.map f).apply k).run = (m.apply fun a => .later fun _ => k (f a)).run :=
  Layer.run_apply_on (.map f) m k

theorem RespectsResults.bind {m : Cps ρ α} {f : α → Cps ρ β} (hm : m.RespectsResults)
    (hf : ∀ a, (f a).RespectsResults) : (m.bind f).RespectsResults :=
  Layer.RespectsResults.on (l := .bind f) hf hm

theorem RespectsResults.map {m : Cps ρ α} (f : α → β) (hm : m.RespectsResults) :
    (m.map f).RespectsResults :=
  Layer.RespectsResults.on (l := .map f) (fun a => respectsResults_pure (f a)) hm

/-! ## §4. The laws, up to answers. -/

theorem pure_bind_equiv (a : α) (f : α → Cps ρ β) : (Cps.pure a).bind f ≈ f a := by
  intro k
  rw [run_apply_bind, apply_pure, Delay.run_later]

theorem bind_pure_equiv {m : Cps ρ α} (hm : m.RespectsResults) : m.bind Cps.pure ≈ m := by
  intro k
  have hrest : ∀ a, (Delay.later fun _ => (Cps.pure a).apply k).run = (k a).run := by
    intro a
    rw [Delay.run_later, apply_pure]
  rw [run_apply_bind]
  exact hm _ _ hrest

theorem bind_assoc_equiv {m : Cps ρ α} (hm : m.RespectsResults) (f : α → Cps ρ β)
    (g : β → Cps ρ γ) : (m.bind f).bind g ≈ m.bind fun a => (f a).bind g := by
  intro k
  -- the continuations of `m` differ by the step that the inner `bind` puts before its source
  have hrest : ∀ a, (Delay.later fun _ => (f a).apply fun b => .later fun _ => (g b).apply k).run
      = (Delay.later fun _ => ((f a).bind g).apply k).run := by
    intro a
    rw [Delay.run_later, Delay.run_later, run_apply_bind]
  rw [run_apply_bind, run_apply_bind, run_apply_bind]
  exact hm _ _ hrest

/-- A computation that looks at how its continuation gets to the answer: the law of the right
identity fails for it. -/
example : ∃ m : Cps Bool Unit, ¬ m.bind Cps.pure ≈ m :=
  ⟨⟨fun k => .now (k ()).isDone⟩, fun h => absurd (h fun _ => .now true) (by decide)⟩

end Cps

/-! ## §5. Towers. -/

namespace Tower

variable {ρ : Type u} {α β : Type v}

/-- Each layer of the tower leads into computations that respect results. -/
def RespectsResults : {β : Type v} → Tower ρ α β → Prop
  | _, base => True
  | _, add lower top => lower.RespectsResults ∧ top.RespectsResults

theorem RespectsResults.on {t : Tower ρ α β} {m : Cps ρ α} (ht : t.RespectsResults)
    (hm : m.RespectsResults) : (t.on m).RespectsResults := by
  induction t with
  | base => exact hm
  | add lower top ih => exact ht.2.on (ih ht.1)

/-- **Towers keep answers alike**, whatever their layers are: what is known of a base under every
continuation is known of everything built on it. -/
theorem on_congr {m m' : Cps ρ α} (h : m ≈ m') (t : Tower ρ α β) : t.on m ≈ t.on m' := by
  induction t with
  | base => exact h
  | add lower top ih =>
      intro k
      show ((top.on (lower.on m)).apply k).run = ((top.on (lower.on m')).apply k).run
      rw [Layer.run_apply_on, Layer.run_apply_on]
      exact ih _

end Tower

/-! ## §6. The laws of a monad, under every continuation. -/

/-- **THE MONAD LAWS HOLD OF ANSWERS**: the left identity for every function, the right identity
and associativity for every source that respects results, each under every continuation.  What
respects results is closed under `bind`, `map` and towers of layers, and computations that answer
alike may replace each other inside any tower: at its base, and in the function of a layer. -/
theorem monad_laws_under_every_continuation {ρ : Type u} {α β γ : Type v} :
    (∀ (a : α) (f : α → Cps ρ β) (k : β → Delay ρ),
      (((Cps.pure a).bind f).apply k).run = ((f a).apply k).run)
    ∧ (∀ m : Cps ρ α, m.RespectsResults →
        (∀ k : α → Delay ρ, ((m.bind Cps.pure).apply k).run = (m.apply k).run)
        ∧ (∀ (f : α → Cps ρ β) (g : β → Cps ρ γ) (k : γ → Delay ρ),
            (((m.bind f).bind g).apply k).run = ((m.bind fun a => (f a).bind g).apply k).run))
    ∧ (∀ a : α, (Cps.pure a : Cps ρ α).RespectsResults)
    ∧ (∀ m : Cps ρ α, m.RespectsResults →
        (∀ f : α → Cps ρ β, (∀ a, (f a).RespectsResults) → (m.bind f).RespectsResults)
        ∧ (∀ f : α → β, (m.map f).RespectsResults)
        ∧ (∀ t : Tower ρ α β, t.RespectsResults → (t.on m).RespectsResults))
    ∧ (∀ m m' : Cps ρ α, (∀ k : α → Delay ρ, (m.apply k).run = (m'.apply k).run) →
        ∀ (t : Tower ρ α β) (k : β → Delay ρ),
          ((t.on m).apply k).run = ((t.on m').apply k).run)
    ∧ (∀ m : Cps ρ α, m.RespectsResults → ∀ f f' : α → Cps ρ β,
        (∀ (a : α) (k : β → Delay ρ), ((f a).apply k).run = ((f' a).apply k).run) →
        ∀ (t : Tower ρ β γ) (k : γ → Delay ρ),
          ((t.on (m.bind f)).apply k).run = ((t.on (m.bind f')).apply k).run) := by
  refine ⟨?_, ?_, ?_, ?_, ?_, ?_⟩
  · -- the left identity
    intro a f
    exact Cps.pure_bind_equiv a f
  · -- the right identity and associativity
    intro m hm
    exact ⟨Cps.bind_pure_equiv hm, fun f g => Cps.bind_assoc_equiv hm f g⟩
  · exact Cps.respectsResults_pure
  · intro m hm
    exact ⟨fun f hf => hm.bind hf, fun f => hm.map f, fun t ht => ht.on hm⟩
  · -- another base
    intro m m' h t
    exact Tower.on_congr h t
  · -- another function in a layer
    intro m hm f f' hf t
    have hbind : (Layer.bind f).on m ≈ (Layer.bind f').on m :=
      Layer.on_congr hm (Setoid.refl m) hf
    exact Tower.on_congr hbind t

/-- The laws at a source that drives its continuation itself, in front of a function that gives
up for some values, and below a tower of two layers. -/
theorem monad_laws_at_post :
    let m : Cps Nat Nat := .post 3 (· * 2)
    let f : Nat → Cps Nat Nat := fun a => .defer a (a + 1)
    let g : Nat → Cps Nat Nat := fun b => if b < 3 then .abort 0 else .post b (· + 100)
    let t : Tower Nat Nat Nat := .add (.add .base (.bind f)) (.map (· * 10))
    m.RespectsResults ∧ t.RespectsResults
      ∧ (m.bind Cps.pure).run = m.run
      ∧ ((m.bind f).bind g).run = (m.bind fun a => (f a).bind g).run
      ∧ ((m.bind f).bind g).run = 208
      ∧ (m.bind g).RespectsResults ∧ (t.on m).RespectsResults
      ∧ (t.on (m.bind Cps.pure)).run = (t.on m).run
      ∧ (t.on (m.bind fun a => (Cps.pure a).bind f)).run = (t.on (m.bind f)).run := by
  intro m f g t
  have hm : m.RespectsResults := Cps.respectsResults_post 3 _
  have hf : ∀ a, (f a).RespectsResults := fun a => Cps.respectsResults_defer a _
  have hg : ∀ b, (g b).RespectsResults := by
    intro b
    show (if b < 3 then Cps.abort 0 else Cps.post b (· + 100)).RespectsResults
    by_cases hb : b < 3
    · rw [if_pos hb]
      exact Cps.respectsResults_abort 0
    · rw [if_neg hb]
      exact Cps.respectsResults_post b _
  have ht : t.RespectsResults := ⟨⟨trivial, hf⟩, fun a => Cps.respectsResults_pure _⟩
  obtain ⟨left, laws, -, closed, below, inside⟩ :=
    monad_laws_under_every_continuation (ρ := Nat) (α := Nat) (β := Nat) (γ := Nat)
  exact ⟨hm, ht, (laws m hm).1 _, (laws m hm).2 f g _, rfl, (closed m hm).1 g hg,
    (closed m hm).2.2 t ht, below _ m (laws m hm).1 t _, inside m hm _ f (left · f) t _⟩

end Stepwise
