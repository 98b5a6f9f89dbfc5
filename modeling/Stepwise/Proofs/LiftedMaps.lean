/-
  Stepwise.Proofs.LiftedMaps
  ────────────────────────────────────────────────────────────────────────────
  **A MAP IS A BIND WITH A LIFTED FUNCTION, STEP FOR STEP.**

  A source may look whether its continuation is done and answer accordingly, so
  it is not enough that answers agree: the delays have to be the same.
-/
import Stepwise.Proofs.Driving
import Stepwise.Proofs.Unwinding

namespace Stepwise

universe u v w

/-! ## §1. One layer. -/

namespace Layer

variable {ρ : Type u} {α : Type v} {β : Type w}

@[simp] theorem lift_bind (f : α → Cps ρ β) : (bind f).lift = bind f := rfl

@[simp] theorem lift_map (f : α → β) :
    (map f : Layer ρ α β).lift = bind fun a => Cps.pure (f a) := rfl

/-- A value that has reached a layer meets no further step in it, lifted or not. -/
theorem feed_lift (l : Layer ρ α β) (a : α) (k : β → Delay ρ) : l.lift.feed a k = l.feed a k := by
  cases l with
  | bind f => rfl
  | map f =>
      show (Cps.pure (f a)).apply k = k (f a)
      exact Cps.apply_pure (f a) k

theorem on_lift (l : Layer ρ α β) (m : Cps ρ α) : l.lift.on m = l.on m := by
  cases l with
  | bind f => rfl
  | map f => rfl

end Layer

/-! ## §2. Towers. -/

namespace Tower

variable {ρ : Type u} {α β γ : Type v}

theorem height_liftWhere (choose : Nat → Bool) (t : Tower ρ α β) :
    (t.liftWhere choose).height = t.height := by
  induction t with
  | base => rfl
  | add lower top ih =>
      show (lower.liftWhere choose).height + 1 = lower.height + 1
      rw [ih]

theorem entry_liftWhere (choose : Nat → Bool) (t : Tower ρ α β) :
    ∀ k : β → Delay ρ, (t.liftWhere choose).entry k = t.entry k := by
  -- `k` is general: one level down it has grown by the top layer, lifted or not
  induction t with
  | base => intro k; rfl
  | add lower top ih =>
      intro k
      -- what the top does with a value is the same in either case
      have htop : ∀ b, (if choose lower.height then top.lift else top).feed b k = top.feed b k := by
        intro b
        by_cases h : choose lower.height = true
        · rw [if_pos h, Layer.feed_lift]
        · rw [if_neg h]
      show ((lower.liftWhere choose).entry fun b => .later fun _ =>
            (if choose lower.height then top.lift else top).feed b k)
          = lower.entry fun b => .later fun _ => top.feed b k
      rw [ih]
      simp only [htop]

/-- Places in an upper part are counted from the bottom of the whole. -/
theorem liftWhere_append (choose : Nat → Bool) (lower : Tower ρ α β) (upper : Tower ρ β γ) :
    (lower.append upper).liftWhere choose
      = (lower.liftWhere choose).append (upper.liftWhere fun i => choose (lower.height + i)) := by
  induction upper with
  | base => rfl
  | add upper top ih =>
      show add ((lower.append upper).liftWhere choose)
            (if choose (lower.append upper).height then top.lift else top)
          = add ((lower.liftWhere choose).append
              (upper.liftWhere fun i => choose (lower.height + i)))
            (if choose (lower.height + upper.height) then top.lift else top)
      rw [ih, height_append]

/-- **Just the chosen places are lifted**: below and above a place, lifting goes on as it would
without it. -/
theorem liftWhere_at (choose : Nat → Bool) {δ : Type v} (lower : Tower ρ α β) (l : Layer ρ β γ)
    (upper : Tower ρ γ δ) :
    (lower.append ((base.add l).append upper)).liftWhere choose
      = (lower.liftWhere choose).append
          ((base.add (if choose lower.height then l.lift else l)).append
            (upper.liftWhere fun i => choose (lower.height + (1 + i)))) := by
  rw [liftWhere_append, liftWhere_append]
  rfl

/-- The tower with lifted maps has the normal form of the tower. -/
theorem apply_on_liftWhere (choose : Nat → Bool) (t : Tower ρ α β) (m : Cps ρ α)
    (k : β → Delay ρ) : ((t.liftWhere choose).on m).apply k = (t.on m).apply k := by
  calc ((t.liftWhere choose).on m).apply k
      = .after (t.liftWhere choose).height (m.apply ((t.liftWhere choose).entry k)) :=
          apply_on_eq_after (t.liftWhere choose) m k
    _ = .after t.height (m.apply (t.entry k)) := by rw [height_liftWhere, entry_liftWhere]
    _ = (t.on m).apply k := (apply_on_eq_after t m k).symm

/-- **LIFTING MAPS CHANGES NO STEP**, at whatever places of a tower it is done, over every base that
comes to an answer (a `Delay` is finite) and under every such continuation.  The base is given the
same continuation, and the delays are the same; so after any number of attempts to resume them they
are both pending, or both done, and they come to the same value after as many steps and with the
same log.  A lifted map is the bind with the lifted function, a bind stays what it is, and layers at
other places are left alone. -/
theorem lifted_maps_run_in_lockstep (choose : Nat → Bool) (t : Tower ρ α β)
    (F : (α → Delay ρ) → Delay ρ) (k : β → Delay ρ) :
    let d := (t.on ⟨F⟩).apply k
    let d' := ((t.liftWhere choose).on ⟨F⟩).apply k
    d' = d
    ∧ (∀ i, i ≤ d.steps → ∃ rest : Delay ρ,
        d.advance i = .paused rest ∧ d'.advance i = .paused rest
          ∧ (rest.isDone = true ↔ i = d.steps))
    ∧ (∀ i, d.steps < i →
        d.advance i = .finished d.value d.steps ∧ d'.advance i = .finished d.value d.steps)
    ∧ (d'.steps = d.steps ∧ d'.drive = d.drive)
    ∧ ((t.liftWhere choose).height = t.height ∧ (t.liftWhere choose).entry k = t.entry k)
    ∧ (∀ (γ δ : Type v) (lower : Tower ρ α γ) (l : Layer ρ γ δ) (upper : Tower ρ δ β),
        t = lower.append ((base.add l).append upper) →
        t.liftWhere choose
          = (lower.liftWhere choose).append
              ((base.add (if choose lower.height then l.lift else l)).append
                (upper.liftWhere fun i => choose (lower.height + (1 + i)))))
    ∧ (∀ (γ : Type v) (l : Layer ρ β γ) (m : Cps ρ β), l.lift.on m = l.on m)
    ∧ (∀ (γ : Type v) (f : β → γ), (Layer.map f : Layer ρ β γ).lift = .bind fun b => Cps.pure (f b))
    ∧ (∀ (γ : Type v) (f : β → Cps ρ γ), (Layer.bind f).lift = .bind f) := by
  intro d d'
  have hsame : d' = d := apply_on_liftWhere choose t ⟨F⟩ k
  have hreturns : d.ReturnsAfter d.steps d.value :=
    (Delay.returnsAfter_iff d d.steps d.value).mpr ⟨rfl, rfl⟩
  refine ⟨hsame, ?_, ?_, ⟨by rw [hsame], by rw [hsame]⟩,
    ⟨height_liftWhere choose t, entry_liftWhere choose t k⟩, ?_, fun γ => Layer.on_lift,
    fun γ => Layer.lift_map, fun γ => Layer.lift_bind⟩
  · -- as long as there is a step to call
    intro i hi
    obtain ⟨rest, _, hpaused, _, hdone, _⟩ := hreturns.exists_paused hi
    exact ⟨rest, hpaused, by rw [hsame, hpaused], hdone⟩
  · -- with an attempt left for the value
    intro i hi
    have hfinished : d.advance i = .finished d.value d.steps := Delay.advance_of_steps_lt d i hi
    exact ⟨hfinished, by rw [hsame, hfinished]⟩
  · intro γ δ lower l upper ht
    rw [ht]
    exact liftWhere_at choose lower l upper

/-- The lowest map of a tower is lifted, and the base looks whether its continuation is done: it is
not, with the map lifted or without, and both go on to the same value. -/
theorem lifted_maps_run_over_peek :
    let t : Tower Nat Nat Nat :=
      ((base.add (.map (· + 1))).add (.bind fun a => .defer a a)).add (.map (· * 10))
    let F : (Nat → Delay Nat) → Delay Nat := fun K => if (K 0).isDone then .now 0 else K 2
    let choose : Nat → Bool := fun i => i == 0 || i == 1
    let d := (t.on ⟨F⟩).apply .now
    let d' := ((t.liftWhere choose).on ⟨F⟩).apply .now
    4 ≤ d.steps ∧ d.steps < 10
      ∧ (∃ rest : Delay Nat,
          d.advance 4 = .paused rest ∧ d'.advance 4 = .paused rest
            ∧ (rest.isDone = true ↔ 4 = d.steps))
      ∧ d'.advance 10 = .finished 30 9
      ∧ t.liftWhere choose
          = ((base.add (.bind fun a => Cps.pure (a + 1))).add (.bind fun a => .defer a a)).add
              (.map (· * 10)) := by
  intro t F choose d d'
  obtain ⟨-, pending, finished, -, -, places, -, -⟩ := lifted_maps_run_in_lockstep choose t F .now
  have hlow : 4 ≤ d.steps := by decide
  have hhigh : d.steps < 10 := by decide
  have hbottom := places Nat Nat base (.map (· + 1))
    ((base.add (.bind fun a => .defer a a)).add (.map (· * 10))) rfl
  exact ⟨hlow, hhigh, pending 4 hlow, (finished 10 hhigh).2, hbottom⟩

end Tower

end Stepwise
