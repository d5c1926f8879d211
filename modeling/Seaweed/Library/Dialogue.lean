import Seaweed.Library.Device

/-! A caller that asks one question after the other and may look at each answer before it
asks the next, and what it gets from whoever answers. -/

namespace Library

universe u

inductive Dialogue (Q : Type) (A : Q → Type) (α : Type u) where
  | done (value : α)
  | ask (question : Q) (next : A question → Dialogue Q A α)

namespace Dialogue

variable {Q : Type} {A : Q → Type} {α β : Type u} {σ τ δ ε : Type*}
  {answer : (q : Q) → σ → A q × σ} {other : (q : Q) → τ → A q × τ}

/-- What is asked by `next` comes behind, once the value is there. -/
def andThen : Dialogue Q A α → (α → Dialogue Q A β) → Dialogue Q A β
  | done value, next => next value
  | ask question rest, next => ask question fun reply => (rest reply).andThen next

def run (answer : (q : Q) → σ → A q × σ) : Dialogue Q A α → σ → α × σ
  | done value, s => (value, s)
  | ask question next, s => (next (answer question s).1).run answer (answer question s).2

@[simp] theorem run_done (value : α) (s : σ) : (done value : Dialogue Q A α).run answer s = (value, s) := rfl

@[simp] theorem run_ask (question : Q) (next : A question → Dialogue Q A α) (s : σ) :
    (ask question next).run answer s = (next (answer question s).1).run answer (answer question s).2 := rfl

theorem run_andThen (talk : Dialogue Q A α) (next : α → Dialogue Q A β) (s : σ) :
    (talk.andThen next).run answer s = (next (talk.run answer s).1).run answer (talk.run answer s).2 := by
  induction talk generalizing s with
  | done value => rfl
  | ask question rest ih => exact ih _ _

/-- What only grows with every answer only grows in a dialogue. -/
theorem run_grows {trace : σ → List ε} (grows : ∀ q s, trace s <+: trace (answer q s).2) (talk : Dialogue Q A α) (s : σ) :
    trace s <+: trace (talk.run answer s).2 := by
  induction talk generalizing s with
  | done value => exact List.prefix_refl _
  | ask question next ih => exact (grows question s).trans (ih _ _)

/-- The host answers through a device, the other one from what it knows. Where they agree in
each question they agree in every dialogue, provided that the device is honest. -/
theorem run_serves {D : Device δ ε} {trace : σ → List ε} {fits : δ → σ → τ → Prop}
    (grows : ∀ q s, trace s <+: trace (answer q s).2)
    (serves : ∀ q d s t, fits d s t →
      D.Serves d (trace s) (trace (answer q s).2) fun after => (answer q s).1 = (other q t).1 ∧ fits after (answer q s).2 (other q t).2)
    (talk : Dialogue Q A α) {d : δ} {s : σ} {t : τ} (start : fits d s t) :
    D.Serves d (trace s) (trace (talk.run answer s).2) fun after =>
      (talk.run answer s).1 = (talk.run other t).1 ∧ fits after (talk.run answer s).2 (talk.run other t).2 := by
  induction talk generalizing d s t with
  | done value => exact .refl ⟨rfl, start⟩
  | ask question next ih =>
    refine (serves question d s t start).andThen (run_grows grows _ _) ?_
    rintro after ⟨same, fits'⟩
    rw [run_ask, run_ask, ← same]
    exact ih _ fits'

end Dialogue
end Library
