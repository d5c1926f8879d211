import Mathlib

/-! Runs of a machine whose steps may fail, and a machine that stands for another: it takes
the steps that the other one takes, and fails where the other one has no step. -/

namespace Library

variable {α ε σ τ : Type*} {step : σ → α → Except ε σ} {spec : τ → α → Option τ} {acts rest : List α} {s after : σ}

section Except

universe u

variable {β γ : Type u} {first : Except ε β} {next : β → Except ε γ}

@[simp] theorem ok_bind (value : β) (next : β → Except ε γ) : (Except.ok value >>= next) = next value := rfl

@[simp] theorem error_bind (wrong : ε) (next : β → Except ε γ) : (Except.error wrong >>= next) = .error wrong := rfl

/-- What ends well has ended well halfway. -/
theorem bind_inv {value : γ} (done : (first >>= next) = .ok value) : ∃ middle, first = .ok middle ∧ next middle = .ok value := by
  cases first with
  | error wrong => cases done
  | ok middle => exact ⟨middle, rfl, done⟩

end Except

section Folds

variable {m : Type _ → Type _} [Monad m] [LawfulMonad m] {move : σ → α → m σ}

/-- Where each step succeeds and follows another machine's, so does the fold over all of them. -/
theorem foldlM_follows {spec : τ → α → τ} {related : σ → τ → Prop} {acts : List α} {s : σ} {t : τ}
    (follows : ∀ s t, ∀ act ∈ acts, related s t → ∃ after, move s act = pure after ∧ related after (spec t act))
    (start : related s t) : ∃ after, acts.foldlM move s = pure after ∧ related after (acts.foldl spec t) := by
  induction acts generalizing s t with
  | nil => exact ⟨s, rfl, start⟩
  | cons act rest ih =>
    obtain ⟨middle, first, related'⟩ := follows s t act List.mem_cons_self start
    obtain ⟨after, ran, related''⟩ := ih (fun s t act member => follows s t act (List.mem_cons_of_mem _ member)) related'
    refine ⟨after, ?_, related''⟩
    rw [List.foldlM_cons, first, pure_bind]
    exact ran

/-- What every step keeps, the fold keeps. -/
theorem foldlM_keeps {holds : σ → Prop} {acts : List α} {s : σ}
    (keeps : ∀ s, ∀ act ∈ acts, holds s → ∃ after, move s act = pure after ∧ holds after) (start : holds s) :
    ∃ after, acts.foldlM move s = pure after ∧ holds after :=
  @foldlM_follows _ _ _ m _ _ move (fun _ _ => ()) (fun s _ => holds s) acts s () (fun s _ act member => keeps s act member) start

end Folds

/-- The steps one after another, up to the first that fails. -/
def runSteps (step : σ → α → Except ε σ) (s : σ) (acts : List α) : Except ε σ := acts.foldlM step s

theorem runSteps_cons {act : α} (first : step s act = .ok after) : runSteps step s (act :: acts) = runSteps step after acts := by
  rw [runSteps, List.foldlM_cons, first]
  rfl

theorem runSteps_failed {act : α} {wrong : ε} (first : step s act = .error wrong) :
    runSteps step s (act :: acts) = .error wrong := by
  rw [runSteps, List.foldlM_cons, first]
  rfl

theorem runSteps_single (step : σ → α → Except ε σ) (s : σ) (act : α) : runSteps step s [act] = step s act := by
  rw [runSteps, List.foldlM_cons]
  cases step s act <;> rfl

theorem runSteps_append (step : σ → α → Except ε σ) (s : σ) (acts rest : List α) :
    runSteps step s (acts ++ rest) = runSteps step s acts >>= fun after => runSteps step after rest :=
  List.foldlM_append ..

/-- A run that ends well ends well halfway. -/
theorem runSteps_split {last : σ} (done : runSteps step s (acts ++ rest) = .ok last) :
    ∃ middle, runSteps step s acts = .ok middle ∧ runSteps step middle rest = .ok last := by
  rw [runSteps_append] at done
  cases ran : runSteps step s acts with
  | error wrong =>
    rw [ran] at done
    cases done
  | ok middle =>
    rw [ran] at done
    exact ⟨middle, rfl, done⟩

/-- The machine takes the steps of the specification, and goes wrong in an expected way where
the specification has no step. Only an excuse lets it do neither. -/
structure SimulatesUnless (related : σ → τ → Prop) (excused expected : ε → Prop) (step : σ → α → Except ε σ)
    (spec : τ → α → Option τ) : Prop where
  goes : ∀ s t act next, related s t → spec t act = some next →
    (∃ wrong, step s act = .error wrong ∧ excused wrong) ∨ ∃ after, step s act = .ok after ∧ related after next
  fails : ∀ s t act, related s t → spec t act = none → ∃ wrong, step s act = .error wrong ∧ (excused wrong ∨ expected wrong)

/-- A machine that has no excuse. -/
structure Simulates (related : σ → τ → Prop) (expected : ε → Prop) (step : σ → α → Except ε σ)
    (spec : τ → α → Option τ) : Prop where
  goes : ∀ s t act next, related s t → spec t act = some next → ∃ after, step s act = .ok after ∧ related after next
  fails : ∀ s t act, related s t → spec t act = none → ∃ wrong, step s act = .error wrong ∧ expected wrong

variable {related : σ → τ → Prop} {excused expected : ε → Prop} {t last : τ}

/-- Without an excuse a run of the machine ends well exactly when the specification has one
for its steps, and then they end related. -/
theorem SimulatesUnless.run (simulates : SimulatesUnless related excused expected step spec) (start : related s t) (acts : List α) :
    (∃ wrong, runSteps step s acts = .error wrong ∧ excused wrong) ∨
      (∃ last after, acts.foldlM spec t = some last ∧ runSteps step s acts = .ok after ∧ related after last) ∨
      acts.foldlM spec t = none ∧ ∃ wrong, runSteps step s acts = .error wrong ∧ expected wrong := by
  induction acts generalizing s t with
  | nil => exact .inr (.inl ⟨t, s, rfl, rfl, start⟩)
  | cons act acts ih =>
    rw [List.foldlM_cons]
    cases first : spec t act with
    | none =>
      obtain ⟨wrong, failed, known⟩ := simulates.fails s t act start first
      rcases known with excuse | known
      · exact .inl ⟨wrong, runSteps_failed failed, excuse⟩
      · exact .inr (.inr ⟨rfl, wrong, runSteps_failed failed, known⟩)
    | some next =>
      rcases simulates.goes s t act next start first with ⟨wrong, failed, excuse⟩ | ⟨middle, went, related'⟩
      · exact .inl ⟨wrong, runSteps_failed failed, excuse⟩
      · rw [runSteps_cons went]
        exact ih related'

theorem Simulates.run (simulates : Simulates related expected step spec) (start : related s t) (acts : List α) :
    (∃ last after, acts.foldlM spec t = some last ∧ runSteps step s acts = .ok after ∧ related after last) ∨
      acts.foldlM spec t = none ∧ ∃ wrong, runSteps step s acts = .error wrong ∧ expected wrong := by
  have spared : SimulatesUnless related (fun _ => False) expected step spec := by
    refine ⟨fun s t act next start first => .inr (simulates.goes s t act next start first), fun s t act start first => ?_⟩
    obtain ⟨wrong, failed, known⟩ := simulates.fails s t act start first
    exact ⟨wrong, failed, .inr known⟩
  rcases spared.run start acts with ⟨_, _, excuse⟩ | ends
  · exact excuse.elim
  · exact ends

end Library
