import Mathlib

/-! A device and the host that accesses it. The device says which answers are right and what
an access does to it; it owes nothing to a host that breaks the protocol. -/

namespace Library

/-- `next` is `none` for an access that the protocol does not allow. -/
structure Device (δ ε : Type*) where
  answers : δ → ε → Prop
  next : δ → ε → Option δ

namespace Device

variable {δ ε : Type*} {D : Device δ ε} {d after : δ} {events more before middle last : List ε} {good best : δ → Prop}

/-- Every answer is right, up to the first access that the protocol does not allow. -/
def Honest (D : Device δ ε) : δ → List ε → Prop
  | _, [] => True
  | d, event :: rest => D.answers d event ∧ ∀ after, D.next d event = some after → Honest D after rest

instance decideHonest (D : Device δ ε) [∀ d event, Decidable (D.answers d event)] (d : δ) : ∀ events, Decidable (D.Honest d events)
  | [] => isTrue trivial
  | event :: rest =>
    match step : D.next d event with
    | none => decidable_of_iff (D.answers d event) ⟨fun right => ⟨right, fun after same => by cases step.symm.trans same⟩, And.left⟩
    | some after =>
      have := decideHonest D after rest
      decidable_of_iff (D.answers d event ∧ D.Honest after rest)
        (and_congr_right fun _ => ⟨fun honest last same => Option.some.inj (step.symm.trans same) ▸ honest, fun honest => honest after step⟩)

/-- What the device is after accesses that the protocol allows. -/
def run (D : Device δ ε) (d : δ) (events : List ε) : Option δ := events.foldlM D.next d

theorem run_append (D : Device δ ε) (d : δ) (events more : List ε) :
    D.run d (events ++ more) = D.run d events >>= fun after => D.run after more :=
  List.foldlM_append ..

theorem Honest.front (honest : D.Honest d (events ++ more)) : D.Honest d events := by
  induction events generalizing d with
  | nil => trivial
  | cons event events ih => exact ⟨honest.1, fun after step => ih (honest.2 after step)⟩

theorem Honest.rest (honest : D.Honest d (events ++ more)) (ran : D.run d events = some after) : D.Honest after more := by
  induction events generalizing d with
  | nil =>
    cases ran
    exact honest
  | cons event events ih =>
    rw [run, List.foldlM_cons] at ran
    obtain ⟨next, step, ran'⟩ := Option.bind_eq_some_iff.mp ran
    exact ih (honest.2 next step) ran'

/-- Between two records of its accesses the host keeps to the protocol, and the device ends
as `good` says, provided that its answers are right. -/
def Serves (D : Device δ ε) (d : δ) (before last : List ε) (good : δ → Prop) : Prop :=
  ∃ events, last = before ++ events ∧ (D.Honest d events → ∃ after, D.run d events = some after ∧ good after)

namespace Serves

theorem grows (serves : D.Serves d before last good) : before <+: last := by
  obtain ⟨events, rfl, _⟩ := serves
  exact List.prefix_append before events

theorem refl (holds : good d) : D.Serves d before before good :=
  ⟨[], (List.append_nil before).symm, fun _ => ⟨d, rfl, holds⟩⟩

theorem mono (serves : D.Serves d before last good) (implies : ∀ after, good after → best after) : D.Serves d before last best := by
  obtain ⟨events, same, ends⟩ := serves
  refine ⟨events, same, fun honest => ?_⟩
  obtain ⟨after, ran, holds⟩ := ends honest
  exact ⟨after, ran, implies after holds⟩

/-- One access. -/
theorem single {event : ε} (allowed : D.answers d event → ∃ after, D.next d event = some after ∧ good after) :
    D.Serves d before (before ++ [event]) good := by
  refine ⟨[event], rfl, fun honest => ?_⟩
  obtain ⟨after, step, holds⟩ := allowed honest.1
  refine ⟨after, ?_, holds⟩
  rw [run, List.foldlM_cons, step]
  rfl

/-- What comes behind may take for granted how the device was left. -/
theorem andThen (first : D.Serves d before middle good) (grows : middle <+: last)
    (second : ∀ after, good after → D.Serves after middle last best) : D.Serves d before last best := by
  obtain ⟨events, rfl, ends⟩ := first
  obtain ⟨more, rfl⟩ := grows
  refine ⟨events ++ more, List.append_assoc .., fun honest => ?_⟩
  obtain ⟨after, ran, holds⟩ := ends honest.front
  obtain ⟨others, same, ends'⟩ := second after holds
  obtain rfl := List.append_cancel_left same
  obtain ⟨final, ran', holds'⟩ := ends' (honest.rest ran)
  refine ⟨final, ?_, holds'⟩
  rw [run_append, ran]
  exact ran'

/-- With right answers the end is as promised. -/
theorem ends (serves : D.Serves d before (before ++ events) good) (honest : D.Honest d events) :
    ∃ after, D.run d events = some after ∧ good after := by
  obtain ⟨others, same, ends⟩ := serves
  obtain rfl := List.append_cancel_left same
  exact ends honest

end Serves
end Device
end Library
