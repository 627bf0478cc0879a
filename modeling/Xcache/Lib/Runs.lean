import Mathlib.Tactic

/-! Runs of a machine whose steps may be impossible, and what holds along them. -/

namespace Xcache.Runs

section
variable {σ ε : Type*}

def run (step : σ → ε → Option σ) : σ → List ε → Option σ
  | s, [] => some s
  | s, e :: rest => (step s e).bind fun t => run step t rest

variable (step : σ → ε → Option σ)

/-- Every state that the events lead through. -/
def Always (Q : σ → Prop) (start : σ) (events : List ε) : Prop :=
  ∀ done s, done <+: events → run step start done = some s → Q s

/-- Every step that the events make. -/
def Meets (P : σ → ε → Prop) (start : σ) (events : List ε) : Prop :=
  ∀ done e s, done ++ [e] <+: events → run step start done = some s → P s e

variable {step} {start s t : σ} {events : List ε}

theorem run_concat (e : ε) :
    run step start (events ++ [e]) = (run step start events).bind fun t => step t e := by
  induction events generalizing start with
  | nil =>
    rw [List.nil_append, run, run, Option.bind_some]
    cases step start e <;> rfl
  | cons first rest ih =>
    rw [List.cons_append, run, run]
    cases step start first with
    | none => rfl
    | some next => exact ih

theorem run_append (more : List ε) :
    run step start (events ++ more) = (run step start events).bind fun t => run step t more := by
  induction events generalizing start with
  | nil => rfl
  | cons first rest ih =>
    rw [List.cons_append, run, run]
    cases step start first with
    | none => rfl
    | some next => exact ih

theorem step_of_run {e : ε} (final : run step start (events ++ [e]) = some t) :
    ∃ s, run step start events = some s ∧ step s e = some t := by
  rw [run_concat] at final
  exact Option.bind_eq_some_iff.mp final

theorem run_of_prefix {done : List ε} (le : done <+: events)
    (final : run step start events = some t) :
    ∃ s, run step start done = some s := by
  obtain ⟨more, rfl⟩ := le
  rw [run_append] at final
  obtain ⟨s, first, _⟩ := Option.bind_eq_some_iff.mp final
  exact ⟨s, first⟩

/-- Some events lead from one state to the other. -/
def Reaches (step : σ → ε → Option σ) (s t : σ) : Prop := ∃ events, run step s events = some t

theorem Reaches.refl (s : σ) : Reaches step s s := ⟨[], rfl⟩

theorem Reaches.head {e : ε} {u : σ} (first : step s e = some t)
    (rest : Reaches step t u) : Reaches step s u := by
  obtain ⟨events, final⟩ := rest
  refine ⟨e :: events, ?_⟩
  rw [run, first]
  exact final

theorem Reaches.trans {u : σ} (first : Reaches step s t)
    (rest : Reaches step t u) : Reaches step s u := by
  obtain ⟨events, eq⟩ := first
  obtain ⟨more, final⟩ := rest
  refine ⟨events ++ more, ?_⟩
  rw [run_append, eq]
  exact final

variable {J Q : σ → Prop} {P : σ → ε → Prop}

/-- What the steps that meet `P` keep holds at the end of every run of them. -/
theorem invariant (initial : J start) (kept : ∀ s e t, J s → P s e → step s e = some t → J t)
    (met : Meets step P start events) (final : run step start events = some t) : J t := by
  induction events using List.reverseRecOn generalizing t with
  | nil =>
    cases final
    exact initial
  | append_singleton events e ih =>
    obtain ⟨s, before, last⟩ := step_of_run final
    have holds := ih (fun done e s le => met done e s (le.trans (List.prefix_append _ _))) before
    exact kept s e t holds (met events e s (List.prefix_refl _) before) last

theorem Meets.mono {done : List ε} (met : Meets step P start events) (le : done <+: events) :
    Meets step P start done := fun early e s le' => met early e s (le'.trans le)

theorem Meets.imp {P' : σ → ε → Prop} (met : Meets step P start events)
    (weaker : ∀ s e, P s e → P' s e) :
    Meets step P' start events :=
  fun done e s le reached => weaker s e (met done e s le reached)

theorem mem_of_concat {done : List ε} {e : ε} (le : done ++ [e] <+: events) : e ∈ events :=
  le.subset (List.mem_append_right done (List.mem_singleton_self e))

theorem meets_of_forall {Q : ε → Prop} (all : ∀ e ∈ events, Q e) :
    Meets step (fun _ e => Q e) start events :=
  fun _ e _ le _ => all e (mem_of_concat le)

theorem Meets.and {P' : σ → ε → Prop} (met : Meets step P start events)
    (met' : Meets step P' start events) :
    Meets step (fun s e => P s e ∧ P' s e) start events :=
  fun done e s le reached => ⟨met done e s le reached, met' done e s le reached⟩

theorem meets_nil : Meets step P start [] := by
  intro done e s le
  exact absurd (List.prefix_nil.mp le) (by simp)

theorem meets_cons {e : ε} :
    Meets step P start (e :: events) ↔ P start e ∧ ∀ s, step start e = some s →
      Meets step P s events := by
  constructor
  · intro met
    refine ⟨met [] e start ⟨events, rfl⟩ rfl, ?_⟩
    intro s first done e' t le reached
    refine met (e :: done) e' t (List.cons_prefix_cons.mpr ⟨rfl, le⟩) ?_
    rw [run, first]
    exact reached
  · rintro ⟨here, later⟩ done e' t le reached
    cases done with
    | nil =>
      obtain ⟨rfl, -⟩ := List.cons_prefix_cons.mp le
      cases reached
      exact here
    | cons first done =>
      obtain ⟨rfl, le'⟩ := List.cons_prefix_cons.mp le
      obtain ⟨s, next, reached'⟩ := Option.bind_eq_some_iff.mp reached
      exact later s next done e' t le' reached'

/-- A check of every step that the events make. -/
def checks (step : σ → ε → Option σ) (ok : σ → ε → Bool) : σ → List ε → Bool
  | _, [] => true
  | s, e :: rest => ok s e && (step s e).elim true fun t => checks step ok t rest

theorem meets_of_checks {ok : σ → ε → Bool} (sound : ∀ s e, ok s e = true → P s e)
    (checked : checks step ok start events = true) :
    Meets step P start events := by
  induction events generalizing start with
  | nil => exact meets_nil
  | cons e events ih =>
    obtain ⟨here, later⟩ := Bool.and_eq_true_iff.mp checked
    refine meets_cons.mpr ⟨sound start e here, fun s next => ih ?_⟩
    rw [next] at later
    exact later

/-- The events can be taken, meet `P` at every step, and end in a given state. -/
structure Leads (step : σ → ε → Option σ) (P : σ → ε → Prop) (start : σ) (events : List ε)
    (final : σ) : Prop where
  run_eq : run step start events = some final
  met : Meets step P start events

theorem Leads.nil : Leads step P start [] start := ⟨rfl, meets_nil⟩

theorem Leads.cons {e : ε} (here : P start e) (next : step start e = some s)
    (rest : Leads step P s events t) :
    Leads step P start (e :: events) t := by
  refine ⟨?_, meets_cons.mpr ⟨here, ?_⟩⟩
  · rw [run, next]
    exact rest.run_eq
  · intro s' next'
    cases next.symm.trans next'
    exact rest.met

theorem Leads.append {more : List ε} (first : Leads step P start events s)
    (rest : Leads step P s more t) :
    Leads step P start (events ++ more) t := by
  induction events generalizing start with
  | nil =>
    cases first.run_eq
    exact rest
  | cons e events ih =>
    obtain ⟨here, later⟩ := meets_cons.mp first.met
    obtain ⟨u, next, reached⟩ := Option.bind_eq_some_iff.mp first.run_eq
    exact .cons here next (ih ⟨reached, later u next⟩)

theorem always_of_meets (initial : J start) (kept : ∀ s e t, J s → P s e → step s e = some t → J t)
    (gives : ∀ s, J s → Q s) (met : Meets step P start events) : Always step Q start events :=
  fun _ s le final => gives s (invariant initial kept (met.mono le) final)

/-- When `P` is also necessary at every step, it says exactly when the property holds along a
whole run. -/
theorem always_iff_meets (initial : J start) (kept : ∀ s e t, J s → P s e → step s e = some t → J t)
    (gives : ∀ s, J s → Q s) (needed : ∀ s e t, J s → step s e = some t → Q t → P s e)
    (final : run step start events = some t) :
    Always step Q start events ↔ Meets step P start events := by
  refine ⟨fun always => ?_, always_of_meets initial kept gives⟩
  induction events using List.reverseRecOn generalizing t with
  | nil =>
    intro done e s le
    exact absurd (List.prefix_nil.mp le) (by simp)
  | append_singleton events last ih =>
    obtain ⟨u, before, final'⟩ := step_of_run final
    have met := ih before fun done s le => always done s (le.trans (List.prefix_append _ _))
    have holds := invariant initial kept met before
    intro done e s le reached
    rcases List.prefix_concat_iff.mp le with eq | le'
    · obtain ⟨rfl, eq'⟩ := List.append_inj' eq rfl
      cases eq'
      cases before.symm.trans reached
      exact needed u _ t holds final' (always _ t (List.prefix_refl _) final)
    · exact met done e s le' reached

section
variable {σ' : Type*} {step' : σ' → ε → Option σ'} {view : σ → σ'}

/-- A machine that looks like another one as long as `J` holds. -/
structure Simulates (step : σ → ε → Option σ) (step' : σ' → ε → Option σ') (view : σ → σ')
    (J : σ → Prop) : Prop where
  kept : ∀ s e t, J s → step s e = some t → J t
  follows : ∀ s e, J s → (step s e).map view = step' (view s) e

theorem Simulates.always_good (sim : Simulates step step' view J) (initial : J start)
    (final : run step start events = some t) : J t :=
  invariant (P := fun _ _ => True) initial (fun s e t holds _ => sim.kept s e t holds)
    (fun _ _ _ _ _ => trivial) final

theorem Simulates.run_eq (sim : Simulates step step' view J) (initial : J start) (events : List ε) :
    (run step start events).map view = run step' (view start) events := by
  induction events generalizing start with
  | nil => rfl
  | cons e events ih =>
    rw [run, run, ← sim.follows start e initial]
    cases next : step start e with
    | none => rfl
    | some s => exact ih (sim.kept start e s initial next)

theorem Simulates.meets_iff (sim : Simulates step step' view J) (initial : J start)
    {P' : σ' → ε → Prop} (same : ∀ s e, J s → (P s e ↔ P' (view s) e)) :
    Meets step P start events ↔ Meets step' P' (view start) events := by
  refine forall_congr' fun done => forall_congr' fun e => ?_
  rw [← sim.run_eq initial done]
  cases reached : run step start done with
  | none => simp
  | some s => simp [same s e (sim.always_good initial reached)]

theorem Simulates.always_iff (sim : Simulates step step' view J) (initial : J start)
    {Q' : σ' → Prop} (same : ∀ s, J s → (Q s ↔ Q' (view s))) :
    Always step Q start events ↔ Always step' Q' (view start) events := by
  refine forall_congr' fun done => ?_
  rw [← sim.run_eq initial done]
  cases reached : run step start done with
  | none => simp
  | some s => simp [same s (sim.always_good initial reached)]

end

section
variable {σ' ε' : Type*} {step' : σ' → ε' → Option σ'} {view : σ → σ'} {f : ε → ε'}
  (follows : ∀ s e t, step s e = some t → step' (view s) (f e) = some (view t))
include follows

end

/-- Every first part of the events can be taken and leads to a state with `Q`. -/
def Throughout (step : σ → ε → Option σ) (Q : σ → Prop) (start : σ) (events : List ε) : Prop :=
  ∀ done, done <+: events → ∃ s, run step start done = some s ∧ Q s

/-- Steps that meet `P` can be taken and keep `J`. -/
theorem run_of_meets (initial : J start) (kept : ∀ s e, J s → P s e → ∃ t, step s e = some t ∧ J t)
    (met : Meets step P start events) : ∃ t, run step start events = some t ∧ J t := by
  induction events using List.reverseRecOn with
  | nil => exact ⟨start, rfl, initial⟩
  | append_singleton events e ih =>
    obtain ⟨s, before, holds⟩ := ih (met.mono (List.prefix_append _ _))
    obtain ⟨t, last, holds'⟩ := kept s e holds (met events e s (List.prefix_refl _) before)
    exact ⟨t, by simp [run_concat, before, last], holds'⟩

theorem throughout_iff_meets (initial : J start)
    (kept : ∀ s e, J s → P s e → ∃ t, step s e = some t ∧ J t) (gives : ∀ s, J s → Q s)
    (needed : ∀ s e t, J s → step s e = some t → Q t → P s e) :
    Throughout step Q start events ↔ Meets step P start events := by
  constructor
  · intro all
    obtain ⟨t, final, -⟩ := all events (List.prefix_refl _)
    have always : Always step Q start events := by
      intro done s le reached
      obtain ⟨s', reached', good⟩ := all done le
      cases reached.symm.trans reached'
      exact good
    refine (always_iff_meets initial ?_ gives needed final).mp always
    intro s e t holds allowed last
    obtain ⟨t', last', holds'⟩ := kept s e holds allowed
    cases last.symm.trans last'
    exact holds'
  · intro met done le
    obtain ⟨s, reached, holds⟩ := run_of_meets initial kept (met.mono le)
    exact ⟨s, reached, gives s holds⟩

end

end Xcache.Runs
