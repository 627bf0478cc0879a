import Mathlib.Tactic

/-! A lock whose owner is known, and the calls that pass through it: the calls at a place inside
are exactly the owner. -/

namespace Xcache.SpinLock
open Function

section
variable {γ : Type*} {inside : γ → Bool} {lock : Option Nat} {calls : Nat → Option γ} {t : Nat}
  {call : γ}

structure Held (inside : γ → Bool) (lock : Option Nat) (calls : Nat → Option γ) : Prop where
  mine : ∀ t call, calls t = some call → inside call = true → lock = some t
  owner : ∀ t, lock = some t → ∃ call, calls t = some call ∧ inside call = true

def holder (lock : Option Nat) (calls : Nat → Option γ) : Option γ := lock.bind calls

theorem holder_of_mine (mine : lock = some t) (here : calls t = some call) :
    holder lock calls = some call := by
  rw [mine]
  exact here

theorem Held.holder_eq (held : Held inside lock calls) (here : calls t = some call)
    (within : inside call = true) :
    holder lock calls = some call :=
  holder_of_mine (held.mine t call here within) here

theorem held_free : Held inside none fun _ : Nat => none := ⟨nofun, nofun⟩

theorem Held.not_mine (held : Held inside lock calls)
    (outside : ∀ call, calls t = some call → inside call = false) :
    lock ≠ some t := by
  intro mine
  obtain ⟨call, here, within⟩ := held.owner t mine
  rw [outside call here] at within
  cases within

theorem Held.enter (held : Held inside lock calls) (free : lock = none ∨ lock = some t)
    (within : inside call = true) :
    Held inside (some t) (update calls t (some call)) := by
  constructor
  · intro t' call' there within'
    by_cases same : t' = t
    · rw [same]
    · rw [update_of_ne same] at there
      have mine := held.mine t' call' there within'
      rcases free with none | some
      · rw [none] at mine
        cases mine
      · rw [some, Option.some_inj] at mine
        exact absurd mine.symm same
  · intro t' mine
    cases mine
    exact ⟨call, update_self .., within⟩

theorem Held.outside {next : Option γ} (held : Held inside lock calls)
    (before : ∀ call, calls t = some call → inside call = false)
    (after : ∀ call ∈ next, inside call = false) :
    Held inside lock (update calls t next) := by
  constructor
  · intro t' call' there within
    by_cases same : t' = t
    · rw [same, update_self] at there
      rw [after call' there] at within
      cases within
    · rw [update_of_ne same] at there
      exact held.mine t' call' there within
  · intro t' mine
    have ne : t' ≠ t := by
      rintro rfl
      exact held.not_mine before mine
    rw [update_of_ne ne]
    exact held.owner t' mine

theorem Held.holder_outside {next : Option γ} (held : Held inside lock calls)
    (before : ∀ call, calls t = some call → inside call = false) :
    holder lock (update calls t next) = holder lock calls := by
  unfold holder
  cases mine : lock with
  | none => rfl
  | some t' =>
    rw [Option.bind_some, Option.bind_some, update_of_ne]
    rintro rfl
    exact held.not_mine before mine

theorem Held.release {next : Option γ} (held : Held inside lock calls) (mine : lock = some t)
    (after : ∀ call ∈ next, inside call = false) :
    Held inside none (update calls t next) := by
  constructor
  · intro t' call' there within
    by_cases same : t' = t
    · rw [same, update_self] at there
      rw [after call' there] at within
      cases within
    · rw [update_of_ne same] at there
      have other := held.mine t' call' there within
      rw [mine, Option.some_inj] at other
      exact absurd other.symm same
  · nofun

end

end Xcache.SpinLock
