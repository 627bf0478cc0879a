import Mathlib.Logic.Function.Basic

/-! Cells that threads claim one at a time: a thread takes a free cell, fills it, and lets
it go. Each taken cell has one owner. -/

namespace CellClaims
variable {C T : Type*}

/-- The taken cells are those that some thread owns, and no two threads own the same. -/
structure Claimed (busy : C → Prop) (owner : T → Option C) : Prop where
  taken : ∀ t c, owner t = some c → busy c
  owned : ∀ c, busy c → ∃ t, owner t = some c
  apart : ∀ t t' c, owner t = some c → owner t' = some c → t = t'

section
variable {busy busy' : C → Prop} {owner owner' : T → Option C} {t : T} {c : C}

theorem Claimed.congr (claimed : Claimed busy owner) (same : ∀ c, busy' c ↔ busy c)
    (owners : ∀ t, owner' t = owner t) : Claimed busy' owner' := by
  obtain rfl : owner' = owner := funext owners
  obtain rfl : busy' = busy := funext fun c => propext (same c)
  exact claimed

theorem Claimed.of_none (free : ∀ c, ¬ busy' c) (owners : ∀ t, owner' t = none) :
    Claimed busy' owner' := by
  refine ⟨fun t c owns => ?_, fun c holds => absurd holds (free c), fun t t' c owns => ?_⟩
  · rw [owners t] at owns
    cases owns
  · rw [owners t] at owns
    cases owns

variable [DecidableEq T]

theorem Claimed.take (claimed : Claimed busy owner) (free : ¬ busy c) (idle : owner t = none) :
    Claimed (fun d => d = c ∨ busy d) (Function.update owner t (some c)) where
  taken := by
    refine (Function.forall_update_iff owner fun _ o => ∀ d, o = some d → d = c ∨
      busy d).mpr ⟨?_, ?_⟩
    · rintro d ⟨⟩
      exact Or.inl rfl
    · intro u _ d owns
      exact Or.inr (claimed.taken u d owns)
  owned := by
    rintro d (rfl | holds)
    · exact ⟨t, Function.update_self ..⟩
    · obtain ⟨u, owns⟩ := claimed.owned d holds
      refine ⟨u, ?_⟩
      rwa [Function.update_of_ne]
      rintro rfl
      rw [idle] at owns
      cases owns
  apart := by
    intro u u' d owns owns'
    rw [Function.update_apply] at owns owns'
    split at owns <;> split at owns'
    · exact Eq.trans ‹u = t› (Eq.symm ‹u' = t›)
    · cases owns
      exact absurd (claimed.taken u' c owns') free
    · cases owns'
      exact absurd (claimed.taken u c owns) free
    · exact claimed.apart u u' d owns owns'

theorem Claimed.release (claimed : Claimed busy owner) (mine : owner t = some c) :
    Claimed (fun d => d ≠ c ∧ busy d) (Function.update owner t none) where
  taken := by
    refine (Function.forall_update_iff owner fun _ o => ∀ d, o = some d → d ≠ c ∧
      busy d).mpr ⟨?_, ?_⟩
    · rintro d ⟨⟩
    · intro u other d owns
      refine ⟨?_, claimed.taken u d owns⟩
      rintro rfl
      exact other (claimed.apart u t d owns mine)
  owned := by
    rintro d ⟨other, holds⟩
    obtain ⟨u, owns⟩ := claimed.owned d holds
    refine ⟨u, ?_⟩
    rwa [Function.update_of_ne]
    rintro rfl
    rw [mine] at owns
    exact other (Option.some.inj owns).symm
  apart := by
    intro u u' d owns owns'
    rw [Function.update_apply] at owns owns'
    split at owns
    · cases owns
    · split at owns'
      · cases owns'
      · exact claimed.apart u u' d owns owns'

end

end CellClaims
