import Mathlib.Tactic

/-! Lanes that feed a map: entries wait in a lane, first in first out, until they are flushed into
the map, where the last one wins. -/

namespace Xcache
open Function

structure Lanes (ι κ α : Type*) where
  waiting : ι → List (κ × α)
  held : κ → Option α

namespace Lanes
variable {ι κ α : Type*}

def Waits (s : Lanes ι κ α) (i : ι) (k : κ) : Prop := ∃ a, (k, a) ∈ s.waiting i

/-- The last entry of the key in a list is `a`. -/
def EndsWith (entries : List (κ × α)) (k : κ) (a : α) : Prop :=
  ∃ before after, entries = before ++ (k, a) :: after ∧ ∀ b, (k, b) ∉ after

/-- What the key has once every entry that waits now is flushed. -/
def Settles (s : Lanes ι κ α) (k : κ) (a : α) : Prop :=
  (∀ i, ¬ s.Waits i k) ∧ s.held k = some a ∨
    ∃ i, (∀ j ≠ i, ¬ s.Waits j k) ∧ EndsWith (s.waiting i) k a

theorem EndsWith.mem {entries : List (κ × α)} {k : κ} {a : α}
    (ends : EndsWith entries k a) : (k, a) ∈ entries := by
  obtain ⟨before, after, rfl, _⟩ := ends
  exact List.mem_append_right _ (List.mem_cons_self ..)

theorem Settles.held {s : Lanes ι κ α} {k : κ} {a : α} (settles : s.Settles k a)
    (none : ∀ i, ¬ s.Waits i k) :
    s.held k = some a := by
  rcases settles with ⟨_, held⟩ | ⟨i, _, ends⟩
  · exact held
  · exact absurd ⟨a, ends.mem⟩ (none i)

section
variable [DecidableEq ι] [DecidableEq κ]

def enqueue (s : Lanes ι κ α) (i : ι) (k : κ) (a : α) : Lanes ι κ α :=
  { s with waiting := update s.waiting i (s.waiting i ++ [(k, a)]) }

def flush (s : Lanes ι κ α) (i : ι) : Option (Lanes ι κ α) :=
  match s.waiting i with
  | [] => none
  | (k, a) :: rest => some ⟨update s.waiting i rest, update s.held k (some a)⟩

variable {s t : Lanes ι κ α} {i j : ι} {k k' : κ} {a b : α}

omit [DecidableEq κ] in
theorem waits_enqueue (waits : (s.enqueue i k a).Waits j k') : s.Waits j k' ∨ j = i ∧ k' = k := by
  obtain ⟨b, mem⟩ := waits
  change (k', b) ∈ update s.waiting i (s.waiting i ++ [(k, a)]) j at mem
  by_cases same : j = i
  · subst same
    rw [update_self] at mem
    rcases List.mem_append.mp mem with old | new
    · exact Or.inl ⟨b, old⟩
    · cases List.mem_singleton.mp new
      exact Or.inr ⟨rfl, rfl⟩
  · rw [update_of_ne same] at mem
    exact Or.inl ⟨b, mem⟩

omit [DecidableEq κ] in
/-- A new entry settles its key, unless one of the key waits in another lane. -/
theorem settles_enqueue (alone : ∀ j ≠ i, ¬ s.Waits j k) : (s.enqueue i k a).Settles k a := by
  refine Or.inr ⟨i, fun j ne waits => ?_, s.waiting i, [], update_self ..,
    fun _ => List.not_mem_nil⟩
  rcases waits_enqueue waits with old | ⟨same, _⟩
  · exact alone j ne old
  · exact ne same

omit [DecidableEq κ] in
theorem Settles.enqueue (settles : s.Settles k a) (ne : k' ≠ k) :
    (s.enqueue i k' b).Settles k a := by
  have waits : ∀ j, (s.enqueue i k' b).Waits j k → s.Waits j k := by
    intro j waits
    exact (waits_enqueue waits).resolve_right fun new => ne new.2.symm
  rcases settles with ⟨none, held⟩ | ⟨l, alone, before, after, eq, last⟩
  · exact Or.inl ⟨fun j there => none j (waits j there), held⟩
  · refine Or.inr ⟨l, fun j there now => alone j there (waits j now), ?_⟩
    by_cases same : l = i
    · subst same
      refine ⟨before, after ++ [(k', b)], ?_, fun c mem => ?_⟩
      · show update s.waiting l _ l = _
        rw [update_self, eq, List.append_assoc, List.cons_append]
      · rcases List.mem_append.mp mem with old | new
        · exact last c old
        · cases List.mem_singleton.mp new
          exact ne rfl
    · refine ⟨before, after, ?_, last⟩
      show update s.waiting i _ l = _
      rw [update_of_ne same, eq]

theorem flush_cons {rest : List (κ × α)} (first : s.waiting i = (k, a) :: rest) :
    s.flush i = some ⟨update s.waiting i rest, update s.held k (some a)⟩ := by
  unfold flush
  rw [first]

theorem flush_cases (flushed : s.flush i = some t) : ∃ k a rest, s.waiting i = (k, a) :: rest ∧
    t = ⟨update s.waiting i rest, update s.held k (some a)⟩ := by
  unfold flush at flushed
  split at flushed
  · cases flushed
  · rename_i k a rest first
    cases flushed
    exact ⟨k, a, rest, first, rfl⟩

theorem waits_flush (flushed : s.flush i = some t) (waits : t.Waits j k) : s.Waits j k := by
  obtain ⟨k₀, a₀, rest, first, rfl⟩ := flush_cases flushed
  obtain ⟨b, mem⟩ := waits
  change (k, b) ∈ update s.waiting i rest j at mem
  by_cases same : j = i
  · subst same
    rw [update_self] at mem
    exact ⟨b, by rw [first]; exact List.mem_cons_of_mem _ mem⟩
  · rw [update_of_ne same] at mem
    exact ⟨b, mem⟩

theorem Settles.flush (settles : s.Settles k a) (flushed : s.flush i = some t) : t.Settles k a := by
  have waits := fun {j} => waits_flush (j := j) (k := k) flushed
  obtain ⟨k₀, a₀, rest, first, rfl⟩ := flush_cases flushed
  rcases settles with ⟨none, held⟩ | ⟨l, alone, before, after, eq, last⟩
  · refine Or.inl ⟨fun j there => none j (waits there), ?_⟩
    -- the entry that goes is of another key
    refine (update_of_ne ?_ ..).trans held
    rintro rfl
    exact none i ⟨a₀, by rw [first]; exact List.mem_cons_self ..⟩
  · by_cases same : l = i
    · subst same
      rw [first] at eq
      cases before with
      | nil =>
        -- the last entry of the key goes now
        obtain ⟨head, rfl⟩ := List.cons.inj eq
        cases head
        refine Or.inl ⟨fun j there => ?_, update_self ..⟩
        by_cases here : j = l
        · subst here
          obtain ⟨b, mem⟩ := there
          change (k, b) ∈ update s.waiting j rest j at mem
          rw [update_self] at mem
          exact last b mem
        · exact alone j here (waits there)
      | cons e before =>
        obtain ⟨_, rfl⟩ := List.cons.inj eq
        exact Or.inr ⟨l, fun j ne there => alone j ne (waits there), before, after,
          update_self .., last⟩
    · refine Or.inr ⟨l, fun j ne there => alone j ne (waits there), before, after, ?_, last⟩
      exact (update_of_ne same ..).trans eq

/-- What one key sees of a step that enqueues no entry of it. -/
structure Keeps (s t : Lanes ι κ α) (k : κ) : Prop where
  waits : ∀ j, t.Waits j k → s.Waits j k
  settles : ∀ a, s.Settles k a → t.Settles k a

omit [DecidableEq ι] [DecidableEq κ] in
theorem keeps_rfl : s.Keeps s k := ⟨fun _ => id, fun _ => id⟩

omit [DecidableEq κ] in
theorem keeps_enqueue (ne : k' ≠ k) : s.Keeps (s.enqueue i k' b) k :=
  ⟨fun _ waits => (waits_enqueue waits).resolve_right fun new => ne new.2.symm, fun _ settles =>
    settles.enqueue ne⟩

theorem keeps_flush (flushed : s.flush i = some t) : s.Keeps t k :=
  ⟨fun _ => waits_flush flushed, fun _ settles => settles.flush flushed⟩

end

end Lanes

end Xcache
