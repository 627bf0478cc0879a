import Xcache.Store.LinearProbing

/-! What the remote side may expect of a table: at least that it makes nothing up, at best that
it is a map. -/

namespace Xcache

namespace IHash
variable {σ : Type} (H : IHash σ)

def insertAll : σ → List (Key × Value) → Option σ
  | t, [] => some t
  | t, (key, value) :: rest => (H.insert t key value).bind fun p => insertAll p.1 rest

/-- A lookup finds nothing but a value that was inserted under the key. -/
def Genuine (empty : σ) : Prop :=
  ∀ ops t key value, H.insertAll empty ops = some t → H.get t key = some value → value ≠ noneValue →
    (key, value) ∈ ops

/-- A map in which the last insertion wins and nothing is evicted. -/
structure Perfect (empty : σ) : Prop where
  get_empty : ∀ key, H.get empty key = some noneValue
  insert : ∀ t key value, ∃ t', H.insert t key value = some (t', -1) ∧
    ∀ k, H.get t' k = if k = key then some value else H.get t k

variable {H}

theorem insertAll_concat (t : σ) (ops : List (Key × Value)) (op : Key × Value) :
    H.insertAll t (ops ++ [op]) = (H.insertAll t ops).bind fun t' =>
      (H.insert t' op.1 op.2).map Prod.fst := by
  induction ops generalizing t with
  | nil =>
    rw [List.nil_append, insertAll, insertAll, Option.bind_some]
    cases H.insert t op.1 op.2 <;> rfl
  | cons first rest ih =>
    rw [List.cons_append, insertAll, insertAll]
    cases H.insert t first.1 first.2 with
    | none => rfl
    | some p => exact ih p.1

theorem Perfect.insert_eq {empty t t' : σ} {key d : Key} {value : Value} (perfect : H.Perfect empty)
    (step : H.insert t key value = some (t', d)) :
    d = -1 ∧ ∀ k, H.get t' k = if k = key then some value else H.get t k := by
  obtain ⟨t₁, eq, get⟩ := perfect.insert t key value
  cases step.symm.trans eq
  exact ⟨rfl, get⟩

theorem Perfect.genuine {empty : σ} (perfect : H.Perfect empty) : H.Genuine empty := by
  intro ops
  induction ops using List.reverseRecOn with
  | nil =>
    intro t key value run got some
    cases run
    rw [perfect.get_empty key, Option.some_inj] at got
    exact absurd got.symm some
  | append_singleton ops op ih =>
    intro t key value run got some
    rw [insertAll_concat] at run
    obtain ⟨t₀, before, last⟩ := Option.bind_eq_some_iff.mp run
    obtain ⟨⟨t₁, d⟩, step, rfl⟩ := Option.map_eq_some_iff.mp last
    rw [(perfect.insert_eq step).2 key] at got
    split at got
    · rename_i same
      cases got
      subst same
      exact List.mem_append_right ops (List.mem_singleton_self op)
    · exact List.mem_append_left [op] (ih t₀ key value before got some)

theorem Perfect.total {empty t : σ} {ops : List (Key × Value)} (perfect : H.Perfect empty)
    (run : H.insertAll empty ops = some t) (key : Key) : ∃ value, H.get t key = some value := by
  induction ops using List.reverseRecOn generalizing t with
  | nil =>
    cases run
    exact ⟨noneValue, perfect.get_empty key⟩
  | append_singleton ops op ih =>
    rw [insertAll_concat] at run
    obtain ⟨t₀, before, last⟩ := Option.bind_eq_some_iff.mp run
    obtain ⟨⟨t₁, d⟩, step, rfl⟩ := Option.map_eq_some_iff.mp last
    rw [(perfect.insert_eq step).2 key]
    split
    · exact ⟨op.2, rfl⟩
    · exact ih before

end IHash

namespace LinearProbingHash
variable (h : Key → BitVec 64)

theorem insert_slot {t t' : LinearProbingHash} {key d : Key} {value : Value}
    (step : t.insert h key value = some (t', d)) (s : Nat) :
    t'.dict s = ⟨key, some value⟩ ∨ ∃ s', t'.dict s = t.dict s' := by
  unfold insert at step
  dsimp only at step
  split at step
  · cases step
  · split at step
    · rename_i j _
      cases step
      by_cases here : s = t.firstIndex h key + j
      · left
        rw [here]
        exact Function.update_self ..
      · exact Or.inr ⟨s, Function.update_of_ne here ..⟩
    · cases step
      have slots :=
        shiftLeft_update_apply (t.firstIndex h key) (locksize - 1) t.dict ⟨key, some value⟩ s
      dsimp only
      rw [show t.firstIndex h key + locksize - 1 = t.firstIndex h key + (locksize - 1) from rfl,
        slots]
      split
      · exact Or.inl rfl
      · split
        · exact Or.inr ⟨s + 1, rfl⟩
        · exact Or.inr ⟨s, rfl⟩

theorem insertAll_slot (capacity : Nat) (ops : List (Key × Value)) {t : LinearProbingHash}
    (run : (hash h).insertAll (new capacity) ops = some t) (s : Nat) :
    t.dict s = Pair.fresh ∨ ∃ op ∈ ops, t.dict s = ⟨op.1, some op.2⟩ := by
  induction ops using List.reverseRecOn generalizing t s with
  | nil =>
    cases run
    exact Or.inl rfl
  | append_singleton ops op ih =>
    rw [IHash.insertAll_concat] at run
    obtain ⟨t₀, before, last⟩ := Option.bind_eq_some_iff.mp run
    obtain ⟨⟨t₁, d⟩, step, rfl⟩ := Option.map_eq_some_iff.mp last
    rcases insert_slot h step s with new | ⟨s', old⟩
    · exact Or.inr ⟨op, List.mem_append_right ops (List.mem_singleton_self op), new⟩
    · rw [old]
      exact (ih before s').imp id fun ⟨op', mem, eq⟩ => ⟨op', List.mem_append_left [op] mem, eq⟩

theorem genuine (capacity : Nat) : (hash h).Genuine (new capacity) := by
  intro ops t key value run got some
  have got : t.get h key = Option.some value := got
  unfold get at got
  dsimp only at got
  split at got
  · cases got
  · split at got
    · rename_i j found
      have test := List.find?_some found
      have key_eq : (t.dict (t.firstIndex h key + j)).key = key := of_decide_eq_true test
      rcases insertAll_slot h capacity ops run (t.firstIndex h key + j) with fresh | ⟨op, mem, eq⟩
      · rw [fresh] at got
        cases got
      · rw [eq] at got key_eq
        obtain ⟨k, v⟩ := op
        cases got
        cases key_eq
        exact mem
    · exact absurd (Option.some_inj.mp got).symm some

/-- The keys of the slots that were written, the free marker included. -/
def writtenKeys (M : Multiset Pair) : Multiset Key :=
  (M.filter fun p => p.value.isSome).map Pair.key

/-- What linear probing holds: the keys of its written slots; a slot with another key than the free
marker is one. -/
def Holds (capacity : Nat) (t : LinearProbingHash) (M : Multiset Key) : Prop :=
  t.capacity = capacity ∧ (∀ s, (t.dict s).Live → (t.dict s).value.isSome = true) ∧
    M = writtenKeys (cells t.dict capacity)

end LinearProbingHash

end Xcache
