import Xcache.Store.CuckooProbing

/-! What the search of the cuckoo table returns: the last value of the key or `NONE`, as long
as no key is stored twice and no pair is moved into its own cluster. -/

namespace Xcache.CuckooProbingHash
open Function
open LinearProbingHash (locksize)

/-- The value of the last insertion of every key. -/
def lastValue (calls : List (Key × Value)) : Key → Option Value :=
  calls.foldl (fun last c => update last c.1 (some c.2)) fun _ => none

theorem lastValue_concat (calls : List (Key × Value)) (c : Key × Value) :
    lastValue (calls ++ [c]) = update (lastValue calls) c.1 (some c.2) := by
  unfold lastValue
  rw [List.foldl_append]
  rfl

theorem lastValue_clear {calls : List (Key × Value)} (clear : ∀ c ∈ calls, c.2 &&& cuckooBit = 0)
    {key : Key} {v : Value} (last : lastValue calls key = some v) : v &&& cuckooBit = 0 := by
  induction calls using List.reverseRecOn with
  | nil => cases last
  | append_singleton calls c ih =>
    rw [List.forall_mem_append, List.forall_mem_singleton] at clear
    rw [lastValue_concat] at last
    by_cases same : key = c.1
    · rw [same, update_self] at last
      cases last
      exact clear.2
    · rw [update_of_ne same] at last
      exact ih clear.1 last

section
variable {h h₂ : Key → BitVec 64} {t t' : CuckooProbingHash} {key d : Key} {value : Value}

/-- The key is in no slot but the one that the first loop writes, and a pair that is moved
away leaves its cluster. -/
structure Careful (h h₂ : Key → BitVec 64) (t : CuckooProbingHash) (key : Key) : Prop where
  live : key ≠ invalidKey
  once : ∀ s < t.capacity, (t.dict s).key = key →
    ∃ j, t.usableSlot (t.firstIndex (h key)) key = some j ∧ s = t.firstIndex (h key) + j
  leaves : t.Displaces h key → t.firstIndex (h₂ key) ≠ t.firstIndex (h key)

/-- A pair holds the last value of its key, with the mark exactly outside its first cluster. -/
def Faithful (h : Key → BitVec 64) (last : Key → Option Value) (t : CuckooProbingHash) : Prop :=
  ∀ s < t.capacity, (t.dict s).Live → ∃ v, last (t.dict s).key = some v ∧
    (t.dict s).value = some (if base s = t.firstIndex (h (t.dict s).key) then v
      else v ||| cuckooBit)

/-- After a careful insertion the other pairs are those of other keys. -/
theorem Careful.origin (careful : t.Careful h h₂ key) (dvd : locksize ∣ t.capacity)
    (pos : 0 < t.capacity) (step : t.insert h h₂ key value = some (t', d)) {s : Nat}
    (lt : s < t.capacity) :
    (∃ s' < t.capacity, base s' = base s ∧ t'.dict s = t.dict s' ∧ (t.dict s').key ≠ key) ∨
      base s = t.firstIndex (h key) ∧ t'.dict s = ⟨key, some value⟩ ∨
      t.Displaces h key ∧ base s = t.firstIndex (h₂ key) ∧ ∃ v, v &&& cuckooBit = 0 ∧
        (t.dict (t.firstIndex (h key))).value = some v ∧
        t'.dict s = ⟨(t.dict (t.firstIndex (h key))).key, some (v ||| cuckooBit)⟩ := by
  rcases insert_cases step with ⟨j, found, _, dict⟩ | ⟨full, _⟩
  · rw [dict]
    by_cases here : s = t.firstIndex (h key) + j
    · have small := (usableSlot_some found).1
      rw [here, update_self, base_add (t.firstIndex_dvd (h key)) (by omega)]
      exact Or.inr (Or.inl ⟨rfl, rfl⟩)
    · rw [update_of_ne here]
      refine Or.inl ⟨s, lt, rfl, rfl, fun same => here ?_⟩
      obtain ⟨i, found', eq⟩ := careful.once s lt same
      cases found.symm.trans found'
      exact eq
  · refine ((insert_origin dvd pos step).2 s lt).imp_left ?_
    rintro ⟨s', lt', cluster, eq⟩
    refine ⟨s', lt', cluster, eq, fun same => ?_⟩
    obtain ⟨i, found, _⟩ := careful.once s' lt' same
    cases full.symm.trans found

theorem faithful_new (capacity : Nat) (last : Key → Option Value) :
    (new capacity).Faithful h last :=
  fun _ _ live => absurd live Pair.not_live_fresh

theorem Faithful.insert {last : Key → Option Value} (faithful : t.Faithful h last)
    (careful : t.Careful h h₂ key) (dvd : locksize ∣ t.capacity) (pos : 0 < t.capacity)
    (step : t.insert h h₂ key value = some (t', d)) :
    t'.Faithful h (update last key (some value)) := by
  have cap := (insert_origin dvd pos step).1
  intro s lt live
  rw [cap] at lt
  rw [firstIndex_congr cap]
  rcases careful.origin dvd pos step lt with ⟨s', lt', cluster,
    eq, other⟩ | ⟨here, eq⟩ | ⟨displaces, here, v, clear, read, eq⟩
  · rw [eq] at live ⊢
    rw [update_of_ne other, ← cluster]
    exact faithful s' lt' live
  · rw [eq]
    exact ⟨value, update_self .., by rw [if_pos here]⟩
  · -- the moved pair was unmarked, so it comes from its first cluster
    have inside := firstIndex_cluster pos dvd (h key)
    have full := usableSlot_none displaces.1 (j := 0) (by decide)
    obtain ⟨w, known, value'⟩ :=
      faithful (t.firstIndex (h key)) (by unfold locksize at inside; omega) full.1
    rw [base_firstIndex, read, Option.some_inj] at value'
    have home : t.firstIndex (h key) = t.firstIndex (h (t.dict (t.firstIndex (h key))).key) := by
      by_contra away
      rw [if_neg away] at value'
      exact displaces.2 ⟨v, read, fun _ => not_marked clear (value' ▸ marked_or key w)⟩
    rw [if_pos home] at value'
    have moved := careful.leaves displaces
    rw [← here, home] at moved
    rw [eq]
    exact ⟨w, (update_of_ne full.2 ..).trans known, by rw [if_neg moved, value']⟩

theorem find_some {first j : Nat} (found : t.find first key = some j) :
    j < locksize - 1 ∧ (t.dict (first + j)).key = key := by
  have test := List.find?_some found
  exact ⟨List.mem_range.mp (List.mem_of_find?_eq_some found), of_decide_eq_true test⟩

theorem and_not_cuckooBit {v : Value} (clear : v &&& cuckooBit = 0) :
    v &&& ~~~cuckooBit = v ∧ (v ||| cuckooBit) &&& ~~~cuckooBit = v := by
  have bits : ∀ i, (v.getLsbD i && cuckooBit.getLsbD i) = false := by
    intro i
    rw [← BitVec.getLsbD_and, clear]
    exact BitVec.getLsbD_zero
  constructor <;>
  · refine BitVec.eq_of_getLsbD_eq fun i lt => ?_
    have apart := bits i
    simp only [BitVec.getLsbD_and, BitVec.getLsbD_or, BitVec.getLsbD_not, lt,
      decide_true, Bool.true_and]
    revert apart
    cases v.getLsbD i <;> cases cuckooBit.getLsbD i <;> decide

theorem Faithful.get {last : Key → Option Value} (faithful : t.Faithful h last)
    (dvd : locksize ∣ t.capacity) (pos : 0 < t.capacity)
    (clear : ∀ v, last key = some v → v &&& cuckooBit = 0) (live : key ≠ invalidKey) :
    ∃ v, t.get h h₂ key = some v ∧ (v = noneValue ∨ last key = some v) := by
  have stored : ∀ {hash : BitVec 64} {j : Nat}, t.find (t.firstIndex hash) key = some j →
    ∃ v, last key = some v ∧ (t.dict (t.firstIndex hash + j)).value =
        some (if t.firstIndex hash = t.firstIndex (h key) then v else v ||| cuckooBit) := by
    intro hash j found
    obtain ⟨small, eq⟩ := find_some found
    have inside := firstIndex_cluster pos dvd hash
    obtain ⟨v, known, value⟩ :=
      faithful (t.firstIndex hash + j) (by omega) (by unfold Pair.Live; rw [eq]; exact live)
    rw [eq] at known value
    rw [base_add (t.firstIndex_dvd hash) (by omega)] at value
    exact ⟨v, known, value⟩
  unfold CuckooProbingHash.get
  rw [if_neg pos.ne']
  cases first : t.find (t.firstIndex (h key)) key with
  | some j =>
    obtain ⟨v, known, value⟩ := stored first
    rw [if_pos rfl] at value
    exact ⟨v, value, Or.inr known⟩
  | none =>
    cases second : t.find (t.firstIndex (h₂ key)) key with
    | none => exact ⟨noneValue, rfl, Or.inl rfl⟩
    | some j =>
      obtain ⟨v, known, value⟩ := stored second
      refine ⟨v, ?_, Or.inr known⟩
      dsimp only
      rw [value, Option.map_some]
      split
      · rw [(and_not_cuckooBit (clear v known)).1]
      · rw [(and_not_cuckooBit (clear v known)).2]

/-- After careful insertions the search gives the last value of a key or `NONE`. -/
theorem get_last_or_none {capacity : Nat} (dvd : locksize ∣ capacity) (pos : 0 < capacity)
    (calls : List (Key × Value)) (clear : ∀ c ∈ calls, c.2 &&& cuckooBit = 0)
    (careful : ∀ done c t, done ++ [c] <+: calls → (new capacity).insertAll h h₂ done = some t →
      t.Careful h h₂ c.1) :
    ∃ t, (new capacity).insertAll h h₂ calls = some t ∧ ∀ key ≠ invalidKey, ∃ v, t.get h h₂ key =
      some v ∧
      (v = noneValue ∨ lastValue calls key = some v ∧ v &&& cuckooBit = 0) := by
  obtain ⟨t, run, rfl, _⟩ := insertAll_written dvd pos h h₂ calls
  have faithful : t.Faithful h (lastValue calls) := by
    refine insertAll_invariant (I := fun done t => t.Faithful h (lastValue done)) dvd pos
      (faithful_new _ _) ?_ calls careful run
    intro done c before after d cap holds step_careful step
    rw [← cap] at dvd pos
    rw [lastValue_concat]
    exact holds.insert step_careful dvd pos step
  refine ⟨t, run, fun key live => ?_⟩
  obtain ⟨v, got, known⟩ := faithful.get dvd pos (fun v last => lastValue_clear clear last) live
  exact ⟨v, got, known.imp_right fun last => ⟨last, lastValue_clear clear last⟩⟩

theorem get_last_or_none_two :
    (locksize ∣ 32 ∧ 0 < 32 ∧ (∀ c ∈ [(2, 512), (2, 768)], c.2 &&& cuckooBit = 0)) ∧
    ∃ t, (new 32).insertAll firstHash nextHash [(2, 512), (2, 768)] = some t ∧
      ∀ key ≠ invalidKey, ∃ v, t.get firstHash nextHash key = some v ∧
        (v = noneValue ∨ lastValue [(2, 512), (2, 768)] key = some v ∧ v &&& cuckooBit = 0) := by
  have run : (new 32).insertAll firstHash nextHash [(2, 512)] =
      some ⟨32, update (fun _ => Pair.fresh) 0 ⟨2, some 512⟩, 1⟩ := rfl
  refine ⟨by decide, get_last_or_none (by decide) (by decide) _
    (List.all_iff_forall_prop.mp (by decide)) ?_⟩
  rintro (_ | ⟨a, _ | ⟨b, rest⟩⟩) c t le found
  · cases found
    simp [List.cons_prefix_cons] at le
    subst le
    refine ⟨by decide, fun s _ same => ?_, fun displaces => absurd displaces.1 (by decide)⟩
    cases same
  · simp [List.cons_prefix_cons] at le
    obtain ⟨rfl, rfl⟩ := le
    cases run.symm.trans found
    refine ⟨by decide, fun s _ same => ⟨0, by decide, ?_⟩, fun displaces =>
      absurd displaces.1 (by decide)⟩
    by_contra away
    have fresh : update (fun _ => Pair.fresh) 0 (⟨2, some 512⟩ : Pair) s = Pair.fresh :=
      update_of_ne away ..
    exact absurd (same.symm.trans (congrArg Pair.key fresh)) (by decide)
  · simp [List.cons_prefix_cons] at le

/-- In a table of one cluster the moved pair comes back into it, where the first loop of the
search finds it with the mark. -/
theorem marked_value_returned :
    let calls : List (Key × Value) :=
      [1, 2, 3, 4, 5, 6, 7, 8, 9, 10, 11, 12, 13, 14, 15, 16].map fun key => (key, key * 256)
    (∀ c ∈ calls, c.2 &&& cuckooBit = 0) ∧
    ∃ t, (new 16).insertAll firstHash nextHash calls = some t ∧
      ¬ ∃ v, t.get firstHash nextHash 1 = some v ∧
        (v = noneValue ∨ lastValue calls 1 = some v ∧ v &&& cuckooBit = 0) := by
  intro calls
  refine ⟨List.all_iff_forall_prop.mp (by decide), ?_⟩
  obtain ⟨t, run, _⟩ := insertAll_written (show locksize ∣ 16 by decide) (by decide)
    firstHash nextHash calls
  have got : ((new 16).insertAll firstHash nextHash calls).bind
    (fun t => t.get firstHash nextHash 1) = some (256 ||| cuckooBit) := by
    decide +kernel
  rw [run, Option.bind_some] at got
  refine ⟨t, run, ?_⟩
  rintro ⟨v, eq, other⟩
  cases got.symm.trans eq
  revert other
  decide

end

end Xcache.CuckooProbingHash
