import Mathlib.Data.List.Find
import Xcache.Store.LinearProbing
import Xcache.Lib.RegionLocks

/-! `Insert` and `Get` of `server/src/linear_probing.cpp` as any number of threads run them,
statement by statement, under the shared mutexes of the clusters. The counter `size` has no
mutex, only the loop around its compare-and-swap. -/

namespace Xcache.LinearProbingHash
open Function
open RegionLocks (Code Phase State)

inductive Call
  | insert (key : Key) (value : Value)
  | get (key : Key)

inductive Result
  | removed (key : Key)
  | value (value : Option Value)

/-- Where a call is while it holds its mutex; `d` is the key that the shift pushes out. -/
inductive At
  | probe (j : Nat)
  | storeValue (j : Fin (locksize - 1)) | storeKey (j : Fin (locksize - 1))
  | loadSize | casSize (seen : Nat)
  | deleteKey
  | shiftKey (d : Key) (j : Nat) | shiftValue (d : Key) (j : Fin (locksize - 1))
  | tailKey (d : Key) | tailValue (d : Key)
  | inserted (d : Key)
  | search (i : Nat) | readValue (i : Fin (locksize - 1))
  | found (value : Option Value)

/-- The variables of a call: its mutex is that of the cluster. -/
structure Local where
  key : Key
  value : Value
  cluster : Nat
  pc : At

/-- Only the loop of `Get` is under the mutex in its shared mode. -/
def At.exclusive : At → Bool
  | .search _ | .readValue _ | .found _ => false
  | _ => true

namespace Local

def first (l : Local) : Nat := locksize * l.cluster

def goto (l : Local) (pc : At) : Local := { l with pc := pc }

def setKey (dict : Nat → Pair) (slot : Nat) (key : Key) : Nat → Pair :=
  update dict slot ⟨key, (dict slot).value⟩

def setValue (dict : Nat → Pair) (slot : Nat) (value : Option Value) : Nat → Pair :=
  update dict slot ⟨(dict slot).key, value⟩

/-- One statement, with the array and the counter. -/
def step (l : Local) (dict : Nat → Pair) (size : Nat) : Local × (Nat → Pair) × Nat :=
  match l.pc with
  | .probe j =>
    if lt : j < locksize - 1 then
      if (dict (l.first + j)).key = invalidKey then (l.goto (.storeValue ⟨j, lt⟩), dict, size)
      else (l.goto (.probe (j + 1)), dict, size)
    else (l.goto .deleteKey, dict, size)
  | .storeValue j => (l.goto (.storeKey j), setValue dict (l.first + j) (some l.value), size)
  | .storeKey j => (l.goto .loadSize, setKey dict (l.first + j) l.key, size)
  | .loadSize => (l.goto (.casSize size), dict, size)
  | .casSize seen =>
    if size = seen then (l.goto (.inserted (-1)), dict, seen + 1) else (l.goto .loadSize,
      dict, size)
  | .deleteKey => (l.goto (.shiftKey (dict l.first).key 0), dict, size)
  | .shiftKey d j =>
    if lt : j < locksize - 1 then
      (l.goto (.shiftValue d ⟨j, lt⟩), setKey dict (l.first + j) (dict (l.first + j + 1)).key, size)
    else (l.goto (.tailKey d), dict, size)
  | .shiftValue d j =>
    (l.goto (.shiftKey d (j + 1)), setValue dict (l.first + j) (dict (l.first + j + 1)).value, size)
  | .tailKey d => (l.goto (.tailValue d), setKey dict (l.first + locksize - 1) l.key, size)
  | .tailValue d =>
    (l.goto (.inserted d), setValue dict (l.first + locksize - 1) (some l.value), size)
  | .inserted _ => (l, dict, size)
  | .search i =>
    if lt : i < locksize - 1 then
      if (dict (l.first + i)).key = l.key then (l.goto (.readValue ⟨i, lt⟩), dict, size)
      else (l.goto (.search (i + 1)), dict, size)
    else (l.goto (.found (some noneValue)), dict, size)
  | .readValue i => (l.goto (.found (dict (l.first + i)).value), dict, size)
  | .found _ => (l, dict, size)

def done (l : Local) : Option Result :=
  match l.pc with
  | .inserted d => some (.removed d)
  | .found v => some (.value v)
  | _ => none

def rest (j : Nat) : List Nat := List.range' j (locksize - 1 - j)

/-- The rest of the shift, from slot `j` of the cluster on, and the store at its end. -/
def shiftFrom (l : Local) (j : Nat) (dict : Nat → Pair) : Nat → Pair := fun i =>
  if i = l.first + (locksize - 1) then ⟨l.key, some l.value⟩
  else if l.first + j ≤ i ∧ i < l.first + (locksize - 1) then dict (i + 1) else dict i

/-- What the rest of a call does when no other thread touches the cluster. -/
def final (l : Local) (dict : Nat → Pair) : (Nat → Pair) × Nat × Result :=
  match l.pc with
  | .probe j =>
    match (rest j).find? fun i => decide ((dict (l.first + i)).key = invalidKey) with
    | some i => (update dict (l.first + i) ⟨l.key, some l.value⟩, 1, .removed (-1))
    | none => (l.shiftFrom 0 dict, 0, .removed (dict l.first).key)
  | .storeValue j => (update dict (l.first + j) ⟨l.key, some l.value⟩, 1, .removed (-1))
  | .storeKey j => (setKey dict (l.first + j) l.key, 1, .removed (-1))
  | .loadSize | .casSize _ => (dict, 1, .removed (-1))
  | .deleteKey => (l.shiftFrom 0 dict, 0, .removed (dict l.first).key)
  | .shiftKey d j => (l.shiftFrom j dict, 0, .removed d)
  | .shiftValue d j =>
    (l.shiftFrom (j + 1) (setValue dict (l.first + j) (dict (l.first + j + 1)).value), 0,
      .removed d)
  | .tailKey d =>
    (update dict (l.first + (locksize - 1)) ⟨l.key, some l.value⟩, 0, .removed d)
  | .tailValue d => (setValue dict (l.first + (locksize - 1)) (some l.value), 0, .removed d)
  | .inserted d => (dict, 0, .removed d)
  | .search i =>
    match (rest i).find? fun i => decide ((dict (l.first + i)).key = l.key) with
    | some i => (dict, 0, .value (dict (l.first + i)).value)
    | none => (dict, 0, .value (some noneValue))
  | .readValue i => (dict, 0, .value (dict (l.first + i)).value)
  | .found v => (dict, 0, .value v)

section

theorem rest_cons {j : Nat} (lt : j < locksize - 1) : rest j = j :: rest (j + 1) := by
  rw [rest, rest, ← List.range'_succ]
  congr 1
  simp only [locksize] at lt ⊢
  omega

theorem rest_end {j : Nat} (le : ¬ j < locksize - 1) : rest j = [] := by
  rw [rest, Nat.sub_eq_zero_of_le (not_lt.mp le)]
  rfl

theorem mem_rest {i j : Nat} (mem : i ∈ rest j) : i < locksize - 1 := by
  have bounds := List.mem_range'_1.mp mem
  omega

theorem slot_region (l : Local) {j : Nat} (lt : j < locksize) :
    (l.first + j) / locksize = l.cluster := by
  rw [first, Nat.mul_add_div (by decide), Nat.div_eq_of_lt lt, Nat.add_zero]

theorem slot_ne (l : Local) {j c : Nat} (lt : j < locksize)
    (away : c / locksize ≠ l.cluster) : c ≠ l.first + j := by
  rintro rfl
  exact away (l.slot_region lt)

theorem fin_lt (j : Fin (locksize - 1)) : (j : Nat) < locksize := j.isLt.trans (by decide)

theorem cluster_step (l : Local) (dict : Nat → Pair) (size : Nat) :
    (l.step dict size).1.cluster = l.cluster := by
  unfold step
  split <;> (try split) <;> (try split) <;> rfl

theorem exclusive_step (l : Local) (dict : Nat → Pair) (size : Nat) :
    (l.step dict size).1.pc.exclusive = l.pc.exclusive := by
  unfold step
  split <;> (try split) <;> (try split) <;> first | rfl | (rw [‹l.pc = _›]; rfl)

theorem step_frame (l : Local) (dict : Nat → Pair) (size c : Nat)
    (away : c / locksize ≠ l.cluster) :
    (l.step dict size).2.1 c = dict c := by
  unfold step
  split <;> (try split) <;> (try split) <;>
    first
    | rfl
    | exact update_of_ne (l.slot_ne (fin_lt _) away) ..
    | exact update_of_ne (l.slot_ne (j := locksize - 1) (by decide) away) ..
    | exact update_of_ne (l.slot_ne (Nat.lt_of_lt_pred ‹_›) away) ..

theorem step_shared (l : Local) (dict : Nat → Pair) (size : Nat) (shared : l.pc.exclusive = false) :
    (l.step dict size).2.1 = dict := by
  unfold step
  split <;> (try split) <;> (try split) <;> first | rfl | (rw [‹l.pc = _›] at shared; cases shared)

theorem step_adds (l : Local) (dict : Nat → Pair) (size : Nat) : size ≤ (l.step dict size).2.2 := by
  unfold step
  split <;> (try split) <;> (try split) <;> first | exact le_refl _ | (dsimp only; omega)

theorem final_done (l : Local) (dict : Nat → Pair) (r : Result) (ends : l.done = some r) :
    l.final dict = (dict, 0, r) := by
  unfold done at ends
  unfold final
  split at ends
  · cases ends
    rw [‹l.pc = _›]
  · cases ends
    rw [‹l.pc = _›]
  · cases ends

@[simp] theorem goto_pc (l : Local) (pc : At) : (l.goto pc).pc = pc := rfl
@[simp] theorem goto_first (l : Local) (pc : At) : (l.goto pc).first = l.first := rfl
@[simp] theorem goto_key (l : Local) (pc : At) : (l.goto pc).key = l.key := rfl
@[simp] theorem goto_value (l : Local) (pc : At) : (l.goto pc).value = l.value := rfl

@[simp] theorem goto_shiftFrom (l : Local) (pc : At) : (l.goto pc).shiftFrom = l.shiftFrom := rfl

theorem setKey_setValue (dict : Nat → Pair) (slot : Nat) (key : Key) (value : Option Value) :
    setKey (setValue dict slot value) slot key = update dict slot ⟨key, value⟩ := by
  rw [setKey, setValue, update_self, update_idem]

theorem setValue_setKey (dict : Nat → Pair) (slot : Nat) (key : Key) (value : Option Value) :
    setValue (setKey dict slot key) slot value = update dict slot ⟨key, value⟩ := by
  rw [setValue, setKey, update_self, update_idem]

theorem shiftFrom_step (l : Local) (dict : Nat → Pair) {j : Nat} (lt : j < locksize - 1) :
    l.shiftFrom (j + 1) (update dict (l.first + j) (dict (l.first + j + 1))) =
      l.shiftFrom j dict := by
  funext i
  unfold shiftFrom
  split
  · rfl
  · by_cases here : i = l.first + j
    · rw [here, if_neg (by omega), if_pos (by omega), update_self]
    · by_cases inside : l.first + j ≤ i ∧ i < l.first + (locksize - 1)
      · rw [if_pos (by omega), if_pos inside, update_of_ne (by omega)]
      · rw [if_neg (by omega), if_neg inside, update_of_ne here]

theorem shiftFrom_end (l : Local) (dict : Nat → Pair) {j : Nat} (le : ¬ j < locksize - 1) :
    l.shiftFrom j dict = update dict (l.first + (locksize - 1)) ⟨l.key, some l.value⟩ := by
  funext i
  unfold shiftFrom
  rw [update_apply]
  split
  · rfl
  · rw [if_neg (by omega)]

/-- The rest of the call comes to the same after its next statement. -/
def Continues (l : Local) (dict : Nat → Pair) (size : Nat) : Prop :=
  (l.final dict).1 = ((l.step dict size).1.final (l.step dict size).2.1).1 ∧
    (l.final dict).2.1 = ((l.step dict size).1.final (l.step dict size).2.1).2.1 +
      ((l.step dict size).2.2 - size) ∧
    (l.final dict).2.2 = ((l.step dict size).1.final (l.step dict size).2.1).2.2

theorem continues_of_step {l l' : Local} {dict dict' : Nat → Pair} {size : Nat}
    (step : l.step dict size = (l', dict', size)) (same : l.final dict = l'.final dict') :
    l.Continues dict size := by
  rw [Continues, step, same, Nat.sub_self]
  exact ⟨rfl, rfl, rfl⟩

theorem continues_probe {l : Local} {dict : Nat → Pair} {size j : Nat} (pc : l.pc = .probe j) :
    l.Continues dict size := by
  by_cases lt : j < locksize - 1
  · by_cases free : (dict (l.first + j)).key = invalidKey
    · refine continues_of_step (by simp only [step, pc, dif_pos lt, if_pos free]; rfl) ?_
      simp only [final, pc, goto_pc, rest_cons lt, List.find?_cons, decide_eq_true free]
      rfl
    · refine continues_of_step (by simp only [step, pc, dif_pos lt, if_neg free]; rfl) ?_
      simp only [final, pc, goto_pc, rest_cons lt, List.find?_cons, decide_eq_false free]
      rfl
  · refine continues_of_step (by simp only [step, pc, dif_neg lt]; rfl) ?_
    simp only [final, pc, goto_pc, rest_end lt, List.find?_nil]
    rfl

theorem continues_search {l : Local} {dict : Nat → Pair} {size i : Nat} (pc : l.pc = .search i) :
    l.Continues dict size := by
  by_cases lt : i < locksize - 1
  · by_cases same : (dict (l.first + i)).key = l.key
    · refine continues_of_step (by simp only [step, pc, dif_pos lt, if_pos same]; rfl) ?_
      simp only [final, pc, goto_pc, rest_cons lt, List.find?_cons, decide_eq_true same]
      rfl
    · refine continues_of_step (by simp only [step, pc, dif_pos lt, if_neg same]; rfl) ?_
      simp only [final, pc, goto_pc, rest_cons lt, List.find?_cons, decide_eq_false same]
      rfl
  · refine continues_of_step (by simp only [step, pc, dif_neg lt]; rfl) ?_
    simp only [final, pc, goto_pc, rest_end lt, List.find?_nil]

theorem continues_shiftKey {l : Local} {dict : Nat → Pair} {size j : Nat} {d : Key}
    (pc : l.pc = .shiftKey d j) :
    l.Continues dict size := by
  by_cases lt : j < locksize - 1
  · refine continues_of_step (by simp only [step, pc, dif_pos lt]; rfl) ?_
    -- the neighbour is read before and after the key has moved
    have next : setKey dict (l.first + j) (dict (l.first + j + 1)).key (l.first + j + 1) =
        dict (l.first + j + 1) :=
      update_of_ne (by omega) ..
    simp only [final, pc, goto_pc, goto_first, goto_shiftFrom, next, setValue_setKey]
    rw [l.shiftFrom_step dict lt]
  · refine continues_of_step (by simp only [step, pc, dif_neg lt]; rfl) ?_
    simp only [final, pc, goto_pc, goto_first, goto_key, goto_value, l.shiftFrom_end dict lt]

theorem continues_casSize {l : Local} {dict : Nat → Pair} {size seen : Nat}
    (pc : l.pc = .casSize seen) :
    l.Continues dict size := by
  by_cases same : size = seen
  · subst same
    simp only [Continues, step, pc, if_true, final, goto_pc]
    exact ⟨trivial, by omega, trivial⟩
  · refine continues_of_step (by simp only [step, pc, if_neg same]; rfl) ?_
    simp only [final, pc, goto_pc]

theorem final_step (l : Local) (dict : Nat → Pair) (size : Nat) (more : l.done = none) :
    l.Continues dict size := by
  have tail : l.first + locksize - 1 = l.first + (locksize - 1) := rfl
  generalize pc : l.pc = p
  cases p with
  | probe j => exact continues_probe pc
  | storeValue j =>
    refine continues_of_step (by simp only [step, pc]; rfl) ?_
    simp only [final, pc, goto_pc, goto_first, goto_key, setKey_setValue]
  | storeKey j =>
    exact continues_of_step (by simp only [step, pc]; rfl) (by simp only [final, pc, goto_pc])
  | loadSize =>
    exact continues_of_step (by simp only [step, pc]; rfl) (by simp only [final, pc, goto_pc])
  | casSize seen => exact continues_casSize pc
  | deleteKey =>
    exact continues_of_step (by simp only [step, pc]; rfl)
      (by simp only [final, pc, goto_pc, goto_shiftFrom])
  | shiftKey d j => exact continues_shiftKey pc
  | shiftValue d j =>
    exact continues_of_step (by simp only [step, pc]; rfl)
      (by simp only [final, pc, goto_pc, goto_shiftFrom])
  | tailKey d =>
    refine continues_of_step (by simp only [step, pc]; rfl) ?_
    simp only [final, pc, goto_pc, goto_first, goto_value, tail, setValue_setKey]
  | tailValue d =>
    exact continues_of_step (by simp only [step, pc]; rfl) (by simp only [final, pc, goto_pc, tail])
  | inserted d =>
    rw [done, pc] at more
    cases more
  | search i => exact continues_search pc
  | readValue i =>
    exact continues_of_step (by simp only [step, pc]; rfl) (by simp only [final, pc, goto_pc])
  | found v =>
    rw [done, pc] at more
    cases more

/-- Two arrays with the same pairs in the cluster. -/
def Agree (l : Local) (dict dict' : Nat → Pair) : Prop :=
  ∀ c, c / locksize = l.cluster → dict c = dict' c

section
variable {l : Local} {dict dict' : Nat → Pair} (agree : l.Agree dict dict')
include agree

theorem Agree.slot {j : Nat} (lt : j < locksize) : dict (l.first + j) = dict' (l.first + j) :=
  agree _ (l.slot_region lt)

theorem Agree.update (slot : Nat) (p : Pair) :
    l.Agree (update dict slot p) (update dict' slot p) := by
  intro c here
  rw [update_apply, update_apply, agree c here]

theorem Agree.setKey {j : Nat} (lt : j < locksize) (key : Key) :
    l.Agree (setKey dict (l.first + j) key) (Local.setKey dict' (l.first + j) key) := by
  rw [Local.setKey, Local.setKey, agree.slot lt]
  exact agree.update _ _

theorem Agree.setValue {j : Nat} (lt : j < locksize) (value : Option Value) :
    l.Agree (setValue dict (l.first + j) value) (Local.setValue dict' (l.first + j) value) := by
  rw [Local.setValue, Local.setValue, agree.slot lt]
  exact agree.update _ _

theorem Agree.shiftFrom (j : Nat) : l.Agree (l.shiftFrom j dict) (l.shiftFrom j dict') := by
  intro c here
  unfold Local.shiftFrom
  split
  · rfl
  · split
    · rename_i inside
      obtain ⟨i, rfl⟩ :=
        Nat.exists_eq_add_of_le (Nat.le_trans (Nat.le_add_right l.first j) inside.1)
      exact agree.slot (j := i + 1) (by omega)
    · exact agree c here

theorem Agree.find (j : Nat) (key : Key) :
    ((rest j).find? fun i => decide ((dict (l.first + i)).key = key)) =
    (rest j).find? fun i => decide ((dict' (l.first + i)).key = key) := by
  refine List.find?_congr fun i mem => ?_
  rw [agree.slot ((mem_rest mem).trans (by decide))]

theorem Agree.final :
    l.Agree (l.final dict).1 (l.final dict').1 ∧ (l.final dict).2 = (l.final dict').2 := by
  have start : dict l.first = dict' l.first := agree.slot (j := 0) (by decide)
  generalize pc : l.pc = p
  cases p with
  | probe j =>
    simp only [Local.final, pc, agree.find j invalidKey]
    split
    · exact ⟨agree.update _ _, rfl⟩
    · exact ⟨agree.shiftFrom 0, by rw [start]⟩
  | storeValue j =>
    simp only [Local.final, pc]
    exact ⟨agree.update _ _, trivial⟩
  | storeKey j =>
    simp only [Local.final, pc]
    exact ⟨agree.setKey (fin_lt j) l.key, trivial⟩
  | loadSize =>
    simp only [Local.final, pc]
    exact ⟨agree, trivial⟩
  | casSize seen =>
    simp only [Local.final, pc]
    exact ⟨agree, trivial⟩
  | deleteKey =>
    simp only [Local.final, pc, start]
    exact ⟨agree.shiftFrom 0, trivial⟩
  | shiftKey d j =>
    simp only [Local.final, pc]
    exact ⟨agree.shiftFrom j, trivial⟩
  | shiftValue d j =>
    have next := agree.slot (j := j + 1) (Nat.add_lt_of_lt_sub j.isLt)
    simp only [Local.final, pc]
    rw [show l.first + ↑j + 1 = l.first + (j + 1) from rfl, next]
    exact ⟨(agree.setValue (fin_lt j) _).shiftFrom (j + 1), trivial⟩
  | tailKey d =>
    simp only [Local.final, pc]
    exact ⟨agree.update _ _, trivial⟩
  | tailValue d =>
    simp only [Local.final, pc]
    exact ⟨agree.setValue (by decide) _, trivial⟩
  | inserted d =>
    simp only [Local.final, pc]
    exact ⟨agree, trivial⟩
  | search i =>
    simp only [Local.final, pc, agree.find i l.key]
    split
    · rename_i j found
      refine ⟨agree, ?_⟩
      rw [agree.slot ((mem_rest (List.mem_of_find?_eq_some found)).trans (by decide))]
    · exact ⟨agree, rfl⟩
  | readValue i =>
    simp only [Local.final, pc, agree.slot (fin_lt i)]
    exact ⟨agree, trivial⟩
  | found v =>
    simp only [Local.final, pc]
    exact ⟨agree, trivial⟩

end

theorem final_shared (l : Local) (dict : Nat → Pair) (shared : l.pc.exclusive = false) :
    (l.final dict).1 = dict := by
  unfold final
  split <;> (try split) <;> first | rfl | (rw [‹l.pc = _›] at shared; cases shared)

theorem shiftFrom_frame (l : Local) (j : Nat) (dict : Nat → Pair) {c : Nat}
    (away : c / locksize ≠ l.cluster) :
    l.shiftFrom j dict c = dict c := by
  unfold shiftFrom
  rw [if_neg (l.slot_ne (by decide) away), if_neg]
  rintro ⟨above, below⟩
  obtain ⟨i, rfl⟩ := Nat.exists_eq_add_of_le (Nat.le_trans (Nat.le_add_right l.first j) above)
  exact away (l.slot_region (by omega))

theorem final_frame (l : Local) (dict : Nat → Pair) (c : Nat) (away : c / locksize ≠ l.cluster) :
    (l.final dict).1 c = dict c := by
  have store : ∀ {j : Nat} {p : Pair}, j < locksize → update dict (l.first + j) p c =
      dict c :=
    fun lt => update_of_ne (l.slot_ne lt away) ..
  unfold final
  split <;> (try split) <;>
    first
    | rfl
    | exact l.shiftFrom_frame _ dict away
    | exact store (fin_lt _)
    | exact store (j := locksize - 1) (by decide)
    | exact store ((mem_rest (List.mem_of_find?_eq_some ‹_›)).trans (by decide))
    | exact (l.shiftFrom_frame _ _ away).trans (store (fin_lt _))

end

end Local

section
variable (h : Key → BitVec 64) (capacity : Nat)

def begin : Call → Local
  | .insert key value => ⟨key, value, (h key).toNat % capacity / locksize, .probe 0⟩
  | .get key => ⟨key, noneValue, (h key).toNat % capacity / locksize, .search 0⟩

/-- The calls as code under the mutexes of the clusters. -/
def code : Code Call Result Local Nat Pair Nat where
  region c := c / locksize
  start := begin h capacity
  home := Local.cluster
  exclusive l := l.pc.exclusive
  step := Local.step
  done := Local.done
  final := Local.final
  home_step := Local.cluster_step
  exclusive_step := Local.exclusive_step
  step_frame := Local.step_frame
  step_shared := Local.step_shared
  step_adds := Local.step_adds
  final_done := Local.final_done
  final_step := Local.final_step
  final_local _ _ _ agree := Local.Agree.final agree
  final_frame := Local.final_frame
  final_shared := Local.final_shared

end

section
variable {h : Key → BitVec 64} {t t' : LinearProbingHash}

theorem first_begin (key : Key) (pc : At) (value : Value) :
    (Local.mk key value ((h key).toNat % t.capacity / locksize) pc).first = t.firstIndex h key := by
  have div := Nat.div_add_mod ((h key).toNat % t.capacity) locksize
  simp only [Local.first, firstIndex]
  omega

theorem shiftFrom_begin (key : Key) (pc : At) (value : Value) :
    (Local.mk key value ((h key).toNat % t.capacity / locksize) pc).shiftFrom 0 t.dict =
      update (shiftLeft (t.firstIndex h key) (locksize - 1) t.dict)
        (t.firstIndex h key + locksize - 1)
        ⟨key, some value⟩ := by
  funext i
  have first := first_begin (h := h) (t := t) key pc value
  rw [Local.shiftFrom, first]
  exact (shiftLeft_update_apply (t.firstIndex h key) (locksize - 1) t.dict ⟨key, some value⟩ i).symm

theorem apply_insert {key d : Key} {value : Value} (step : t.insert h key value = some (t', d)) :
    (code h t.capacity).apply (.insert key value) (t.dict, t.size) =
      ((t'.dict, t'.size), .removed d) := by
  have first := first_begin (h := h) (t := t) key (.probe 0) value
  have slots : Local.rest 0 = List.range (locksize - 1) := rfl
  by_cases hcap : t.capacity = 0
  · simp only [insert, if_pos hcap, reduceCtorEq] at step
  simp only [insert, if_neg hcap] at step
  simp only [Code.apply, code, begin, Local.final, first, slots]
  cases found : t.freeSlot (t.firstIndex h key) with
  | some j =>
    rw [found] at step
    cases step
    rw [freeSlot] at found
    rw [found]
  | none =>
    rw [found] at step
    cases step
    rw [freeSlot] at found
    rw [found]
    dsimp only
    rw [shiftFrom_begin]
    rfl

theorem apply_get {key : Key} (pos : 0 < t.capacity) :
    (code h t.capacity).apply (.get key) (t.dict, t.size) =
      ((t.dict, t.size), .value (t.get h key)) := by
  have first := first_begin (h := h) (t := t) key (.search 0) noneValue
  have slots : Local.rest 0 = List.range (locksize - 1) := rfl
  simp only [Code.apply, code, begin, Local.final, first, slots, get, if_neg pos.ne']
  cases (List.range (locksize - 1)).find? fun j =>
    decide ((t.dict (t.firstIndex h key + j)).key = key) with
  | some j => rfl
  | none => rfl

end

/-- Calls one after another, with their results. -/
inductive Serves {T : Type} (h : Key → BitVec 64) (t₀ : LinearProbingHash) :
    List (T × Call × Result) → LinearProbingHash → Prop
  | nil : Serves h t₀ [] t₀
  | insert {log : List (T × Call × Result)} {t t' : LinearProbingHash} {d : Key} (u : T) (key : Key)
    (value : Value) : Serves h t₀ log t → t.insert h key value = some (t', d) →
        Serves h t₀ (log ++ [(u, .insert key value, .removed d)]) t'
  | get {log : List (T × Call × Result)} {t : LinearProbingHash} (u : T) (key : Key) :
      Serves h t₀ log t → Serves h t₀ (log ++ [(u, .get key, .value (t.get h key))]) t

section
variable {T : Type} {h : Key → BitVec 64} {t₀ : LinearProbingHash}

theorem insert_capacity {t t' : LinearProbingHash} {key d : Key} {value : Value}
    (step : t.insert h key value = some (t', d)) : t'.capacity = t.capacity := by
  by_cases hcap : t.capacity = 0
  · simp only [insert, if_pos hcap, reduceCtorEq] at step
  simp only [insert, if_neg hcap] at step
  split at step <;> cases step <;> rfl

theorem serves_of_replays (pos : 0 < t₀.capacity) {log : List (T × Call × Result)}
    {a : (Nat → Pair) × Nat} (replays : (code h t₀.capacity).Replays (t₀.dict, t₀.size) log a) :
    Serves h t₀ log ⟨t₀.capacity, a.1, a.2⟩ := by
  induction replays with
  | nil => exact .nil
  | @snoc log a u op before ih =>
    cases op with
    | insert key value =>
      obtain ⟨⟨t', d⟩, step⟩ := insert_isSome h (t := ⟨t₀.capacity, a.1, a.2⟩) pos key value
      have whole := apply_insert step
      have capacity := insert_capacity step
      rw [show (code h t₀.capacity).apply (.insert key value) a = ((t'.dict, t'.size), .removed d)
        from whole]
      have served := ih.insert u key value step
      rw [show t' = ⟨t₀.capacity, t'.dict, t'.size⟩ by rw [← capacity]] at served
      exact served
    | get key =>
      have whole : (code h t₀.capacity).apply (.get key) a =
          (a, .value (get h ⟨t₀.capacity, a.1, a.2⟩ key)) :=
        apply_get (t := ⟨t₀.capacity, a.1, a.2⟩) pos
      rw [whole]
      exact ih.get u key

/-- Any number of threads call `Insert` and `Get`, one statement at a time. In every state
of every run there is a table that the calls, run one after another in the order in which
they gave up their mutexes, lead to with the same results. Each call stands in that order
between its start and its return. The array is that of the table but for the clusters that
are being written, and array and counter are those of the table when nobody holds a mutex.
Every access is inside the array. -/
theorem calls_linearize [Fintype T] [DecidableEq T] {capacity : Nat} (pos : 0 < capacity)
    (whole : locksize ∣ capacity) {s : State T Call Result Local Nat Pair}
    (run : Relation.ReflTransGen (State.Step (code h capacity))
      (State.start (fun _ => Pair.fresh, 0)) s) :
    ∃ t, Serves h (new capacity) s.log t ∧
      (∀ i, (∀ u op l k, s.threads u = .inside op l k → l.pc.exclusive = true →
        l.cluster ≠ i / locksize) →
        s.mem i = t.dict i) ∧
      ((∀ u op l k, s.threads u ≠ .inside op l k) → s.mem = t.dict ∧ s.count = t.size) ∧
      (∀ u op r, s.threads u = .leaving op r → ∃ i, s.mark u ≤ i ∧ s.log[i]? = some (u, op, r)) ∧
      ∀ u op l k, s.threads u = .inside op l k → l.first + locksize ≤ capacity := by
  obtain ⟨a, lin⟩ := RegionLocks.linear_of_run run
  refine ⟨⟨capacity, a.1, a.2⟩, serves_of_replays pos lin.replays, lin.mem, fun quiet => ⟨?_, ?_⟩,
    lin.leaving, ?_⟩
  · funext i
    exact lin.mem i fun u op l k inside => absurd inside (quiet u op l k)
  · have none : ∑ u, (s.threads u).added = 0 := by
      refine Finset.sum_eq_zero fun u _ => ?_
      generalize phase : s.threads u = p
      cases p with
      | inside op l k => exact absurd phase (quiet u op l k)
      | _ => rfl
    have count := lin.count
    rw [none] at count
    exact count
  · intro u op l k inside
    have home : l.cluster = (begin h capacity op).cluster := (lin.inside u op l k inside).home
    have cluster : ∃ key, l.cluster = (h key).toNat % capacity / locksize := by
      cases op with
      | insert key value => exact ⟨key, home⟩
      | get key => exact ⟨key, home⟩
    obtain ⟨key, eq⟩ := cluster
    have first := first_begin (h := h) (t := new capacity) key l.pc l.value
    rw [Local.first, eq]
    exact (Nat.add_le_add_right first.le _).trans (firstIndex_cluster h pos whole key)

/-- One thread inserts a pair while another one waits for the same mutex. -/
theorem calls_linearize_two :
    ∃ (s : State (Fin 2) Call Result Local Nat Pair) (t : LinearProbingHash),
    Relation.ReflTransGen (State.Step (code id 16)) (State.start (fun _ => Pair.fresh, 0)) s ∧
      s.log = [(0, .insert 0 5, .removed (-1))] ∧ s.threads 1 = .waiting (.get 0) ∧
      Serves id (new 16) s.log t := by
  have admits : ∀ {s : State (Fin 2) Call Result Local Nat Pair},
    (∀ u op l k, s.threads u ≠ .inside op l k) →
      s.Admits (code id 16) (.insert 0 5) := fun out u op l k inside => absurd inside (out u op l k)
  have called := (Relation.ReflTransGen.refl (r := State.Step (code id 16))
    (a := (State.start (fun _ => Pair.fresh, 0) : State (Fin 2) Call Result Local Nat Pair))).tail
      (.call 0 (.insert 0 5) rfl) |>.tail (.call 1 (.get 0) rfl)
  have locked := called.tail (.lock 0 (.insert 0 5) rfl (admits (by
    intro u op l k
    match u with
    | 0 => exact nofun
    | 1 => exact nofun)))
  have stored :=
    locked.tail (.run 0 _ _ _ rfl rfl) |>.tail (.run 0 _ _ _ rfl rfl) |>.tail (.run 0 _ _ _ rfl rfl)
  have counted := stored.tail (.run 0 _ _ _ rfl rfl) |>.tail (.run 0 _ _ _ rfl rfl)
  have left := counted.tail (.unlock 0 _ _ _ _ rfl rfl)
  obtain ⟨t, serves, _⟩ := calls_linearize (by decide) (by decide) left
  exact ⟨_, t, left, rfl, rfl, serves⟩

end

end Xcache.LinearProbingHash
