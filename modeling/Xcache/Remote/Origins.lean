import Xcache.Remote.Gets
import Xcache.Store.Maps

/-! Where things come from: the pairs of the table from the inserts, the inserts from the puts, the
puts from the calls that were started. -/

namespace Xcache.Remote
open Function
open Memory

namespace System
variable {σ : Type} {H : IHash σ} {cfg : Config} {s t : System σ} {bufferSize globalMr : BitVec 64}
  {e : Event}
  {ix : Client × Queue}

/-- The table holds pairs that the queues inserted. -/
def Filled (H : IHash σ) (empty : σ) (s : System σ) : Prop :=
  ∃ ops, H.insertAll empty ops = some s.kv.hash ∧ ∀ p ∈ ops, ∃ ix, p ∈ (s.writeQs ix).inserts

theorem insert_hash {kv kv' : KV σ} {key : Key} {value : Value} {evicted : Bool}
    (step : kv.insert H key value = some (kv', evicted)) :
    ∃ d, H.insert kv.hash key value = some (kv'.hash, d) := by
  unfold KV.insert at step
  split at step
  · cases step
  · rename_i hash d inserted
    cases step
    exact ⟨d, inserted⟩

theorem Filled.step {empty : σ} (filled : s.Filled H empty)
    (turn : Turn H cfg s t e) : t.Filled H empty := by
  obtain ⟨ops, run, from_⟩ := filled
  have grow : ∀ p ∈ ops, ∃ ix, p ∈ (t.writeQs ix).inserts := by
    intro p mem
    obtain ⟨ix, inserted⟩ := from_ p mem
    exact ⟨ix, (turn.grows ix).2.subset inserted⟩
  cases turn with
  | posts step => exact ⟨ops, by rw [step.kv, run], grow⟩
  | writes ix step =>
    rcases step.inserted with ⟨same, _⟩ | ⟨key, value, evicted, step, inserts⟩
    · exact ⟨ops, by rw [same, run], grow⟩
    · obtain ⟨d, step⟩ := insert_hash step
      refine ⟨ops ++ [(key, value)], ?_, fun p mem => ?_⟩
      · rw [IHash.insertAll_concat, run, Option.bind_some, step]
        rfl
      · rcases List.mem_append.mp mem with old | new
        · exact grow p old
        · rw [List.mem_singleton.mp new]
          refine ⟨ix, ?_⟩
          rw [inserts]
          exact List.mem_append_right _ (List.mem_singleton_self _)
  | begins step =>
    obtain ⟨_, rfl⟩ := step
    exact ⟨ops, run, grow⟩
  | reads ix step => exact ⟨ops, by rw [step.kv, run], grow⟩
  | notifies step => exact ⟨ops, by rw [step.hash, run], grow⟩

theorem Filled.found {empty : σ} {key : Key} {value : Value} (filled : s.Filled H empty)
    (genuine : H.Genuine empty) (got : s.kv.get H key = some value) (some : value ≠ noneValue) :
    ∃ ix, (key, value) ∈ (s.writeQs ix).inserts := by
  obtain ⟨ops, run, from_⟩ := filled
  exact from_ _ (genuine ops s.kv.hash key value run got some)

/-- What is known of all puts, buffered or not. -/
structure Known (P : Key → Page → Prop) (s : System σ) : Prop where
  calls : ∀ ix n call, (s.writeQs ix).calls n = some call → P call.key call.page
  puts : ∀ ix, ∀ p ∈ (s.writeQs ix).puts, P p.1 p.2

theorem known_start (P : Key → Page → Prop) (mem : Nat → Byte) (kv : KV σ)
    (nrHash bitmapSize : Nat) :
    (start bufferSize globalMr mem kv nrHash bitmapSize).Known P :=
  ⟨nofun, nofun⟩

section
variable {P : Key → Page → Prop} {w w' : WriteQueue} {half : Nat} {q : Queue} {slot : Nat → Nat}
  {mem mem' : Nat → Byte}

theorem known_move (move : w.Move half q slot mem mem' w')
    (calls : ∀ n call, w.calls n = some call → P call.key call.page)
    (puts : ∀ p ∈ w.puts, P p.1 p.2)
    (new : ∀ n call, w.calls n = none → w'.calls n = some call → P call.key call.page) :
    (∀ n call, w'.calls n = some call → P call.key call.page) ∧ ∀ p ∈ w'.puts, P p.1 p.2 := by
  have goto : ∀ {m : Nat} {call : PutCall} {pc : PutPc}, w.calls m = some call → ∀ n call',
      update w.calls m (some { call with pc := pc }) n = some call' →
        P call'.key call'.page := by
    intro m call pc here n call' there
    by_cases same : n = m
    · rw [same, update_self] at there
      cases there
      exact calls m call here
    · rw [update_of_ne same] at there
      exact calls n call' there
  cases move with
  | @begin m key page upper free =>
    refine ⟨fun n call there => ?_, puts⟩
    cases before : w.calls n with
    | none => exact new n call before there
    | some call' =>
      have ne : n ≠ m := by
        rintro rfl
        rw [free] at before
        cases before
      change update w.calls m _ n = _ at there
      rw [update_of_ne ne] at there
      exact calls n call there
  | filter here => exact ⟨goto here, puts⟩
  | lock here => exact ⟨goto here, puts⟩
  | fetchAdd here => exact ⟨goto here, puts⟩
  | copy here =>
    refine ⟨goto here, fun p mem => ?_⟩
    rcases List.mem_append.mp mem with old | new
    · exact puts p old
    · rw [List.mem_singleton.mp new]
      exact calls _ _ here
  | post here => exact ⟨goto here, puts⟩
  | pollSend here => exact ⟨goto here, puts⟩
  | pollRecv here => exact ⟨goto here, puts⟩
  | reset here => exact ⟨goto here, puts⟩
  | @unlock m call here =>
    refine ⟨fun n call there => ?_, puts⟩
    change update w.calls m none n = _ at there
    by_cases same : n = m
    · rw [same, update_self] at there
      cases there
    · rw [update_of_ne same] at there
      exact calls n call there
  | _ => exact ⟨calls, puts⟩

end

theorem calls_rdpmaPut {w w' : WriteQueue} {q : Queue} {n : Nat} {call : PutCall}
    (step : w.rdpmaPut q n call = some w') :
    ∃ next, w'.calls = update w.calls n next := by
  unfold WriteQueue.rdpmaPut at step
  split at step
  all_goals first
    | cases step; exact ⟨_, rfl⟩
    | split at step
      · cases step
        exact ⟨_, rfl⟩
      · cases step
    | cases step

theorem calls_transmit (step : s.transmit ix = some t) :
    (t.writeQs ix).calls = (s.writeQs ix).calls := by
  unfold transmit at step
  dsimp only at step
  split at step
  · cases step
  · cases step
    rw [setWrite_writeQs]
  · split at step
    · cases step
    · cases step
      rw [setWrite_writeQs]

theorem calls_serveWrite (step : s.serveWrite H ix = some t) :
    (t.writeQs ix).calls = (s.writeQs ix).calls := by
  unfold serveWrite at step
  dsimp only at step
  split at step
  · split at step
    · cases step
    · cases step
      rw [setWrite_writeQs]
  · split at step <;> cases step <;> rw [setWrite_writeQs]
  · split at step
    · split at step
      · cases step
      · cases step
        rw [setWrite_writeQs]
    · cases step
      unfold postRecv
      dsimp only
      rw [update_self, setWrite_writeQs]

theorem calls_put {n : Nat} (step : s.rdpmaPut ix n = some t) :
    ∃ call next, (s.writeQs ix).calls n = some call ∧
      (t.writeQs ix).calls = update (s.writeQs ix).calls n next := by
  unfold rdpmaPut at step
  dsimp only at step
  split at step
  · cases step
  · rename_i call here
    split at step
    · cases step
      exact ⟨call, _, here, by rw [setWrite_writeQs]; rfl⟩
    · rename_i i word _
      cases step
      refine ⟨call, some { call with pc := .load (i + 1) }, here, ?_⟩
      show ((s.setWrite ix _).writeQs ix).calls = _
      rw [setWrite_writeQs]
      rfl
    · obtain ⟨w, inside, rfl⟩ := Option.map_eq_some_iff.mp step
      obtain ⟨next, eq⟩ := calls_rdpmaPut inside
      exact ⟨call, next, here, by rw [setWrite_writeQs, eq]⟩

theorem new_call {n : Nat} {call : PutCall} (step : s.step H cfg e = some t)
    (before : (s.writeQs ix).calls n = none) (after : (t.writeQs ix).calls n = some call) :
    ∃ c cpuid, e = .startPut c cpuid n call.key call.page ∧ ix = (c, cfg.writeQueue cpuid) ∧
      call.pc = .load 0 := by
  have old : (t.writeQs ix).calls = (s.writeQs ix).calls → False := by
    intro same
    rw [same, before] at after
    cases after
  have still : ∀ {ix'}, WriteStep H cfg s ix' t → ((t.writeQs ix').calls = (s.writeQs ix').calls) →
      False := by
    intro ix' moved same
    refine old ?_
    by_cases here : ix = ix'
    · rw [here, same]
    · rw [moved.others ix here]
  cases e with
  | setUp c q =>
    obtain ⟨recvs, eq⟩ := (posts_setUp step).writeQs ix
    exact (old (by rw [eq])).elim
  | startPut c cpuid n' key page =>
    have moved : WriteStep H cfg s (c, cfg.writeQueue cpuid) t := writeStep_startPut step
    have step : s.startPut cfg c cpuid n' key page = some t := step
    unfold startPut at step
    dsimp only at step
    split at step
    · cases step
      by_cases here : ix = (c, cfg.writeQueue cpuid)
      · subst here
        rw [setWrite_writeQs] at after
        dsimp only at after
        by_cases same : n = n'
        · subst same
          rw [update_self] at after
          cases after
          exact ⟨c, cpuid, rfl, rfl, rfl⟩
        · rw [update_of_ne same, before] at after
          cases after
      · exact (old (by rw [moved.others ix here])).elim
    · cases step
  | put c q n' =>
    have moved : WriteStep H cfg s (c, q) t := writeStep_rdpmaPut step
    obtain ⟨call', next, here, eq⟩ := calls_put step
    by_cases same : ix = (c, q)
    · subst same
      have ne : n ≠ n' := by
        rintro rfl
        rw [before] at here
        cases here
      rw [eq, update_of_ne ne, before] at after
      cases after
    · exact (old (by rw [moved.others ix same])).elim
  | transmit c q => exact (still (writeStep_transmit step) (calls_transmit step)).elim
  | serveWrite c q => exact (still (writeStep_serveWrite step) (calls_serveWrite step)).elim
  | startGet c cpuid n key raddr =>
    obtain ⟨_, rfl⟩ := begins_startGet step
    exact (old rfl).elim
  | get c q n => exact (old (by rw [(readStep_rdpmaGet (H := H) step).writeQs])).elim
  | request c q => exact (old (by rw [(readStep_request (H := H) step).writeQs])).elim
  | serveRead c q => exact (old (by rw [(readStep_serveRead step).writeQs])).elim
  | reply c q => exact (old (by rw [(readStep_reply (H := H) step).writeQs])).elim
  | send c => exact (old (by rw [(notifies_send step).writeQs])).elim

theorem Known.mono {P Q : Key → Page → Prop} (known : s.Known P)
    (le : ∀ key page, P key page → Q key page) : s.Known Q :=
  ⟨fun ix n call here => le _ _ (known.calls ix n call here), fun ix p mem =>
    le _ _ (known.puts ix p mem)⟩

theorem Known.of_eq {P : Key → Page → Prop} (known : s.Known P)
    (eq : ∀ ix, (t.writeQs ix).calls = (s.writeQs ix).calls ∧
      (t.writeQs ix).puts = (s.writeQs ix).puts) : t.Known P := by
  refine ⟨fun ix n call there => ?_, fun ix p mem => ?_⟩
  · rw [(eq ix).1] at there
    exact known.calls ix n call there
  · rw [(eq ix).2] at mem
    exact known.puts ix p mem

theorem Known.step {P : Key → Page → Prop} (known : s.Known P) (step : s.step H cfg e = some t)
    (new : ∀ c cpuid n key page, e = .startPut c cpuid n key page → P key page) : t.Known P := by
  have turn := turn_of_step step
  cases turn with
  | posts same =>
    refine known.of_eq fun ix => ?_
    obtain ⟨recvs, eq⟩ := same.writeQs ix
    rw [eq]
    exact ⟨rfl, rfl⟩
  | writes ix moved =>
    obtain ⟨calls, puts⟩ :=
        known_move moved.move (known.calls ix) (known.puts ix) fun n call before after => by
      obtain ⟨c, cpuid, eq, _⟩ := new_call step before after
      exact new c cpuid n call.key call.page eq
    refine ⟨fun ix' => ?_, fun ix' => ?_⟩
    · by_cases same : ix' = ix
      · rw [same]
        exact calls
      · rw [moved.others ix' same]
        exact known.calls ix'
    · by_cases same : ix' = ix
      · rw [same]
        exact puts
      · rw [moved.others ix' same]
        exact known.puts ix'
  | begins begun =>
    obtain ⟨_, rfl⟩ := begun
    exact known.of_eq fun _ => ⟨rfl, rfl⟩
  | reads ix moved => exact known.of_eq fun _ => by rw [moved.writeQs]; exact ⟨rfl, rfl⟩
  | notifies same => exact known.of_eq fun _ => by rw [same.writeQs]; exact ⟨rfl, rfl⟩

theorem perfect_perfectMap : perfectMap.Perfect fun _ => noneValue := by
  refine ⟨fun _ => rfl, fun map key value => ⟨update map key value, rfl, fun k => ?_⟩⟩
  show some (update map key value k) = _
  by_cases same : k = key
  · rw [same, update_self, if_pos rfl]
  · rw [update_of_ne same, if_neg same]
    rfl

end System

end Xcache.Remote
