import Xcache.Lib.Lanes
import Xcache.Remote.Origins

/-! The write queues as lanes that feed the table: a put waits in the lane of its queue from the
copy into the buffer until the server's thread inserts it. -/

namespace Xcache.Remote
open Function
open Memory

/-- The page of the call is not in the buffer yet. -/
def PutPc.early : PutPc → Bool
  | .load _ | .mark _ _ | .lock | .fetchAdd | .copy _ | .bug => true
  | _ => false

theorem PutPc.early_of_outside {pc : PutPc} (outside : pc.inside = false) : pc.early = true := by
  cases pc <;> first | rfl | cases outside

namespace WriteQueue

/-- Puts that are buffered, on the wire or received, but not inserted. -/
def waiting (w : WriteQueue) : List (Key × Page) := w.puts.drop w.inserts.length

/-- What a move does to the calls and to the entries. -/
inductive Handles (w w' : WriteQueue) : Prop
  | begins {n : Nat} {key : Key} {page : Page} (free : w.calls n = none)
      (calls : w'.calls = update w.calls n (some ⟨key, page, .load 0⟩))
        (puts : w'.puts = w.puts)
      (inserts : w'.inserts = w.inserts)
  | moves {n : Nat} {call : PutCall} {pc : PutPc} (here : w.calls n = some call)
    (same : pc.early = call.pc.early)
      (calls : w'.calls = update w.calls n (some { call with pc := pc }))
        (puts : w'.puts = w.puts)
      (inserts : w'.inserts = w.inserts)
  | copies {n : Nat} {call : PutCall} {pc : PutPc} (here : w.calls n = some call)
    (early : call.pc.early = true)
      (late : pc.early = false) (calls : w'.calls =
        update w.calls n (some { call with pc := pc }))
      (puts : w'.puts = w.puts ++ [(call.key, call.page)]) (inserts : w'.inserts = w.inserts)
  | ends {n : Nat} {call : PutCall} (here : w.calls n = some call) (late : call.pc.early = false)
      (calls : w'.calls = update w.calls n none) (puts : w'.puts = w.puts)
        (inserts : w'.inserts = w.inserts)
  | inserts {key : Key} {value : Value} (calls : w'.calls = w.calls) (puts : w'.puts = w.puts)
      (inserts : w'.inserts = w.inserts ++ [(key, value)])
  | idles (calls : w'.calls = w.calls) (puts : w'.puts = w.puts) (inserts : w'.inserts = w.inserts)

theorem Move.handles {w w' : WriteQueue} {half : Nat} {q : Queue} {slot : Nat → Nat}
    {mem mem' : Nat → Byte} (move : w.Move half q slot mem mem' w') : w.Handles w' := by
  cases move with
  | begin key page upper free => exact .begins free rfl rfl rfl
  | filter here before after =>
    exact .moves here ((PutPc.early_of_outside after).trans (PutPc.early_of_outside before).symm)
      rfl rfl rfl
  | lock here before => exact .moves here (by rw [before]; rfl) rfl rfl rfl
  | fetchAdd here before =>
    refine .moves here ?_ rfl rfl rfl
    rw [before]
    split <;> rfl
  | copy here before =>
    refine .copies here (by rw [before]; rfl) ?_ rfl rfl rfl
    split <;> rfl
  | post here before => exact .moves here (by rw [before]; rfl) rfl rfl rfl
  | pollSend here before => exact .moves here (by rw [before]; rfl) rfl rfl rfl
  | pollRecv here before => exact .moves here (by rw [before]; rfl) rfl rfl rfl
  | reset here before => exact .moves here (by rw [before]; rfl) rfl rfl rfl
  | unlock here before => exact .ends here (by rw [before]; rfl) rfl rfl rfl
  | insert => exact .inserts rfl rfl rfl
  | _ => exact .idles rfl rfl rfl

end WriteQueue

namespace System
variable {σ : Type} {H : IHash σ} {cfg : Config} {s t : System σ} {bufferSize globalMr : BitVec 64}
  {e : Event}
  {ix : Client × Queue}

/-- The page that a lookup of the key finds now. -/
def held (H : IHash σ) (s : System σ) (key : Key) : Option Page :=
  ((s.kv.get H key).bind ReadQueue.found).map s.pageAt

def lanes (H : IHash σ) (s : System σ) : Lanes (Client × Queue) Key Page :=
  ⟨fun ix => (s.writeQs ix).waiting, s.held H⟩

/-- One call is set, the others stay. -/
structure Sets (s t : System σ) (ix : Client × Queue) (n : Nat) (next : Option PutCall) : Prop where
  here : (t.writeQs ix).calls n = next
  others : ∀ ix' n', (ix', n') ≠ (ix, n) → (t.writeQs ix').calls n' = (s.writeQs ix').calls n'

/-- What a step does to the calls and to the lanes. -/
inductive Deals (H : IHash σ) (s t : System σ) : Prop
  | begins {ix : Client × Queue} {n : Nat} {key : Key} {page : Page}
    (free : (s.writeQs ix).calls n = none)
      (calls : s.Sets t ix n (some ⟨key, page, .load 0⟩)) (lanes : t.lanes H = s.lanes H)
  | moves {ix : Client × Queue} {n : Nat} {call : PutCall} {pc : PutPc}
    (here : (s.writeQs ix).calls n = some call)
      (same : pc.early = call.pc.early) (calls : s.Sets t ix n (some { call with pc := pc }))
        (lanes : t.lanes H = s.lanes H)
  | copies {ix : Client × Queue} {n : Nat} {call : PutCall} {pc : PutPc}
    (here : (s.writeQs ix).calls n = some call)
      (early : call.pc.early = true) (late : pc.early = false)
        (calls : s.Sets t ix n (some { call with pc := pc }))
      (lanes : t.lanes H = (s.lanes H).enqueue ix call.key call.page)
  | ends {ix : Client × Queue} {n : Nat} {call : PutCall}
    (here : (s.writeQs ix).calls n = some call)
      (late : call.pc.early = false) (calls : s.Sets t ix n none) (lanes : t.lanes H = s.lanes H)
  | inserts (ix : Client × Queue) (calls : ∀ ix n, (t.writeQs ix).calls n = (s.writeQs ix).calls n)
      (lanes : (s.lanes H).flush ix = some (t.lanes H))
  | idles (calls : ∀ ix n, (t.writeQs ix).calls n = (s.writeQs ix).calls n)
    (lanes : t.lanes H = s.lanes H)

section
variable {n : Nat} {call call' : PutCall} {next : Option PutCall}

theorem Sets.split (sets : s.Sets t ix n next) (ix' : Client × Queue) (n' : Nat) :
    ix' = ix ∧ n' = n ∨ (t.writeQs ix').calls n' = (s.writeQs ix').calls n' := by
  by_cases same : (ix', n') = (ix, n)
  · exact Or.inl (Prod.mk.inj same)
  · exact Or.inr (sets.others ix' n' same)

/-- A call begins now or was there before; when it leaves its early places, there is an entry of
it. -/
theorem Deals.call_of (deals : s.Deals H t) (there : (t.writeQs ix).calls n = some call') :
    (s.writeQs ix).calls n = none ∨ ∃ call, (s.writeQs ix).calls n = some call ∧
      call' = { call with pc := call'.pc } ∧
      (call'.pc.early = true → call.pc.early = true) ∧
      (call.pc.early = true → call'.pc.early = false →
        t.lanes H = (s.lanes H).enqueue ix call.key call.page) := by
  have old : (t.writeQs ix).calls n = (s.writeQs ix).calls n → (s.writeQs ix).calls n = none ∨
      ∃ call, (s.writeQs ix).calls n = some call ∧ call' = { call with pc := call'.pc } ∧
        (call'.pc.early = true → call.pc.early = true) ∧
        (call.pc.early = true → call'.pc.early = false →
          t.lanes H = (s.lanes H).enqueue ix call.key call.page) := by
    intro same
    refine Or.inr ⟨call', same.symm.trans there, rfl, id, fun early late => ?_⟩
    rw [early] at late
    cases late
  cases deals with
  | begins free calls lanes =>
    rcases calls.split ix n with ⟨rfl, rfl⟩ | same
    · exact Or.inl free
    · exact old same
  | moves here stays calls lanes =>
    rcases calls.split ix n with ⟨rfl, rfl⟩ | same
    · cases calls.here.symm.trans there
      refine Or.inr ⟨_, here, rfl, fun early => stays.symm.trans early, fun early late => ?_⟩
      rw [← stays, show _ = false from late] at early
      cases early
    · exact old same
  | copies here early late calls lanes =>
    rcases calls.split ix n with ⟨rfl, rfl⟩ | same
    · cases calls.here.symm.trans there
      exact Or.inr ⟨_, here, rfl, fun _ => early, fun _ _ => lanes⟩
    · exact old same
  | ends here late calls lanes =>
    rcases calls.split ix n with ⟨rfl, rfl⟩ | same
    · cases calls.here.symm.trans there
    · exact old same
  | inserts ix' calls lanes => exact old (calls ix n)
  | idles calls lanes => exact old (calls ix n)

theorem Deals.gone (deals : s.Deals H t) (here : (s.writeQs ix).calls n = some call)
    (gone : (t.writeQs ix).calls n = none) :
    call.pc.early = false := by
  have old : (t.writeQs ix).calls n ≠ (s.writeQs ix).calls n := by
    rw [here, gone]
    nofun
  cases deals with
  | begins free calls lanes =>
    rcases calls.split ix n with ⟨rfl, rfl⟩ | same
    · cases calls.here.symm.trans gone
    · exact absurd same old
  | moves there stays calls lanes =>
    rcases calls.split ix n with ⟨rfl, rfl⟩ | same
    · cases calls.here.symm.trans gone
    · exact absurd same old
  | copies there early late calls lanes =>
    rcases calls.split ix n with ⟨rfl, rfl⟩ | same
    · cases calls.here.symm.trans gone
    · exact absurd same old
  | ends there late calls lanes =>
    rcases calls.split ix n with ⟨rfl, rfl⟩ | same
    · cases here.symm.trans there
      exact late
    · exact absurd same old
  | inserts ix' calls lanes => exact absurd (calls ix n) old
  | idles calls lanes => exact absurd (calls ix n) old

theorem Deals.keeps (deals : s.Deals H t) (key : Key) : (s.lanes H).Keeps (t.lanes H) key ∨
    ∃ ix n call pc, (s.writeQs ix).calls n = some call ∧ call.pc.early = true ∧ call.key = key ∧
      pc.early = false ∧
      (t.writeQs ix).calls n = some { call with pc := pc } := by
  cases deals with
  | begins free calls lanes =>
    rw [lanes]
    exact Or.inl Lanes.keeps_rfl
  | moves here stays calls lanes =>
    rw [lanes]
    exact Or.inl Lanes.keeps_rfl
  | @copies ix n call pc here early late calls lanes =>
    by_cases same : call.key = key
    · exact Or.inr ⟨ix, n, call, pc, here, early, same, late, calls.here⟩
    · rw [lanes]
      exact Or.inl (Lanes.keeps_enqueue same)
  | ends here late calls lanes =>
    rw [lanes]
    exact Or.inl Lanes.keeps_rfl
  | inserts ix calls lanes => exact Or.inl (Lanes.keeps_flush lanes)
  | idles calls lanes =>
    rw [lanes]
    exact Or.inl Lanes.keeps_rfl

end

theorem Filled.found_inserted {empty : σ} {key : Key} {value : Value} (filled : s.Filled H empty)
    (genuine : H.Genuine empty)
    (found : (s.kv.get H key).bind ReadQueue.found = some value) : s.Inserted value := by
  obtain ⟨value', got, eq⟩ := Option.bind_eq_some_iff.mp found
  unfold ReadQueue.found at eq
  split at eq
  · rename_i some
    cases eq
    obtain ⟨ix, inserted⟩ := filled.found genuine got some
    exact ⟨ix, key, inserted⟩
  · cases eq

theorem held_congr {empty : σ} {key : Key} (filled : s.Filled H empty) (genuine : H.Genuine empty)
    (pages : ∀ value, s.Inserted value → t.Inserted value ∧ t.pageAt value = s.pageAt value)
    (same : t.kv.get H key = s.kv.get H key) : t.held H key = s.held H key := by
  unfold held
  rw [same]
  cases found : (s.kv.get H key).bind ReadQueue.found with
  | none => rfl
  | some value => exact congrArg some (pages value (filled.found_inserted genuine found)).2

theorem lanes_congr (waiting : ∀ ix, (t.writeQs ix).waiting = (s.writeQs ix).waiting)
    (held : ∀ key, t.held H key = s.held H key) : t.lanes H = s.lanes H := by
  unfold lanes
  rw [funext waiting, funext held]

section
variable {n : Nat} {next : Option PutCall}

theorem WriteStep.sets (step : WriteStep H cfg s ix t)
    (calls : (t.writeQs ix).calls = update (s.writeQs ix).calls n next) :
    s.Sets t ix n next := by
  refine ⟨by rw [calls, update_self], fun ix' n' ne => ?_⟩
  by_cases same : ix' = ix
  · subst same
    rw [calls, update_of_ne fun eq => ne (by rw [eq])]
  · rw [step.others ix' same]

theorem WriteStep.calls (step : WriteStep H cfg s ix t)
    (calls : (t.writeQs ix).calls = (s.writeQs ix).calls) (ix' : Client × Queue) (n : Nat) :
    (t.writeQs ix').calls n = (s.writeQs ix').calls n := by
  by_cases same : ix' = ix
  · rw [same, calls]
  · rw [step.others ix' same]

theorem WriteStep.kv_eq (step : WriteStep H cfg s ix t)
    (inserts : (t.writeQs ix).inserts = (s.writeQs ix).inserts) :
    t.kv = s.kv := by
  rcases step.inserted with ⟨same, _⟩ | ⟨key, value, evicted, _, more⟩
  · exact same
  · rw [inserts] at more
    exact absurd more (by simp)

theorem WriteStep.waiting (step : WriteStep H cfg s ix t) {more : List (Key × Page)}
    (puts : (t.writeQs ix).puts = (s.writeQs ix).puts ++ more)
    (inserts : (t.writeQs ix).inserts = (s.writeQs ix).inserts)
    (le : (s.writeQs ix).inserts.length ≤ (s.writeQs ix).puts.length) :
    (fun ix => (t.writeQs ix).waiting) =
      update (fun ix => (s.writeQs ix).waiting) ix ((s.writeQs ix).waiting ++ more) := by
  funext ix'
  by_cases same : ix' = ix
  · subst same
    rw [update_self]
    unfold WriteQueue.waiting
    rw [puts, inserts, List.drop_append_of_le_length le]
  · rw [update_of_ne same, step.others ix' same]

end

theorem sets_startPut {c : Client} {cpuid n : Nat} {key : Key} {page : Page}
    (step : s.startPut cfg c cpuid n key page = some t) :
    (s.writeQs (c, cfg.writeQueue cpuid)).calls n = none ∧
      s.Sets t (c, cfg.writeQueue cpuid) n (some ⟨key, page, .load 0⟩) ∧ t.lanes H = s.lanes H := by
  have moved : WriteStep H cfg s (c, cfg.writeQueue cpuid) t := writeStep_startPut step
  unfold startPut at step
  dsimp only at step
  split at step
  · rename_i free
    cases step
    refine ⟨free, moved.sets (by rw [setWrite_writeQs]), lanes_congr (fun ix => ?_) fun _ => rfl⟩
    by_cases same : ix = (c, cfg.writeQueue cpuid)
    · rw [same, setWrite_writeQs]
      rfl
    · rw [setWrite_others _ same]
  · cases step

theorem Sound.inserts_le (sound : s.Sound cfg bufferSize globalMr) (roomy : s.server.Roomy)
    (ix : Client × Queue) :
    (s.writeQs ix).inserts.length ≤ (s.writeQs ix).puts.length :=
  (sound.ordered roomy ix).inserts_le.trans (sound.ordered roomy ix).phase.length_le

theorem Sound.oldest (sound : s.Sound cfg bufferSize globalMr) (roomy : s.server.Roomy)
    (ix : Client × Queue) (before : List (Key × Value)) {key : Key} {value : Value}
    (inserts : (s.writeQs ix).inserts = before ++ [(key, value)]) :
    (s.writeQs ix).puts[before.length]? = some (key, s.pageAt value) ∧ value ≠ noneValue := by
  have got : (s.writeQs ix).inserts[before.length]? = some (key, value) := by
    rw [inserts, List.getElem?_concat_length]
  obtain ⟨e, target, put, rfl, posted, rfl⟩ := (sound.ordered roomy ix).inserted _ _ _ got
  have page : s.pageAt _ = e.2 := (sound.batched roomy ix).2 _ _ _ e got put
  refine ⟨by rw [put, page], fun zero => ?_⟩
  have address :=
    sound.laid.page_toNat roomy posted (Nat.mod_lt before.length (by decide : 0 < batchSize))
  rw [zero] at address
  refine sound.laid.nonzero roomy posted (BitVec.eq_of_toNat_eq ?_)
  exact (Nat.eq_zero_of_add_eq_zero_right address.symm).trans rfl

section
variable {empty : σ} (sound : s.Sound cfg bufferSize globalMr)
  (sound' : t.Sound cfg bufferSize globalMr)
  (roomy' : t.server.Roomy) (filled : s.Filled H empty) (perfect : H.Perfect empty)
include sound sound' roomy' filled perfect

theorem WriteStep.flush (step : WriteStep H cfg s ix t) {key : Key} {value : Value}
    (puts : (t.writeQs ix).puts = (s.writeQs ix).puts)
    (inserts : (t.writeQs ix).inserts = (s.writeQs ix).inserts ++ [(key, value)]) :
    (s.lanes H).flush ix = some (t.lanes H) := by
  have roomy := sound.laid.roomy_writeStep step roomy'
  have pages : ∀ value, s.Inserted value → t.Inserted value ∧ t.pageAt value = s.pageAt value :=
    fun _ => sound.pageAt_grows sound' roomy roomy' step.grows
  obtain ⟨first, some⟩ := sound'.oldest roomy' ix _ inserts
  rw [puts] at first
  obtain ⟨lt, at_⟩ := List.getElem?_eq_some_iff.mp first
  have waiting : (s.writeQs ix).waiting = (key, t.pageAt value) :: (t.writeQs ix).waiting := by
    unfold WriteQueue.waiting
    rw [puts, inserts, List.length_append, List.length_singleton, List.drop_eq_getElem_cons lt, at_]
  have got : ∀ k, t.kv.get H k = if k = key then Option.some value else s.kv.get H k := by
    rcases step.inserted with ⟨_, same⟩ | ⟨key', value', evicted, inserted, more⟩
    · rw [inserts] at same
      exact absurd same (by simp)
    · obtain ⟨d, hash⟩ := insert_hash inserted
      rw [inserts] at more
      obtain ⟨rfl, rfl⟩ := Prod.mk.inj (List.singleton_inj.mp (List.append_cancel_left more))
      exact (perfect.insert_eq hash).2
  rw [Lanes.flush_cons (s := s.lanes H) waiting]
  refine congrArg Option.some ?_
  unfold lanes
  congr 1
  · funext ix'
    by_cases same : ix' = ix
    · rw [same, update_self]
    · rw [update_of_ne same, step.others ix' same]
  · funext k
    by_cases same : k = key
    · rw [same, update_self]
      unfold held
      rw [got key, if_pos rfl, Option.bind_some]
      unfold ReadQueue.found
      rw [if_pos some]
      rfl
    · rw [update_of_ne same]
      refine (held_congr filled perfect.genuine pages ?_).symm
      rw [got k, if_neg same]

theorem deals_of_turn (turn : Turn H cfg s t e) : s.Deals H t := by
  have roomy := turn.roomy roomy'
  have pages : ∀ value, s.Inserted value → t.Inserted value ∧ t.pageAt value = s.pageAt value :=
    fun _ => sound.pageAt_grows sound' roomy roomy' turn.grows
  have held_eq : (∀ key, t.kv.get H key = s.kv.get H key) → ∀ key, t.held H key = s.held H key :=
    fun same key => held_congr filled perfect.genuine pages (same key)
  cases turn with
  | posts step =>
    have queue : ∀ ix, (t.writeQs ix).calls = (s.writeQs ix).calls ∧
        (t.writeQs ix).waiting = (s.writeQs ix).waiting := by
      intro ix
      obtain ⟨recvs, eq⟩ := step.writeQs ix
      rw [eq]
      exact ⟨rfl, rfl⟩
    refine .idles (fun ix n => by rw [(queue ix).1])
      (lanes_congr (fun ix => (queue ix).2) (held_eq fun key => ?_))
    rw [step.kv]
  | writes ix step =>
    have le := sound.inserts_le roomy ix
    have kept : (t.writeQs ix).puts = (s.writeQs ix).puts →
      (t.writeQs ix).inserts = (s.writeQs ix).inserts → t.lanes H = s.lanes H := by
      intro puts inserts
      refine lanes_congr (fun ix' => ?_) (held_eq fun key => by rw [step.kv_eq inserts])
      by_cases same : ix' = ix
      · unfold WriteQueue.waiting
        rw [same, puts, inserts]
      · rw [step.others ix' same]
    cases step.move.handles with
    | begins free calls puts inserts => exact .begins free (step.sets calls) (kept puts inserts)
    | moves here same calls puts inserts =>
      exact .moves here same (step.sets calls) (kept puts inserts)
    | copies here early late calls puts inserts =>
      refine .copies here early late (step.sets calls) ?_
      unfold lanes Lanes.enqueue
      rw [step.waiting puts inserts le, funext (held_eq fun key => by rw [step.kv_eq inserts])]
    | ends here late calls puts inserts =>
      exact .ends here late (step.sets calls) (kept puts inserts)
    | inserts calls puts inserts =>
      exact .inserts ix (step.calls calls) (step.flush sound sound' roomy' filled perfect
        puts inserts)
    | idles calls puts inserts => exact .idles (step.calls calls) (kept puts inserts)
  | begins step =>
    obtain ⟨_, rfl⟩ := step
    exact .idles (fun _ _ => rfl) rfl
  | reads ix step =>
    refine .idles (fun ix n => by rw [step.writeQs])
      (lanes_congr (fun ix => by rw [step.writeQs]) (held_eq fun key => ?_))
    rw [step.kv]
  | notifies step =>
    refine .idles (fun ix n => by rw [step.writeQs])
      (lanes_congr (fun ix => by rw [step.writeQs]) (held_eq fun key => ?_))
    unfold KV.get
    rw [step.hash]

end

/-- All puts so far were made by one thread on one queue. -/
structure Single (ix₀ : Client × Queue) (n₀ : Nat) (s : System σ) : Prop where
  calls : ∀ ix n call, (s.writeQs ix).calls n = some call → ix = ix₀ ∧ n = n₀
  puts : ∀ ix ≠ ix₀, (s.writeQs ix).puts = []

theorem single_start (ix₀ : Client × Queue) (n₀ : Nat) (mem : Nat → Byte) (kv : KV σ)
    (nrHash bitmapSize : Nat) :
    (start bufferSize globalMr mem kv nrHash bitmapSize).Single ix₀ n₀ :=
  ⟨nofun, fun _ _ => rfl⟩

theorem Single.step {ix₀ : Client × Queue} {n₀ : Nat} (single : s.Single ix₀ n₀)
    (step : s.step H cfg e = some t)
    (starts : ∀ c cpuid n key page, e = .startPut c cpuid n key page →
      (c, cfg.writeQueue cpuid) = ix₀ ∧ n = n₀) :
    t.Single ix₀ n₀ := by
  refine ⟨fun ix n call there => ?_, fun ix ne => ?_⟩
  · cases here : (s.writeQs ix).calls n with
    | none =>
      obtain ⟨c, cpuid, start, rfl, _⟩ := new_call step here there
      exact starts c cpuid n call.key call.page start
    | some call₀ => exact single.calls ix n call₀ here
  · have before := single.puts ix ne
    cases turn_of_step step with
    | posts same =>
      obtain ⟨recvs, eq⟩ := same.writeQs ix
      rw [eq]
      exact before
    | writes ix' moved =>
      by_cases same : ix = ix'
      · subst same
        cases moved.move.handles with
        | copies here => exact absurd (single.calls _ _ _ here).1 ne
        | begins _ _ puts | moves _ _ _ puts | ends _ _ _ puts | inserts _ puts | idles _ puts =>
          rw [puts, before]
      · rw [moved.others ix same, before]
    | begins begun =>
      obtain ⟨_, rfl⟩ := begun
      exact before
    | reads ix' moved => rw [moved.writeQs, before]
    | notifies same => rw [same.writeQs, before]

theorem Single.waiting {ix₀ : Client × Queue} {n₀ : Nat} (single : s.Single ix₀ n₀)
    (ne : ix ≠ ix₀) :
    (s.writeQs ix).waiting = [] := by
  unfold WriteQueue.waiting
  rw [single.puts ix ne, List.drop_nil]

end System

end Xcache.Remote
