import Xcache.Remote.Batches
import Xcache.Remote.ReadQueues

/-! Gets of all clients: the exchanges of the read queues go on undisturbed by each other and by
the puts, so that a call returns what the store held at its lookup. -/

namespace Xcache.Remote
open Function
open Memory

theorem Server.Roomy.of_handOut {s : Server} {k : Nat}
    (roomy : (Server.handOut^[k] s).Roomy) : s.Roomy := by
  induction k with
  | zero => exact roomy
  | succ k ih =>
    rw [Function.iterate_succ_apply'] at roomy
    refine ih ⟨roomy.1, le_trans (Nat.add_le_add_left (Nat.mul_le_mul_left _ ?_) _) roomy.2⟩
    unfold Server.handOut
    rw [List.length_append]
    exact Nat.le_add_right _ _

namespace ReadQueue
variable {q : Queue} {slot : Nat → Nat → Nat} {find : Key → Option Value} {f : BloomFilter}
  {mem mem' : Nat → Byte}
  {frames frames' : BitVec 64 → Page} {may : Nat → Key → Option Value → Prop} {r r' : ReadQueue}

theorem Move.calls (move : r.Move q slot find f mem frames mem' frames' r') {n : Nat}
    {call' : GetCall} (there : r'.calls n = some call') :
    ∃ call, r.calls n = some call ∧ call' = { call with pc := call'.pc } := by
  have goto : ∀ {m : Nat} {call : GetCall} {pc : GetPc}, r.calls m = some call →
      update r.calls m (some { call with pc := pc }) n = some call' →
      ∃ call, r.calls n = some call ∧ call' = { call with pc := call'.pc } := by
    intro m call pc here there
    by_cases same : n = m
    · subst same
      rw [update_self] at there
      cases there
      exact ⟨call, here, rfl⟩
    · rw [update_of_ne same] at there
      exact ⟨call', there, rfl⟩
  have drop : ∀ {m : Nat}, update r.calls m none n = some call' →
      ∃ call, r.calls n = some call ∧ call' = { call with pc := call'.pc } := by
    intro m there
    by_cases same : n = m
    · rw [same, update_self] at there
      cases there
    · rw [update_of_ne same] at there
      exact ⟨call', there, rfl⟩
  cases move with
  | pass here => exact goto here there
  | miss here => exact drop there
  | passed here => exact goto here there
  | lock here => exact goto here there
  | post here => exact goto here there
  | pollSend here => exact goto here there
  | pollRecv here => exact goto here there
  | unlock here => exact goto here there
  | out here => exact drop there
  | _ => exact ⟨call', there, rfl⟩

theorem Exchange.frames_move (x : r.Exchange q slot mem frames may)
    (move : r.Move q slot find f mem frames mem' frames' r') {a : BitVec 64}
    (other : ∀ n call, r.calls n = some call → call.raddr ≠ a) : frames' a = frames a := by
  cases move with
  | @deliver imm value raddr rest first =>
    refine update_of_ne ?_ ..
    have busy : r.parts ≠ quiet := by
      intro idle
      rw [(parts_iff.mp idle).2.2.2.1] at first
      cases first
    obtain ⟨n, call, _, here, ⟨_, posted, _⟩ | ⟨sent, _⟩⟩ := x.active busy
    · rw [(parts_iff.mp posted).2.2.2.1] at first
      cases first
    · cases sent with
      | replied result at_ may =>
        rw [(parts_iff.mp at_).2.2.2.1] at first
        obtain ⟨head, _⟩ := List.cons.inj first
        obtain ⟨_, page⟩ := Reply.mk.inj head
        obtain ⟨_, _, eq⟩ := Option.map_eq_some_iff.mp page
        rw [← (Prod.mk.inj eq).2]
        exact (other n call here).symm
      | requested at_ | atKey at_ | atAddress at_ | lookup at_ | answered _ at_ =>
        rw [(parts_iff.mp at_).2.2.2.1] at first
        cases first
  | _ => rfl

end ReadQueue

namespace System
variable {σ : Type} {H : IHash σ} {cfg : Config} {s t : System σ} {bufferSize globalMr : BitVec 64}
  {e : Event}
  {ix : Client × Queue}

/-- Puts and inserts are only added. -/
def Grows (s t : System σ) : Prop :=
  ∀ ix, (s.writeQs ix).puts <+: (t.writeQs ix).puts ∧
    (s.writeQs ix).inserts <+: (t.writeQs ix).inserts

theorem grows_of_eq (eq : t.writeQs = s.writeQs) : s.Grows t := by
  intro ix
  rw [eq]
  exact ⟨List.prefix_refl _, List.prefix_refl _⟩

theorem WriteStep.grows (step : WriteStep H cfg s ix t) : s.Grows t := by
  intro ix'
  by_cases same : ix' = ix
  · subst same
    have move := step.move
    generalize t.mem = mem, t.writeQs ix' = w at move ⊢
    cases move with
    | copy => exact ⟨List.prefix_append _ _, List.prefix_refl _⟩
    | insert => exact ⟨List.prefix_refl _, List.prefix_append _ _⟩
    | _ => exact ⟨List.prefix_refl _, List.prefix_refl _⟩
  · rw [step.others ix' same]
    exact ⟨List.prefix_refl _, List.prefix_refl _⟩

theorem Turn.grows (turn : Turn H cfg s t e) : s.Grows t := by
  cases turn with
  | posts step =>
    intro ix
    obtain ⟨recvs, eq⟩ := step.writeQs ix
    rw [eq]
    exact ⟨List.prefix_refl _, List.prefix_refl _⟩
  | writes ix step => exact step.grows
  | begins step =>
    rw [step.eq]
    exact grows_of_eq rfl
  | reads ix step => exact grows_of_eq step.writeQs
  | notifies step => exact grows_of_eq step.writeQs

theorem Turn.roomy (turn : Turn H cfg s t e) (roomy : t.server.Roomy) : s.server.Roomy := by
  cases turn with
  | posts step =>
    obtain ⟨k, eq⟩ := step.server
    rw [eq] at roomy
    exact roomy.of_handOut
  | writes ix step =>
    rcases step.posted with ⟨eq, _⟩ | ⟨eq, _⟩
    · rwa [eq] at roomy
    · rw [eq] at roomy
      exact Server.Roomy.of_handOut (k := 1) roomy
  | begins step =>
    rw [step.eq] at roomy
    exact roomy
  | reads ix step => rwa [step.server] at roomy
  | notifies step => rwa [step.server] at roomy

def pageAt (s : System σ) (value : Value) : Page := read pageSize s.mem value.toNat

def Inserted (s : System σ) (value : Value) : Prop :=
  ∃ ix key, (key, value) ∈ (s.writeQs ix).inserts

theorem Sound.pageAt_inserted (sound : s.Sound cfg bufferSize globalMr) (roomy : s.server.Roomy)
    {key : Key} {value : Value} (inserted : (key, value) ∈ (s.writeQs ix).inserts) :
    (key, s.pageAt value) ∈ (s.writeQs ix).puts := by
  obtain ⟨n, lt, got⟩ := List.getElem_of_mem inserted
  have got : (s.writeQs ix).inserts[n]? = some (key, value) := by
    rw [List.getElem?_eq_getElem lt, got]
  obtain ⟨e, target, put, rfl, _⟩ := (sound.ordered roomy ix).inserted n key value got
  have page : s.pageAt value = e.2 := (sound.batched roomy ix).2 n e.1 value e got put
  rw [page]
  exact List.mem_of_getElem? put

theorem Sound.pageAt_grows (sound : s.Sound cfg bufferSize globalMr)
    (sound' : t.Sound cfg bufferSize globalMr) (roomy : s.server.Roomy) (roomy' : t.server.Roomy)
    (grows : s.Grows t) {value : Value} (inserted : s.Inserted value) :
    t.Inserted value ∧ t.pageAt value = s.pageAt value := by
  obtain ⟨ix, key, mem⟩ := inserted
  obtain ⟨puts, inserts⟩ := grows ix
  refine ⟨⟨ix, key, inserts.subset mem⟩, ?_⟩
  obtain ⟨n, lt, got⟩ := List.getElem_of_mem mem
  have got : (s.writeQs ix).inserts[n]? = some (key, value) := by
    rw [List.getElem?_eq_getElem lt, got]
  have got' : (t.writeQs ix).inserts[n]? = some (key, value) := by
    obtain ⟨more, eq⟩ := inserts
    rw [← eq, List.getElem?_append_left lt, got]
  obtain ⟨e, target, put, _⟩ := (sound.ordered roomy ix).inserted n key value got
  have put' : (t.writeQs ix).puts[n]? = some e := by
    obtain ⟨more, eq⟩ := puts
    rw [← eq, List.getElem?_append_left (List.getElem?_eq_some_iff.mp put).1, put]
  exact ((sound'.batched roomy' ix).2 n key value e got' put').trans
    ((sound.batched roomy ix).2 n key value e got put).symm

/-- The results that the calls are allowed. -/
abbrev Answers := Client × Queue → Nat → Key → Option Page → Prop

/-- An allowed result, by the address of its page. -/
def May (s : System σ) (ok : Answers) (ix : Client × Queue) (n : Nat) (key : Key)
    (result : Option Value) : Prop :=
  (∀ value ∈ result, s.Inserted value) ∧ ok ix n key (result.map s.pageAt)

/-- No two gets of a client share the place for their page. -/
def PlacesApart (s : System σ) : Prop :=
  ∀ c q q' n n' call call', (s.readQs (c, q)).calls n = some call →
    (s.readQs (c, q')).calls n' = some call' → call.raddr = call'.raddr → q = q' ∧ n = n'

structure Serves (ok : Answers) (s : System σ) : Prop where
  exchange : s.server.Roomy → ∀ ix, (s.readQs ix).Exchange ix.2 (s.slot ix.1) s.mem (s.frames ix.1)
    (s.May ok ix)
  apart : s.PlacesApart

section
variable {ok ok' : Answers} {ix' : Client × Queue} {n : Nat} {call : GetCall}

theorem inside_metadata {a o : Nat} (le : o ≤ 16) : (Range.mk (a + o) 8).Inside ⟨a, 24⟩ := by
  unfold Range.Inside
  dsimp only
  omega

theorem Sound.slot_writeStep (sound : s.Sound cfg bufferSize globalMr) (roomy : s.server.Roomy)
    (step : WriteStep H cfg s ix t) (here : (s.readQs ix').calls n = some call) {o : Nat}
    (le : o ≤ 16) :
    load t.mem (s.slot ix'.1 ix'.2 call.msgId + o) =
      load s.mem (s.slot ix'.1 ix'.2 call.msgId + o) := by
  obtain ⟨lower, small⟩ := sound.sided.gets ix' n call here
  have phase := (sound.ordered roomy ix).phase
  have move := step.move
  generalize t.mem = mem, t.writeQs ix = w at move ⊢
  cases move with
  | writeKeys first =>
    refine load_write_apart _ _ (Range.Apart.of_inside ?_ (inside_metadata le))
    refine sound.laid.slots_apart roomy small (by decide) (by decide) (by decide) fun eq => ?_
    -- the owner of the lock has begun on a queue of the upper half
    have at_ := (phase.of_wire (by rw [first]; exact List.cons_ne_nil _ _)).1
    obtain ⟨owner, held, _⟩ := Option.map_eq_some_iff.mp at_
    obtain ⟨m, _, owner_here⟩ := Option.bind_eq_some_iff.mp held
    have upper := sound.sided.calls ix m owner owner_here
    have same : ix'.2 = ix.2 := congrArg (fun p => p.2.1) eq
    rw [same] at lower
    omega
  | sendPages first next =>
    exact load_write_apart _ _ ((sound.laid.slot_apart_page roomy _ _ small next).of_inside
      (inside_metadata le))
  | _ => rfl

theorem Sound.slot_readStep (sound : s.Sound cfg bufferSize globalMr) (roomy : s.server.Roomy)
    (step : ReadStep H s ix t) (ne : ix' ≠ ix) (here : (s.readQs ix').calls n = some call) {o : Nat}
    (le : o ≤ 16) :
    load t.mem (s.slot ix'.1 ix'.2 call.msgId + o) =
      load s.mem (s.slot ix'.1 ix'.2 call.msgId + o) := by
  obtain ⟨_, small⟩ := sound.sided.gets ix' n call here
  have move := step.move
  generalize t.mem = mem, t.frames ix.1 = frames, t.readQs ix = r at move ⊢
  cases move with
  | @request op rest first =>
    obtain ⟨_, small'⟩ := sound.sided.ops ix op (by rw [first]; exact List.mem_cons_self ..)
    refine congrArg ofBytes (read_metadata (Range.Apart.of_inside ?_ (inside_metadata le)))
    refine sound.laid.slots_apart roomy small small' (by decide) (by decide) fun eq => ne ?_
    obtain ⟨first, second⟩ := Prod.mk.inj eq
    exact Prod.ext first (Prod.mk.inj second).1
  | _ => rfl

theorem May.kept {key : Key} {result : Option Value}
    (pages : ∀ value, s.Inserted value → t.Inserted value ∧ t.pageAt value = s.pageAt value)
    (may : s.May ok ix n key result) : t.May ok ix n key result := by
  obtain ⟨inserted, allowed⟩ := may
  refine ⟨fun value mem => (pages value (inserted value mem)).1, ?_⟩
  cases result with
  | none => exact allowed
  | some value =>
    rw [Option.map_some, (pages value (inserted value rfl)).2]
    exact allowed

theorem Serves.still (serves : s.Serves ok) (roomy : s.server.Roomy) (slot : t.slot = s.slot)
    (pages : ∀ value, s.Inserted value → t.Inserted value ∧ t.pageAt value = s.pageAt value)
    (same : t.readQs ix' = s.readQs ix')
    (slots : ∀ n call o, (s.readQs ix').calls n = some call → o ≤ 16 →
      load t.mem (s.slot ix'.1 ix'.2 call.msgId + o) =
      load s.mem (s.slot ix'.1 ix'.2 call.msgId + o))
    (places : ∀ n call, (s.readQs ix').calls n = some call →
      t.frames ix'.1 call.raddr = s.frames ix'.1 call.raddr) :
    (t.readQs ix').Exchange ix'.2 (t.slot ix'.1) t.mem (t.frames ix'.1) (t.May ok ix') := by
  rw [same, slot]
  exact (serves.exchange roomy ix').frame fun n call here => ⟨fun _ => May.kept pages,
    slots n call 0 here (Nat.zero_le _), slots n call 16 here le_rfl,
    fun value may => (pages value (may.1 value rfl)).2, places n call here⟩

theorem PlacesApart.placed (apart : s.PlacesApart) (ix : Client × Queue) : (s.readQs ix).Placed :=
  fun _ _ _ _ here there eq => (apart ix.1 ix.2 ix.2 _ _ _ _ here there eq).2

theorem PlacesApart.of_calls (apart : s.PlacesApart)
    (calls : ∀ ix n call', (t.readQs ix).calls n = some call' →
      ∃ call, (s.readQs ix).calls n = some call ∧ call'.raddr = call.raddr) :
    t.PlacesApart := by
  intro c q q' n n' call call' here there eq
  obtain ⟨call₀, here₀, same⟩ := calls (c, q) n call here
  obtain ⟨call₀', there₀, same'⟩ := calls (c, q') n' call' there
  exact apart c q q' n n' call₀ call₀' here₀ there₀ (by rw [← same, ← same', eq])

theorem ReadStep.calls (step : ReadStep H s ix t) {call' : GetCall}
    (there : (t.readQs ix').calls n = some call') :
    ∃ call, (s.readQs ix').calls n = some call ∧ call' = { call with pc := call'.pc } := by
  by_cases same : ix' = ix
  · subst same
    exact step.move.calls there
  · rw [step.others ix' same] at there
    exact ⟨call', there, rfl⟩

theorem Serves.readStep (serves : s.Serves ok) (sound : s.Sound cfg bufferSize globalMr)
    (step : ReadStep H s ix t)
    (finds : s.server.Roomy → ∀ n call value, (s.readQs ix).calls n = some call →
      s.kv.get H call.key = some value → s.May ok ix n call.key (ReadQueue.found value)) :
    t.Serves ok := by
  have sound' := sound.readStep step
  refine ⟨fun roomy' ix' => ?_, serves.apart.of_calls fun ix' n call' there => ?_⟩
  · have roomy : s.server.Roomy := by rwa [step.server] at roomy'
    have slot : t.slot = s.slot := sound.laid.slot_congr sound'.laid
    have pages : ∀ value, s.Inserted value → t.Inserted value ∧ t.pageAt value = s.pageAt value :=
      fun _ => sound.pageAt_grows sound' roomy roomy' (grows_of_eq step.writeQs)
    by_cases same : ix' = ix
    · subst same
      have moved :=
        (serves.exchange roomy ix').move (serves.apart.placed ix') step.move (finds roomy)
        fun n call value here may => (pages value (may.1 value rfl)).2
      rw [slot]
      exact moved.frame fun n call here => ⟨fun _ => May.kept pages, rfl, rfl, fun _ _ => rfl, rfl⟩
    · refine serves.still roomy slot pages (step.others ix' same)
        (fun n call o here => sound.slot_readStep roomy step same here) fun n call here => ?_
      by_cases client : ix'.1 = ix.1
      · rw [client]
        refine (serves.exchange roomy ix).frames_move step.move fun m other there eq => same ?_
        obtain ⟨c', q'⟩ := ix'
        dsimp only at client
        subst client
        exact Prod.ext rfl (serves.apart ix.1 q' ix.2 n m call other here there eq.symm).1
      · rw [step.frames _ client]
  · obtain ⟨call, here, eq⟩ := step.calls there
    exact ⟨call, here, by rw [eq]⟩

theorem Serves.writeStep (serves : s.Serves ok) (sound : s.Sound cfg bufferSize globalMr)
    (step : WriteStep H cfg s ix t) :
    t.Serves ok := by
  have sound' := sound.writeStep step
  refine ⟨fun roomy' ix' => ?_, serves.apart.of_calls fun ix' n call there => ⟨call, ?_, rfl⟩⟩
  · have roomy := sound.laid.roomy_writeStep step roomy'
    refine serves.still roomy (sound.laid.slot_congr sound'.laid)
      (fun value => sound.pageAt_grows sound' roomy roomy' step.grows) (by rw [step.readQs])
      (fun n call o here => sound.slot_writeStep roomy step here) fun n call _ => by
        rw [step.frames]
  · rwa [step.readQs] at there

theorem Serves.congr (serves : s.Serves ok) (turn : Turn H cfg s t e)
    (sound : s.Sound cfg bufferSize globalMr) (sound' : t.Sound cfg bufferSize globalMr)
    (readQs : t.readQs = s.readQs) (mem : t.mem = s.mem)
    (frames : t.frames = s.frames) : t.Serves ok := by
  refine ⟨fun roomy' ix' => ?_, serves.apart.of_calls fun ix' n call there => ⟨call, ?_, rfl⟩⟩
  · have roomy := turn.roomy roomy'
    refine serves.still roomy (sound.laid.slot_congr sound'.laid)
      (fun value => sound.pageAt_grows sound' roomy roomy' turn.grows) (by rw [readQs])
      (fun n call o _ _ => by rw [mem]) fun n call _ => by rw [frames]
  · rwa [readQs] at there

theorem Begins.calls {c : Client} {cpuid n : Nat} {key : Key} {raddr : BitVec 64}
    (step : Begins cfg s c cpuid n key raddr t) {n' : Nat} {call' : GetCall}
    (there : (t.readQs ix').calls n' = some call') :
    ix' = (c, cfg.readQueue cpuid) ∧ n' = n ∧
      call' = ⟨key, raddr, getMsgId cfg.numqueues cpuid, .test 0⟩ ∨
      (s.readQs ix').calls n' = some call' := by
  obtain ⟨_, rfl⟩ := step
  by_cases same : ix' = (c, cfg.readQueue cpuid)
  · rw [same, setRead_readQs] at there
    dsimp only at there
    by_cases here : n' = n
    · rw [here, update_self] at there
      cases there
      exact Or.inl ⟨same, here, rfl⟩
    · rw [update_of_ne here] at there
      rw [same]
      exact Or.inr there
  · rw [setRead_others _ same] at there
    exact Or.inr there

/-- A new get brings a place of its own. -/
def Fits (s : System σ) : Event → Prop
  | .startGet c _ _ _ raddr =>
    ∀ q n call, (s.readQs (c, q)).calls n = some call → call.raddr ≠ raddr
  | _ => True

theorem PlacesApart.begins {c : Client} {cpuid n : Nat} {key : Key} {raddr : BitVec 64}
    (apart : s.PlacesApart) (step : Begins cfg s c cpuid n key raddr t)
    (fits : s.Fits (.startGet c cpuid n key raddr)) : t.PlacesApart := by
  intro c' q₁ q₂ n₁ n₂ call₁ call₂ first second eq
  rcases step.calls first with ⟨at₁, rfl, rfl⟩ | old₁ <;> rcases step.calls second with
    ⟨at₂, rfl, rfl⟩ | old₂
  · exact ⟨congrArg Prod.snd (at₁.trans at₂.symm), rfl⟩
  · obtain rfl : c' = c := congrArg Prod.fst at₁
    exact absurd eq.symm (fits q₂ n₂ call₂ old₂)
  · obtain rfl : c' = c := congrArg Prod.fst at₂
    exact absurd eq (fits q₁ n₁ call₁ old₁)
  · exact apart c' q₁ q₂ n₁ n₂ call₁ call₂ old₁ old₂ eq

theorem Serves.begins {c : Client} {cpuid n : Nat} {key : Key} {raddr : BitVec 64}
    (serves : s.Serves ok) (step : Begins cfg s c cpuid n key raddr t)
    (few : cpuid < numEntry * (cfg.numqueues / 2))
    (fits : s.Fits (.startGet c cpuid n key raddr)) : t.Serves ok := by
  refine ⟨fun roomy ix' => ?_, serves.apart.begins step fits⟩
  obtain ⟨free, rfl⟩ := step
  have x := serves.exchange roomy ix'
  by_cases same : ix' = (c, cfg.readQueue cpuid)
  · subst same
    rw [setRead_readQs]
    refine x.outside (by rw [free]; nofun) ?_
    rintro _ ⟨⟩
    exact ⟨rfl, msgId_lt le_rfl (r := .get cpuid) few, nofun⟩
  · rw [setRead_others _ same]
    exact x

theorem Serves.step (serves : s.Serves ok) (sound : s.Sound cfg bufferSize globalMr)
    (few : e.Few cfg) (fits : s.Fits e) (step : s.step H cfg e = some t)
    (finds : s.server.Roomy → ∀ ix n call value, (s.readQs ix).calls n = some call →
      s.kv.get H call.key = some value → s.May ok ix n call.key (ReadQueue.found value)) :
    t.Serves ok := by
  have sound' := sound.step few step
  have turn := turn_of_step step
  cases turn with
  | posts same =>
    exact serves.congr (turn_of_step step) sound sound' same.readQs same.mem same.frames
  | writes ix moved => exact serves.writeStep sound moved
  | begins begun => exact serves.begins begun (few _ rfl) fits
  | reads ix moved => exact serves.readStep sound moved fun roomy => finds roomy ix
  | notifies same =>
    exact serves.congr (turn_of_step step) sound sound' same.readQs same.mem same.frames

theorem Turn.gets {call' : GetCall} (turn : Turn H cfg s t e)
    (there : (t.readQs ix).calls n = some call') :
    (∃ call, (s.readQs ix).calls n = some call ∧ call' = { call with pc := call'.pc }) ∨
      ∃ c cpuid key raddr, e = .startGet c cpuid n key raddr ∧ ix = (c, cfg.readQueue cpuid) ∧
        call' = ⟨key, raddr, getMsgId cfg.numqueues cpuid, .test 0⟩ := by
  cases turn with
  | posts step =>
    rw [step.readQs] at there
    exact Or.inl ⟨call', there, rfl⟩
  | writes ix' step =>
    rw [step.readQs] at there
    exact Or.inl ⟨call', there, rfl⟩
  | begins step =>
    rcases step.calls there with ⟨at_, rfl, eq⟩ | old
    · exact Or.inr ⟨_, _, _, _, rfl, at_, eq⟩
    · exact Or.inl ⟨call', old, rfl⟩
  | reads ix' step => exact Or.inl (step.calls there)
  | notifies step =>
    rw [step.readQs] at there
    exact Or.inl ⟨call', there, rfl⟩

theorem Turn.no_gets (turn : Turn H cfg s t e) (none : ∀ ix n, (s.readQs ix).calls n = none)
    (other : ∀ c cpuid n key raddr, e ≠ .startGet c cpuid n key raddr) (ix : Client × Queue)
    (n : Nat) :
    (t.readQs ix).calls n = Option.none := by
  by_contra some
  obtain ⟨call', there⟩ := Option.ne_none_iff_exists'.mp some
  rcases turn.gets there with ⟨call, here, _⟩ | ⟨c, cpuid, key, raddr, start, _⟩
  · rw [none ix n] at here
    cases here
  · exact other c cpuid n key raddr start

theorem Serves.mono (serves : s.Serves ok)
    (more : ∀ ix n call, (s.readQs ix).calls n = some call → ∀ result, ok ix n call.key result →
      ok' ix n call.key result) : s.Serves ok' := by
  refine ⟨fun roomy ix => ?_, serves.apart⟩
  exact (serves.exchange roomy ix).frame fun n call here =>
    ⟨fun result may => ⟨may.1, more ix n call here _ may.2⟩, rfl, rfl, fun _ _ => rfl, rfl⟩

theorem serves_start (mem : Nat → Byte) (kv : KV σ) (nrHash bitmapSize : Nat) :
    (start bufferSize globalMr mem kv nrHash bitmapSize).Serves ok :=
  ⟨fun _ _ => ReadQueue.exchange_start, nofun⟩

end

/-- What a step of a read queue returns to its caller. -/
def answer (s t : System σ) (ix : Client × Queue) : Option (Key × Option Page) :=
  (t.readQs ix).results[(s.readQs ix).results.length]?

theorem results_rdpmaGet {r r' : ReadQueue} {q : Queue} {f : BloomFilter} {page : Page} {n : Nat}
    {call : GetCall} (step : r.rdpmaGet q f page n call = some r') :
    r'.results = r.results ∨ ∃ result,
      r'.results = r.results ++ [(call.key, result)] ∧
        ((∃ i < f.nrHash, call.pc = .test i ∧ Bitmap.marked f.bitmap (f.index call.key i) = false ∧
          result = none) ∨
          ∃ state, call.pc = .out state ∧ result = if state =
            TxState.readAborted.code then none else some page) := by
  unfold ReadQueue.rdpmaGet at step
  split at step
  · rename_i i before
    split at step
    · rename_i lt
      split at step
      · cases step
        exact Or.inl rfl
      · rename_i clear
        cases step
        exact Or.inr ⟨none, rfl, Or.inl ⟨i, lt, before, Bool.not_eq_true _ ▸ clear, rfl⟩⟩
    · cases step
      exact Or.inl rfl
  · split at step
    · cases step
      exact Or.inl rfl
    · cases step
  · cases step
    exact Or.inl rfl
  · split at step
    · cases step
      exact Or.inl rfl
    · cases step
  · split at step
    · cases step
    · cases step
      exact Or.inl rfl
  · cases step
    exact Or.inl rfl
  · rename_i state before
    cases step
    exact Or.inr ⟨_, rfl, Or.inr ⟨state, before, rfl⟩⟩

theorem Serves.answer {ok : Answers} {n : Nat} {key : Key} {result : Option Page}
    (serves : s.Serves ok) (roomy : s.server.Roomy) (step : s.rdpmaGet ix n = some t)
    (answered : s.answer t ix = some (key, result)) :
    ∃ call, (s.readQs ix).calls n = some call ∧ call.key = key ∧
      (ok ix n key result ∨ result = none ∧ ∃ i < (s.filters ix.1).nrHash, call.pc = .test i ∧
        Bitmap.marked (s.filters ix.1).bitmap ((s.filters ix.1).index key i) = false) := by
  unfold System.rdpmaGet at step
  dsimp only at step
  split at step
  · cases step
  · rename_i call here
    obtain ⟨r, inside, rfl⟩ := Option.map_eq_some_iff.mp step
    unfold System.answer at answered
    rw [setRead_readQs] at answered
    rcases results_rdpmaGet inside with same | ⟨result', more, why⟩
    · rw [same, List.getElem?_eq_none le_rfl] at answered
      cases answered
    · rw [more, List.getElem?_concat_length] at answered
      cases answered
      refine ⟨call, here, rfl, ?_⟩
      rcases why with ⟨i, lt, before, clear, rfl⟩ | ⟨state, before, rfl⟩
      · exact Or.inr ⟨rfl, i, lt, before, clear⟩
      · left
        obtain ⟨found, ⟨_, allowed⟩, rfl, delivered⟩ :=
          (serves.exchange roomy ix).out n call state here before
        cases found with
        | none => exact allowed
        | some value =>
          have committed : ReadQueue.txState (some value) ≠ TxState.readAborted.code :=
            (by decide : TxState.readCommitted.code ≠ TxState.readAborted.code)
          rw [if_neg committed, delivered value rfl]
          exact allowed

end System

end Xcache.Remote
