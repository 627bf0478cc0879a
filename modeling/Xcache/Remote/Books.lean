import Xcache.Remote.Entries

/-! What the filters depend on: the calls, the entries and how many of them are inserted, the
store, and the bitmaps of the clients. The rest of the system, from the wire to the addresses of
the pages, is left out. -/

namespace Xcache.Remote
open Function
open Memory

/-- The bits of the key that a put has added at its place, of `n` altogether. -/
def PutPc.added (n : Nat) : PutPc → Nat
  | .load i | .mark i _ => i
  | _ => n

/-- Behind `bloom_filter_add`. -/
def PutPc.past : PutPc → Bool
  | .load _ | .mark _ _ => false
  | _ => true

theorem PutPc.added_past {pc : PutPc} (past : pc.past = true) (n : Nat) : pc.added n = n := by
  cases pc with
  | load | mark => cases past
  | _ => rfl

structure Books (σ : Type) where
  calls : Client × Queue → Nat → Option PutCall
  puts : Client × Queue → List (Key × Page)
  inserted : Client × Queue → Nat
  kv : KV σ
  filters : Client → BloomFilter
  senders : Client → Sender

namespace Books
variable {σ : Type}

def set (b : Books σ) (ix : Client × Queue) (n : Nat) (next : Option PutCall) : Books σ :=
  { b with calls := update b.calls ix (update (b.calls ix) n next) }

def setBitmap (b : Books σ) (c : Client) (bitmap : Nat → Nat) : Books σ :=
  let f := b.filters c
  { b with filters := update b.filters c { f with bitmap := bitmap } }

def send (b : Books σ) (c : Client) (bf : CountingBloomFilter) : Books σ :=
  let next := (b.senders c).step bf (b.filters c).bitmap
  setBitmap { b with
    kv := ⟨b.kv.hash, some { bf with words := next.words }⟩
    senders := update b.senders c next.pc } c next.bitmap

/-- The steps; `room` is what an insertion needs. -/
inductive Step (H : IHash σ) (cfg : Config) (room : KV σ → Key → Prop)
    (b b' : Books σ) : Event → Prop
  | start {c : Client} {cpuid n : Nat} {key : Key} {page : Page}
    (free : b.calls (c, cfg.writeQueue cpuid) n = none)
      (eq : b' = b.set (c, cfg.writeQueue cpuid) n (some ⟨key, page, .load 0⟩)) :
      Step H cfg room b b' (.startPut c cpuid n key page)
  | load {c : Client} {q : Queue} {n i : Nat} {call : PutCall} (here : b.calls (c, q) n = some call)
    (before : call.pc = .load i) (eq : b' = b.set (c, q) n (some { call with
        pc := .mark i ((b.filters c).bitmap ((b.filters c).index call.key i / 64)) })) :
      Step H cfg room b b' (.put c q n)
  | loaded {c : Client} {q : Queue} {n i : Nat} {call : PutCall}
    (here : b.calls (c, q) n = some call) (before : call.pc = .load i)
      (le : (b.filters c).nrHash ≤ i) (eq : b' = b.set (c, q) n (some { call with pc := .lock })) :
      Step H cfg room b b' (.put c q n)
  | mark {c : Client} {q : Queue} {n i word : Nat} {call : PutCall}
    (here : b.calls (c, q) n = some call) (before : call.pc = .mark i word)
      (eq : b' = (b.set (c, q) n (some { call with pc := .load (i + 1) })).setBitmap c
        (update (b.filters c).bitmap ((b.filters c).index call.key i / 64)
          (word ||| 1 <<< (64 - 1 - (b.filters c).index call.key i % 64)))) :
      Step H cfg room b b' (.put c q n)
  | goes {c : Client} {q : Queue} {n : Nat} {call : PutCall} {pc : PutPc}
    (here : b.calls (c, q) n = some call)
      (before : call.pc.past = true) (after : pc.past = true)
        (eq : b' = b.set (c, q) n (some { call with pc := pc })) :
      Step H cfg room b b' (.put c q n)
  | copy {c : Client} {q : Queue} {n : Nat} {call : PutCall} {pc : PutPc}
    (here : b.calls (c, q) n = some call) (before : call.pc.past = true) (after : pc.past = true)
      (eq : b' = { b.set (c, q) n (some { call with pc := pc }) with
        puts := update b.puts (c, q) (b.puts (c, q) ++ [(call.key, call.page)]) }) :
      Step H cfg room b b' (.put c q n)
  | ends {c : Client} {q : Queue} {n : Nat} {call : PutCall} (here : b.calls (c, q) n = some call)
      (eq : b' = b.set (c, q) n none) : Step H cfg room b b' (.put c q n)
  | insert {c : Client} {q : Queue} {key : Key} {page : Page} {value : Value} {kv : KV σ}
    {evicted : Bool}
      (oldest : (b.puts (c, q))[b.inserted (c, q)]? = some (key, page)) (fits : room b.kv key)
      (inserts : b.kv.insert H key value = some (kv, evicted))
      (eq : b' = { b with
        kv := kv
        inserted := update b.inserted (c, q) (b.inserted (c, q) + 1) }) :
      Step H cfg room b b' (.serveWrite c q)
  | send {c : Client} {bf : CountingBloomFilter} (filter : b.kv.bf = some bf)
    (eq : b' = b.send c bf) : Step H cfg room b b' (.send c)
  | still {e : Event} (other : ∀ c, e ≠ .send c) (eq : b' = b) : Step H cfg room b b' e

section
variable {H : IHash σ} {cfg : Config} {room : KV σ → Key → Prop} {b b' : Books σ} {e : Event}

end

section
variable {b : Books σ} {ix ix' : Client × Queue} {n n' : Nat} {next : Option PutCall}

theorem set_other (ne : ix' ≠ ix) : (b.set ix n next).calls ix' = b.calls ix' :=
  update_of_ne ne ..

theorem set_cases {call : PutCall} (there : (b.set ix n next).calls ix' n' = some call) :
    ix' = ix ∧ next = some call ∨ b.calls ix' n' = some call := by
  unfold set at there
  dsimp only at there
  by_cases same : ix' = ix
  · subst same
    rw [update_self] at there
    by_cases here : n' = n
    · rw [here, update_self] at there
      exact Or.inl ⟨rfl, there⟩
    · rw [update_of_ne here] at there
      exact Or.inr there
  · rw [update_of_ne same] at there
    exact Or.inr there

end

end Books

namespace System
variable {σ : Type} {H : IHash σ} {cfg : Config} {s t : System σ} {bufferSize globalMr : BitVec 64}
  {e : Event}
  {ix : Client × Queue} {room : KV σ → Key → Prop}

def books (s : System σ) : Books σ where
  calls := fun ix => (s.writeQs ix).calls
  puts := fun ix => (s.writeQs ix).puts
  inserted := fun ix => (s.writeQs ix).inserts.length
  kv := s.kv
  filters := s.filters
  senders := s.senders

theorem books_setWrite (s : System σ) (ix : Client × Queue) (w : WriteQueue) :
    (s.setWrite ix w).books = { s.books with
    calls := update s.books.calls ix w.calls
    puts := update s.books.puts ix w.puts
    inserted := update s.books.inserted ix w.inserts.length } := by
  have apply : ∀ {α : Type} (g : WriteQueue → α), (fun ix' => g ((s.setWrite ix w).writeQs ix')) =
      update (fun ix' => g (s.writeQs ix')) ix (g w) := by
    intro α g
    funext ix'
    by_cases same : ix' = ix
    · rw [same, setWrite_writeQs, update_self]
    · rw [setWrite_others w same, update_of_ne same]
  unfold books
  rw [apply WriteQueue.calls, apply WriteQueue.puts, apply fun w => w.inserts.length]
  rfl

theorem books_same {w : WriteQueue} (calls : w.calls = (s.writeQs ix).calls)
    (puts : w.puts = (s.writeQs ix).puts) (inserts : w.inserts = (s.writeQs ix).inserts) :
    (s.setWrite ix w).books = s.books := by
  rw [books_setWrite, calls, puts, inserts]
  unfold books
  rw [update_eq_self ix fun ix => (s.writeQs ix).calls,
    update_eq_self ix fun ix => (s.writeQs ix).puts,
    update_eq_self ix fun ix => (s.writeQs ix).inserts.length]

theorem books_set {w : WriteQueue} {n : Nat} {next : Option PutCall}
    (calls : w.calls = update (s.writeQs ix).calls n next)
    (puts : w.puts = (s.writeQs ix).puts) (inserts : w.inserts = (s.writeQs ix).inserts) :
    (s.setWrite ix w).books = s.books.set ix n next := by
  rw [books_setWrite, calls, puts, inserts]
  unfold Books.set books
  dsimp only
  rw [update_eq_self ix fun ix => (s.writeQs ix).puts, update_eq_self ix fun ix =>
    (s.writeQs ix).inserts.length]

theorem books_congr
    (queues : ∀ ix, (t.writeQs ix).calls = (s.writeQs ix).calls ∧
      (t.writeQs ix).puts = (s.writeQs ix).puts ∧ (t.writeQs ix).inserts = (s.writeQs ix).inserts)
    (kv : t.kv = s.kv) (filters : t.filters = s.filters)
    (senders : t.senders = s.senders) : t.books = s.books := by
  unfold books
  rw [kv, filters, senders, funext fun ix => (queues ix).1, funext fun ix => (queues ix).2.1]
  rw [funext fun ix => congrArg List.length (queues ix).2.2]

theorem Posts.books (step : Posts s t) : t.books = s.books := by
  refine books_congr (fun ix => ?_) step.kv step.filters step.senders
  obtain ⟨recvs, eq⟩ := step.writeQs ix
  rw [eq]
  exact ⟨rfl, rfl, rfl⟩

theorem ReadStep.books (step : ReadStep H s ix t) : t.books = s.books :=
  books_congr (fun ix => by rw [step.writeQs]; exact ⟨rfl, rfl, rfl⟩) step.kv step.filters
    step.senders

def Spacious (room : KV σ → Key → Prop) (s : System σ) : Event → Prop
  | .serveWrite c q =>
    ∀ target localKeys i, (s.writeQs (c, q)).writer = .inserting target localKeys i →
      i < batchSize → room s.kv (localKeys i)
  | _ => True

theorem Spacious.mono (spacious : s.Spacious room e) {room' : KV σ → Key → Prop}
    (weaker : ∀ kv key, room kv key → room' kv key) :
    s.Spacious room' e := by
  cases e with
  | serveWrite c q =>
    exact fun target localKeys i stage lt => weaker _ _ (spacious target localKeys i stage lt)
  | _ => trivial

theorem spacious_of_all (all : ∀ kv key, room kv key) (s : System σ)
    (e : Event) : s.Spacious room e := by
  cases e with
  | serveWrite c q => exact fun _ localKeys i _ _ => all s.kv (localKeys i)
  | _ => trivial

theorem books_startPut {c : Client} {cpuid n : Nat} {key : Key} {page : Page}
    (step : s.startPut cfg c cpuid n key page = some t) :
    s.books.Step H cfg room t.books (.startPut c cpuid n key page) := by
  unfold startPut at step
  dsimp only at step
  split at step
  · rename_i free
    cases step
    exact .start free (books_set rfl rfl rfl)
  · cases step

theorem rdpmaPut_past {w w' : WriteQueue} {q : Queue} {n : Nat} {call : PutCall}
    (step : w.rdpmaPut q n call = some w') :
    w'.inserts = w.inserts ∧ ((w'.calls = update w.calls n none ∧ w'.puts = w.puts) ∨
      ∃ pc : PutPc, pc.past = true ∧ w'.calls =
        update w.calls n (some { call with pc := pc }) ∧
        (w'.puts = w.puts ∨ w'.puts = w.puts ++ [(call.key, call.page)])) := by
  unfold WriteQueue.rdpmaPut at step
  split at step
  · split at step
    · cases step
      exact ⟨rfl, Or.inr ⟨_, rfl, rfl, Or.inl rfl⟩⟩
    · cases step
  · cases step
    refine ⟨rfl, Or.inr ⟨_, ?_, rfl, Or.inl rfl⟩⟩
    split <;> rfl
  · cases step
    refine ⟨rfl, Or.inr ⟨_, ?_, rfl, Or.inr rfl⟩⟩
    split <;> rfl
  · cases step
    exact ⟨rfl, Or.inr ⟨_, rfl, rfl, Or.inl rfl⟩⟩
  · split at step
    · cases step
      exact ⟨rfl, Or.inr ⟨_, rfl, rfl, Or.inl rfl⟩⟩
    · cases step
  · split at step
    · cases step
      exact ⟨rfl, Or.inr ⟨_, rfl, rfl, Or.inl rfl⟩⟩
    · cases step
  · cases step
    exact ⟨rfl, Or.inr ⟨_, rfl, rfl, Or.inl rfl⟩⟩
  · cases step
    exact ⟨rfl, Or.inl ⟨rfl, rfl⟩⟩
  · cases step

theorem books_put {c : Client} {q : Queue} {n : Nat} (step : s.rdpmaPut (c, q) n = some t) :
    s.books.Step H cfg room t.books (.put c q n) := by
  unfold rdpmaPut at step
  dsimp only at step
  split at step
  · cases step
  · rename_i call here
    split at step
    · rename_i i before
      cases step
      split
      · exact .load here before (books_set rfl rfl rfl)
      · rename_i ge
        exact .loaded here before (not_lt.mp ge) (books_set rfl rfl rfl)
    · rename_i i word before
      cases step
      have moved : (s.setWrite (c, q) ((s.writeQs (c, q)).goto n call (.load (i + 1)))).books =
          s.books.set (c, q) n (some { call with pc := .load (i + 1) }) := books_set rfl rfl rfl
      refine .mark here before ?_
      rw [← moved]
      rfl
    · rename_i load mark
      have before : call.pc.past = true := by
        cases pc : call.pc with
        | load i => exact absurd pc (load i)
        | mark i word => exact absurd pc (mark i word)
        | _ => rfl
      obtain ⟨w, inside, rfl⟩ := Option.map_eq_some_iff.mp step
      obtain ⟨inserts, ⟨calls, puts⟩ | ⟨pc, after, calls, puts | puts⟩⟩ := rdpmaPut_past inside
      · exact .ends here (books_set calls puts inserts)
      · exact .goes here before after (books_set calls puts inserts)
      · refine .copy here before after ?_
        rw [books_setWrite, calls, puts, inserts]
        unfold Books.set books
        dsimp only
        rw [update_eq_self (c, q) fun ix => (s.writeQs ix).inserts.length]

theorem books_transmit {c : Client} {q : Queue}
    (step : s.transmit (c, q) = some t) : t.books = s.books := by
  unfold transmit at step
  dsimp only at step
  split at step
  · cases step
  · cases step
    exact books_same (s := { s with mem := _ }) rfl rfl rfl
  · split at step
    · cases step
    · cases step
      exact books_same (s := { s with mem := _ }) rfl rfl rfl

theorem books_serveWrite {c : Client} {q : Queue} (sound : t.Sound cfg bufferSize globalMr)
    (roomy : t.server.Roomy) (spacious : s.Spacious room (.serveWrite c q))
    (step : s.serveWrite H (c, q) = some t) :
    s.books.Step H cfg room t.books (.serveWrite c q) := by
  have same : t.books = s.books → s.books.Step H cfg room t.books (.serveWrite c q) := by
    exact fun eq => .still nofun eq
  unfold serveWrite at step
  dsimp only at step
  split at step
  · split at step
    · cases step
    · cases step
      exact same (books_same rfl rfl rfl)
  · split at step
    · cases step
      exact same (books_same rfl rfl rfl)
    · cases step
      exact same (books_same rfl rfl rfl)
  · rename_i target localKeys i stage
    split at step
    · rename_i lt
      split at step
      · cases step
      · rename_i kv evicted inserted
        cases step
        have oldest :=
          (sound.oldest roomy (c, q) (s.writeQs (c, q)).inserts (by rw [setWrite_writeQs])).1
        rw [setWrite_writeQs] at oldest
        refine .insert oldest (spacious target localKeys i stage lt) inserted ?_
        rw [books_setWrite, List.length_append, List.length_singleton]
        unfold books
        dsimp only
        rw [update_eq_self (c, q) fun ix => (s.writeQs ix).calls,
          update_eq_self (c, q) fun ix => (s.writeQs ix).puts]
    · cases step
      refine same ((posts_postRecv _ (c, q) 1).books.trans (books_same rfl rfl rfl))

theorem books_send {c : Client} (step : s.send c = some t) :
    s.books.Step H cfg room t.books (.send c) := by
  unfold send at step
  split at step
  · cases step
  · rename_i filter
    cases step
    exact .send filter rfl

/-- Every step of the system is a step of the books. -/
theorem books_step (sound : t.Sound cfg bufferSize globalMr) (roomy : t.server.Roomy)
    (spacious : s.Spacious room e) (step : s.step H cfg e = some t) :
    s.books.Step H cfg room t.books e := by
  have same : t.books = s.books → (∀ c, e ≠ .send c) → s.books.Step H cfg room t.books e :=
    fun eq other => .still other eq
  cases e with
  | setUp c q => exact same (posts_setUp step).books nofun
  | startPut c cpuid n key page => exact books_startPut step
  | put c q n => exact books_put step
  | transmit c q => exact same (books_transmit step) nofun
  | serveWrite c q => exact books_serveWrite sound roomy spacious step
  | startGet c cpuid n key raddr =>
    obtain ⟨_, rfl⟩ := begins_startGet step
    exact .still nofun rfl
  | get c q n => exact same (readStep_rdpmaGet (H := H) step).books nofun
  | request c q => exact same (readStep_request (H := H) step).books nofun
  | serveRead c q => exact same (readStep_serveRead step).books nofun
  | reply c q => exact same (readStep_reply (H := H) step).books nofun
  | send c => exact books_send step

end System

end Xcache.Remote
