import Xcache.Client.Longkey
import Xcache.Remote.Watch

/-! The cleancache of `client/julee.c` over the remote store: `julee_cleancache_put_page` and
`julee_cleancache_get_page` as calls of `rdpma_put` and `rdpma_get` under a packed key. -/

namespace Xcache.Remote
open Function

/-- Whose page it is; the first word of the file key is the inode. -/
structure Identity where
  client : Client
  pool : BitVec 32
  inode : BitVec 64
  index : BitVec 64
  deriving DecidableEq

def Identity.longkey (id : Identity) : Key := getLongkey id.inode id.index

/-- A get that has returned: the pages put for its identity before it started, whether the last of
these puts had returned and none came meanwhile, and the page unless the result is -1. -/
structure Answer where
  id : Identity
  before : List Page
  settled : Bool
  result : Option Page

/-- The remote store and what the caches of the clients see of it. -/
structure Cleancache (σ : Type) where
  watch : Watch σ
  gets : Client × Queue → Nat → Option Identity
  before : Client × Queue → Nat → List Page
  puts : List (Identity × Page)
  answers : List Answer

namespace Cleancache

abbrev sys {σ : Type} (s : Cleancache σ) : System σ := s.watch.fresh.sys

inductive Event
  | putPage (cpuid t : Nat) (id : Identity) (page : Page)
  | getPage (cpuid t : Nat) (id : Identity) (raddr : BitVec 64)
  | other (e : Remote.Event) (running : e.cpuid = none)

/-- Neither client nor pool is part of the key. -/
def Event.inner : Event → Remote.Event
  | .putPage cpuid t id page => .startPut id.client cpuid t id.longkey page
  | .getPage cpuid t id raddr => .startGet id.client cpuid t id.longkey raddr
  | .other e _ => e

def Event.asks : Event → Option Identity
  | .getPage _ _ id _ => some id
  | _ => none

def Event.stores : Event → Option Identity
  | .putPage _ _ id _ => some id
  | _ => none

section
variable {σ : Type} (H : IHash σ) (cfg : Config)

def pagesOf (s : Cleancache σ) (id : Identity) : List Page :=
  (s.puts.filter fun p => p.1 = id).map Prod.snd

/-- What is seen of a get that returns in this step. -/
def returned (s : Cleancache σ) (ix : Client × Queue) (t : Nat) (sys : System σ) : Option Answer :=
  match s.gets ix t, s.sys.answer sys ix with
  | some id, some (_, result) => some ⟨id, s.before ix t, (s.watch.fresh.due ix t).isSome, result⟩
  | _, _ => none

def note (s : Cleancache σ) (sys : System σ) (e : Event) : Cleancache σ :=
  let watch := s.watch.note cfg sys e.inner
  match e with
  | .putPage _ _ id page => { s with watch := watch, puts := s.puts ++ [(id, page)] }
  | .getPage cpuid t id _ =>
    let ix := (id.client, cfg.readQueue cpuid)
    { s with
      watch := watch
      gets := update s.gets ix (update (s.gets ix) t (some id))
      before := update s.before ix (update (s.before ix) t (s.pagesOf id)) }
  | .other (.get c q t) _ =>
    { s with watch := watch, answers := s.answers ++ (s.returned (c, q) t sys).toList }
  | .other _ _ => { s with watch := watch }

def step (s : Cleancache σ) (e : Event) : Option (Cleancache σ) :=
  (s.sys.step H cfg e.inner).map (s.note cfg · e)

def start (sys : System σ) : Cleancache σ :=
  ⟨Watch.start sys, fun _ _ => none, fun _ _ => [], [], []⟩

end

/-- Every page delivered was put for the same identity. -/
def Isolated {σ : Type} (s : Cleancache σ) : Prop :=
  ∀ a ∈ s.answers, ∀ page ∈ a.result, (a.id, page) ∈ s.puts

/-- Gets of two runs with the same identity and the same pages put for it have the same results,
whatever was put for others. -/
def Agree {σ : Type} (s t : Cleancache σ) : Prop :=
  ∀ a ∈ s.answers, ∀ a' ∈ t.answers, a.id = a'.id → a.before = a'.before →
    a.settled = true → a'.settled = true → a.result = a'.result

section
variable {σ : Type} {H : IHash σ} {cfg : Config} {bufferSize globalMr : BitVec 64} {empty : σ}
  {asked stored : Identity → Prop} {s t : Cleancache σ} {e : Event}

/-- A call is allowed the pages of its identity. -/
def ok (s : Cleancache σ) : System.Answers :=
  fun ix n _ result => ∀ page ∈ result, ∃ id, s.gets ix n = some id ∧ (id, page) ∈ s.puts

structure Inv (H : IHash σ) (cfg : Config) (bufferSize globalMr : BitVec 64) (empty : σ)
    (asked stored : Identity → Prop) (s : Cleancache σ) : Prop where
  sound : s.sys.Sound cfg bufferSize globalMr
  filled : s.sys.Filled H empty
  known : s.sys.Known fun key page => ∃ id, stored id ∧ id.longkey = key ∧ (id, page) ∈ s.puts
  tagged : ∀ ix n call, (s.sys.readQs ix).calls n = some call →
    ∃ id, s.gets ix n = some id ∧ asked id ∧ id.longkey = call.key
  serves : s.sys.Serves s.ok
  isolated : s.sys.server.Roomy → s.Isolated

theorem inv_start (mem : Nat → Memory.Byte) (kv : KV σ) (nrHash bitmapSize : Nat) :
    (start (System.start bufferSize globalMr mem kv nrHash bitmapSize)).Inv H cfg bufferSize
      globalMr
      kv.hash asked stored where
  sound := System.sound_start mem kv nrHash bitmapSize
  filled := ⟨[], rfl, nofun⟩
  known := System.known_start _ mem kv nrHash bitmapSize
  tagged := nofun
  serves := System.serves_start mem kv nrHash bitmapSize
  isolated := fun _ => nofun

/-- The conditions on one step. -/
structure Permits (cfg : Config) (asked stored : Identity → Prop) (s : Cleancache σ)
    (e : Event) : Prop where
  few : e.inner.Few cfg
  fits : s.sys.Fits e.inner
  asks : ∀ id ∈ e.asks, asked id
  stores : ∀ id ∈ e.stores, stored id

/-- What a lookup finds was put for the identity of the call. -/
theorem Inv.finds (inv : s.Inv H cfg bufferSize globalMr empty asked stored)
    (genuine : H.Genuine empty)
    (separate : ∀ id id', asked id → stored id' → id.longkey = id'.longkey → id = id')
    (roomy : s.sys.server.Roomy) {ix : Client × Queue} {n : Nat} {call : GetCall} {value : Value}
    (here : (s.sys.readQs ix).calls n = some call) (got : s.sys.kv.get H call.key = some value) :
    s.sys.May s.ok ix n call.key (ReadQueue.found value) := by
  unfold ReadQueue.found
  split
  · rename_i some
    obtain ⟨ix', inserted⟩ := inv.filled.found genuine got some
    obtain ⟨id', put, key', stored'⟩ :=
      inv.known.puts ix' _ (inv.sound.pageAt_inserted roomy inserted)
    obtain ⟨id, tag, ask, key⟩ := inv.tagged ix n call here
    obtain rfl := separate id id' ask put (key.trans key'.symm)
    refine ⟨?_, ?_⟩
    · rintro _ ⟨⟩
      exact ⟨ix', call.key, inserted⟩
    · rintro _ ⟨⟩
      exact ⟨id, tag, stored'⟩
  · exact ⟨nofun, nofun⟩

section
variable {sys : System σ}

theorem note_watch : (s.note cfg sys e).watch = s.watch.note cfg sys e.inner := by
  cases e with
  | putPage cpuid n id page => rfl
  | getPage cpuid n id raddr => rfl
  | other e _ => cases e <;> rfl

theorem note_sys : (s.note cfg sys e).sys = sys := by
  rw [Cleancache.sys, note_watch]
  rfl

theorem note_puts : s.puts ⊆ (s.note cfg sys e).puts := by
  cases e with
  | putPage cpuid n id page => exact List.subset_append_left _ _
  | getPage cpuid n id raddr => exact List.Subset.refl _
  | other e _ => cases e <;> exact List.Subset.refl _

theorem note_place (s : Cleancache σ) (cfg : Config) (sys : System σ) (e : Event)
    (ix : Client × Queue) (n : Nat) : ((s.note cfg sys e).gets ix n = s.gets ix n ∧
      (s.note cfg sys e).before ix n = s.before ix n ∧
      ∀ d ∈ s.watch.fresh.owes cfg e.inner ix n, d ∈ s.watch.fresh.due ix n) ∨
    ∃ cpuid id raddr, e = .getPage cpuid n id raddr ∧ ix = (id.client, cfg.readQueue cpuid) ∧
      (s.note cfg sys e).before ix n = s.pagesOf id := by
  cases e with
  | putPage cpuid m id page =>
    exact Or.inl ⟨rfl, rfl, fun d mem => Option.mem_def.mpr (Option.mem_filter_iff.mp mem).1⟩
  | getPage cpuid m id raddr =>
    unfold note Event.inner Fresh.owes
    dsimp only
    by_cases same : ix = (id.client, cfg.readQueue cpuid)
    · subst same
      rw [update_self, update_self, update_self]
      by_cases here : n = m
      · subst here
        exact Or.inr ⟨cpuid, id, raddr, rfl, rfl, update_self ..⟩
      · rw [update_of_ne here, update_of_ne here, update_of_ne here]
        exact Or.inl ⟨rfl, rfl, fun _ mem => mem⟩
    · rw [update_of_ne same, update_of_ne same, update_of_ne same]
      exact Or.inl ⟨rfl, rfl, fun _ mem => mem⟩
  | other e running =>
    cases e with
    | startPut | startGet => cases running
    | _ => exact Or.inl ⟨rfl, rfl, fun _ mem => mem⟩

theorem note_gets (moved : s.sys.step H cfg e.inner = some sys) {ix : Client × Queue} {n : Nat}
    {call : GetCall} (here : (s.sys.readQs ix).calls n = some call) :
    (s.note cfg sys e).gets ix n = s.gets ix n := by
  rcases s.note_place cfg sys e ix n with same | taken
  · exact same.1
  · obtain ⟨cpuid, id, raddr, rfl, rfl, _⟩ := taken
    rw [(System.begins_startGet moved).free] at here
    cases here

theorem ok_note (moved : s.sys.step H cfg e.inner = some sys) {ix : Client × Queue} {n : Nat}
    {call : GetCall} {key : Key} {result : Option Page}
    (here : (s.sys.readQs ix).calls n = some call) (allowed : s.ok ix n key result) :
    (s.note cfg sys e).ok ix n key result := by
  intro page mem
  obtain ⟨id, tag, put⟩ := allowed page mem
  exact ⟨id, (note_gets moved here).trans tag, note_puts put⟩

theorem note_answers {a : Answer} (mem : a ∈ (s.note cfg sys e).answers) :
    a ∈ s.answers ∨ ∃ c q n running key, e = .other (.get c q n) running ∧
      s.gets (c, q) n = some a.id ∧
      s.sys.answer sys (c, q) = some (key, a.result) ∧ a.before = s.before (c, q) n ∧
      a.settled = (s.watch.fresh.due (c, q) n).isSome := by
  cases e with
  | putPage | getPage => exact Or.inl mem
  | other e running =>
    cases e with
    | get c q n =>
      rcases List.mem_append.mp mem with old | new
      · exact Or.inl old
      · have new : s.returned (c, q) n sys = some a := Option.mem_toList.mp new
        unfold returned at new
        split at new
        · rename_i id key result tag answered
          cases new
          exact Or.inr ⟨c, q, n, running, key, rfl, tag, answered, rfl, rfl⟩
        · cases new
    | _ => exact Or.inl mem

end

theorem Inv.tagged_step (inv : s.Inv H cfg bufferSize globalMr empty asked stored) {sys : System σ}
    (moved : s.sys.step H cfg e.inner = some sys) (asks : ∀ id ∈ e.asks, asked id)
    {ix : Client × Queue} {n : Nat} {call' : GetCall}
    (there : (sys.readQs ix).calls n = some call') :
    ∃ id, (s.note cfg sys e).gets ix n = some id ∧ asked id ∧ id.longkey = call'.key := by
  rcases (System.turn_of_step moved).gets there with
    ⟨call, here, eq⟩ | ⟨c, cpuid, key, raddr, start, at_, eq⟩
  · obtain ⟨id, tag, ask, key⟩ := inv.tagged ix n call here
    exact ⟨id, (note_gets moved here).trans tag, ask, by rw [eq, key]⟩
  · cases e with
    | putPage cpuid' n' id page => cases start
    | getPage cpuid' n' id raddr' =>
      cases start
      refine ⟨id, ?_, asks id rfl, by rw [eq]⟩
      show update s.gets _ _ ix n = _
      rw [at_, update_self, update_self]
    | other e running =>
      cases start
      cases running

/-- The page that a step delivers. -/
theorem Inv.isolated_step (inv : s.Inv H cfg bufferSize globalMr empty asked stored)
    {sys : System σ} (moved : s.sys.step H cfg e.inner = some sys) (roomy : s.sys.server.Roomy) :
    (s.note cfg sys e).Isolated := by
  intro a mem page delivered
  rcases note_answers mem with old | ⟨c, q, n, running, key, rfl, tag, answered, _, _⟩
  · exact note_puts (inv.isolated roomy a old page delivered)
  · obtain ⟨_, _, _, allowed | ⟨none, _⟩⟩ := inv.serves.answer roomy moved answered
    · obtain ⟨id, tag', put⟩ := allowed page delivered
      cases tag.symm.trans tag'
      exact put
    · rw [none] at delivered
      cases delivered

theorem Inv.step (inv : s.Inv H cfg bufferSize globalMr empty asked stored)
    (genuine : H.Genuine empty)
    (separate : ∀ id id', asked id → stored id' → id.longkey = id'.longkey → id = id')
    (permits : s.Permits cfg asked stored e) {sys : System σ}
    (moved : s.sys.step H cfg e.inner = some sys) :
    (s.note cfg sys e).Inv H cfg bufferSize globalMr empty asked stored := by
  refine ⟨?_, ?_, ?_, ?_, ?_, ?_⟩
  · rw [note_sys]
    exact inv.sound.step permits.few moved
  · rw [note_sys]
    exact inv.filled.step (System.turn_of_step moved)
  · rw [note_sys]
    refine (inv.known.mono ?_).step moved ?_
    · rintro key page ⟨id, stored, eq, put⟩
      exact ⟨id, stored, eq, note_puts put⟩
    · intro c cpuid n key page start
      cases e with
      | putPage cpuid' n' id page' =>
        cases start
        exact ⟨id, permits.stores id rfl, rfl, List.mem_append_right _ (List.mem_singleton_self _)⟩
      | getPage cpuid' n' id raddr => cases start
      | other e running =>
        cases start
        cases running
  · rw [note_sys]
    exact fun ix n call' => inv.tagged_step moved permits.asks
  · rw [note_sys]
    refine (inv.serves.mono fun ix n call here result => ok_note moved here).step inv.sound
      permits.few permits.fits moved ?_
    intro roomy ix n call value here got
    obtain ⟨inserted, allowed⟩ := inv.finds genuine separate roomy here got
    exact ⟨inserted, ok_note moved here allowed⟩
  · intro roomy
    rw [note_sys] at roomy
    exact inv.isolated_step moved ((System.turn_of_step moved).roomy roomy)

end

section
variable {σ : Type} {H : IHash σ} {cfg : Config} {bufferSize globalMr : BitVec 64} {empty : σ}
  {f : BloomFilter}
  {asked stored : Identity → Prop} {s t : Cleancache σ} {e : Event} {sys : System σ}

/-- The keys under which a client asks. -/
def keysOf (asked : Identity → Prop) (c : Client) : Set Key :=
  { key | ∃ id, asked id ∧ id.client = c ∧ id.longkey = key }

/-- What is due under the key of an identity that is asked for is the last page put for it. -/
structure Steady (H : IHash σ) (cfg : Config) (bufferSize globalMr : BitVec 64) (empty : σ)
    (f : BloomFilter) (asked : Identity → Prop) (s : Cleancache σ) : Prop where
  watch : s.watch.Inv H cfg (keysOf asked) bufferSize globalMr empty f
  last : ∀ id, asked id → ∀ page ∈ (s.watch.fresh.latest id.longkey).last, (s.pagesOf id).getLast? =
    some page
  due : ∀ ix n, ∀ d ∈ s.watch.fresh.due ix n, (s.before ix n).getLast? = some d.2
  settled : s.sys.server.Roomy → ∀ a ∈ s.answers, a.settled = true → a.result = a.before.getLast?

theorem steady_start {nrHash bitmapSize : Nat} {kv : KV σ} (perfect : H.Perfect kv.hash)
    (shape : ∀ bf, kv.bf = some bf → bf.numBits = bitmapSize ∧ bf.numHashes = nrHash)
    (mem : Nat → Memory.Byte) :
    (start (System.start bufferSize globalMr mem kv nrHash bitmapSize)).Steady H cfg bufferSize
      globalMr kv.hash
      ⟨nrHash, bitmapSize, fun _ => 0⟩ asked where
  watch := Watch.inv_start perfect shape (keysOf asked) mem
  last := nofun
  due := nofun
  settled := fun _ => nofun

theorem pagesOf_put {id id' : Identity} {page : Page} {cpuid n : Nat} :
    (s.note cfg sys (.putPage cpuid n id' page)).pagesOf id =
      if id' = id then s.pagesOf id ++ [page] else s.pagesOf id := by
  show ((s.puts ++ [(id', page)]).filter _).map _ = _
  rw [List.filter_append, List.map_append, List.filter_singleton]
  by_cases same : id' = id
  · rw [if_pos same, decide_eq_true same]
    rfl
  · rw [if_neg same, decide_eq_false same]
    exact List.append_nil _

theorem Steady.last_step (steady : s.Steady H cfg bufferSize globalMr empty f asked)
    (separate : ∀ id id', asked id → stored id' → id.longkey = id'.longkey → id = id')
    (stores : ∀ id ∈ e.stores, stored id) (id : Identity) (ask : asked id) :
    ∀ page ∈ ((s.note cfg sys e).watch.fresh.latest id.longkey).last,
      ((s.note cfg sys e).pagesOf id).getLast? = some page := by
  intro page mem
  rw [note_watch] at mem
  change page ∈ ((s.watch.fresh.started cfg e.inner id.longkey).look sys).last at mem
  rw [Latest.last_look] at mem
  cases e with
  | putPage cpuid n id' page' =>
    unfold Event.inner Fresh.started at mem
    dsimp only at mem
    rw [pagesOf_put]
    by_cases same : id' = id
    · rw [same, update_self] at mem
      cases mem
      rw [if_pos same, List.getLast?_concat]
    · have other : id.longkey ≠ id'.longkey :=
        fun eq => same (separate id id' ask (stores id' rfl) eq).symm
      rw [update_of_ne other] at mem
      rw [if_neg same]
      exact steady.last id ask page mem
  | getPage cpuid n id' raddr => exact steady.last id ask page mem
  | other e running =>
    cases e with
    | startPut | startGet => cases running
    | _ => exact steady.last id ask page mem

theorem Steady.due_step (steady : s.Steady H cfg bufferSize globalMr empty f asked)
    (asks : ∀ id ∈ e.asks, asked id) (ix : Client × Queue) (n : Nat) :
    ∀ d ∈ (s.note cfg sys e).watch.fresh.due ix n, ((s.note cfg sys e).before ix n).getLast? =
      some d.2 := by
  intro d mem
  rw [note_watch] at mem
  change d ∈ s.watch.fresh.owes cfg e.inner ix n at mem
  rcases s.note_place cfg sys e ix n with ⟨_, same, old⟩ | taken
  · rw [same]
    exact steady.due ix n d (old d mem)
  · obtain ⟨cpuid, id, raddr, rfl, rfl, eq⟩ := taken
    unfold Event.inner Fresh.owes at mem
    dsimp only at mem
    rw [update_self, update_self] at mem
    obtain ⟨page, latest, rfl⟩ := Option.map_eq_some_iff.mp mem
    rw [eq]
    refine steady.last id (asks id rfl) page ?_
    rw [Latest.page_eq_some latest]
    rfl

theorem Steady.settled_step (steady : s.Steady H cfg bufferSize globalMr empty f asked)
    (perfect : H.Perfect empty) (roomy : s.sys.server.Roomy)
    (moved : s.sys.step H cfg e.inner = some sys) :
    ∀ a ∈ (s.note cfg sys e).answers, a.settled = true → a.result = a.before.getLast? := by
  intro a mem settled
  rcases note_answers mem with old | ⟨c, q, n, running, key, rfl, _, answered, before, isDue⟩
  · exact steady.settled roomy a old settled
  · rw [isDue, Option.isSome_iff_exists] at settled
    obtain ⟨d, due⟩ := settled
    have new : (some d.2, a.result) ∈ s.watch.fresh.answered sys (.get c q n) := by
      refine Option.mem_toList.mpr (Option.map_eq_some_iff.mpr ⟨_, answered, ?_⟩)
      rw [due]
      rfl
    rw [before, steady.due (c, q) n d due]
    exact steady.watch.answered perfect roomy moved _ new d.2 rfl

theorem Steady.step (steady : s.Steady H cfg bufferSize globalMr empty f asked)
    (perfect : H.Perfect empty) (pos : 0 < f.bitmapSize) (small : f.bitmapSize < 2 ^ 31)
    (separate : ∀ id id', asked id → stored id' → id.longkey = id'.longkey → id = id')
    (permits : s.Permits cfg asked stored e) (orderly : s.watch.fresh.Orderly cfg e.inner)
    (heedful : s.sys.books.Heedful s.watch.since e.inner)
    (moved : s.sys.step H cfg e.inner = some sys) :
    (s.note cfg sys e).Steady H cfg bufferSize globalMr empty f asked := by
  refine ⟨?_, steady.last_step separate permits.stores, steady.due_step permits.asks,
    fun roomy => ?_⟩
  · rw [note_watch]
    refine steady.watch.step perfect pos small permits.few ⟨permits.fits, orderly, heedful⟩ ?_
      ?_ moved
    · rintro c c' cpuid n key page start ⟨id, ask, rfl, same⟩
      cases e with
      | putPage cpuid' n' id' page' =>
        cases start
        rw [separate id id' ask (permits.stores id' rfl) same]
      | getPage => cases start
      | other e running =>
        cases start
        cases running
    · intro c cpuid n key raddr start
      cases e with
      | putPage => cases start
      | getPage cpuid' n' id raddr' =>
        cases start
        exact ⟨id, permits.asks id rfl, rfl, rfl⟩
      | other e running =>
        cases start
        cases running
  · rw [note_sys] at roomy
    exact steady.settled_step perfect ((System.turn_of_step moved).roomy roomy) moved

end

/-- No identity that is asked for shares its key with another one that is stored. -/
def Separate (events : List Event) : Prop :=
  ∀ e ∈ events, ∀ e' ∈ events, ∀ id ∈ e.asks, ∀ id' ∈ e'.stores, id.longkey = id'.longkey → id = id'

/-- One pool of one client with inodes and indices of 32 bits. -/
theorem separate_of_narrow {events : List Event} (c : Client) (pool : BitVec 32)
    (narrow : ∀ e ∈ events, ∀ id ∈ (e.asks <|> e.stores),
      (id.client = c ∧ id.pool = pool) ∧ id.inode.toNat < 2 ^ 32 ∧ id.index.toNat < 2 ^ 32) :
    Separate events := by
  intro e mem e' mem' id asks id' stores eq
  have named : id ∈ (e.asks <|> e.stores) := by
    rw [Option.mem_def.mp asks]
    rfl
  have named' : id' ∈ (e'.asks <|> e'.stores) := by
    cases e' with
    | putPage cpuid n id page => exact stores
    | getPage | other => cases stores
  obtain ⟨⟨client, same⟩, small, low⟩ := narrow e mem id named
  obtain ⟨⟨client', same'⟩, small', low'⟩ := narrow e' mem' id' named'
  obtain ⟨inode, index⟩ := getLongkey_injective small small' low low' eq
  cases id
  cases id'
  simp_all only

section
variable {σ : Type} {H : IHash σ} {cfg : Config} {sys : System σ} {events events' : List Event}
  {t t' : Cleancache σ}

/-- A run in which no get asks under a key that another identity is stored under, and in which the
pages have room. -/
structure Executes (H : IHash σ) (cfg : Config) (sys : System σ) (events : List Event)
    (t : Cleancache σ) :
    Prop where
  few : ∀ e ∈ events, e.inner.Few cfg
  fits : Runs.Meets (step H cfg) (fun s e => s.sys.Fits e.inner) (start sys) events
  separate : Separate events
  final : Runs.run (step H cfg) (start sys) events = some t
  roomy : t.sys.server.Roomy

/-- Puts of one key follow each other and are inserted before a get that comes behind them, and no
bit of a put is lost in the filter of its client. -/
def Careful (H : IHash σ) (cfg : Config) (sys : System σ) (events : List Event) : Prop :=
  Runs.Meets (step H cfg) (fun s e =>
    s.watch.fresh.Orderly cfg e.inner ∧ s.sys.books.Heedful s.watch.since e.inner)
      (start sys) events

def asked (events : List Event) (id : Identity) : Prop := ∃ e ∈ events, id ∈ e.asks

def stored (events : List Event) (id : Identity) : Prop := ∃ e ∈ events, id ∈ e.stores

theorem Executes.permits (run : Executes H cfg sys events t) :
    Runs.Meets (step H cfg) (Permits cfg (asked events) (stored events)) (start sys) events := by
  intro done e s le reached
  have mem : e ∈ events := Runs.mem_of_concat le
  exact ⟨run.few e mem, run.fits done e s le reached, fun id asks => ⟨e, mem, asks⟩,
    fun id stores => ⟨e, mem, stores⟩⟩

theorem Executes.apart (run : Executes H cfg sys events t) (id id' : Identity) :
    asked events id → stored events id' → id.longkey = id'.longkey → id = id' := by
  rintro ⟨e, mem, asks⟩ ⟨e', mem', stores⟩
  exact run.separate e mem e' mem' id asks id' stores

variable {bufferSize globalMr : BitVec 64} {mem : Nat → Memory.Byte} {kv : KV σ}
  {nrHash bitmapSize : Nat}

/-- A settled get returns the last page put for its identity. -/
theorem Executes.settled
    (run : Executes H cfg (System.start bufferSize globalMr mem kv nrHash bitmapSize) events t)
    (perfect : H.Perfect kv.hash)
    (shape : ∀ bf, kv.bf = some bf → bf.numBits = bitmapSize ∧ bf.numHashes = nrHash)
    (pos : 0 < bitmapSize) (small : bitmapSize < 2 ^ 31)
    (careful : Careful H cfg (System.start bufferSize globalMr mem kv nrHash bitmapSize) events) :
    ∀ a ∈ t.answers, a.settled = true → a.result = a.before.getLast? := by
  have steady : t.Steady H cfg bufferSize globalMr kv.hash ⟨nrHash, bitmapSize, fun _ => 0⟩
      (asked events) := by
    refine Runs.invariant (steady_start perfect shape mem) ?_ (run.permits.and careful) run.final
    rintro s e t steady ⟨permits, orderly, heedful⟩ next
    obtain ⟨sys, moved, rfl⟩ := Option.map_eq_some_iff.mp next
    exact steady.step perfect pos small run.apart permits orderly heedful moved
  exact steady.settled run.roomy

end

def entries (pool : BitVec 32) (inode : BitVec 64) (byte : Memory.Byte) : List (Identity × Page) :=
  [(⟨0, 1, 5, 0⟩, Fresh.plain 1), (⟨0, pool, inode, 1⟩, Fresh.plain byte),
    (⟨0, pool, inode, 2⟩, Fresh.plain byte), (⟨0, pool, inode, 3⟩, Fresh.plain byte)]

section
variable {es : List (Identity × Page)} {pool : BitVec 32} {t : Cleancache (Key → Value)}

def view (s : Cleancache (Key → Value)) :
    List (Identity × Nat × Bool × Bool) × BitVec 64 × BitVec 64 × Nat :=
  (s.answers.map fun a => (a.id, a.before.length, a.settled, a.result.isSome),
    s.sys.server.globalMr, s.sys.server.bufferSize, s.sys.server.pages.length)

theorem roomy_of_view {seen : List (Identity × Nat × Bool × Bool)} {pages : Nat}
    (eq : t.view = (seen, 4096, 67108864, pages))
    (room : localMetaRegionSize + pageSize * pages ≤ 67108864) :
    (t.answers.map fun a => (a.id, a.before.length, a.settled, a.result.isSome)) = seen ∧
      t.sys.server.Roomy := by
  unfold view at eq
  simp only [Prod.mk.injEq] at eq
  obtain ⟨seen, start, size, length⟩ := eq
  exact ⟨seen, Server.roomy_of_pages start size length room⟩

end

end Cleancache

end Xcache.Remote
