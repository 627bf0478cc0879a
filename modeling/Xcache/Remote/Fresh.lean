import Xcache.Remote.Entries

/-! Fresh reads: the remote store with a look at its calls from outside. The last put of every key
is known, and a get that starts when that put has returned is due its page. -/

namespace Xcache.Remote
open Function

/-- The last put of a key that was started. -/
inductive Latest
  | never
  | running (ix : Client × Queue) (t : Nat) (page : Page)
  | returned (page : Page)

namespace Latest

/-- A call that is gone has returned, with 0. -/
def look {σ : Type} (sys : System σ) : Latest → Latest
  | .running ix t page =>
    match (sys.writeQs ix).calls t with
    | none => .returned page
    | some _ => .running ix t page
  | latest => latest

def page : Latest → Option Page
  | .returned page => some page
  | _ => none

/-- The page of the put, returned or not. -/
def last : Latest → Option Page
  | .never => none
  | .running _ _ page | .returned page => some page

section
variable {σ : Type} {sys : System σ} {latest : Latest} {ix : Client × Queue} {n : Nat} {p : Page}

theorem last_look : (latest.look sys).last = latest.last := by
  cases latest with
  | never | returned => rfl
  | running ix n page =>
    rw [look]
    split <;> rfl

theorem page_eq_some (eq : latest.page = some p) : latest = .returned p := by
  cases latest with
  | returned page =>
    cases eq
    rfl
  | never | running => cases eq

theorem look_there {call : PutCall} (there : (sys.writeQs ix).calls n = some call) :
    (running ix n p).look sys = .running ix n p := by
  simp only [look, there]

theorem look_gone (gone : (sys.writeQs ix).calls n = none) :
    (running ix n p).look sys = .returned p := by
  simp only [look, gone]

theorem look_running (eq : latest.look sys = .running ix n p) :
    latest = .running ix n p ∧ ∃ call, (sys.writeQs ix).calls n = some call := by
  cases latest with
  | running ix' n' page =>
    cases there : (sys.writeQs ix').calls n' with
    | none =>
      rw [look_gone there] at eq
      cases eq
    | some call =>
      rw [look_there there] at eq
      cases eq
      exact ⟨rfl, call, there⟩
  | never | returned => cases eq

theorem look_returned (eq : latest.look sys = .returned p) :
    latest = .returned p ∨ ∃ ix n, latest = .running ix n p ∧ (sys.writeQs ix).calls n = none := by
  cases latest with
  | running ix n page =>
    cases there : (sys.writeQs ix).calls n with
    | none =>
      rw [look_gone there] at eq
      cases eq
      exact Or.inr ⟨ix, n, rfl, there⟩
    | some call =>
      rw [look_there there] at eq
      cases eq
  | returned page =>
    cases eq
    exact Or.inl rfl
  | never => cases eq

end

end Latest

/-- `due` holds the key and the page of the gets that have a page to deliver; `answers` what a get
was due and what it returned. -/
structure Fresh (σ : Type) where
  sys : System σ
  latest : Key → Latest
  due : Client × Queue → Nat → Option (Key × Page)
  answers : List (Option Page × Option Page)

namespace Fresh

section
variable {σ : Type} (H : IHash σ) (cfg : Config) (s : Fresh σ)

def started : Event → Key → Latest
  | .startPut c cpuid t key page =>
    update s.latest key (.running (c, cfg.writeQueue cpuid) t page)
  | _ => s.latest

/-- A new put of the key releases the gets in flight. -/
def owes : Event → Client × Queue → Nat → Option (Key × Page)
  | .startPut _ _ _ key _ => fun ix n => (s.due ix n).filter fun d => d.1 ≠ key
  | .startGet c cpuid t key _ =>
    let ix := (c, cfg.readQueue cpuid)
    update s.due ix (update (s.due ix) t ((s.latest key).page.map (key, ·)))
  | _ => s.due

def answered (sys : System σ) : Event → List (Option Page × Option Page)
  | .get c q t =>
    ((s.sys.answer sys (c, q)).map fun a => ((s.due (c, q) t).map Prod.snd, a.2)).toList
  | _ => []

def note (sys : System σ) (e : Event) : Fresh σ :=
  ⟨sys, fun key => (s.started cfg e key).look sys, s.owes cfg e, s.answers ++ s.answered sys e⟩

def step (e : Event) : Option (Fresh σ) := (s.sys.step H cfg e).map (s.note cfg · e)

def start (sys : System σ) : Fresh σ := ⟨sys, fun _ => .never, fun _ _ => none, []⟩

/-- A get that was due a page and returned 0 has delivered that page. -/
def NoStale : Prop := ∀ a ∈ s.answers, ∀ due ∈ a.1, ∀ page ∈ a.2, page = due

end

section
variable {σ : Type} {H : IHash σ} {cfg : Config} {bufferSize globalMr : BitVec 64} {empty : σ}
  {s t : Fresh σ} {e : Event}
  {sys : System σ}

/-- Puts of one key follow each other: a new one finds no early call of the key and none of its
entries in another lane; a get behind the last put finds no entry of the key waiting. -/
def Orderly (cfg : Config) (s : Fresh σ) : Event → Prop
  | .startPut c cpuid _ key _ =>
    (∀ ix n call, (s.sys.writeQs ix).calls n = some call → call.key = key → call.pc.early = false) ∧
      ∀ ix ≠ (c, cfg.writeQueue cpuid), ∀ page, (key, page) ∉ (s.sys.writeQs ix).waiting
  | .startGet _ _ _ key _ =>
    (∃ page, s.latest key = .returned page) → ∀ ix page, (key, page) ∉ (s.sys.writeQs ix).waiting
  | _ => True

/-- Calls and lanes, as the last puts tell them. -/
structure Tidy (H : IHash σ) (s : Fresh σ) : Prop where
  early : ∀ ix n call, (s.sys.writeQs ix).calls n = some call → call.pc.early = true →
    s.latest call.key = .running ix n call.page
  running : ∀ key ix n page, s.latest key = .running ix n page →
    ∃ call, (s.sys.writeQs ix).calls n = some call ∧ call.key = key ∧ call.page = page ∧
      (call.pc.early = true → ∀ ix' ≠ ix, ¬ (s.sys.lanes H).Waits ix' key) ∧
      (call.pc.early = false → (s.sys.lanes H).Settles key page)
  returned : ∀ key page, s.latest key = .returned page → (s.sys.lanes H).Settles key page
  due : ∀ ix n key page, s.due ix n = some (key, page) →
    s.latest key = .returned page ∧ ∀ ix', ¬ (s.sys.lanes H).Waits ix' key

theorem tidy_start (mem : Nat → Memory.Byte) (kv : KV σ) (nrHash bitmapSize : Nat) :
    (start (System.start bufferSize globalMr mem kv nrHash bitmapSize)).Tidy H where
  early := nofun
  running := nofun
  returned := nofun
  due := nofun

theorem Tidy.keeps_of_late (tidy : s.Tidy H) (deals : s.sys.Deals H sys) {key : Key}
    (late : ∀ ix n page call, s.latest key = .running ix n page →
      (s.sys.writeQs ix).calls n = some call → call.pc.early = true →
      ∀ call', (sys.writeQs ix).calls n = some call' → call'.pc.early = true) :
    (s.sys.lanes H).Keeps (sys.lanes H) key := by
  rcases deals.keeps key with keeps | ⟨ix, n, call, pc, here, early, rfl, gone, there⟩
  · exact keeps
  · have now := late ix n call.page call (tidy.early ix n call here early) here early _ there
    cases now.symm.trans gone

theorem Tidy.keeps_returned (tidy : s.Tidy H) (deals : s.sys.Deals H sys) {key : Key} {page : Page}
    (returned : s.latest key = .returned page) : (s.sys.lanes H).Keeps (sys.lanes H) key := by
  refine tidy.keeps_of_late deals fun ix n page' call running => ?_
  rw [returned] at running
  cases running

theorem Tidy.step (tidy : s.Tidy H) (deals : s.sys.Deals H sys)
    (started : s.started cfg e = s.latest)
    (old : ∀ ix n call, (sys.writeQs ix).calls n = some call → (s.sys.writeQs ix).calls n ≠ none)
    (due : ∀ ix n key page, s.owes cfg e ix n = some (key, page) → s.latest key = .returned page ∧
      ∀ ix', ¬ (s.sys.lanes H).Waits ix' key) : (s.note cfg sys e).Tidy H := by
  have latest : ∀ key, (s.note cfg sys e).latest key = (s.latest key).look sys := fun key => by
    rw [← started]
    rfl
  refine ⟨fun ix n call' there early => ?_, fun key ix n page eq => ?_, fun key page eq => ?_,
    fun ix n key page owed => ?_⟩
  · obtain ⟨call, here, same, before, _⟩ :=
      (deals.call_of there).resolve_left (old ix n call' there)
    rw [latest, same, tidy.early ix n call here (before early)]
    exact Latest.look_there there
  · rw [latest] at eq
    obtain ⟨running, call', there⟩ := Latest.look_running eq
    obtain ⟨call, here, same, before, copied⟩ :=
      (deals.call_of there).resolve_left (old ix n call' there)
    obtain ⟨call₀, here₀, rfl, rfl, alone, settles⟩ := tidy.running key ix n page running
    cases here.symm.trans here₀
    refine ⟨call', there, by rw [same], by rw [same], fun early ix' ne waits => ?_, fun late => ?_⟩
    · refine alone (before early) ix' ne ((tidy.keeps_of_late deals ?_).waits ix' waits)
      intro ix₁ n₁ page₁ call₁ running₁ here₁ _ call₁' there₁
      cases running.symm.trans running₁
      cases there.symm.trans there₁
      exact early
    · cases early : call.pc.early with
      | true =>
        show (sys.lanes H).Settles call.key call.page
        rw [copied early late]
        exact Lanes.settles_enqueue (alone early)
      | false =>
        refine (tidy.keeps_of_late deals ?_).settles _ (settles early)
        intro ix₁ n₁ page₁ call₁ running₁ here₁ early₁
        cases running.symm.trans running₁
        cases here.symm.trans here₁
        cases early.symm.trans early₁
  · rw [latest] at eq
    rcases Latest.look_returned eq with returned | ⟨ix, n, running, gone⟩
    · exact (tidy.keeps_returned deals returned).settles page (tidy.returned key page returned)
    · obtain ⟨call, here, _, _, _, settles⟩ := tidy.running key ix n page running
      have late := deals.gone here gone
      refine (tidy.keeps_of_late deals ?_).settles page (settles late)
      intro ix₁ n₁ page₁ call₁ running₁ here₁ early₁
      cases running.symm.trans running₁
      cases here.symm.trans here₁
      cases late.symm.trans early₁
  · obtain ⟨returned, none⟩ := due ix n key page owed
    refine ⟨?_, fun ix' waits => none ix' ((tidy.keeps_returned deals returned).waits ix' waits)⟩
    rw [latest, returned]
    rfl

theorem Tidy.startPut {c : Client} {cpuid n : Nat} {key : Key} {page : Page} (tidy : s.Tidy H)
    (free : (s.sys.writeQs (c, cfg.writeQueue cpuid)).calls n = none)
    (sets : s.sys.Sets sys (c, cfg.writeQueue cpuid) n (some ⟨key, page, .load 0⟩))
    (lanes : sys.lanes H = s.sys.lanes H) (orderly : s.Orderly cfg (.startPut c cpuid n key page)) :
    (s.note cfg sys (.startPut c cpuid n key page)).Tidy H := by
  obtain ⟨late, alone⟩ := orderly
  have self : (s.note cfg sys (.startPut c cpuid n key page)).latest key =
      .running (c, cfg.writeQueue cpuid) n page := by
    show (update s.latest key _ key).look sys = _
    rw [update_self]
    exact Latest.look_there sets.here
  have other : ∀ k ≠ key, (s.note cfg sys (.startPut c cpuid n key page)).latest k =
      (s.latest k).look sys := by
    intro k ne
    show (update s.latest key _ k).look sys = _
    rw [update_of_ne ne]
  have stays : ∀ ix n' call, (s.sys.writeQs ix).calls n' = some call →
      (sys.writeQs ix).calls n' = some call := by
    intro ix n' call here
    rcases sets.split ix n' with ⟨rfl, rfl⟩ | same
    · rw [free] at here
      cases here
    · exact same.trans here
  refine ⟨fun ix n' call there early => ?_, fun k ix n' p eq => ?_, fun k p eq => ?_,
    fun ix n' k p owed => ?_⟩
  · rcases sets.split ix n' with ⟨rfl, rfl⟩ | same
    · cases sets.here.symm.trans there
      exact self
    · have here := same.symm.trans there
      have ne : call.key ≠ key := by
        intro eq
        rw [late ix n' call here eq] at early
        cases early
      rw [other _ ne, tidy.early ix n' call here early]
      exact Latest.look_there there
  · by_cases same : k = key
    · subst same
      cases self.symm.trans eq
      refine ⟨_, sets.here, rfl, rfl, fun _ ix' ne waits => ?_, nofun⟩
      obtain ⟨p, waits⟩ := waits
      change (k, p) ∈ (sys.lanes H).waiting ix' at waits
      rw [lanes] at waits
      exact alone ix' ne p waits
    · rw [other k same] at eq
      obtain ⟨call, here, known⟩ := tidy.running k ix n' p (Latest.look_running eq).1
      refine ⟨call, stays ix n' call here, ?_⟩
      show _ ∧ _ ∧ (_ → ∀ ix' ≠ ix, ¬ (sys.lanes H).Waits ix' k) ∧ (_ → (sys.lanes H).Settles k p)
      rw [lanes]
      exact known
  · by_cases same : k = key
    · rw [same, self] at eq
      cases eq
    · rw [other k same] at eq
      show (sys.lanes H).Settles k p
      rw [lanes]
      rcases Latest.look_returned eq with returned | ⟨ix, n', running, gone⟩
      · exact tidy.returned k p returned
      · obtain ⟨call, here, _⟩ := tidy.running k ix n' p running
        rw [stays ix n' call here] at gone
        cases gone
  · obtain ⟨before, ne⟩ := Option.filter_eq_some_iff.mp owed
    obtain ⟨returned, none⟩ := tidy.due ix n' k p before
    refine ⟨?_, ?_⟩
    · rw [other k (of_decide_eq_true ne), returned]
      rfl
    · show ∀ ix', ¬ (sys.lanes H).Waits ix' k
      rw [lanes]
      exact none

/-- A get that is due a page may return nothing else. -/
def ok (s : Fresh σ) : System.Answers := fun ix n _ result => ∀ d ∈ s.due ix n, result = some d.2

structure Inv (H : IHash σ) (cfg : Config) (bufferSize globalMr : BitVec 64) (empty : σ)
    (s : Fresh σ) : Prop where
  sound : s.sys.Sound cfg bufferSize globalMr
  filled : s.sys.Filled H empty
  asked : ∀ ix n call, (s.sys.readQs ix).calls n = some call → ∀ d ∈ s.due ix n, d.1 = call.key
  tidy : s.sys.server.Roomy → s.Tidy H
  serves : s.sys.Serves s.ok

theorem inv_start (mem : Nat → Memory.Byte) (kv : KV σ) (nrHash bitmapSize : Nat) :
    (start (System.start bufferSize globalMr mem kv nrHash bitmapSize)).Inv H cfg bufferSize
      globalMr kv.hash where
  sound := System.sound_start mem kv nrHash bitmapSize
  filled := ⟨[], rfl, nofun⟩
  asked := nofun
  tidy := fun _ => tidy_start mem kv nrHash bitmapSize
  serves := System.serves_start mem kv nrHash bitmapSize

/-- The conditions on one step. -/
structure Permits (cfg : Config) (s : Fresh σ) (e : Event) : Prop where
  few : e.Few cfg
  fits : s.sys.Fits e
  orderly : s.Orderly cfg e

theorem owes_flight (moved : s.sys.step H cfg e = some sys) {ix : Client × Queue} {n : Nat}
    {call : GetCall} (here : (s.sys.readQs ix).calls n = some call) :
    ∀ d ∈ s.owes cfg e ix n, d ∈ s.due ix n := by
  intro d owed
  cases e with
  | startPut c cpuid m key page => exact (Option.filter_eq_some_iff.mp owed).1
  | startGet c cpuid m key raddr =>
    have free := (System.begins_startGet moved).free
    change d ∈ update s.due _ _ ix n at owed
    by_cases same : ix = (c, cfg.readQueue cpuid)
    · subst same
      rw [update_self, update_of_ne] at owed
      · exact owed
      · rintro rfl
        rw [free] at here
        cases here
    · rwa [update_of_ne same] at owed
  | _ => exact owed

theorem Inv.asked_step (inv : s.Inv H cfg bufferSize globalMr empty)
    (moved : s.sys.step H cfg e = some sys) {ix : Client × Queue} {n : Nat} {call' : GetCall}
    (there : (sys.readQs ix).calls n = some call') :
    ∀ d ∈ s.owes cfg e ix n, d.1 = call'.key := by
  intro d owed
  rcases (System.turn_of_step moved).gets there with
    ⟨call, here, eq⟩ | ⟨c, cpuid, key, raddr, rfl, rfl, eq⟩
  · rw [eq]
    exact inv.asked ix n call here d (owes_flight moved here d owed)
  · change d ∈ update s.due _ _ _ n at owed
    rw [update_self, update_self] at owed
    obtain ⟨page, _, rfl⟩ := Option.map_eq_some_iff.mp owed
    rw [eq]

theorem Inv.tidy_step (inv : s.Inv H cfg bufferSize globalMr empty) (perfect : H.Perfect empty)
    (permits : s.Permits cfg e) (moved : s.sys.step H cfg e = some sys)
    (roomy' : sys.server.Roomy) : (s.note cfg sys e).Tidy H := by
  have turn := System.turn_of_step moved
  have tidy := inv.tidy (turn.roomy roomy')
  have deals :=
    System.deals_of_turn inv.sound (inv.sound.step permits.few moved) roomy' inv.filled perfect turn
  have old : (∀ c cpuid n key page, e ≠ .startPut c cpuid n key page) →
      ∀ ix n call, (sys.writeQs ix).calls n = some call → (s.sys.writeQs ix).calls n ≠ none := by
    intro other ix n call there before
    obtain ⟨c, cpuid, start, _⟩ := System.new_call moved before there
    exact other c cpuid n call.key call.page start
  have orderly := permits.orderly
  cases e with
  | startPut c cpuid n key page =>
    obtain ⟨free, sets, lanes⟩ := System.sets_startPut (H := H) moved
    exact tidy.startPut free sets lanes orderly
  | startGet c cpuid n key raddr =>
    refine tidy.step deals rfl (old nofun) fun ix n' k p owed => ?_
    change update s.due _ _ ix n' = _ at owed
    by_cases same : ix = (c, cfg.readQueue cpuid)
    · subst same
      rw [update_self] at owed
      by_cases here : n' = n
      · rw [here, update_self] at owed
        obtain ⟨page, last, eq⟩ := Option.map_eq_some_iff.mp owed
        cases eq
        have returned := Latest.page_eq_some last
        refine ⟨returned, fun ix' ⟨page', waits⟩ => orderly ⟨p, returned⟩ ix' page' waits⟩
      · rw [update_of_ne here] at owed
        exact tidy.due _ _ _ _ owed
    · rw [update_of_ne same] at owed
      exact tidy.due _ _ _ _ owed
  | _ => exact tidy.step deals rfl (old nofun) tidy.due

theorem Inv.finds (inv : s.Inv H cfg bufferSize globalMr empty) (genuine : H.Genuine empty)
    (roomy : s.sys.server.Roomy) {ix : Client × Queue} {n : Nat} {call : GetCall} {value : Value}
    (here : (s.sys.readQs ix).calls n = some call) (got : s.sys.kv.get H call.key = some value) :
    s.sys.May s.ok ix n call.key (ReadQueue.found value) := by
  refine ⟨fun value' found => ?_, fun d owed => ?_⟩
  · have known : (s.sys.kv.get H call.key).bind ReadQueue.found = some value' := by
      rw [got, Option.bind_some]
      exact found
    exact inv.filled.found_inserted genuine known
  · obtain ⟨key, page⟩ := d
    obtain rfl : key = call.key := inv.asked ix n call here _ owed
    have tidy := inv.tidy roomy
    obtain ⟨returned, none⟩ := tidy.due ix n _ page owed
    have held : s.sys.held H call.key = some page := (tidy.returned _ page returned).held none
    unfold System.held at held
    rwa [got, Option.bind_some] at held

theorem Inv.step (inv : s.Inv H cfg bufferSize globalMr empty) (perfect : H.Perfect empty)
    (permits : s.Permits cfg e) (moved : s.sys.step H cfg e = some sys) :
    (s.note cfg sys e).Inv H cfg bufferSize globalMr empty where
  sound := inv.sound.step permits.few moved
  filled := inv.filled.step (System.turn_of_step moved)
  asked := fun _ _ _ => inv.asked_step moved
  tidy := inv.tidy_step perfect permits moved
  serves := by
    have relax : ∀ ix n call, (s.sys.readQs ix).calls n = some call →
      ∀ result, s.ok ix n call.key result → (s.note cfg sys e).ok ix n call.key result :=
      fun ix n call here result ok d owed => ok d (owes_flight moved here d owed)
    refine (inv.serves.mono relax).step inv.sound permits.few permits.fits moved
      fun roomy ix n call value here got => ?_
    obtain ⟨inserted, ok⟩ := inv.finds perfect.genuine roomy here got
    exact ⟨inserted, relax ix n call here _ ok⟩

/-- A get returns what it is due, unless the filter ends it. -/
theorem Inv.answered (inv : s.Inv H cfg bufferSize globalMr empty) (roomy : s.sys.server.Roomy)
    (moved : s.sys.step H cfg e = some sys) :
    ∀ a ∈ s.answered sys e, (∀ due ∈ a.1, a.2 = some due) ∨
      ∃ c q n call i, a.1 = (s.due (c, q) n).map Prod.snd ∧ a.2 = none ∧
        (s.sys.readQs (c, q)).calls n = some call ∧
        i < (s.sys.filters c).nrHash ∧
        Bitmap.marked (s.sys.filters c).bitmap ((s.sys.filters c).index call.key i) = false := by
  intro a mem
  cases e with
  | get c q n =>
    obtain ⟨⟨key, result⟩, answer, rfl⟩ := Option.map_eq_some_iff.mp (Option.mem_toList.mp mem)
    obtain ⟨call, here, rfl, ok | ⟨none, i, lt, _, clear⟩⟩ := inv.serves.answer roomy moved answer
    · left
      intro due owed
      obtain ⟨d, mine, rfl⟩ := Option.map_eq_some_iff.mp owed
      exact ok d mine
    · exact Or.inr ⟨c, q, n, call, i, rfl, none, here, lt, clear⟩
  | _ => cases mem

end

section
variable {σ : Type} {t : Fresh σ}

/-- In every run in which the puts of a key follow each other and a get behind them finds no entry
of the key waiting, no stale page is served, as long as the pages have room. -/
theorem no_stale_page (H : IHash σ) (cfg : Config) (bufferSize globalMr : BitVec 64)
    (mem : Nat → Memory.Byte) (kv : KV σ) (nrHash bitmapSize : Nat) (events : List Event)
    (perfect : H.Perfect kv.hash) (few : ∀ e ∈ events, e.Few cfg)
    (orderly : Runs.Meets (step H cfg) (fun s e => s.sys.Fits e ∧
      s.Orderly cfg e) (start (System.start bufferSize globalMr mem kv nrHash bitmapSize)) events)
    (final : Runs.run (step H cfg) (start (System.start bufferSize globalMr mem kv
      nrHash bitmapSize)) events = some t)
    (roomy : t.sys.server.Roomy) : t.NoStale := by
  have permits : Runs.Meets (step H cfg) (Permits cfg)
      (start (System.start bufferSize globalMr mem kv nrHash bitmapSize)) events :=
    ((Runs.meets_of_forall few).and orderly).imp fun _ _ ⟨few, fits, orderly⟩ =>
      ⟨few, fits, orderly⟩
  have kept : ∀ (s : Fresh σ) e t, s.Inv H cfg bufferSize globalMr kv.hash ∧
    (s.sys.server.Roomy → s.NoStale) → s.Permits cfg e →
      s.step H cfg e = some t → t.Inv H cfg bufferSize globalMr kv.hash ∧
        (t.sys.server.Roomy → t.NoStale) := by
    rintro s e t ⟨inv, fresh⟩ permits step
    obtain ⟨sys, moved, rfl⟩ := Option.map_eq_some_iff.mp step
    refine ⟨inv.step perfect permits moved, fun roomy' a mem due owed page got => ?_⟩
    have roomy := (System.turn_of_step moved).roomy roomy'
    rcases List.mem_append.mp mem with old | new
    · exact fresh roomy a old due owed page got
    · rcases inv.answered roomy moved a new with ok | ⟨_, _, _, _, _, _, none, _⟩
      · rw [ok due owed] at got
        exact (Option.some_inj.mp got).symm
      · rw [none] at got
        cases got
  exact (Runs.invariant ⟨inv_start mem kv nrHash bitmapSize, fun _ => nofun⟩ kept permits final).2
    roomy

end

section
variable {σ : Type} {H : IHash σ} {cfg : Config} {s t : Fresh σ} {e : Event}

/-- A thread that makes all puts keeps them in order. -/
theorem orderly_of_single {c : Client} {cpuid n : Nat} {key : Key} {page : Page}
    (single : s.sys.Single (c, cfg.writeQueue cpuid) n)
    (step : s.step H cfg (.startPut c cpuid n key page) = some t) :
    s.Orderly cfg (.startPut c cpuid n key page) := by
  obtain ⟨sys, moved, _⟩ := Option.map_eq_some_iff.mp step
  obtain ⟨free, _⟩ := System.sets_startPut (H := H) moved
  refine ⟨fun ix m call here _ => ?_, fun ix ne page' waits => ?_⟩
  · obtain ⟨rfl, rfl⟩ := single.calls ix m call here
    rw [free] at here
    cases here
  · rw [single.waiting ne] at waits
    cases waits

def batch (entries : List (Key × Page)) : List Event :=
  (entries.flatMap fun p => System.putSteps 0 1 p.1 p.2 13) ++ List.replicate 2 (.transmit 0 5) ++
    List.replicate 11 (.serveWrite 0 5) ++ List.replicate 4 (.put 0 5 0)

def getSteps : List Event :=
  List.replicate 7 (.get 0 1 0) ++ .request 0 1 :: .get 0 1 0 ::
    List.replicate 4 (.serveRead 0 1) ++ .reply 0 1 :: List.replicate 3 (.get 0 1 0)

def plain (byte : Memory.Byte) : Page := fun _ => byte

def seen (s : Fresh σ) : List (Option Memory.Byte × Option Memory.Byte) :=
  s.answers.map fun a => (a.1.map (· ⟨0, by decide⟩), a.2.map (· ⟨0, by decide⟩))

def firstBatch : List Event :=
  .setUp 0 5 :: batch [(1, plain 1), (2, plain 0), (3, plain 0), (4, plain 0)]

def secondBatch : List Event :=
  firstBatch ++ batch [(1, plain 2), (5, plain 0), (6, plain 0), (7, plain 0)]

/-- The thread 0 of cpu 1 makes all puts, and nobody gets. -/
def Alone : Event → Bool
  | .startPut c cpuid n _ _ => c = 0 ∧ cpuid = 1 ∧ n = 0
  | .startGet .. => false
  | _ => true

theorem single_of_alone {events : List Event} (alone : ∀ e ∈ events, Alone e = true)
    (reached : Runs.run (step H System.eightQueues) s events = some t)
    (single : s.sys.Single (0, 5) 0) :
    t.sys.Single (0, 5) 0 := by
  refine Runs.invariant (P := fun _ e => Alone e = true) (J := fun s => s.sys.Single (0, 5) 0)
    single ?_ (Runs.meets_of_forall alone) reached
  intro s e t single alone step
  obtain ⟨sys, moved, rfl⟩ := Option.map_eq_some_iff.mp step
  refine single.step moved ?_
  rintro c cpuid n key page rfl
  obtain ⟨rfl, rfl, rfl⟩ := of_decide_eq_true alone
  exact ⟨rfl, rfl⟩

theorem meets_alone {events : List Event} (alone : ∀ e ∈ events, Alone e = true)
    (final : Runs.run (step H System.eightQueues) s events = some t)
    (single : s.sys.Single (0, 5) 0) :
    Runs.Meets (step H System.eightQueues) (fun s e => s.sys.Fits e ∧
      s.Orderly System.eightQueues e) s events := by
  intro done e u le reached
  have here : Alone e = true := alone e (Runs.mem_of_concat le)
  have now := single_of_alone (fun e mem => alone e (le.subset (List.mem_append_left _ mem)))
    reached single
  cases e with
  | startPut c cpuid n key page =>
    obtain ⟨v, further⟩ := Runs.run_of_prefix le final
    obtain ⟨u', reached', step⟩ := Runs.step_of_run further
    cases reached.symm.trans reached'
    obtain ⟨rfl, rfl, rfl⟩ := of_decide_eq_true here
    exact ⟨trivial, orderly_of_single now step⟩
  | startGet c cpuid n key raddr => cases here
  | _ => exact ⟨trivial, trivial⟩

theorem no_gets_of_alone {events : List Event} (alone : ∀ e ∈ events, Alone e = true)
    (reached : Runs.run (step H cfg) s events = some t)
    (none : ∀ ix n, (s.sys.readQs ix).calls n = none) :
    ∀ ix n, (t.sys.readQs ix).calls n = Option.none := by
  refine Runs.invariant (P := fun _ e => Alone e = true) (J := fun s => ∀ ix n,
    (s.sys.readQs ix).calls n = Option.none) none ?_ (Runs.meets_of_forall alone) reached
  intro s e t none alone step
  obtain ⟨sys, moved, rfl⟩ := Option.map_eq_some_iff.mp step
  refine (System.turn_of_step moved).no_gets none ?_
  rintro c cpuid n key raddr rfl
  cases alone

/-- The thread puts, and then a get starts while nothing waits. -/
theorem meets_alone_get {before after : List Event} {n : Nat} {key : Key} {raddr : BitVec 64}
    (alone : ∀ e ∈ before, Alone e = true) (running : ∀ e ∈ after, e.cpuid = none)
    (single : s.sys.Single (0, 5) 0) (none : ∀ ix n, (s.sys.readQs ix).calls n = Option.none)
    (empty : ∀ u, Runs.run (step H System.eightQueues) s before = some u →
      (u.sys.writeQs (0, 5)).waiting = [])
    (final : Runs.run (step H System.eightQueues) s (before ++ .startGet 0 1 n key raddr :: after) =
      some t) :
    Runs.Meets (step H System.eightQueues) (fun s e => s.sys.Fits e ∧
      s.Orderly System.eightQueues e) s
      (before ++ .startGet 0 1 n key raddr :: after) := by
  rw [Runs.run_append] at final
  obtain ⟨u, reached, rest⟩ := Option.bind_eq_some_iff.mp final
  have quiet := no_gets_of_alone alone reached none
  have puts := single_of_alone alone reached single
  have get : Runs.Meets (step H System.eightQueues) (fun s e => s.sys.Fits e ∧
    s.Orderly System.eightQueues e) u (.startGet 0 1 n key raddr :: after) := by
    refine Runs.meets_cons.mpr ⟨⟨fun q m call here => ?_, fun _ ix page waits => ?_⟩,
      fun v _ done e w le _ => ?_⟩
    · rw [quiet] at here
      cases here
    · by_cases same : ix = (0, 5)
      · rw [same, empty u reached] at waits
        cases waits
      · rw [puts.waiting same] at waits
        cases waits
    · have idle := running e (Runs.mem_of_concat le)
      cases e with
      | startPut | startGet => cases idle
      | _ => exact ⟨trivial, trivial⟩
  exact (Runs.Leads.append ⟨reached, meets_alone alone reached single⟩ ⟨rest, get⟩).met

end

def view (s : Fresh (Key → Value)) :
    List (Option Memory.Byte × Option Memory.Byte) × BitVec 64 × BitVec 64 × Nat :=
  (s.seen, s.sys.server.globalMr, s.sys.server.bufferSize, s.sys.server.pages.length)

theorem roomy_of_view {seen : List (Option Memory.Byte × Option Memory.Byte)} {pages : Nat}
    {s : Fresh (Key → Value)} (eq : s.view = (seen, 4096, 67108864, pages))
    (room : localMetaRegionSize + pageSize * pages ≤ 67108864) :
    s.seen = seen ∧ s.sys.server.Roomy := by
  unfold view at eq
  simp only [Prod.mk.injEq] at eq
  obtain ⟨seen, start, size, length⟩ := eq
  exact ⟨seen, Server.roomy_of_pages start size length room⟩

/-- The page of a key is put twice: the get behind it delivers the second one. -/
theorem no_stale_page_overwritten : ∃ t : Fresh (Key → Value),
    Runs.run (step System.perfectMap System.eightQueues) (start (System.fresh 64))
      (secondBatch ++ .startGet 0 1 0 1 0 :: getSteps) = some t ∧ t.seen = [(some 2, some 2)] ∧
        t.NoStale := by
  have run : (Runs.run (step System.perfectMap System.eightQueues) (start (System.fresh 64))
      (secondBatch ++ .startGet 0 1 0 1 0 :: getSteps)).map view =
        some ([(some 2, some 2)], 4096, 67108864, 408) := by
    decide +kernel
  have left : (Runs.run (step System.perfectMap System.eightQueues)
    (start (System.fresh 64)) secondBatch).map
      (fun u => (u.sys.writeQs (0, 5)).waiting.length) = some 0 := by
    decide +kernel
  obtain ⟨t, final, eq⟩ := Option.map_eq_some_iff.mp run
  obtain ⟨seen, roomy⟩ := roomy_of_view eq (by decide)
  refine ⟨t, final, seen, ?_⟩
  have single : (System.fresh 64).Single (0, 5) 0 :=
    System.single_start (0, 5) 0 (fun _ => 0) ⟨fun _ => noneValue, none⟩ 4 1000000000
  have orderly :=
    meets_alone_get (by decide +kernel) (by decide) single (fun _ _ => rfl)
      (fun u reached => ?_) final
  · exact no_stale_page System.perfectMap System.eightQueues (64 <<< 20) 4096 (fun _ => 0)
      ⟨fun _ => noneValue, none⟩
      4 1000000000 _ System.perfect_perfectMap (by decide +kernel) orderly final roomy
  · rw [reached] at left
    exact List.eq_nil_of_length_eq_zero (Option.some_inj.mp left)

/-- A page that was put again, with 0 as the result, waits in the buffer while the get delivers the
first one. -/
theorem buffered_page_stale :
    (∀ e ∈ firstBatch ++ System.putSteps 0 1 1 (plain 2) 13 ++ .startGet 0 1 0 1 0 :: getSteps,
      e.Few System.eightQueues) ∧ ∃ t : Fresh (Key → Value),
    Runs.run (step System.perfectMap System.eightQueues) (start (System.fresh 64))
      (firstBatch ++ System.putSteps 0 1 1 (plain 2) 13 ++ .startGet 0 1 0 1 0 :: getSteps) =
        some t ∧
      t.sys.server.Roomy ∧ ¬ t.NoStale := by
  have run : (Runs.run (step System.perfectMap System.eightQueues) (start (System.fresh 64))
      (firstBatch ++ System.putSteps 0 1 1 (plain 2) 13 ++ .startGet 0 1 0 1 0 :: getSteps)).map
        view = some ([(some 2, some 1)], 4096, 67108864, 404) := by
    decide +kernel
  obtain ⟨t, final, eq⟩ := Option.map_eq_some_iff.mp run
  obtain ⟨seen, roomy⟩ := roomy_of_view eq (by decide)
  refine ⟨by decide, t, final, roomy, fun fresh => ?_⟩
  obtain ⟨⟨due, got⟩, mem, eq⟩ :=
    List.mem_map.mp (by rw [seen]; exact List.mem_singleton_self _ : (some 2, some 1) ∈ t.seen)
  obtain ⟨first, second⟩ := Prod.mk.inj eq
  obtain ⟨page, rfl, one⟩ := Option.map_eq_some_iff.mp first
  obtain ⟨page', rfl, two⟩ := Option.map_eq_some_iff.mp second
  rw [fresh _ mem page rfl page' rfl, one] at two
  exact absurd two (by decide)

end Fresh

end Xcache.Remote
