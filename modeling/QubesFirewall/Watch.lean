import QubesFirewall.Chains
import QubesFirewall.RuleStore

/-! # The watch loop loses no update

    `main` reads the rule set of an address when it handles it: in the initial load for
    every address `list_targets` names, and afterwards for the address of each commit event
    the watch queues.  A writer's update of an address, made while the watch is registered,
    ends with the write that queues a commit event for it; its other operations queue
    events `main` skips.  Every operation leaves the part of the store of every other
    address as it was.  So, while `main` runs, every address is up to date (the store holds
    the rule set its last `handle_addr` call read), has its commit event queued, is about to
    be read, or has an update in progress; and when `main` waits in `read_watch` with no
    event queued, every address with no update in progress is up to date.  With the
    invariant of the handled addresses, the filter then enforces the store as it is.

    A write made before the watch is registered breaks this: no event is queued for it.
    The runs here are those whose writers write only once the watch is registered, for
    addresses without `/`.
-/

namespace QubesFirewall

/-- `main` is before the watch: in `init`, `list_targets` or the initial load. -/
def Pc.loading : Pc → Bool
  | .start | .listing | .sweep _ => true
  | _ => false

theorem Pc.loading_of_stopped {pc : Pc} (h : pc.stopped = true) : pc.loading = false := by
  cases pc <;> first | rfl | cases h

namespace Daemon

/-! ## Section 1: The protocol of the writers -/

/-- A move that keeps to the protocol of the writers: a store operation comes while the
    watch is registered, for an address without `/`. -/
def WatchedMove : Label → Daemon → Prop
  | .store op, d => d.watching = true ∧ '/' ∉ op.addr
  | _, _ => True

instance decWatchedMove : ∀ l d, Decidable (WatchedMove l d)
  | .store _, _ => inferInstanceAs (Decidable (_ ∧ _))
  | .main, _ => isTrue trivial
  | .signal, _ => isTrue trivial
  | .script _, _ => isTrue trivial

variable (o : Oracle) (b : Backend) (env : Env)

/-- Every move of a run keeps to the protocol of the writers. -/
def WritesWatched : List Label → Daemon → Prop
  | [], _ => True
  | l :: ls, d => WatchedMove l d ∧ WritesWatched ls (step o b env l d)

instance decWritesWatched : ∀ ls d, Decidable (WritesWatched o b env ls d)
  | [], _ => isTrue trivial
  | l :: ls, d => @instDecidableAnd _ _ (decWatchedMove l d) (decWritesWatched ls _)

/-! ## Section 2: The invariant -/

/-- `main` reads the rule set of `addr` with no new event: the initial load has yet to
    reach it, or `main` is about to handle it. -/
def Scheduled (d : Daemon) (addr : Str) : Prop :=
  match d.pc with
  | .start | .listing => ∀ ts, list_targets d.db = .ok ts → addr ∈ ts
  | .sweep todo => addr ∈ todo
  | .handling a => a = addr
  | _ => False

/-- The store holds for `addr` the rule set that the last call for it among `H` read. -/
def UpToDate (H : List (Str × QubesDB)) (d : Daemon) (addr : Str) : Prop :=
  d.db.multiread (targetDir addr) = (lastRead addr H).multiread (targetDir addr)

/-- No update is lost after the calls `H`: the watch is registered only once the initial
    load is over, and while `main` runs every address without `/` is up to date, has its
    commit event queued, is scheduled, or has an update in progress. -/
structure NoLostUpdate (H : List (Str × QubesDB)) (d : Daemon) : Prop where
  watch : d.watching = true → d.pc.loading = false
  fresh : d.pc.stopped = false → ∀ a, '/' ∉ a →
    UpToDate H d a ∨ commitPath a ∈ d.queue ∨ Scheduled d a ∨ a ∈ d.writing

variable {o b env} {H : List (Str × QubesDB)}

/-- A move that keeps the store, the watch and the updates in progress, loses no queued
    event, and schedules what was scheduled, keeps the invariant. -/
theorem NoLostUpdate.keep {d d' : Daemon} (h : NoLostUpdate H d) (hdb : d'.db = d.db)
    (hq : d.queue ⊆ d'.queue) (hw : d'.watching = d.watching) (hwr : d'.writing = d.writing)
    (hload : d'.pc.loading = true → d.pc.loading = true)
    (hrun : d'.pc.stopped = false → d.pc.stopped = false ∧ ∀ a, Scheduled d a → Scheduled d' a) :
    NoLostUpdate H d' where
  watch hw' := Bool.eq_false_iff.2 fun hl =>
    Bool.false_ne_true ((h.watch (hw ▸ hw')).symm.trans (hload hl))
  fresh hs a ha := by
    obtain ⟨hs₀, hsch⟩ := hrun hs
    rcases h.fresh hs₀ a ha with hu | hqa | hsc | hwa
    · exact .inl (by rw [UpToDate, hdb]; exact hu)
    · exact .inr (.inl (hq hqa))
    · exact .inr (.inr (.inl (hsch a hsc)))
    · exact .inr (.inr (.inr (hwr ▸ hwa)))

/-- `handle_addr(a)`, reading the store: when it returns, `a` is up to date and `main` goes
    to `next`, which schedules what `d` did save `a`; when it raises, `main` stops. -/
theorem NoLostUpdate.handle {d : Daemon} (h : NoLostUpdate H d) (hrun : d.pc.stopped = false)
    {a : Str} {r : EStateM.Result PyExc Sys Unit} {next : Pc} {onError : PyExc → Pc}
    (hload : next.loading = true → d.pc.loading = true) (hstop : ∀ e, (onError e).stopped = true)
    (hsched : ∀ a', a' ≠ a → Scheduled d a' → Scheduled { d with pc := next } a') :
    NoLostUpdate (H ++ [(a, d.db)]) (d.after r next onError) := by
  cases r with
  | ok _ s =>
    refine ⟨fun hw => Bool.eq_false_iff.2 fun hl =>
      Bool.false_ne_true ((h.watch hw).symm.trans (hload hl)), fun _ a' ha' => ?_⟩
    by_cases he : a' = a
    · subst he
      exact .inl (by rw [UpToDate, lastRead_append_self]; rfl)
    · rcases h.fresh hrun a' ha' with hu | hqa | hsc | hwa
      · exact .inl (by rw [UpToDate, lastRead_append_ne _ _ he]; exact hu)
      · exact .inr (.inl hqa)
      · exact .inr (.inr (.inl (hsched a' he hsc)))
      · exact .inr (.inr (.inr hwa))
  | error e s =>
    exact ⟨fun _ => Pc.loading_of_stopped (hstop e), fun hs => absurd (hs.symm.trans (hstop e)) Bool.false_ne_true⟩

/-- A step of the worker that makes no `handle_addr` call: when it returns `main` goes to
    `next`, which schedules what `d` did; when it raises, `main` stops. -/
theorem NoLostUpdate.after {d : Daemon} (h : NoLostUpdate H d) {r : EStateM.Result PyExc Sys Unit}
    {next : Pc} {onError : PyExc → Pc} (hload : next.loading = true → d.pc.loading = true)
    (hstop : ∀ e, (onError e).stopped = true)
    (hrun : next.stopped = false →
      d.pc.stopped = false ∧ ∀ a, Scheduled d a → Scheduled { d with pc := next } a) :
    NoLostUpdate H (d.after r next onError) := by
  cases r with
  | ok _ s => exact h.keep rfl (fun _ hx => hx) rfl rfl hload hrun
  | error e s => exact ⟨fun _ => Pc.loading_of_stopped (hstop e),
      fun hs => absurd (hs.symm.trans (hstop e)) Bool.false_ne_true⟩

theorem Scheduled.of_pc {d d' : Daemon} {a : Str} (hpc : d'.pc = d.pc)
    (hdb : d.pc.loading = false ∨ d'.db = d.db) (h : Scheduled d a) : Scheduled d' a := by
  unfold Scheduled at *
  rw [hpc]
  cases hp : d.pc <;> rw [hp] at h hdb <;> first
    | exact h
    | (rcases hdb with hdb | hdb
       · cases hdb
       · rw [hdb]; exact h)

theorem Scheduled.of_handling {d : Daemon} {a : Str} (h : d.pc = .handling a) : Scheduled d a := by
  unfold Scheduled
  rw [h]

theorem watchTarget_loading (p : Str) : (watchTarget p).loading = false := by
  unfold watchTarget
  split_ifs
  · rfl
  · split <;> rfl

/-- A step of `main` keeps the invariant, with its call, if it makes one, added. -/
theorem NoLostUpdate.main {d : Daemon} (h : NoLostUpdate H d) :
    NoLostUpdate (H ++ (nextCall d).toList) ((mainStep o b env d).getD d) := by
  rcases d with ⟨pc, sys, db, w, q, tr, wr⟩
  cases pc with
  | start =>
    simp only [nextCall, Option.toList_none, List.append_nil, mainStep, Option.getD_some]
    have h' : NoLostUpdate H
        { pc := .start, sys := sys, db := db, watching := w, queue := q, terminate_requested := false,
          writing := wr } :=
      ⟨h.watch, h.fresh⟩
    exact h'.after (fun _ => rfl) (fun _ => rfl) fun _ => ⟨rfl, fun _ hs => hs⟩
  | listing =>
    simp only [nextCall, Option.toList_none, List.append_nil, mainStep, Option.getD_some]
    refine h.keep rfl (fun _ hx => hx) rfl rfl (fun _ => rfl) fun hs => ⟨rfl, fun a ha => ?_⟩
    simp only [sweepOf] at hs ⊢
    split
    · next ts hts => exact ha ts hts
    · next e he => rw [he] at hs; cases hs
  | sweep todo =>
    cases todo with
    | nil =>
      simp only [nextCall, Option.toList_none, List.append_nil, mainStep, Option.getD_some]
      refine ⟨fun _ => rfl, fun _ a ha => ?_⟩
      rcases h.fresh rfl a ha with hu | hqa | hsc | hwa
      · exact .inl hu
      · exact .inr (.inl hqa)
      · exact absurd hsc (List.not_mem_nil a)
      · exact .inr (.inr (.inr hwa))
    | cons a todo =>
      exact h.handle rfl (fun _ => rfl) (fun _ => rfl)
        fun a' he hs => (List.mem_cons.1 hs).resolve_left he
  | loop =>
    simp only [nextCall, Option.toList_none, List.append_nil]
    cases q with
    | nil => exact h
    | cons p q =>
      simp only [mainStep, Option.getD_some]
      refine ⟨fun _ => watchTarget_loading p, fun _ a ha => ?_⟩
      rcases h.fresh rfl a ha with hu | hqa | hsc | hwa
      · exact .inl hu
      · rcases List.mem_cons.1 hqa with hp | hqa
        · refine .inr (.inr (.inl (Scheduled.of_handling ?_)))
          show watchTarget p = _
          rw [← hp, watchTarget_commitPath ha]
        · exact .inr (.inl hqa)
      · cases hsc
      · exact .inr (.inr (.inr hwa))
  | handling a =>
    refine h.handle rfl nofun (fun e => ?_) fun a' he hs => absurd hs.symm he
    by_cases he : e = .osError <;> simp [he, Pc.stopped]
  | cleanup =>
    simp only [nextCall, Option.toList_none, List.append_nil, mainStep, Option.getD_some]
    exact h.after nofun (fun _ => rfl) nofun
  | exited | raised _ =>
    simpa only [nextCall, Option.toList_none, List.append_nil, mainStep, Option.getD_none] using h

/-- A store operation that keeps to the protocol keeps the invariant: the final write of an
    update queues its commit event, the other operations put their address's update in
    progress, and no other address's part of the store changes. -/
theorem NoLostUpdate.store {d : Daemon} (h : NoLostUpdate H d) {op : StoreOp}
    (hm : WatchedMove (.store op) d) : NoLostUpdate H (step o b env (.store op) d) := by
  obtain ⟨hw, ha⟩ := hm
  refine ⟨h.watch, fun hs a' ha' => ?_⟩
  simp only [step, hw, if_true]
  by_cases he : a' = op.addr
  · subst he
    cases op with
    | commit a => exact .inr (.inl (List.mem_append_right _ (List.mem_singleton_self _)))
    | clear a | write a _ _ => exact .inr (.inr (.inr (List.mem_insert_self _ _)))
  · rcases h.fresh hs a' ha' with hu | hqa | hsc | hwa
    · exact .inl (by rw [UpToDate, StoreOp.multiread_apply_ne ha ha' he]; exact hu)
    · exact .inr (.inl (List.mem_append_left _ hqa))
    · exact .inr (.inr (.inl (Scheduled.of_pc (d := d) rfl (.inl (h.watch hw)) hsc)))
    · exact .inr (.inr (.inr (StoreOp.mem_pending_of_ne he hwa)))

/-- The signal keeps the invariant: it changes no store and no queue, and stops `main` or
    leaves it where it is. -/
theorem NoLostUpdate.signal {d : Daemon} (h : NoLostUpdate H d) :
    NoLostUpdate H (step o b env .signal d) := by
  have hpc : (step o b env .signal d).pc = .cleanup ∨ (step o b env .signal d).pc = d.pc := by
    simp only [step]
    split <;> simp
  refine h.keep rfl (fun _ hx => hx) rfl rfl (fun hl => ?_) fun hs => ?_
  · rcases hpc with hpc | hpc
    · rw [hpc] at hl
      cases hl
    · rwa [hpc] at hl
  · rcases hpc with hpc | hpc
    · rw [hpc] at hs
      cases hs
    · exact ⟨hpc ▸ hs, fun a ha => ha.of_pc hpc (.inr rfl)⟩

/-- A script keeps the invariant: it changes the filter state alone. -/
theorem NoLostUpdate.script {d : Daemon} (h : NoLostUpdate H d) (sc : Script) :
    NoLostUpdate H (step o b env (.script sc) d) := by
  simp only [step]
  split
  · exact h.keep rfl (fun _ hx => hx) rfl rfl id fun hs => ⟨hs, fun a ha => ha.of_pc rfl (.inr rfl)⟩
  · exact h

/-- Every move of a run that keeps to the protocol keeps the invariant, with the calls of
    `main` added. -/
theorem NoLostUpdate.exec : ∀ (ls : List Label) {H : List (Str × QubesDB)} {d : Daemon},
    NoLostUpdate H d → WritesWatched o b env ls d →
      NoLostUpdate (H ++ calls o b env ls d) (Daemon.exec o b env ls d)
  | [], H, d, h, _ => by rw [calls, List.append_nil]; exact h
  | l :: ls, H, d, h, ⟨hm, hw⟩ => by
    rw [exec_cons]
    cases l with
    | main =>
      rw [calls_cons_main, ← List.append_assoc]
      exact NoLostUpdate.exec ls h.main hw
    | store op =>
      rw [calls_cons_store]
      exact NoLostUpdate.exec ls (h.store hm) hw
    | signal =>
      rw [calls_cons_signal]
      exact NoLostUpdate.exec ls h.signal hw
    | script sc =>
      rw [calls_cons_script]
      exact NoLostUpdate.exec ls (h.script sc) hw

/-- The daemon as the service starts holds the invariant: an address with a path in its
    directory is named by `list_targets`, and one without has the rule set of no call. -/
theorem NoLostUpdate.boot (k₀ : Kernel) (db₀ : QubesDB) : NoLostUpdate [] (boot k₀ db₀) := by
  refine ⟨nofun, fun _ a ha => ?_⟩
  by_cases hne : (db₀.multiread (targetDir a)).items = []
  · exact .inl (Dict.ext_items hne)
  · exact .inr (.inr (.inl fun ts hts => mem_list_targets ha hne hts))

/-- Where `main` waits in `read_watch` with no event queued, every address without `/` and
    with no update in progress is up to date. -/
theorem NoLostUpdate.upToDate {d : Daemon} (h : NoLostUpdate H d) (hpc : d.pc = .loop)
    (hq : d.queue = []) {a : Str} (ha : '/' ∉ a) (hwr : a ∉ d.writing) : UpToDate H d a := by
  rcases h.fresh (by rw [hpc]; rfl) a ha with hu | hqa | hsc | hwa
  · exact hu
  · exact absurd hqa (hq ▸ List.not_mem_nil _)
  · unfold Scheduled at hsc
    rw [hpc] at hsc
    cases hsc
  · exact absurd hwa hwr

end Daemon

/-! ## Section 3: When `main` waits -/

theorem lastRead_of_not_mem {a : Str} :
    ∀ {H : List (Str × QubesDB)}, a ∉ H.map Prod.fst → lastRead a H = Dict.empty := by
  intro H
  induction H using List.reverseRecOn with
  | nil => exact fun _ => rfl
  | append_singleton H p ih =>
    obtain ⟨a', db⟩ := p
    intro h
    simp only [List.map_append, List.map_cons, List.map_nil, List.mem_append, List.mem_singleton,
      not_or] at h
    rw [lastRead_append_ne _ _ h.2, ih h.1]

/-- `expected` reads nothing of the store but the address's directory. -/
theorem expected_congr {b : Backend} {env : Env} {reject : Str → Option Str} {db db' : QubesDB}
    {a : Str} (h : db.multiread (targetDir a) = db'.multiread (targetDir a)) :
    expected b env reject db a = expected b env reject db' a := by
  simp only [expected, read_rules_congr h]

/-- Over every run of `main` whose writers write only once the watch is registered, for
    addresses without `/`: whenever `main` waits in `read_watch` with no event queued, the
    store holds for every address without `/` and with no update in progress the rule set its
    last `handle_addr` call read. -/
theorem waiting_store_as_read (o : Oracle) (b : Backend) (env : Env) (k₀ : Kernel)
    (db₀ : QubesDB) (ls : List Label) :
    let cs := Daemon.calls o b env ls (Daemon.boot k₀ db₀)
    let d := Daemon.exec o b env ls (Daemon.boot k₀ db₀)
    Daemon.WritesWatched o b env ls (Daemon.boot k₀ db₀) → d.pc = .loop → d.queue = [] →
      ∀ a, '/' ∉ a → a ∉ d.writing →
        d.db.multiread (targetDir a) = (lastRead a cs).multiread (targetDir a) := by
  intro cs d hw hpc hq a ha hwr
  exact (List.nil_append cs ▸ (Daemon.NoLostUpdate.boot k₀ db₀).exec ls hw).upToDate hpc hq ha hwr

/-- The run where the initial load handles `10.137.0.6` and a writer updates the rule set of
    `10.137.0.5` once the watch is registered: `main` waits with the new rule set read. -/
theorem waiting_store_as_read_commit :
    let cs := Daemon.calls Oracle.allOk .iptables Daemon.noNameservers commitRun
      (Daemon.boot Kernel.fresh Daemon.acceptStoreSix)
    let d := Daemon.exec Oracle.allOk .iptables Daemon.noNameservers commitRun
      (Daemon.boot Kernel.fresh Daemon.acceptStoreSix)
    Daemon.WritesWatched Oracle.allOk .iptables Daemon.noNameservers commitRun
        (Daemon.boot Kernel.fresh Daemon.acceptStoreSix) ∧
      d.pc = .loop ∧ d.queue = [] ∧ '/' ∉ key "10.137.0.5" ∧ key "10.137.0.5" ∉ d.writing ∧
      d.db.multiread (targetDir (key "10.137.0.5")) =
        (lastRead (key "10.137.0.5") cs).multiread (targetDir (key "10.137.0.5")) := by
  intro cs d
  have hw : Daemon.WritesWatched Oracle.allOk .iptables Daemon.noNameservers commitRun
      (Daemon.boot Kernel.fresh Daemon.acceptStoreSix) := by decide
  have hpc : d.pc = .loop := by decide
  have hq : d.queue = [] := by decide
  have ha : '/' ∉ key "10.137.0.5" := by decide
  have hwr : key "10.137.0.5" ∉ d.writing := by decide
  exact ⟨hw, hpc, hq, ha, hwr, waiting_store_as_read _ _ _ _ _ _ hw hpc hq _ ha hwr⟩

variable {b : Backend} {env : Env} {reject : Str → Option Str}

/-- An address up to date whose directory holds entries was handled: an address no call
    handled has the empty rule set as its last read. -/
theorem Daemon.UpToDate.mem {H : List (Str × QubesDB)} {d : Daemon} {a : Str}
    (hu : Daemon.UpToDate H d a) (hin : (d.db.multiread (targetDir a)).items ≠ []) :
    a ∈ H.map Prod.fst :=
  by_contra fun hn => hin (by rw [hu, lastRead_of_not_mem hn]; rfl)

/-- Where the invariant of the handled addresses holds and an address is up to date, the
    address, when handled or with a rule set in the store, is installed as the store now
    says. -/
theorem Good.installed_of_upToDate {H : List (Str × QubesDB)} {d : Daemon}
    (hG : Good b env reject H d.sys) (hw : WellFormedCalls b H) {a : Str}
    (hu : Daemon.UpToDate H d a)
    (hin : a ∈ H.map Prod.fst ∨ (d.db.multiread (targetDir a)).items ≠ []) :
    Installed b d.sys a (expected b env reject d.db a) := by
  rw [expected_congr hu]
  have ha := hin.elim id hu.mem
  exact hG.installed_of_mem ha (hw.host ha).1 (hw.host ha).2

section Waiting

variable (hacc : AcceptsOwn b env reject) (henv : ∀ f, env.ResolvesOnly b.ValueChar f)
  (hns : ∀ f N, dns_addresses env.resolvConf (some f) = .ok N → ∀ n ∈ N, Str.Only b.ValueChar n)
  {k₀ : Kernel} (hk₀ : ∀ f, (k₀ f).jumps = []) {db₀ : QubesDB} {ls : List Label}

include hacc henv hns hk₀ in
/-- The run invariant of the handled addresses holds over every run from tables without
    jumps whose calls are well formed. -/
theorem runInv_of_boot
    (hw : WellFormedCalls b (Daemon.calls (Oracle.rejecting reject) b env ls (Daemon.boot k₀ db₀))) :
    RunInv b env reject (Daemon.calls (Oracle.rejecting reject) b env ls (Daemon.boot k₀ db₀))
      (Daemon.exec (Oracle.rejecting reject) b env ls (Daemon.boot k₀ db₀)) := by
  have hboot : RunInv b env reject [] (Daemon.boot k₀ db₀) :=
    .inr ⟨Good.nil (fun _ _ hm => absurd hm (List.not_mem_nil _)) hk₀, fun _ => rfl, fun h => absurd rfl h⟩
  simpa only [List.nil_append] using runInv_exec hacc henv hns ls hboot ((List.nil_append _).symm ▸ hw)

include hacc henv hns hk₀ in
/-- The invariant of the handled addresses holds over a run that has not stopped. -/
theorem good_of_run
    (hw : WellFormedCalls b (Daemon.calls (Oracle.rejecting reject) b env ls (Daemon.boot k₀ db₀)))
    (hrun : (Daemon.exec (Oracle.rejecting reject) b env ls (Daemon.boot k₀ db₀)).pc.stopped = false) :
    Good b env reject (Daemon.calls (Oracle.rejecting reject) b env ls (Daemon.boot k₀ db₀))
      (Daemon.exec (Oracle.rejecting reject) b env ls (Daemon.boot k₀ db₀)).sys := by
  rcases runInv_of_boot hacc henv hns hk₀ hw with h | ⟨hG, -⟩
  · exact absurd h (by simp only [hrun]; decide)
  · exact hG

include hacc henv hns hk₀ in
/-- Once `init` has run, over a run that has not stopped, both forward chains end with the
    drop `init` put there. -/
theorem policy_of_run
    (hw : WellFormedCalls b (Daemon.calls (Oracle.rejecting reject) b env ls (Daemon.boot k₀ db₀)))
    (hrun : (Daemon.exec (Oracle.rejecting reject) b env ls (Daemon.boot k₀ db₀)).pc.stopped = false)
    (hinit : (Daemon.exec (Oracle.rejecting reject) b env ls (Daemon.boot k₀ db₀)).pc ≠ .start)
    (f : Family) :
    ((Daemon.exec (Oracle.rejecting reject) b env ls (Daemon.boot k₀ db₀)).sys.kernel f).policy =
      some (b.verdictOf (key "drop")) := by
  rcases runInv_of_boot hacc henv hns hk₀ hw with h | ⟨-, -, hpol⟩
  · exact absurd h (by simp only [hrun]; decide)
  · exact hpol hinit f

end Waiting

/-- The resolver of the example runs resolves no name. -/
theorem Daemon.noNameservers_resolvesOnly (good : Char → Prop) (f : Family) :
    Daemon.noNameservers.ResolvesOnly good f := by
  intro _ _ h
  cases h
  exact fun _ ha => absurd ha (List.not_mem_nil _)

/-- The resolver of the example runs lists no nameserver. -/
theorem Daemon.noNameservers_dns {good : Char → Prop} (f : Family) (N : List Str)
    (h : dns_addresses Daemon.noNameservers.resolvConf (some f) = .ok N) :
    ∀ n ∈ N, Str.Only good n := by
  have hN : N = [] := by cases f <;> exact (Except.ok.inj h).symm
  exact fun _ hn => absurd (hN ▸ hn) (List.not_mem_nil _)

/-- Over every run of `main` from tables without jumps, when every command runs, the backend
    refuses only translations of stored rule sets, the calls of the run are as in the
    invariant of the handled addresses, and the writers write only once the watch is
    registered, for addresses without `/`: whenever `main` waits in `read_watch` with no event
    queued, every address without `/` and with no update in progress that was handled or has
    a rule set in the store has one jump from the forward chain of its family, its chain
    registered, and in it what the rule set the store now holds for it gives. -/
theorem waiting_filter_enforces_store (hacc : AcceptsOwn b env reject)
    (henv : ∀ f, env.ResolvesOnly b.ValueChar f)
    (hns : ∀ f N, dns_addresses env.resolvConf (some f) = .ok N → ∀ n ∈ N, Str.Only b.ValueChar n)
    (k₀ : Kernel) (hk₀ : ∀ f, (k₀ f).jumps = []) (db₀ : QubesDB) (ls : List Label) :
    let cs := Daemon.calls (Oracle.rejecting reject) b env ls (Daemon.boot k₀ db₀)
    let d := Daemon.exec (Oracle.rejecting reject) b env ls (Daemon.boot k₀ db₀)
    WellFormedCalls b cs →
    Daemon.WritesWatched (Oracle.rejecting reject) b env ls (Daemon.boot k₀ db₀) →
    d.pc = .loop → d.queue = [] →
      ∀ a, '/' ∉ a → a ∉ d.writing → (a ∈ cs.map Prod.fst ∨ (d.db.multiread (targetDir a)).items ≠ []) →
        Installed b d.sys a (expected b env reject d.db a) := by
  intro cs d hw hc hpc hq a ha hwr hin
  have hu : Daemon.UpToDate cs d a :=
    (List.nil_append cs ▸ (Daemon.NoLostUpdate.boot k₀ db₀).exec ls hc).upToDate hpc hq ha hwr
  exact (good_of_run hacc henv hns hk₀ hw (by rw [hpc]; rfl)).installed_of_upToDate hw hu hin

/-- In the run where a writer updates the rule set of `10.137.0.5` once the initial load is
    over, the nftables worker enforces it when `main` waits. -/
theorem waiting_filter_enforces_store_commit :
    let cs := Daemon.calls (Oracle.rejecting fun _ => none) .nftables Daemon.noNameservers commitRun
      (Daemon.boot Kernel.fresh Daemon.acceptStoreSix)
    let d := Daemon.exec (Oracle.rejecting fun _ => none) .nftables Daemon.noNameservers commitRun
      (Daemon.boot Kernel.fresh Daemon.acceptStoreSix)
    WellFormedCalls .nftables cs ∧
      Daemon.WritesWatched (Oracle.rejecting fun _ => none) .nftables Daemon.noNameservers
        commitRun (Daemon.boot Kernel.fresh Daemon.acceptStoreSix) ∧
      d.pc = .loop ∧ d.queue = [] ∧ '/' ∉ key "10.137.0.5" ∧ key "10.137.0.5" ∉ d.writing ∧
      (key "10.137.0.5" ∈ cs.map Prod.fst ∨ (d.db.multiread (targetDir (key "10.137.0.5"))).items ≠ []) ∧
      Installed .nftables d.sys (key "10.137.0.5")
        (expected .nftables Daemon.noNameservers (fun _ => none) d.db (key "10.137.0.5")) := by
  intro cs d
  have hw : WellFormedCalls .nftables cs := by decide
  have hc : Daemon.WritesWatched (Oracle.rejecting fun _ => none) .nftables Daemon.noNameservers
      commitRun (Daemon.boot Kernel.fresh Daemon.acceptStoreSix) := by decide
  have hpc : d.pc = .loop := by decide
  have hq : d.queue = [] := by decide
  have ha : '/' ∉ key "10.137.0.5" := by decide
  have hwr : key "10.137.0.5" ∉ d.writing := by decide
  have hin : key "10.137.0.5" ∈ cs.map Prod.fst ∨
      (d.db.multiread (targetDir (key "10.137.0.5"))).items ≠ [] := .inl (by decide)
  refine ⟨hw, hc, hpc, hq, ha, hwr, hin, waiting_filter_enforces_store
    ⟨rfl, fun _ _ _ => rfl, fun _ _ _ _ => rfl⟩ (Daemon.noNameservers_resolvesOnly _) Daemon.noNameservers_dns
    Kernel.fresh (fun _ => rfl) _ commitRun hw hc hpc hq _ ha hwr hin⟩

/-! ## Section 4: A rule set in the writers' layout is enforced -/

section Layout

variable (hacc : AcceptsOwn b env reject) (henv : ∀ f, env.ResolvesOnly b.ValueChar f)
  (hns : ∀ f N, dns_addresses env.resolvConf (some f) = .ok N → ∀ n ∈ N, Str.Only b.ValueChar n)
  {k₀ : Kernel} (hk₀ : ∀ f, (k₀ f).jumps = []) {db₀ : QubesDB} {ls : List Label}

include hacc henv hns hk₀ in
/-- While `main` waits with no event queued, an address without `/` and with no update in
    progress whose directory holds a rule set in the writers' layout was handled, and its
    chain holds the rules of the program translated from that rule set, its policy last,
    when the backend takes that program. -/
theorem installed_of_items
    (hw : WellFormedCalls b (Daemon.calls (Oracle.rejecting reject) b env ls (Daemon.boot k₀ db₀)))
    (hc : Daemon.WritesWatched (Oracle.rejecting reject) b env ls (Daemon.boot k₀ db₀))
    (hpc : (Daemon.exec (Oracle.rejecting reject) b env ls (Daemon.boot k₀ db₀)).pc = .loop)
    (hq : (Daemon.exec (Oracle.rejecting reject) b env ls (Daemon.boot k₀ db₀)).queue = [])
    {a : Str} {rules : List Dict} {policy P : Str} (ha : '/' ∉ a)
    (hwr : a ∉ (Daemon.exec (Oracle.rejecting reject) b env ls (Daemon.boot k₀ db₀)).writing)
    (hitems : ((Daemon.exec (Oracle.rejecting reject) b env ls (Daemon.boot k₀ db₀)).db.multiread
      (targetDir a)).items = (ruleEntries rules policy).map fun kv => (targetDir a ++ kv.1, kv.2))
    (hr : ∀ r ∈ rules, StorableRule r) (hlen : rules.length ≤ 10000)
    (hP : b.prepare_rules env (b.chain_for_addr a) (rules ++ [Dict.single "action".toList policy])
      (familyOf a) = .ok P)
    (hrej : reject P = none) :
    a ∈ (Daemon.calls (Oracle.rejecting reject) b env ls (Daemon.boot k₀ db₀)).map Prod.fst ∧
      Installed b (Daemon.exec (Oracle.rejecting reject) b env ls (Daemon.boot k₀ db₀)).sys a
        (b.chainRules (b.chain_for_addr a) P) := by
  have hu := (List.nil_append _ ▸ (Daemon.NoLostUpdate.boot k₀ db₀).exec ls hc).upToDate hpc hq ha hwr
  have hin : ((Daemon.exec (Oracle.rejecting reject) b env ls (Daemon.boot k₀ db₀)).db.multiread
      (targetDir a)).items ≠ [] := by
    rw [hitems]
    exact List.cons_ne_nil _ _
  have hexp : expected b env reject (Daemon.exec (Oracle.rejecting reject) b env ls
      (Daemon.boot k₀ db₀)).db a = b.chainRules (b.chain_for_addr a) P := by
    simp only [expected, read_rules_of_items ha hr hlen hitems, bind, Except.bind, hP, hrej,
      if_true]
  exact ⟨hu.mem hin,
    hexp ▸ (good_of_run hacc henv hns hk₀ hw (by rw [hpc]; rfl)).installed_of_upToDate hw hu (.inr hin)⟩

end Layout

/-- Over every run of `main` from tables without jumps, when every command runs, the backend
    refuses only translations of stored rule sets, the calls of the run are as in the
    invariant of the handled addresses, and the writers write only once the watch is
    registered, for addresses without `/`: whenever `main` waits in `read_watch` with no event
    queued, an address without `/` with no update in progress, whose directory holds the rule
    set its last update wrote in the writers' layout, has one jump from the forward chain of
    its family, its chain registered, and in that chain the rules of the program translated
    from the rule set, its policy last, when the backend takes that program. -/
theorem waiting_chain_holds_last_commit (hacc : AcceptsOwn b env reject)
    (henv : ∀ f, env.ResolvesOnly b.ValueChar f)
    (hns : ∀ f N, dns_addresses env.resolvConf (some f) = .ok N → ∀ n ∈ N, Str.Only b.ValueChar n)
    (k₀ : Kernel) (hk₀ : ∀ f, (k₀ f).jumps = []) (db₀ : QubesDB) (ls : List Label) :
    let cs := Daemon.calls (Oracle.rejecting reject) b env ls (Daemon.boot k₀ db₀)
    let d := Daemon.exec (Oracle.rejecting reject) b env ls (Daemon.boot k₀ db₀)
    WellFormedCalls b cs →
    Daemon.WritesWatched (Oracle.rejecting reject) b env ls (Daemon.boot k₀ db₀) →
    d.pc = .loop → d.queue = [] →
      ∀ a rules policy P, '/' ∉ a → a ∉ d.writing →
        (d.db.multiread (targetDir a)).items =
          (ruleEntries rules policy).map (fun kv => (targetDir a ++ kv.1, kv.2)) →
        (∀ r ∈ rules, StorableRule r) → rules.length ≤ 10000 →
        b.prepare_rules env (b.chain_for_addr a) (rules ++ [Dict.single "action".toList policy])
          (familyOf a) = .ok P →
        reject P = none →
          Installed b d.sys a (b.chainRules (b.chain_for_addr a) P) := by
  intro cs d hw hc hpc hq a rules policy P ha hwr hitems hr hlen hP hrej
  exact (installed_of_items hacc henv hns hk₀ hw hc hpc hq ha hwr hitems hr hlen hP hrej).2

/-- A writer updates the rule set of `10.137.0.5` to the rule allowing HTTPS and policy
    `drop` once the initial load of `10.137.0.6` is over, and `main` reads the events of the
    update. -/
def httpsRun : List Label :=
  [.main, .main, .main, .main] ++ Label.update (key "10.137.0.5") (ruleEntries [httpsRule] (key "drop")) ++
    List.replicate 5 .main

/-- The nftables program of that rule set. -/
def httpsProgram : Str :=
  key "flush chain ip qubes-firewall qbs-10-137-0-5\ntable ip qubes-firewall \x7b\n  chain qbs-10-137-0-5 \x7b\n    ip protocol tcp tcp dport 443 accept\n    drop\n  \x7d\n\x7d\n"

/-- The nftables worker ends with the chain of `10.137.0.5` holding the translation of the
    rule set the writer wrote. -/
theorem waiting_chain_holds_last_commit_https :
    let cs := Daemon.calls (Oracle.rejecting fun _ => none) .nftables Daemon.noNameservers httpsRun
      (Daemon.boot Kernel.fresh Daemon.acceptStoreSix)
    let d := Daemon.exec (Oracle.rejecting fun _ => none) .nftables Daemon.noNameservers httpsRun
      (Daemon.boot Kernel.fresh Daemon.acceptStoreSix)
    WellFormedCalls .nftables cs ∧
      Daemon.WritesWatched (Oracle.rejecting fun _ => none) .nftables Daemon.noNameservers
        httpsRun (Daemon.boot Kernel.fresh Daemon.acceptStoreSix) ∧
      d.pc = .loop ∧ d.queue = [] ∧ '/' ∉ key "10.137.0.5" ∧ key "10.137.0.5" ∉ d.writing ∧
      (d.db.multiread (targetDir (key "10.137.0.5"))).items =
        (ruleEntries [httpsRule] (key "drop")).map (fun kv => (targetDir (key "10.137.0.5") ++ kv.1, kv.2)) ∧
      (∀ r ∈ [httpsRule], StorableRule r) ∧ [httpsRule].length ≤ 10000 ∧
      Backend.nftables.prepare_rules Daemon.noNameservers
          (Backend.nftables.chain_for_addr (key "10.137.0.5"))
          ([httpsRule] ++ [Dict.single "action".toList (key "drop")]) (familyOf (key "10.137.0.5")) =
        .ok httpsProgram ∧
      (fun _ => none : Str → Option Str) httpsProgram = none ∧
      Installed .nftables d.sys (key "10.137.0.5")
        (Backend.nftables.chainRules (Backend.nftables.chain_for_addr (key "10.137.0.5"))
          httpsProgram) := by
  intro cs d
  have hw : WellFormedCalls .nftables cs := by decide
  have hc : Daemon.WritesWatched (Oracle.rejecting fun _ => none) .nftables Daemon.noNameservers
      httpsRun (Daemon.boot Kernel.fresh Daemon.acceptStoreSix) := by decide
  have hpc : d.pc = .loop := by decide
  have hq : d.queue = [] := by decide
  have ha : '/' ∉ key "10.137.0.5" := by decide
  have hwr : key "10.137.0.5" ∉ d.writing := by decide
  have hitems : (d.db.multiread (targetDir (key "10.137.0.5"))).items =
      (ruleEntries [httpsRule] (key "drop")).map (fun kv => (targetDir (key "10.137.0.5") ++ kv.1, kv.2)) := by
    decide
  have hr : ∀ r ∈ [httpsRule], StorableRule r := by decide
  have hlen : [httpsRule].length ≤ 10000 := by decide
  have hP : Backend.nftables.prepare_rules Daemon.noNameservers
      (Backend.nftables.chain_for_addr (key "10.137.0.5"))
      ([httpsRule] ++ [Dict.single "action".toList (key "drop")]) (familyOf (key "10.137.0.5")) =
        .ok httpsProgram := by decide
  refine ⟨hw, hc, hpc, hq, ha, hwr, hitems, hr, hlen, hP, rfl, waiting_chain_holds_last_commit
    ⟨rfl, fun _ _ _ => rfl, fun _ _ _ _ => rfl⟩ (Daemon.noNameservers_resolvesOnly _) Daemon.noNameservers_dns
    Kernel.fresh (fun _ => rfl) _ httpsRun hw hc hpc hq _ _ _ _ ha hwr hitems hr hlen hP rfl⟩

end QubesFirewall
